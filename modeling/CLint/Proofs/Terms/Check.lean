import CLint.Proofs.Terms.Stripping
import Mathlib.Data.List.Forall2

namespace CLint

open Rule

-- A condition as it is put together from terms by logical operators and parentheses.
inductive Condition
  | leaf (tokens : List Token)
  | joined (left : Condition) (operator : Token) (right : Condition)
  | parens (opening : Token) (inner : Condition) (closing : Token)

namespace Condition

-- A term is some code in which the brackets match, without logical operators and without what
-- would end an expression.
def isTerm (ts : List Token) : Bool :=
  !ts.isEmpty && Code.isNested (Token.lexemes ts) &&
    ts.all fun t => !t.lexeme.breaksOff && !isLogical t

def isProper : Condition → Bool
  | leaf ts => isTerm ts
  | joined l op r => isLogical op && l.isProper && r.isProper
  | parens o c cl => o.lexeme.isMark .lparen && cl.lexeme.isMark .rparen && c.isProper

def tokens : Condition → List Token
  | leaf ts => ts
  | joined l op r => l.tokens ++ op :: r.tokens
  | parens o c cl => o :: c.tokens ++ [cl]

def leaves : Condition → List (List Token)
  | leaf ts => [ts]
  | joined l _ r => l.leaves ++ r.leaves
  | parens _ c _ => c.leaves

end Condition

namespace Rule

-- The span of some tokens.
def spanOf (ts : List Token) : Span :=
  (ts.headD default).span.cover (ts.getLastD default).span

-- What is said about a term that is no comparison.
def explicitRemark (o : Outline) (term : List Token) : Remark :=
  let span := spanOf (core term)
  let text := o.slice span
  .onSpan span s!"condition '{text}' must be an explicit comparison"
    "Compare against a constant, e.g. 'TRUE == flag'."

def isExplicit (m : Remark) : Bool :=
  "must be an explicit comparison".toList.isSuffixOf m.message.toList

variable {ts as bs os cs : List Token} {op t : Token} {o : Outline}

theorem exists_logicalParts (ts : List Token) : ∃ p ps, logicalParts ts = p :: ps := by
  cases ts with
  | nil => exact ⟨_, _, rfl⟩
  | cons t ts =>
    rw [logicalParts]
    split
    · exact ⟨_, _, rfl⟩
    · split <;> exact ⟨_, _, rfl⟩

theorem logicalParts_append (h : isLogical op) (as bs : List Token) :
    logicalParts (as ++ op :: bs) = logicalParts as ++ logicalParts bs := by
  induction as with
  | nil => simp [logicalParts, h]
  | cons t as ih =>
    obtain ⟨p, ps, hp⟩ := exists_logicalParts as
    rw [List.cons_append, logicalParts, logicalParts, ih, hp]
    split <;> rfl

theorem logicalParts_plain (h : ∀ t ∈ ts, isLogical t = false) : logicalParts ts = [ts] := by
  induction ts with
  | nil => rfl
  | cons t ts ih =>
    obtain ⟨ht, hts⟩ := List.forall_mem_cons.mp h
    simp [logicalParts, ht, ih hts]

theorem core_ne_nil (h : ts ≠ []) : core ts ≠ [] := by
  fun_induction core ts with
  | case1 ts he ih =>
    obtain ⟨o, xs, c, rfl, -, -, hne, -⟩ := isEnclosed_iff.mp he
    exact ih (by simpa using hne)
  | case2 => exact h

-- There is no comparison in the parentheses themselves.
theorem any_core (ts : List Token) :
    (core ts).any isComparisonToken = ts.any isComparisonToken := by
  fun_induction core ts with
  | case1 ts he ih =>
    obtain ⟨o, xs, c, rfl, ho, hc, -, -⟩ := isEnclosed_iff.mp he
    have hopen : isComparisonToken o = false := by
      rw [isComparisonToken, ho]
      rfl
    have hclose : isComparisonToken c = false := by
      rw [isComparisonToken, hc]
      rfl
    rw [ih]
    simp [hopen, hclose]
  | case2 => rfl

theorem termRemark_core (h : ts ≠ []) : termRemark o (core ts) =
    if ts.any isComparisonToken then none else some (explicitRemark o ts) := by
  rw [← any_core ts]
  unfold termRemark
  cases hc : core ts with
  | nil => exact absurd hc (core_ne_nil h)
  | cons first others =>
    have hspan : first.span.cover (others.getLast?.getD first).span = spanOf (core ts) := by
      rw [hc, spanOf, List.getLastD_eq_getLast?, List.getLast?_cons]
      rfl
    simp only [hspan]
    rfl

end Rule

namespace Condition

variable {ts os cs : List Token} {c : Condition} {o : Outline}

theorem isTerm_iff : isTerm ts ↔ ts ≠ [] ∧ Code.isNested (Token.lexemes ts) ∧
    ∀ t ∈ ts, t.lexeme.breaksOff = false ∧ isLogical t = false := by
  simp [isTerm, and_assoc]

-- Is a condition put together by logical operators and parentheses, with none of these operators in
-- its leaves and something in all parentheses?
def isDivided : Condition → Bool
  | leaf ts => ts.all (!isLogical ·)
  | joined l op r => isLogical op && l.isDivided && r.isDivided
  | parens o c cl =>
    o.lexeme.isMark .lparen && cl.lexeme.isMark .rparen && !c.tokens.isEmpty && c.isDivided

-- A part of a condition between logical operators is a leaf, with parentheses that are opened
-- before it and closed behind it, but not always by one another.
structure Among (leaf part : List Token) : Prop where
  exists_parens : ∃ os cs, part = os ++ leaf ++ cs ∧ AreOpening os ∧ AreClosing cs ∧
    (leaf = [] → os = [] ∨ cs = [])

theorem forall₂_among (hc : c.isDivided) (ho : AreOpening os) (hcl : AreClosing cs)
    (h : c.tokens = [] → os = [] ∨ cs = []) :
    List.Forall₂ Among c.leaves (logicalParts (os ++ c.tokens ++ cs)) := by
  induction c generalizing os cs with
  | leaf ts =>
    have hplain : ∀ t ∈ os ++ ts ++ cs, isLogical t = false := by
      intro t ht
      rcases List.mem_append.mp ht with ht | ht
      · rcases List.mem_append.mp ht with ht | ht
        · simp [isLogical, ho t ht, Lexeme.isMark]
        · simpa using List.all_eq_true.mp hc t ht
      · simp [isLogical, hcl t ht, Lexeme.isMark]
    rw [tokens, logicalParts_plain hplain]
    exact .cons ⟨os, cs, rfl, ho, hcl, h⟩ .nil
  | joined l op r ihl ihr =>
    rw [isDivided, Bool.and_eq_true, Bool.and_eq_true] at hc
    obtain ⟨⟨hop, hl⟩, hr⟩ := hc
    have hsplit : os ++ (joined l op r).tokens ++ cs =
        (os ++ l.tokens ++ []) ++ op :: ([] ++ r.tokens ++ cs) := by simp [tokens]
    rw [hsplit, logicalParts_append hop]
    exact List.rel_append (ihl hl ho (List.forall_mem_nil _) fun _ => .inr rfl)
      (ihr hr (List.forall_mem_nil _) hcl fun _ => .inl rfl)
  | parens o c cl ih =>
    simp only [isDivided, Bool.and_eq_true, Bool.not_eq_true', List.isEmpty_eq_false_iff] at hc
    obtain ⟨⟨⟨hopen, hclose⟩, hne⟩, hc⟩ := hc
    have hsplit : os ++ (parens o c cl).tokens ++ cs =
        (os ++ [o]) ++ c.tokens ++ (cl :: cs) := by simp [tokens]
    rw [hsplit]
    refine ih hc (List.forall_mem_append.mpr ⟨ho, ?_⟩) (List.forall_mem_cons.mpr ⟨?_, hcl⟩)
      fun hnil => absurd hnil hne
    · exact List.forall_mem_singleton.mpr (of_decide_eq_true hopen)
    · exact of_decide_eq_true hclose

theorem tokens_ne_nil (hc : c.isProper) : c.tokens ≠ [] := by
  cases c with
  | leaf ts => exact (isTerm_iff.mp hc).1
  | joined => simp [tokens]
  | parens => simp [tokens]

theorem isDivided_of_isProper (hc : c.isProper) : c.isDivided := by
  induction c with
  | leaf ts =>
    exact List.all_eq_true.mpr fun t ht => by simp [((isTerm_iff.mp hc).2.2 t ht).2]
  | joined l op r ihl ihr =>
    simp only [isProper, Bool.and_eq_true] at hc
    simp [isDivided, hc.1.1, ihl hc.1.2, ihr hc.2]
  | parens o c cl ih =>
    simp only [isProper, Bool.and_eq_true] at hc
    simp [isDivided, hc.1.1, hc.1.2, ih hc.2, tokens_ne_nil hc.2]

theorem isTerm_of_mem_leaves {leaf : List Token} (hc : c.isProper) (h : leaf ∈ c.leaves) :
    isTerm leaf := by
  induction c with
  | leaf ts => exact List.mem_singleton.mp h ▸ hc
  | joined l op r ihl ihr =>
    simp only [isProper, Bool.and_eq_true] at hc
    exact (List.mem_append.mp h).elim (ihl hc.1.2) (ihr hc.2)
  | parens o c cl ih =>
    simp only [isProper, Bool.and_eq_true] at hc
    exact ih hc.2 h

-- A part of a condition whose leaves are terms.
structure Surrounds (leaf part : List Token) : Prop where
  isTerm : isTerm leaf
  exists_parens : ∃ os cs, part = os ++ leaf ++ cs ∧ AreOpening os ∧ AreClosing cs

theorem forall₂_logicalParts (hc : c.isProper) (ho : AreOpening os) (hcl : AreClosing cs) :
    List.Forall₂ Surrounds c.leaves (logicalParts (os ++ c.tokens ++ cs)) := by
  have hparts := forall₂_among (isDivided_of_isProper hc) ho hcl
    fun hnil => absurd hnil (tokens_ne_nil hc)
  have hterms : ∀ leaf ∈ c.leaves, isTerm leaf := fun _ => isTerm_of_mem_leaves hc
  refine ((List.forall₂_and_left _ _).mpr ⟨hterms, hparts⟩).imp ?_
  rintro leaf part ⟨hterm, os, cs, rfl, ho, hcs, -⟩
  exact ⟨hterm, os, cs, rfl, ho, hcs⟩

-- The parentheses around a part that do not belong to its term are taken off.
theorem Surrounds.unwrap_eq {leaf part : List Token} (h : Surrounds leaf part) :
    unwrap (dropClosing (dropOpening part)) = core leaf := by
  obtain ⟨hterm, os, cs, rfl, ho, hc⟩ := h
  obtain ⟨hne, hn, -⟩ := isTerm_iff.mp hterm
  obtain ⟨os', cs', hstripped, ho', hc', hlength⟩ := exists_stripped ho hc (balance_nested hn)
  rw [hstripped, unwrap_append ho' hc' hlength hne hn, unwrap_eq_core hn]

-- Each term of a condition is found once, without the parentheses around it.
theorem terms_tokens (hc : c.isProper) : terms c.tokens = c.leaves.map core := by
  have hparts := forall₂_logicalParts hc (List.forall_mem_nil _) (List.forall_mem_nil _)
  rw [List.nil_append, List.append_nil] at hparts
  have hmap : (logicalParts c.tokens).map (fun p => unwrap (dropClosing (dropOpening p))) =
      c.leaves.map core := by
    rw [← List.forall₂_eq_eq_eq, List.forall₂_map_left_iff, List.forall₂_map_right_iff]
    exact hparts.flip.imp fun part leaf h => h.unwrap_eq
  rw [terms, hmap, List.filter_eq_self]
  intro ts hts
  obtain ⟨leaf, hleaf, rfl⟩ := List.mem_map.mp hts
  simpa using core_ne_nil (isTerm_iff.mp (isTerm_of_mem_leaves hc hleaf)).1

theorem filterMap_termRemark (hc : c.isProper) (o : Outline) :
    (terms c.tokens).filterMap (termRemark o) =
      (c.leaves.filter (!·.any isComparisonToken)).map (explicitRemark o) := by
  rw [terms_tokens hc, List.filterMap_map, ← List.filterMap_eq_map, List.filterMap_filter]
  refine List.filterMap_congr fun leaf hleaf => ?_
  rw [Function.comp, termRemark_core (isTerm_iff.mp (isTerm_of_mem_leaves hc hleaf)).1]
  cases leaf.any isComparisonToken <;> rfl

end Condition

namespace Rule

variable {o : Outline} {c : Comparison Span} {m : Remark}

theorem isExplicit_explicitRemark (o : Outline) (ts : List Token) :
    isExplicit (explicitRemark o ts) := by
  rw [isExplicit, List.isSuffixOf_iff_suffix]
  simp only [explicitRemark, Remark.onSpan, toString, String.toList_append]
  exact (List.suffix_append (String.toList "' ") _).trans (List.suffix_append ..)

-- The remarks on negated operands end in other words.
theorem isExplicit_negationRemark {operand : Operand Span}
    (h : negationRemark o c operand = some m) : isExplicit m = false := by
  unfold negationRemark at h
  dsimp only at h
  split at h <;> cases h
  rw [isExplicit, ← Bool.not_eq_true, List.isSuffixOf_iff_suffix]
  intro hexplicit
  simp only [Remark.onSpan, toString, String.toList_append] at hexplicit
  have hsuffix := List.suffix_of_suffix_length_le (List.suffix_append ..) hexplicit (by decide)
  exact absurd hsuffix (by decide)

theorem booleanRemarks_of_tested {b : ControlBlock Span}
    (hb : b.kind ∈ [.ifBlock, .elseIf, .whileLoop, .doLoop]) (hne : conditionTokens o b ≠ [])
    (hconstant : ∀ t, conditionTokens o b = [t] → isConstantToken t = false) :
    booleanRemarks o b = (terms (conditionTokens o b)).filterMap (termRemark o) ++
      b.comparisons.flatMap fun c =>
        (negationRemark o c c.left).toList ++ (negationRemark o c c.right).toList := by
  have htested : isTested b.kind := by
    simp only [List.mem_cons, List.not_mem_nil, or_false] at hb
    rcases hb with hb | hb | hb | hb <;> rw [hb] <;> rfl
  have hrun : b.conditionRun.isNone = false := by
    cases h : b.conditionRun with
    | none => simp [conditionTokens, h] at hne
    | some r => rfl
  have hsingle : (decide ((conditionTokens o b).length = 1) &&
      (conditionTokens o b).all isConstantToken) = false := by
    match hts : conditionTokens o b with
    | [] => rfl
    | [t] => simp [hconstant t hts]
    | _ :: _ :: _ => simp
  rw [booleanRemarks]
  simp [htested, hrun, hsingle]

-- In a condition that is not just a constant, each term without a comparison is reported once, at
-- its place without the parentheses that enclose it, and nothing else of the kind is.
theorem filter_isExplicit_booleanRemarks (settings : RuleSettings) (o : Outline) :
    explicitBooleanTest.check settings o = .ok (o.blocks.flatMap (booleanRemarks o)) ∧
    ∀ b ∈ o.blocks, b.kind ∈ [.ifBlock, .elseIf, .whileLoop, .doLoop] →
    ∀ c : Condition, c.isProper → conditionTokens o b = c.tokens →
    (∀ t, conditionTokens o b = [t] → isConstantToken t = false) →
      (booleanRemarks o b).filter isExplicit =
        (c.leaves.filter (!·.any isComparisonToken)).map (explicitRemark o) := by
  refine ⟨rfl, fun b _ hb c hc htokens hconstant => ?_⟩
  have hne : conditionTokens o b ≠ [] := htokens ▸ c.tokens_ne_nil hc
  have hnegated : (b.comparisons.flatMap fun c =>
      (negationRemark o c c.left).toList ++ (negationRemark o c c.right).toList).filter
        isExplicit = [] := by
    refine List.filter_eq_nil_iff.mpr fun m hm => ?_
    obtain ⟨d, -, hm⟩ := List.mem_flatMap.mp hm
    rcases List.mem_append.mp hm with hm | hm
    · simp [isExplicit_negationRemark (Option.mem_toList.mp hm)]
    · simp [isExplicit_negationRemark (Option.mem_toList.mp hm)]
  rw [booleanRemarks_of_tested hb hne hconstant, htokens, c.filterMap_termRemark hc,
    List.filter_append, hnegated, List.append_nil, List.filter_eq_self]
  intro m hm
  obtain ⟨leaf, -, rfl⟩ := List.mem_map.mp hm
  exact isExplicit_explicitRemark o leaf

-- Terms that begin or end with parentheses, in groups that do so as well.
theorem filter_isExplicit_booleanRemarks_groups :
    let o := Outline.ofSource (.ofText "a.c"
      "void f(int a)\n\x7b\nif (((a)(b) || ((c < 1) && f(d))) && (((e))))\n\x7b\ng();\n\x7d\n\x7d\n")
    ∃ b ∈ o.blocks, b.kind ∈ [.ifBlock, .elseIf, .whileLoop, .doLoop] ∧
      ∃ c : Condition, c.isProper ∧ conditionTokens o b = c.tokens ∧ c.leaves.length = 4 ∧
        (∀ t, conditionTokens o b = [t] → isConstantToken t = false) ∧
        (booleanRemarks o b).filter isExplicit =
          (c.leaves.filter (!·.any isComparisonToken)).map (explicitRemark o) := by
  intro o
  let p := Parts.ofTokens o.source.tokens
  let block := p.blocks.get ⟨0, by decide +kernel⟩
  let b := block.map (Outline.locate p.tokens)
  have hb : b ∈ o.blocks := List.mem_mergeSort.mpr (List.mem_map_of_mem (List.get_mem ..))
  let ts := conditionTokens o b
  let t (n : Nat) : Token := ts.getD n default
  let word (first stop : Nat) : Condition := .leaf (ts.extract first stop)
  let c : Condition :=
    .joined
      (.parens (t 0)
        (.joined (word 1 7) (t 7)
          (.parens (t 8)
            (.joined (.parens (t 9) (word 10 13) (t 13)) (t 14) (word 15 19)) (t 19))) (t 20))
      (t 21)
      (.parens (t 22) (word 23 28) (t 28))
  have hfacts : b.kind ∈ [.ifBlock, .elseIf, .whileLoop, .doLoop] ∧ c.isProper ∧
      conditionTokens o b = c.tokens ∧ c.leaves.length = 4 ∧
      (conditionTokens o b).length ≠ 1 := by
    decide +kernel
  obtain ⟨hkind, hc, htokens, hleaves, hlength⟩ := hfacts
  have hconstant : ∀ t, conditionTokens o b = [t] → isConstantToken t = false := fun t ht =>
    absurd (congrArg List.length ht) hlength
  exact ⟨b, hb, hkind, c, hc, htokens, hleaves, hconstant,
    (filter_isExplicit_booleanRemarks {} o).2 b hb hkind c hc htokens hconstant⟩

end Rule

end CLint
