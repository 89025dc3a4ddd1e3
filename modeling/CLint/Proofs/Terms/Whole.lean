import CLint.Proofs.Extents.Check
import CLint.Proofs.Terms.Check
import CLint.Proofs.Terms.Paired

namespace CLint

open Rule Token

namespace Condition

-- A condition is grouped if its logical operators are in no other brackets than parentheses that
-- enclose operands. An operand may be missing, but there is always something in such parentheses.
def isGrouped (c : Condition) : Bool :=
  c.isDivided && c.leaves.all isPaired

-- A whole term of a condition is one of its leaves, but for the parentheses that enclose it, and
-- properly nested.
structure IsWhole (c : Condition) (term : List Token) : Prop where
  isPaired : isPaired term
  exists_leaf : ∃ leaf ∈ c.leaves, ∃ os cs, leaf = os ++ term ++ cs ∧
    AreOpening os ∧ AreClosing cs ∧ os.length = cs.length

variable {ts xs os cs leaf part term : List Token} {c : Condition} {o cl t : Token} {n : Nat}

theorem isGrouped_leaf : (Condition.leaf ts).isGrouped ↔
    isPaired ts ∧ ∀ t ∈ ts, isLogical t = false := by
  simp [isGrouped, isDivided, leaves, and_comm]

theorem isGrouped_joined {l r : Condition} {op : Token} : (joined l op r).isGrouped ↔
    isLogical op ∧ l.isGrouped ∧ r.isGrouped := by
  simp only [isGrouped, isDivided, leaves, List.all_append, Bool.and_eq_true]
  grind

theorem isGrouped_parens : (parens o c cl).isGrouped ↔ o.lexeme = .punct .lparen ∧
    cl.lexeme = .punct .rparen ∧ c.tokens ≠ [] ∧ c.isGrouped := by
  simp [isGrouped, isDivided, leaves, Lexeme.isMark, and_assoc]

theorem Among.stripped_eq (h : Among leaf part) (hp : isPaired leaf) :
    stripped part = unwrap leaf := by
  obtain ⟨os, cs, rfl, ho, hc, hnil⟩ := h
  by_cases hleaf : leaf = []
  · subst hleaf
    rw [List.append_nil, stripped_parens ho hc (hnil rfl), unwrap]
    rfl
  · exact stripped_append ho hc hleaf hp

-- The terms of a grouped condition are its leaves.
theorem terms_grouped (hc : c.isGrouped) :
    terms c.tokens = (c.leaves.map unwrap).filter (!·.isEmpty) := by
  obtain ⟨hdivided, hpaired⟩ := Bool.and_eq_true_iff.mp hc
  have hparts := forall₂_among hdivided (List.forall_mem_nil _) (List.forall_mem_nil _)
    fun _ => .inl rfl
  rw [List.nil_append, List.append_nil] at hparts
  have hall := (List.forall₂_and_left _ _).mpr ⟨List.all_eq_true.mp hpaired, hparts⟩
  have hmap : (logicalParts c.tokens).map stripped = c.leaves.map unwrap := by
    rw [← List.forall₂_eq_eq_eq, List.forall₂_map_left_iff, List.forall₂_map_right_iff]
    exact hall.flip.imp fun part leaf h => h.2.stripped_eq h.1
  rw [← hmap]
  rfl

theorem isWhole_of_mem_terms (hc : c.isGrouped) (h : term ∈ terms c.tokens) : c.IsWhole term := by
  rw [terms_grouped hc] at h
  obtain ⟨leaf, hleaf, rfl⟩ := List.mem_map.mp (List.mem_filter.mp h).1
  have hpaired := List.all_eq_true.mp (Bool.and_eq_true_iff.mp hc).2 leaf hleaf
  exact ⟨isPaired_unwrap hpaired, leaf, hleaf, exists_unwrap leaf⟩

theorem nestingFlat_of_isLogical (h : isLogical t) : t.lexeme.nestingFlat = 0 := by
  rw [isLogical, Bool.or_eq_true] at h
  rcases h with h | h <;>
  · rw [of_decide_eq_true h]
    rfl

-- All the brackets that are opened in a grouped condition are closed in it.
theorem rise_grouped (hc : c.isGrouped) : Code.rise (lexemes c.tokens) = 0 := by
  induction c with
  | leaf ts => exact rise_paired (isGrouped_leaf.mp hc).1
  | joined l op r ihl ihr =>
    obtain ⟨hop, hl, hr⟩ := isGrouped_joined.mp hc
    simp [tokens, ihl hl, ihr hr, nestingFlat_of_isLogical hop]
  | parens o c cl ih =>
    obtain ⟨ho, hcl, -, hc⟩ := isGrouped_parens.mp hc
    simp [tokens, ih hc, ho, hcl, Lexeme.nestingFlat, Lexeme.isOpener, Lexeme.isCloser]

-- Parentheses with nothing in them are a leaf.
def enclose (o : Token) (c : Condition) (cl : Token) : Condition :=
  if c.tokens.isEmpty then .leaf [o, cl] else parens o c cl

theorem tokens_enclose (o : Token) (c : Condition) (cl : Token) :
    (enclose o c cl).tokens = o :: c.tokens ++ [cl] := by
  unfold enclose
  split
  · rename_i hnil
    rw [tokens, List.isEmpty_iff.mp hnil]
    rfl
  · rfl

theorem isGrouped_enclose (ho : o.lexeme = .punct .lparen) (hcl : cl.lexeme = .punct .rparen)
    (hc : c.isGrouped) : (enclose o c cl).isGrouped := by
  unfold enclose
  split
  · refine isGrouped_leaf.mpr ⟨isPaired_enclosed ho hcl (show isPaired [] from rfl), fun t ht => ?_⟩
    rcases List.mem_pair.mp ht with rfl | rfl
    · simp [isLogical, ho, Lexeme.isMark]
    · simp [isLogical, hcl, Lexeme.isMark]
  · rename_i hne
    exact isGrouped_parens.mpr ⟨ho, hcl, by simpa using hne, hc⟩

-- How a grouped condition may begin before one of its operands, with so many parentheses open.
inductive Begins : Nat → List Token → Prop
  | start : Begins 0 []
  | opened {n : Nat} {xs : List Token} {o : Token} (h : Begins n xs)
      (ho : o.lexeme = .punct .lparen) : Begins (n + 1) (xs ++ [o])
  | operand {n : Nat} {xs : List Token} {c : Condition} {op : Token} (h : Begins n xs)
      (hc : c.isGrouped) (hop : isLogical op) : Begins n (xs ++ (c.tokens ++ [op]))

namespace Begins

theorem rise_eq (h : Begins n xs) : Code.rise (lexemes xs) = n := by
  induction h with
  | start => rfl
  | opened _ ho ih => simp [ih, ho, Lexeme.nestingFlat, Lexeme.isOpener]
  | operand _ hc hop ih => simp [ih, rise_grouped hc, nestingFlat_of_isLogical hop]

theorem append_opening (h : Begins n xs) (ho : AreOpening os) :
    Begins (n + os.length) (xs ++ os) := by
  induction os generalizing n xs with
  | nil => simpa using h
  | cons o os ih =>
    obtain ⟨ho, hos⟩ := List.forall_mem_cons.mp ho
    have hall := ih (h.opened ho) hos
    rw [List.append_assoc] at hall
    rw [List.length_cons, Nat.add_comm os.length, ← Nat.add_assoc]
    exact hall

-- A closing parenthesis behind an operand ends what the last open one encloses. By induction to the
-- front, over the operands that are enclosed together with this one.
theorem close (h : Begins (n + 1) xs) (hc : c.isGrouped) (hcl : cl.lexeme = .punct .rparen) :
    ∃ (ys : List Token) (c' : Condition), xs ++ (c.tokens ++ [cl]) = ys ++ c'.tokens ∧
      Begins n ys ∧ c'.isGrouped := by
  generalize hn : n + 1 = m at h
  induction h generalizing c with
  | start => cases hn
  | @opened _ xs o h ho =>
    cases hn
    exact ⟨xs, enclose o c cl, by simp [tokens_enclose], h, isGrouped_enclose ho hcl hc⟩
  | @operand _ xs c₀ op _ hc₀ hop ih =>
    obtain ⟨ys, c', hsplit, hys, hc'⟩ := ih (isGrouped_joined.mpr ⟨hop, hc₀, hc⟩) hn
    exact ⟨ys, c', by simpa [tokens] using hsplit, hys, hc'⟩

theorem closeAll (h : Begins (n + cs.length) xs) (hc : c.isGrouped) (hcs : AreClosing cs) :
    ∃ (ys : List Token) (c' : Condition), xs ++ (c.tokens ++ cs) = ys ++ c'.tokens ∧
      Begins n ys ∧ c'.isGrouped := by
  induction cs generalizing xs c with
  | nil => exact ⟨xs, c, by simp, h, hc⟩
  | cons cl cs ih =>
    obtain ⟨hcl, hcs⟩ := List.forall_mem_cons.mp hcs
    obtain ⟨ys, c', hsplit, hys, hc'⟩ := close (n := n + cs.length) h hc hcl
    obtain ⟨zs, c'', hsplit', hzs, hc''⟩ := ih hys hc' hcs
    refine ⟨zs, c'', ?_, hzs, hc''⟩
    rw [← hsplit', ← List.append_assoc ys, ← hsplit]
    simp

-- Where nothing is open, an operand ends the condition.
theorem finish (h : Begins n xs) (hn : n = 0) (hc : c.isGrouped) :
    ∃ c' : Condition, c'.isGrouped ∧ c'.tokens = xs ++ c.tokens := by
  induction h generalizing c with
  | start => exact ⟨c, hc, rfl⟩
  | opened => cases hn
  | operand _ hc₀ hop ih =>
    obtain ⟨c', hc', htokens⟩ := ih hn (isGrouped_joined.mpr ⟨hop, hc₀, hc⟩)
    exact ⟨c', hc', by simpa [tokens] using htokens⟩

end Begins

end Condition

namespace Rule

open Condition

variable {p ts xs : List Token} {ps : List (List Token)} {n : Nat}

theorem exists_of_logicalParts (h : logicalParts ts = p :: ps) : (∀ t ∈ p, isLogical t = false) ∧
    (ts = p ∨ ∃ op rest, isLogical op ∧ ts = p ++ op :: rest ∧ logicalParts rest = ps) := by
  induction ts generalizing p with
  | nil =>
    cases h
    exact ⟨List.forall_mem_nil _, .inl rfl⟩
  | cons t ts ih =>
    rw [logicalParts] at h
    cases ht : isLogical t with
    | true =>
      rw [ht, if_pos rfl] at h
      cases h
      exact ⟨List.forall_mem_nil _, .inr ⟨t, ts, ht, rfl, rfl⟩⟩
    | false =>
      obtain ⟨q, qs, hq⟩ := exists_logicalParts ts
      rw [ht, if_neg Bool.false_ne_true, hq] at h
      cases h
      obtain ⟨hplain, hrest⟩ := ih hq
      refine ⟨List.forall_mem_cons.mpr ⟨ht, hplain⟩, ?_⟩
      rcases hrest with rfl | ⟨op, rest, hop, rfl, hrest⟩
      · exact .inl rfl
      · exact .inr ⟨op, rest, hop, rfl, hrest⟩

-- Of a part that gives a properly nested term, the parentheses before the term open groups, and
-- those behind it close groups that were opened before.
theorem exists_begins_of_part (h : Begins n xs) (hplain : ∀ t ∈ p, isLogical t = false)
    (hp : isPaired (stripped p)) (hrise : 0 ≤ Code.rise (lexemes (xs ++ p))) :
    ∃ (m : Nat) (ys : List Token) (c : Condition), xs ++ p = ys ++ c.tokens ∧
      Begins m ys ∧ c.isGrouped := by
  obtain ⟨os, cs, hsplit, ho, hcs⟩ := exists_parens p
  have hbegins := h.append_opening ho
  have hleaf : (Condition.leaf (stripped p)).isGrouped :=
    isGrouped_leaf.mpr ⟨hp, fun t ht => hplain t (hsplit ▸ by simp [ht])⟩
  have hle : cs.length ≤ n + os.length := by
    have hopened := hbegins.rise_eq
    rw [hsplit] at hrise
    simp only [lexemes_append, Code.rise_append, rise_paired hp, rise_closing hcs] at hrise hopened
    omega
  have hdepth : n + os.length = n + os.length - cs.length + cs.length := by omega
  obtain ⟨ys, c, hclosed, hys, hc⟩ := Begins.closeAll (hdepth ▸ hbegins) hleaf hcs
  refine ⟨_, ys, c, ?_, hys, hc⟩
  rw [← hclosed]
  conv => lhs; rw [hsplit]
  simp [tokens]

-- If all parts of a condition give properly nested terms, the condition is put together from them.
-- By induction over the parts, with the condition read so far.
theorem exists_grouped_of_begins (h : Begins n xs)
    (hm : Code.Matched Lexeme.isOpener Lexeme.isCloser (fun _ => True) (lexemes (xs ++ ts)))
    (hp : ∀ p ∈ logicalParts ts, isPaired (stripped p)) :
    ∃ c : Condition, c.isGrouped ∧ c.tokens = xs ++ ts := by
  generalize hparts : logicalParts ts = ps at hp
  induction ps generalizing n xs ts with
  | nil =>
    obtain ⟨q, qs, hq⟩ := exists_logicalParts ts
    exact absurd (hparts.symm.trans hq) (List.cons_ne_nil _ _).symm
  | cons p ps ih =>
    obtain ⟨hp, hps⟩ := List.forall_mem_cons.mp hp
    obtain ⟨hplain, hrest⟩ := exists_of_logicalParts hparts
    rcases hrest with rfl | ⟨op, rest, hop, rfl, hrest⟩
    · have htotal := hm.rise_eq
      obtain ⟨m, ys, c, hsplit, hys, hc⟩ :=
        exists_begins_of_part h hplain hp (Int.le_of_eq htotal.symm)
      rw [hsplit, lexemes_append, Code.rise_append, hys.rise_eq, rise_grouped hc] at htotal
      rw [hsplit]
      exact hys.finish (by omega) hc
    · have hbefore : lexemes (xs ++ (p ++ op :: rest)) =
          lexemes (xs ++ p) ++ lexemes (op :: rest) := by simp
      obtain ⟨m, ys, c, hsplit, hys, hc⟩ :=
        exists_begins_of_part h hplain hp (hbefore ▸ hm).rise_nonneg
      have hwhole : xs ++ (p ++ op :: rest) = ys ++ (c.tokens ++ [op]) ++ rest := by
        rw [← List.append_assoc, hsplit]
        simp
      rw [hwhole] at hm ⊢
      exact ih (hys.operand hc hop) hm hrest hps

-- The terms of a condition are properly nested just if its logical operators are between them.
theorem forall_isPaired_iff
    (hm : Code.Matched Lexeme.isOpener Lexeme.isCloser (fun _ => True) (lexemes ts)) :
    (∀ term ∈ terms ts, isPaired term) ↔ ∃ c : Condition, c.isGrouped ∧ c.tokens = ts := by
  constructor
  · intro h
    refine exists_grouped_of_begins .start hm fun p hp => ?_
    by_cases hnil : stripped p = []
    · rw [hnil]
      rfl
    · exact h _ (List.mem_filter.mpr ⟨List.mem_map_of_mem hp, by simpa using hnil⟩)
  · rintro ⟨c, hc, rfl⟩ term hterm
    exact (isWhole_of_mem_terms hc hterm).isPaired

variable {o : Outline} {b : ControlBlock Span} {m : Remark} {path text : String}

-- Only terms are said to need an explicit comparison.
theorem exists_term_of_isExplicit (hm : m ∈ booleanRemarks o b) (h : isExplicit m) :
    ∃ term ∈ terms (conditionTokens o b), term.any isComparisonToken = false ∧
      m = .onSpan (spanOf term) m.message m.suggestion := by
  unfold booleanRemarks at hm
  dsimp only at hm
  split at hm
  · cases hm
  · rcases List.mem_append.mp hm with hm | hm
    · obtain ⟨term, hterm, hremark⟩ := List.mem_filterMap.mp hm
      refine ⟨term, hterm, ?_⟩
      cases term with
      | nil => cases hremark
      | cons first others =>
        have hlast : (others.getLast?.getD first) = (first :: others).getLastD default := by
          rw [List.getLastD_eq_getLast?, List.getLast?_cons, Option.getD_some]
        rw [termRemark, hlast] at hremark
        split at hremark
        · cases hremark
        · rename_i hany
          cases hremark
          exact ⟨eq_false_of_ne_true hany, rfl⟩
    · obtain ⟨c, -, hm⟩ := List.mem_flatMap.mp hm
      rcases List.mem_append.mp hm with hm | hm
      · exact absurd (isExplicit_negationRemark (Option.mem_toList.mp hm) ▸ h) Bool.false_ne_true
      · exact absurd (isExplicit_negationRemark (Option.mem_toList.mp hm) ▸ h) Bool.false_ne_true

end Rule

namespace Outline

open Rule

variable {path text : String} {p : Parts} {s : Stretch} {b : ControlBlock Span}

theorem codeBetween_run (hs : s.IsPart ⟨0, p.lexemes⟩) (hne : s.lexemes ≠ []) :
    codeBetween p.tokens s.run.first (s.run.last + 1) = s.lexemes := by
  obtain ⟨front, back, hfile, hstart⟩ := hs
  dsimp only at hfile hstart
  have hlength := List.length_pos_iff.mpr hne
  have hlast : s.run.last + 1 = (front ++ s.lexemes).length := by
    simp only [Stretch.run, Stretch.last, Stretch.length, List.length_append]
    omega
  have hfirst : s.run.first = front.length := hstart.trans (Nat.zero_add _)
  rw [codeBetween_tokens, hfile, hlast, List.take_left, hfirst, List.drop_left]

-- Where nothing is missing from the file, the brackets in each condition match.
theorem matched_conditionTokens (hd : (ofSource (.ofText path text)).diagnostics = [])
    (hb : b ∈ (ofSource (.ofText path text)).blocks) :
    Code.Matched Lexeme.isOpener Lexeme.isCloser (fun _ => True)
      (Token.lexemes (conditionTokens (ofSource (.ofText path text)) b)) := by
  obtain ⟨block, hmem, rfl⟩ := mem_blocks_iff.mp hb
  unfold conditionTokens
  split
  · exact .nil
  · rename_i r hr
    obtain ⟨t, ht, head, group, parts, s, constants, hs, hcondition, hrun, -⟩ :=
      Parts.exists_condition hmem (Parts.conditionRun_eq hmem ▸ hr)
    obtain ⟨hne, rfl⟩ := Stretch.of_run? hrun
    have htidy := tidy_of_diagnostics hd
    rw [lexemes_ofSource] at htidy
    have hm := Parts.matched_condition? htidy ht hs hcondition
    rw [← codeBetween_run (Parts.isPart_condition? ht hs hcondition) hne] at hm
    exact hm

end Outline

namespace Rule

-- The reports are about whole terms wherever the logical operators of a condition are in no other
-- parentheses or brackets than those that enclose operands, and the terms that a condition is
-- divided into are not all properly nested anywhere else.
theorem isWhole_of_isExplicit (settings : RuleSettings) (path text : String) :
    let o := Outline.ofSource (.ofText path text)
    explicitBooleanTest.check settings o = .ok (o.blocks.flatMap (booleanRemarks o)) ∧
    (o.diagnostics = [] → ∀ b ∈ o.blocks,
      ((∀ term ∈ terms (conditionTokens o b), isPaired term) ↔
        ∃ c : Condition, c.isGrouped ∧ c.tokens = conditionTokens o b) ∧
      ∀ c : Condition, c.isGrouped → c.tokens = conditionTokens o b →
        ∀ m ∈ booleanRemarks o b, isExplicit m →
          ∃ term, c.IsWhole term ∧ m = .onSpan (spanOf term) m.message m.suggestion) := by
  intro o
  refine ⟨rfl, fun hd b hb => ⟨?_, fun c hc htokens m hm hexplicit => ?_⟩⟩
  · exact forall_isPaired_iff (Outline.matched_conditionTokens hd hb)
  · obtain ⟨term, hterm, -, hspan⟩ := exists_term_of_isExplicit hm hexplicit
    rw [← htokens] at hterm
    exact ⟨term, Condition.isWhole_of_mem_terms hc hterm, hspan⟩

-- Calls, an index and groups, with an operator beside a closing parenthesis on each side.
theorem isWhole_of_isExplicit_calls :
    let o := Outline.ofSource (.ofText "a.c"
      "void f(int a)\n\x7b\nif ((g(a, b[1]) || (c && d(e) == 2)) && ((h)))\ng();\n\x7d\n")
    o.diagnostics = [] ∧ ∃ b ∈ o.blocks, ∃ c : Condition, c.isGrouped ∧
      c.tokens = conditionTokens o b ∧ (∀ term ∈ terms (conditionTokens o b), isPaired term) ∧
      ((booleanRemarks o b).filter isExplicit).length = 3 ∧
      ∀ m ∈ booleanRemarks o b, isExplicit m →
        ∃ term, c.IsWhole term ∧ m = .onSpan (spanOf term) m.message m.suggestion := by
  intro o
  have hd : o.diagnostics = [] := by decide +kernel
  let p := Parts.ofTokens o.source.tokens
  let block := p.blocks.get ⟨0, by decide +kernel⟩
  let b := block.map (Outline.locate p.tokens)
  have hb : b ∈ o.blocks := Outline.mem_blocks_iff.mpr ⟨block, List.get_mem .., rfl⟩
  let ts := conditionTokens o b
  let t (n : Nat) : Token := ts.getD n default
  let word (first stop : Nat) : Condition := .leaf (ts.extract first stop)
  let c : Condition :=
    .joined
      (.parens (t 0)
        (.joined (word 1 10) (t 10)
          (.parens (t 11) (.joined (word 12 13) (t 13) (word 14 20)) (t 20))) (t 21))
      (t 22)
      (.parens (t 23) (.parens (t 24) (word 25 26) (t 26)) (t 27))
  have hfacts : c.isGrouped ∧ c.tokens = conditionTokens o b ∧
      ((booleanRemarks o b).filter isExplicit).length = 3 := by
    decide +kernel
  obtain ⟨hc, htokens, hlength⟩ := hfacts
  obtain ⟨hpaired, hwhole⟩ := (isWhole_of_isExplicit {} _ _).2 hd b hb
  exact ⟨hd, b, hb, c, hc, htokens, hpaired.mpr ⟨c, hc, htokens⟩, hlength, hwhole c hc htokens⟩

-- An operator among the arguments of a call divides the call.
theorem exists_isExplicit_not_isPaired :
    let o := Outline.ofSource (.ofText "a.c"
      "void f(int a, int b)\n\x7b\n  if (g(a && b))\n  \x7b\n    h();\n  \x7d\n\x7d\n")
    o.diagnostics = [] ∧ ∃ b ∈ o.blocks, ∃ m ∈ booleanRemarks o b, isExplicit m ∧
      m.message = "condition 'g(a' must be an explicit comparison" ∧
      ∃ term ∈ terms (conditionTokens o b),
        m = .onSpan (spanOf term) m.message m.suggestion ∧ isPaired term = false := by
  intro o
  have hd : o.diagnostics = [] := by decide +kernel
  let p := Parts.ofTokens o.source.tokens
  let block := p.blocks.get ⟨0, by decide +kernel⟩
  let b := block.map (Outline.locate p.tokens)
  have hb : b ∈ o.blocks := Outline.mem_blocks_iff.mpr ⟨block, List.get_mem .., rfl⟩
  let m := (booleanRemarks o b).get ⟨0, by decide +kernel⟩
  let term := (terms (conditionTokens o b)).get ⟨0, by decide +kernel⟩
  have hfacts : isExplicit m ∧ m.message = "condition 'g(a' must be an explicit comparison" ∧
      isPaired term = false ∧ m.line = (spanOf term).start.line ∧
      m.column = (spanOf term).start.column ∧
      m.stop = some (↑(spanOf term).stop.line, ↑(spanOf term).stop.column) := by
    decide +kernel
  obtain ⟨hexplicit, hmessage, hunpaired, hline, hcolumn, hstop⟩ := hfacts
  have hspan : m = .onSpan (spanOf term) m.message m.suggestion := by
    rw [Remark.onSpan, ← hline, ← hcolumn, ← hstop]
  exact ⟨hd, b, hb, m, List.get_mem .., hexplicit, hmessage, term, List.get_mem .., hspan,
    hunpaired⟩

end Rule
end CLint
