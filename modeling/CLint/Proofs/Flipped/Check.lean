import CLint.Proofs.Flipped.Conditions
import CLint.Proofs.Flipped.Pieces
import CLint.Proofs.Flipped.Respelled
import CLint.Rule.Control

namespace CLint

-- The lexemes of a text that are neither blanks nor comments.
def Lexer.codeOf (text : String) : List Lexeme :=
  (lexemes text.toList).filter Lexeme.isSignificant

-- An operator behind a comparison does not begin as the operands could go on.
theorem Lexeme.isApart_of_level_le {l : Lexeme} (h : l.isArithmetic) (hl : l.level ≤ 7) :
    ∀ d ∈ l.text.toList.head?, Lexer.isApart d := by
  cases l with
  | punct p =>
    cases p <;> first
      | exact absurd h (by decide)
      | exact absurd hl (by decide)
      | rintro d ⟨⟩; rfl
  | identifier name | number text => simp [level] at hl
  | _ => cases h

-- The expression that C reads in some code.
def Formula.IsOf (e : Formula) (code : List Lexeme) : Prop :=
  e.isProper ∧ e.lexemes = code

theorem Formula.IsOf.unique {e e' : Formula} {code : List Lexeme} (h : e.IsOf code)
    (h' : e'.IsOf code) : e = e' :=
  eq_of_lexemes_eq h.1 h'.1 (h.2.trans h'.2.symm)

theorem Parts.map_lexeme_tokens (p : Parts) : p.tokens.toList.map (·.lexeme) = p.lexemes := by
  rw [Parts.tokens, List.map_map]
  rfl

namespace Outline

variable {code : Array Token} {xs ts ys : List Token} {first last : Token} {s : Stretch}

-- What a span says if the part of it that another span covers is replaced.
def replaced (o : Outline) (whole part : Span) (fix : String) : String :=
  o.slice ⟨whole.start, part.start⟩ ++ fix ++ o.slice ⟨part.stop, whole.stop⟩

-- The comparison has those operands in the condition that C takes for it.
def Binds (o : Outline) (whole : Span) (c : Comparison Span) : Prop :=
  Comparison.Binds c.operator (o.source.codeIn ⟨whole.start, c.span.start⟩)
    (o.source.codeIn c.left.span) (o.source.codeIn c.right.span)
    (o.source.codeIn ⟨c.span.stop, whole.stop⟩)

theorem reaches_locate (h : code.toList = xs ++ ts ++ ys) (hs : s.start = xs.length)
    (hl : s.lexemes.length = ts.length) (hne : ts ≠ []) : (locate code s.run).Reaches ts := by
  have hget : ∀ n t, ts[n]? = some t → tokenAt code (xs.length + n) = t := by
    intro n t ht
    have hlt := (List.getElem?_eq_some_iff.mp ht).1
    rw [tokenAt, Array.getD_eq_getD_getElem?, ← Array.getElem?_toList, h, List.append_assoc,
      List.getElem?_append_right (Nat.le_add_right ..), Nat.add_sub_cancel_left,
      List.getElem?_append_left hlt, ht]
    rfl
  have hpos := List.length_pos_iff.mpr hne
  have hlast := List.getLast?_eq_some_getLast hne
  have hhead := List.head?_eq_some_head hne
  refine ⟨_, hhead, _, hlast, ?_⟩
  rw [List.head?_eq_getElem?] at hhead
  rw [List.getLast?_eq_getElem?] at hlast
  rw [locate, Stretch.run, Stretch.last, Stretch.length, hs, hl, Nat.add_sub_assoc hpos,
    hget _ _ hlast]
  exact congrArg (fun t : Token => t.span.cover _) (hget _ _ hhead)

-- The tokens of a condition with a comparison in it, and where they are.
theorem exists_tokens {p : Parts} {c : Comparison Run} {before left right after : List Lexeme}
    (hs : s.IsPart ⟨0, p.lexemes⟩) (hc : c.Stands s before left right after) :
    ∃ xs bs ls ms rs cs ys, p.tokens.toList = xs ++ (bs ++ ls ++ (ms ++ rs ++ cs)) ++ ys ∧
      (bs.map (·.lexeme) = before ∧ ls.map (·.lexeme) = left ∧
        ms.map (·.lexeme) = [.punct c.operator] ∧ rs.map (·.lexeme) = right ∧
        cs.map (·.lexeme) = after) ∧
      (locate p.tokens s.run).Reaches (bs ++ ls ++ (ms ++ rs ++ cs)) ∧
      (locate p.tokens c.left.span).Reaches ls ∧ (locate p.tokens c.right.span).Reaches rs := by
  obtain ⟨front, back, hfile, hstart⟩ := hs
  have htokens : p.tokens.toList.map (·.lexeme) =
      front ++ (before ++ left ++ ([.punct c.operator] ++ right ++ after)) ++ back := by
    dsimp only at hfile
    rw [p.map_lexeme_tokens, hfile, hc.lexemes]
    simp
  obtain ⟨_, ys, hsplit, hxs, -⟩ := List.map_eq_append_iff.mp htokens
  obtain ⟨xs, _, rfl, rfl, hts⟩ := List.map_eq_append_iff.mp hxs
  obtain ⟨_, _, rfl, hfront, hback⟩ := List.map_eq_append_iff.mp hts
  obtain ⟨bs, ls, rfl, rfl, rfl⟩ := List.map_eq_append_iff.mp hfront
  obtain ⟨_, cs, rfl, hmid, rfl⟩ := List.map_eq_append_iff.mp hback
  obtain ⟨ms, rs, rfl, hms, rfl⟩ := List.map_eq_append_iff.mp hmid
  have hleft : ls ≠ [] := fun h => hc.left_ne_nil (by rw [h, List.map_nil])
  have hright : rs ≠ [] := fun h => hc.right_ne_nil (by rw [h, List.map_nil])
  have hstart : s.start = xs.length := by simpa using hstart
  have hlength : ms.length = 1 := by simpa using congrArg List.length hms
  refine ⟨xs, bs, ls, ms, rs, cs, ys, hsplit, ⟨rfl, rfl, hms, rfl, rfl⟩, ?_, ?_, ?_⟩
  · refine reaches_locate hsplit hstart ?_ (by simp [hleft])
    simp only [hc.lexemes, List.length_append, List.length_cons, List.length_map, hlength]
    omega
  · have hsplit : p.tokens.toList = (xs ++ bs) ++ ls ++ (ms ++ rs ++ cs ++ ys) := by simp [hsplit]
    rw [hc.left_span]
    exact reaches_locate hsplit (by simp [hstart]) (by simp) hleft
  · have hsplit : p.tokens.toList = (xs ++ bs ++ ls ++ ms) ++ rs ++ (cs ++ ys) := by simp [hsplit]
    rw [hc.right_span]
    refine reaches_locate hsplit ?_ (by simp) hright
    simp only [hstart, List.length_append, List.length_map, hlength]
    omega

-- A comparison in a condition, as the tokens of the file have it. The operands are what is found
-- from its operator on.
structure IsOperation (c : Comparison Span) (bs ls ms rs cs : List Token) : Prop where
  span : c.span = ⟨c.left.span.start, c.right.span.stop⟩
  operator : Token.codeOf ms = [.punct c.operator]
  isComparison : c.operator.isComparison
  backward : Operand.backward (Token.codeOf bs ++ Token.codeOf ls).reverse =
    (Token.codeOf ls).reverse
  forward : Operand.forward (Token.codeOf rs ++ Token.codeOf cs) = Token.codeOf rs

variable {source : Source} {path text : String} {b : ControlBlock Span} {whole : Span}
  {c : Comparison Span}

theorem mem_blocks_iff : b ∈ (ofSource source).blocks ↔
    ∃ block ∈ (Parts.ofTokens source.tokens).blocks,
      block.map (locate (Parts.ofTokens source.tokens).tokens) = b :=
  List.mem_mergeSort.trans List.mem_map

theorem exists_isOperation (hb : b ∈ (ofSource (.ofText path text)).blocks)
    (hw : whole ∈ b.condition) (hc : c ∈ b.comparisons)
    (hplain : ∀ l ∈ (Source.ofText path text).codeIn whole, l.isMark .hash = false) :
    ∃ as bs ls ms rs cs zs, (Source.ofText path text).IsCut whole c.left.span c.right.span as bs ls
      ms rs cs zs ∧ IsOperation c bs ls ms rs cs := by
  obtain ⟨b, hmem, rfl⟩ := mem_blocks_iff.mp hb
  obtain ⟨r, hr, rfl⟩ := Option.mem_map.mp hw
  obtain ⟨c, hcmem, rfl⟩ := List.mem_map.mp hc
  obtain ⟨t, ht, head, group, parts, s, constants, hs, hcondition, hrun, hcomparisons⟩ :=
    Parts.exists_condition hmem hr
  obtain ⟨-, rfl⟩ := Stretch.of_run? hrun
  have hpart := Parts.isPart_condition? ht hs hcondition
  obtain ⟨before, left, right, after, hc⟩ :=
    Comparison.stands_of_mem_listOf (hcomparisons ▸ hcmem)
  obtain ⟨xs, bs, ls, ms, rs, cs, ys, hsplit, ⟨rfl, rfl, hms, rfl, rfl⟩, hwhole, hleft, hright⟩ :=
    exists_tokens hpart hc
  obtain ⟨as, bs', ls', ms', rs', cs', zs, hcut, hbs, hls, hms', hrs, hcs⟩ :=
    Source.exists_isCut hsplit hwhole hleft hright hplain
  refine ⟨as, bs', ls', ms', rs', cs', zs, hcut, ?_, ?_, hc.isComparison, ?_, ?_⟩
  · simp only [Comparison.map, hc.span]
    rfl
  · rw [hms', hms]
    rfl
  · rw [hbs, hls, hc.backward]
  · rw [hrs, hcs, hc.forward]

theorem toList_replaced {left right : Span} {as bs ls ms rs cs zs : List Token}
    (h : (Source.ofText path text).IsCut whole left right as bs ls ms rs cs zs) (op : Punct) :
    let o := ofSource (.ofText path text)
    (o.replaced whole ⟨left.start, right.stop⟩
      (o.slice right ++ " " ++ op.text ++ " " ++ o.slice left)).toList =
      (Lexer.exchanged op (bs.map (·.lexeme)) (ls.map (·.lexeme)) (rs.map (·.lexeme))
        (cs.map (·.lexeme))).flatMap (·.text.toList) := by
  intro o
  simp only [replaced, slice, o, ofSource, String.toList_append, h.front.slice, h.back.slice,
    h.left.slice, h.right.slice, Lexer.exchanged, List.flatMap_append, List.flatMap_map,
    List.append_assoc, List.flatMap_cons, List.flatMap_nil, List.append_nil]
  rfl

-- With the operands exchanged, the condition has just the code that it should.
theorem codeOf_replaced {left right : Span} {as bs ls ms rs cs zs : List Token} {op : Punct}
    {e l r : Formula}
    (hcut : (Source.ofText path text).IsCut whole left right as bs ls ms rs cs zs)
    (hop : op.isComparison) (he : e.isProper)
    (hcode : e.lexemes = Token.codeOf (bs ++ ls ++ (ms ++ rs ++ cs)))
    (hl : l.lexemes = Token.codeOf ls) (hr : r.lexemes = Token.codeOf rs)
    (hb : Comparison.Binds op (Token.codeOf bs) (Token.codeOf ls) (Token.codeOf rs)
      (Token.codeOf cs)) :
    let o := ofSource (.ofText path text)
    Lexer.codeOf (o.replaced whole ⟨left.start, right.stop⟩
      (o.slice right ++ " " ++ op.flipped.text ++ " " ++ o.slice left)) =
      Token.codeOf bs ++ Token.codeOf rs ++
        .punct op.flipped :: (Token.codeOf ls ++ Token.codeOf cs) := by
  intro o
  have hfile : Lexer.lexemes text.toList = as.map (·.lexeme) ++
      (bs.map (·.lexeme) ++ ls.map (·.lexeme) ++ (ms.map (·.lexeme) ++ rs.map (·.lexeme) ++
        cs.map (·.lexeme))) ++ zs.map (·.lexeme) := by
    rw [← Source.map_lexeme_placed .origin (Lexer.lexemes text.toList)]
    exact (congrArg _ hcut.whole.tokens).trans (by simp)
  have hwhole : (bs ++ ls ++ (ms ++ rs ++ cs)).map (·.lexeme) = bs.map (·.lexeme) ++
      ls.map (·.lexeme) ++ (ms.map (·.lexeme) ++ rs.map (·.lexeme) ++ cs.map (·.lexeme)) := by
    simp
  have hmem : ∀ l ∈ bs.map (·.lexeme) ++ ls.map (·.lexeme) ++ (ms.map (·.lexeme) ++
      rs.map (·.lexeme) ++ cs.map (·.lexeme)), l ∈ Lexer.lexemes text.toList := fun l hl => by
    rw [hfile]
    exact List.mem_append_left _ (List.mem_append_right _ hl)
  rw [Lexer.codeOf, toList_replaced hcut,
    Lexer.lexemes_exchanged (Formula.isComparison_flipped hop) hfile]
  · simp only [Lexer.exchanged, List.filter_append, ← Token.codeOf_eq_filter]
    simp [Lexeme.isSignificant, Lexeme.isTrivia, Lexeme.isComment]
  · rw [← hwhole]
    intro l hl
    cases hs : l.isSignificant with
    | false => exact .inr (l.trivia_or_comment hs)
    | true =>
      refine .inl (Formula.isArithmetic_of_mem_lexemes he ?_)
      rw [hcode, Token.codeOf_eq_filter]
      exact List.mem_filter.mpr ⟨hl, hs⟩
  · rw [← hwhole, ← hcut.trimmed.getLast?_codeOf]
    intro l hl
    have hs := Token.isSignificant_of_mem_codeOf (List.mem_of_getLast? hl)
    simp only [Lexeme.isSignificant, Bool.and_eq_true, Bool.not_eq_true'] at hs
    exact hs.1
  · intro l hl
    rw [List.getLast?_map] at hl
    obtain ⟨t, ht, rfl⟩ := Option.map_eq_some_iff.mp hl
    cases hs : t.lexeme.isSignificant with
    | false => exact (t.lexeme.trivia_or_comment hs).imp_right .inl
    | true =>
      have := hb.before _ (Token.mem_getLast?_codeOf ht hs)
      have := op.level_le
      exact .inr (.inr (by omega))
  · rw [← hcut.trimmed_left.head?_codeOf, ← hl]
    exact l.startsOperand_of_head?
  · rw [← hcut.trimmed_left.getLast?_codeOf, ← hl]
    exact l.endsOperand_of_getLast?
  · rw [← hcut.trimmed_right.head?_codeOf, ← hr]
    exact r.startsOperand_of_head?
  · rw [← hcut.trimmed_right.getLast?_codeOf, ← hr]
    exact r.endsOperand_of_getLast?
  · intro l hl
    rw [List.head?_map] at hl
    obtain ⟨t, ht, rfl⟩ := Option.map_eq_some_iff.mp hl
    cases hs : t.lexeme.isSignificant with
    | false =>
      refine Lexer.isApart_of_mem_lexemes (hmem _ ?_) (t.lexeme.trivia_or_comment hs)
      have hin : t ∈ cs := List.mem_of_mem_head? ht
      simp [List.mem_map_of_mem hin]
    | true =>
      have hhead := Token.mem_head?_codeOf ht hs
      have hle : op.level ≤ 7 := by cases op <;> first | decide | cases hop
      refine Lexeme.isApart_of_level_le (Formula.isArithmetic_of_mem_lexemes he ?_)
        (Nat.le_trans (hb.after _ hhead) hle)
      rw [hcode]
      simp [Token.codeOf_append, List.mem_of_mem_head? hhead]

-- If C takes the operands of a comparison that are found, then the condition has the same value
-- with the text that is suggested in place of the comparison.
theorem value_replaced (path text : String) :
    let o := ofSource (.ofText path text)
    ∀ b ∈ o.blocks, ∀ whole ∈ b.condition, ∀ e : Formula, e.IsOf (o.source.codeIn whole) →
    ∀ c ∈ b.comparisons, o.Binds whole c → ∀ m ∈ Rule.comparisonRemark o c,
    ∃ message fix, m = .onSpan c.span message (some fix) ∧
      ∃ e' : Formula, e'.IsOf (Lexer.codeOf (o.replaced whole c.span fix)) ∧
        ∀ arith env, e'.value arith env = e.value arith env := by
  intro o b hb whole hw e ⟨he, hcode⟩ c hc hbinds m hm
  have hplain : ∀ l ∈ (Source.ofText path text).codeIn whole, l.isMark .hash = false := by
    intro l hl
    have hl : l.isArithmetic := Formula.isArithmetic_of_mem_lexemes he (hcode ▸ hl)
    cases l with
    | punct p => cases p <;> first | rfl | cases hl
    | _ => rfl
  obtain ⟨as, bs, ls, ms, rs, cs, zs, hcut, hop⟩ := exists_isOperation hb hw hc hplain
  have hsource : o.source = .ofText path text := rfl
  rw [Binds, hop.span, hsource, hcut.front.codeIn, hcut.left.codeIn, hcut.right.codeIn,
    hcut.back.codeIn] at hbinds
  rw [hsource, hcut.whole.codeIn] at hcode
  have hlexemes : e.lexemes = Token.codeOf bs ++ Token.codeOf ls ++
      .punct c.operator :: (Token.codeOf rs ++ Token.codeOf cs) := by
    rw [hcode]
    simp [Token.codeOf_append, hop.operator]
  obtain ⟨⟨l, r, hl, hr⟩, e', he', hlexemes', hvalue⟩ := Formula.exists_flipped he hlexemes
    hop.isComparison hop.backward hop.forward hbinds
  simp only [Rule.comparisonRemark] at hm
  split at hm
  case isFalse => cases hm
  case isTrue =>
    cases hm
    refine ⟨_, _, rfl, e', ⟨he', ?_⟩, hvalue⟩
    rw [hlexemes', hop.span]
    exact (codeOf_replaced hcut hop.isComparison he hcode hl hr hbinds).symm

-- Arithmetic in the operand that is exchanged, and a mask in parentheses beside it.
theorem value_replaced_sum :
    let o := ofSource (.ofText "a.c"
      "void f(int a, int b) \x7b\nif (a + b >= MAX && (a & 1) != 0) \x7b\ng();\n\x7d\n\x7d\n")
    let e : Formula := .binary
      (.binary (.binary (.name "a") .plus (.name "b")) .ge (.name "MAX")) .andAnd
      (.binary (.parens (.binary (.name "a") .amp (.number "1"))) .notEq (.number "0"))
    ∃ b ∈ o.blocks, ∃ whole ∈ b.condition, e.IsOf (o.source.codeIn whole) ∧
      ∃ c ∈ b.comparisons, o.Binds whole c ∧ ∃ m ∈ Rule.comparisonRemark o c,
      ∃ message fix, m = .onSpan c.span message (some fix) ∧
        ∃ e' : Formula, e'.IsOf (Lexer.codeOf (o.replaced whole c.span fix)) ∧
          ∀ arith env, e'.value arith env = e.value arith env := by
  intro o e
  let p := Parts.ofTokens o.source.tokens
  let block := p.blocks.get ⟨0, by decide +kernel⟩
  let b := block.map (locate p.tokens)
  have hb : b ∈ o.blocks := mem_blocks_iff.mpr ⟨block, List.get_mem .., rfl⟩
  let whole := b.condition.get (by decide +kernel)
  have hw : whole ∈ b.condition := Option.get_mem _
  have he : e.IsOf (o.source.codeIn whole) := ⟨by decide +kernel, by decide +kernel⟩
  let c := b.comparisons.get ⟨0, by decide +kernel⟩
  have hc : c ∈ b.comparisons := List.get_mem ..
  have hbinds : o.Binds whole c := by
    constructor <;> decide +kernel
  let m := (Rule.comparisonRemark o c).get (by decide +kernel)
  have hm : m ∈ Rule.comparisonRemark o c := Option.get_mem _
  exact ⟨b, hb, whole, hw, he, c, hc, hbinds, m, hm,
    value_replaced _ _ b hb whole hw e he c hc hbinds m hm⟩

-- The operand that is found on the left of a comparison takes a mask with it. That is applied to
-- the result of the comparison in C, to which it is suggested that it be applied no longer.
theorem value_of_masked :
    let o := ofSource (.ofText "a.c"
      "void f(int flags, int mask) \x7b\nif (flags & mask == FLAG) \x7b\ng();\n\x7d\n\x7d\n")
    let e : Formula := .binary (.name "flags") .amp (.binary (.name "mask") .eqEq (.name "FLAG"))
    let env : String → Int := fun name => if name = "flags" then 1 else 2
    ∃ b ∈ o.blocks, ∃ whole ∈ b.condition, e.IsOf (o.source.codeIn whole) ∧
      ∃ c ∈ b.comparisons, ∃ message fix,
        Rule.comparisonRemark o c = some (.onSpan c.span message (some fix)) ∧
        (∃ e' : Formula, e'.IsOf (Lexer.codeOf (o.replaced whole c.span fix))) ∧
        ∀ e' : Formula, e'.IsOf (Lexer.codeOf (o.replaced whole c.span fix)) →
          e.value Formula.exact env = some 1 ∧ e'.value Formula.exact env = some 0 := by
  intro o e env
  let p := Parts.ofTokens o.source.tokens
  let block := p.blocks.get ⟨0, by decide +kernel⟩
  let b := block.map (locate p.tokens)
  have hb : b ∈ o.blocks := mem_blocks_iff.mpr ⟨block, List.get_mem .., rfl⟩
  let whole := b.condition.get (by decide +kernel)
  have hw : whole ∈ b.condition := Option.get_mem _
  have he : e.IsOf (o.source.codeIn whole) := ⟨by decide +kernel, by decide +kernel⟩
  let c := b.comparisons.get ⟨0, by decide +kernel⟩
  have hc : c ∈ b.comparisons := List.get_mem ..
  let masked : Formula :=
    .binary (.binary (.name "FLAG") .eqEq (.name "flags")) .amp (.name "mask")
  have hmasked : masked.IsOf
      (Lexer.codeOf (o.replaced whole c.span "FLAG == flags & mask")) :=
    ⟨by decide +kernel, by decide +kernel⟩
  have hremark : Rule.comparisonRemark o c = some (.onSpan c.span
      "constant FLAG must appear on the left of comparison" (some "FLAG == flags & mask")) := by
    have hright : o.slice c.right.span = "FLAG" := by decide +kernel
    have hleft : o.slice c.left.span = "flags & mask" := by decide +kernel
    have hop : c.operator.flipped.text = "==" := by decide +kernel
    rw [Rule.comparisonRemark, if_pos (by decide +kernel), hright, hleft, hop]
    rfl
  refine ⟨b, hb, whole, hw, he, c, hc, _, _, hremark, ⟨masked, hmasked⟩, fun e' he' => ?_⟩
  rw [he'.unique hmasked]
  exact ⟨by decide +kernel, by decide +kernel⟩

end Outline

end CLint
