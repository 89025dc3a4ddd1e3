import CLint.Proofs.Extents.Matched
import CLint.Proofs.Terms.Stripping

namespace CLint

namespace Code

variable {p : Lexeme → Prop} {n : Nat} {as bs ls ms : List Lexeme}

-- How many brackets are open behind some code that were not before it. Braces do not count.
@[simp]
def rise : List Lexeme → Int
  | [] => 0
  | l :: ls => l.nestingFlat + rise ls

@[simp]
theorem rise_append (ls ms : List Lexeme) : rise (ls ++ ms) = rise ls + rise ms := by
  induction ls with
  | nil => simp
  | cons l ls ih => simp [ih, Int.add_assoc]

theorem Matched.rise_eq (h : Matched Lexeme.isOpener Lexeme.isCloser p ls) : rise ls = 0 := by
  induction h with
  | nil => rfl
  | plain ho hc _ _ ih => simp [Lexeme.nestingFlat_of_neither ho hc, ih]
  | group ho hc _ _ ihi ih =>
    simp [(Lexeme.nestingFlat_of_opener ho).1, (Lexeme.nestingFlat_of_closer hc).1, ihi, ih]

theorem Trailing.rise_eq (h : Trailing Lexeme.isOpener Lexeme.isCloser n ls) : rise ls = -n := by
  induction h with
  | last h => exact h.rise_eq
  | close hi hc _ ih =>
    rw [rise_append, rise, hi.rise_eq, (Lexeme.nestingFlat_of_closer hc).1, ih]
    omega

-- Where the brackets match, none is closed before it was opened.
theorem Matched.rise_nonneg (h : Matched Lexeme.isOpener Lexeme.isCloser p (as ++ bs)) :
    0 ≤ rise as := by
  obtain ⟨n, hn⟩ := h.exists_trailing rfl
  have hall := h.rise_eq
  rw [rise_append, hn.rise_eq] at hall
  omega

theorem Nested.rise_eq (h : Nested p ls) : rise ls = 0 := by
  induction h with
  | nil => rfl
  | @plain _ l _ hc hl _ _ ih =>
    have hflat := Lexeme.nestingFlat_of_neither (Lexeme.not_opener_of_closer? hc).1
      (Lexeme.closes_eq_false_iff.mp hl).1
    simp [hflat, ih]
  | @group _ o c _ _ hc _ _ ihi ih =>
    have hpair : o.nestingFlat + c.nestingFlat = 0 := by
      unfold Lexeme.closer? at hc
      split at hc <;> cases hc <;> rfl
    simp [ihi, ih]
    omega

end Code

namespace Token

@[simp] theorem lexemes_nil : lexemes [] = [] := rfl

@[simp] theorem lexemes_cons (t : Token) (ts : List Token) :
    lexemes (t :: ts) = t.lexeme :: lexemes ts :=
  rfl

@[simp] theorem lexemes_append (ts us : List Token) :
    lexemes (ts ++ us) = lexemes ts ++ lexemes us := by
  simp [lexemes]

-- A token with a lexeme of no meaning instead of one that is no parenthesis or square bracket.
def blanked (t : Token) : Token :=
  if t.lexeme.isOpener || t.lexeme.isCloser then t else { t with lexeme := .stray ' ' }

end Token

namespace Rule

open Token

-- The parentheses and square brackets in some code are properly nested. Braces do not count.
def isPaired (ts : List Token) : Bool :=
  Code.isNested ((lexemes ts).filter fun l => l.isOpener || l.isCloser)

variable {ts xs os cs : List Token} {o c t : Token}

-- Only the lexemes that are counted matter for how code is nested over them.
theorem closesAll_blanked (ts : List Token) (awaited : List Lexeme) :
    Code.closesAll awaited (lexemes (ts.map blanked)) =
      Code.closesAll awaited ((lexemes ts).filter fun l => l.isOpener || l.isCloser) := by
  simp only [lexemes, List.map_map]
  induction ts generalizing awaited with
  | nil => rfl
  | cons t ts ih =>
    rw [List.map_cons, List.map_cons, List.filter_cons]
    split
    · rename_i hb
      have hlexeme : (blanked t).lexeme = t.lexeme := by rw [blanked, if_pos hb]
      rw [Function.comp, hlexeme, Code.closesAll.eq_def, Code.closesAll.eq_def _ (_ :: _)]
      simp only [ih]
    · rename_i hb
      have hlexeme : (blanked t).lexeme = .stray ' ' := by rw [blanked, if_neg hb]
      rw [Function.comp, hlexeme]
      exact ih awaited

theorem isPaired_eq_blanked (ts : List Token) :
    isPaired ts = Code.isNested (lexemes (ts.map blanked)) :=
  (closesAll_blanked ts []).symm

theorem nestingFlat_blanked (t : Token) :
    (blanked t).lexeme.nestingFlat = t.lexeme.nestingFlat := by
  unfold blanked
  split
  · rfl
  · rename_i hb
    simp only [Bool.or_eq_true, not_or, Bool.not_eq_true] at hb
    rw [Lexeme.nestingFlat_of_neither hb.1 hb.2]
    rfl

theorem isMark_blanked (t : Token) :
    (blanked t).lexeme.isMark .lparen = t.lexeme.isMark .lparen ∧
      (blanked t).lexeme.isMark .rparen = t.lexeme.isMark .rparen := by
  unfold blanked
  split
  · exact ⟨rfl, rfl⟩
  · rename_i hb
    simp only [Bool.or_eq_true, not_or, Bool.not_eq_true] at hb
    constructor
    · cases h : t.lexeme.isMark .lparen
      · rfl
      · rw [of_decide_eq_true h] at hb
        cases hb.1
    · cases h : t.lexeme.isMark .rparen
      · rfl
      · rw [of_decide_eq_true h] at hb
        cases hb.2

theorem balance_blanked (ts : List Token) : balance (ts.map blanked) = balance ts := by
  simp only [balance, List.countP_map, Function.comp_def, isMark_blanked]

theorem wraps_blanked (depth : Int) (ts : List Token) :
    wraps depth (ts.map blanked) = wraps depth ts := by
  induction ts generalizing depth with
  | nil => rfl
  | cons t ts ih => simp [wraps, isMark_blanked, ih]

theorem isWrapped_blanked (ts : List Token) : isWrapped (ts.map blanked) = isWrapped ts := by
  cases ts with
  | nil => rfl
  | cons t ts =>
    have hwraps := wraps_blanked 0 (t :: ts)
    have hbalance := balance_blanked ts.dropLast
    rw [List.map_cons] at hwraps
    rw [List.map_dropLast] at hbalance
    simp [isWrapped, isMark_blanked, hwraps, hbalance, List.getLast?_map, Option.any_map]

theorem rise_paired (h : isPaired ts) : Code.rise (lexemes ts) = 0 := by
  have hflat : Code.rise (lexemes (ts.map blanked)) = Code.rise (lexemes ts) := by
    clear h
    induction ts with
    | nil => rfl
    | cons t ts ih => simp [nestingFlat_blanked, ih]
  rw [isPaired_eq_blanked] at h
  rw [← hflat]
  exact (Code.nested_of_isNested (p := fun _ => True) h fun _ _ => trivial).rise_eq

theorem rise_closing (h : AreClosing cs) : Code.rise (lexemes cs) = -cs.length := by
  induction cs with
  | nil => rfl
  | cons c cs ih =>
    obtain ⟨hc, hcs⟩ := List.forall_mem_cons.mp h
    have hflat : c.lexeme.nestingFlat = -1 := by rw [hc]; rfl
    rw [lexemes_cons, Code.rise, ih hcs, hflat, List.length_cons]
    omega

theorem balance_paired (h : isPaired ts) : balance ts = 0 := by
  rw [isPaired_eq_blanked] at h
  rw [← balance_blanked, balance_nested h]

theorem lexeme_blanked_lparen (h : t.lexeme = .punct .lparen) :
    (blanked t).lexeme = .punct .lparen :=
  of_decide_eq_true ((isMark_blanked t).1.trans (decide_eq_true h))

theorem lexeme_blanked_rparen (h : t.lexeme = .punct .rparen) :
    (blanked t).lexeme = .punct .rparen :=
  of_decide_eq_true ((isMark_blanked t).2.trans (decide_eq_true h))

theorem isPaired_enclosed (ho : o.lexeme = .punct .lparen) (hc : c.lexeme = .punct .rparen)
    (hx : isPaired xs) : isPaired (o :: xs ++ [c]) := by
  rw [isPaired_eq_blanked] at hx ⊢
  rw [List.map_append]
  exact isNested_enclosed (lexeme_blanked_lparen ho) (lexeme_blanked_rparen hc) hx

theorem unwrap_paired (ho : o.lexeme = .punct .lparen) (hc : c.lexeme = .punct .rparen)
    (hne : xs ≠ []) (hx : isPaired xs) : unwrap (o :: xs ++ [c]) = unwrap xs := by
  rw [isPaired_eq_blanked] at hx
  have hwrapped := isWrapped_enclosed (lexeme_blanked_lparen ho) (lexeme_blanked_rparen hc)
    (List.map_eq_nil_iff.not.mpr hne) hx
  rw [unwrap, if_pos]
  · simp
  · rw [← isWrapped_blanked, List.map_append]
    exact hwrapped

-- The parentheses that are taken off are those around properly nested code.
theorem isPaired_of_isWrapped (h : isWrapped (o :: xs ++ [c])) (hp : isPaired (o :: xs ++ [c])) :
    isPaired xs := by
  rw [isPaired_eq_blanked] at hp
  rw [← isWrapped_blanked] at h
  obtain ⟨o', xs', c', hsplit, -, -, -, hn⟩ := exists_of_isWrapped h hp
  rw [List.map_append, List.map_cons, List.cons_append] at hsplit
  obtain ⟨rfl, -⟩ := List.append_inj' (List.cons.inj hsplit).2 rfl
  rw [isPaired_eq_blanked]
  exact hn

theorem isPaired_unwrap (h : isPaired ts) : isPaired (unwrap ts) := by
  fun_induction unwrap ts with
  | case1 ts hw ih =>
    obtain ⟨o, xs, c, rfl, -⟩ := exists_parens_of_isWrapped hw
    have hx := isPaired_of_isWrapped hw h
    exact ih (by simpa using hx)
  | case2 => exact h

-- What is taken off a part of a condition is nothing but parentheses: of those in front of it only
-- opening ones, and closing ones behind it.

theorem exists_dropOpening (ts : List Token) : ∃ os, ts = os ++ dropOpening ts ∧ AreOpening os := by
  induction ts with
  | nil => exact ⟨[], rfl, List.forall_mem_nil _⟩
  | cons t ts ih =>
    rw [dropOpening]
    split
    · rename_i hdrop
      obtain ⟨os, hos, ho⟩ := ih
      rw [Bool.and_eq_true] at hdrop
      exact ⟨t :: os, congrArg _ hos,
        List.forall_mem_cons.mpr ⟨of_decide_eq_true hdrop.1, ho⟩⟩
    · exact ⟨[], rfl, List.forall_mem_nil _⟩

theorem exists_dropClosing (ts : List Token) : ∃ cs, ts = dropClosing ts ++ cs ∧ AreClosing cs := by
  suffices h : ∀ rs, ∃ cs, rs.reverse = dropClosing.go rs ++ cs ∧ AreClosing cs by
    simpa [dropClosing] using h ts.reverse
  intro rs
  induction rs with
  | nil => exact ⟨[], rfl, List.forall_mem_nil _⟩
  | cons t rs ih =>
    rw [dropClosing.go]
    split
    · rename_i hdrop
      obtain ⟨cs, hcs, hc⟩ := ih
      rw [Bool.and_eq_true] at hdrop
      refine ⟨cs ++ [t], by rw [List.reverse_cons, hcs, List.append_assoc], ?_⟩
      exact List.forall_mem_append.mpr
        ⟨hc, List.forall_mem_singleton.mpr (of_decide_eq_true hdrop.1)⟩
    · exact ⟨[], (List.append_nil _).symm, List.forall_mem_nil _⟩

theorem exists_unwrap (ts : List Token) : ∃ os cs, ts = os ++ unwrap ts ++ cs ∧
    AreOpening os ∧ AreClosing cs ∧ os.length = cs.length := by
  fun_induction unwrap ts with
  | case1 ts hw ih =>
    obtain ⟨o, xs, c, rfl, ho, hc, -⟩ := exists_parens_of_isWrapped hw
    have hinner : ((o :: xs ++ [c]).drop 1).dropLast = xs := by simp
    rw [hinner] at ih ⊢
    obtain ⟨os, cs, hxs, hos, hcs, hlength⟩ := ih
    refine ⟨o :: os, cs ++ [c], ?_, List.forall_mem_cons.mpr ⟨ho, hos⟩,
      List.forall_mem_append.mpr ⟨hcs, List.forall_mem_singleton.mpr hc⟩, by simp [hlength]⟩
    conv => lhs; rw [hxs]
    simp
  | case2 ts => exact ⟨[], [], by simp, List.forall_mem_nil _, List.forall_mem_nil _, rfl⟩

-- What is left of a part of a condition.
def stripped (part : List Token) : List Token :=
  unwrap (dropClosing (dropOpening part))

theorem exists_parens (part : List Token) :
    ∃ os cs, part = os ++ stripped part ++ cs ∧ AreOpening os ∧ AreClosing cs := by
  obtain ⟨os, hfront, ho⟩ := exists_dropOpening part
  obtain ⟨cs, hback, hc⟩ := exists_dropClosing (dropOpening part)
  obtain ⟨os', cs', hinner, ho', hc', -⟩ := exists_unwrap (dropClosing (dropOpening part))
  refine ⟨os ++ os', cs' ++ cs, ?_, List.forall_mem_append.mpr ⟨ho, ho'⟩,
    List.forall_mem_append.mpr ⟨hc', hc⟩⟩
  conv => lhs; rw [hfront, hback, hinner]
  simp [stripped]

-- Of a properly nested part among parentheses that are not all its own, those that enclose it are
-- taken off.
theorem stripped_append (ho : AreOpening os) (hc : AreClosing cs) (hne : xs ≠ [])
    (hx : isPaired xs) : stripped (os ++ xs ++ cs) = unwrap xs := by
  obtain ⟨os', cs', hstripped, ho', hc', hlength⟩ := exists_stripped ho hc (balance_paired hx)
  rw [stripped, hstripped]
  exact unwrap_append_of (q := fun xs => isPaired xs)
    (fun ho hc hne hx => ⟨isPaired_enclosed ho hc hx, unwrap_paired ho hc hne hx⟩)
    ho' hc' hlength hne hx

-- Of parentheses alone nothing is left, if there are no closing ones behind opening ones.
theorem stripped_parens (ho : AreOpening os) (hc : AreClosing cs) (h : os = [] ∨ cs = []) :
    stripped (os ++ cs) = [] := by
  have hopening : dropOpening (os ++ cs) = cs := by
    rcases h with rfl | rfl
    · cases cs with
      | nil => rfl
      | cons c cs => simp [dropOpening, hc c List.mem_cons_self, Lexeme.isMark]
    · obtain ⟨os', hos, -, hlength⟩ := dropOpening_append ho (show balance [] ≤ 0 from Int.le_refl 0)
      have hnil : os' = [] := List.length_eq_zero_iff.mp (by simpa [balance] using hlength)
      rw [hos, hnil]
      rfl
  obtain ⟨cs', hclosing, -, hlength⟩ :=
    dropClosing_append hc (show 0 ≤ balance [] from Int.le_refl 0) (Int.natCast_nonneg _)
  have hnil : cs' = [] := List.length_eq_zero_iff.mp (by simpa [balance] using hlength.symm)
  rw [List.nil_append] at hclosing
  rw [stripped, hopening, hclosing, hnil, unwrap]
  rfl

end Rule
end CLint
