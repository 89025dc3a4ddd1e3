import CLint.Proofs.Declaring.Grammar

namespace CLint

namespace Code

-- Properly nested code as what it is made of: lexemes that are no brackets, and code in brackets.
-- Only what is in no brackets has the property `p`.
inductive Nested : (Lexeme → Prop) → List Lexeme → Prop
  | nil {p : Lexeme → Prop} : Nested p []
  | plain {p : Lexeme → Prop} {l : Lexeme} {ls : List Lexeme} (hc : l.closer? = none)
      (hl : l.closes = false) (hp : p l) (h : Nested p ls) : Nested p (l :: ls)
  | group {p : Lexeme → Prop} {o c : Lexeme} {inner ls : List Lexeme} (hc : o.closer? = some c)
      (hi : Nested (fun _ => True) inner) (h : Nested p ls) : Nested p (o :: inner ++ c :: ls)

variable {p q : Lexeme → Prop} {l o c : Lexeme} {ls ms awaited : List Lexeme}

namespace Nested

theorem append (h : Nested p ls) (hm : Nested p ms) : Nested p (ls ++ ms) := by
  induction h with
  | nil => exact hm
  | plain hc hl hp _ ih => exact .plain hc hl hp (ih hm)
  | group hc hi _ _ ih =>
    rw [List.append_assoc, List.cons_append]
    exact .group hc hi (ih hm)

theorem mono (h : Nested p ls) (hpq : ∀ l, p l → q l) : Nested q ls := by
  induction h with
  | nil => exact .nil
  | plain hc hl hp _ ih => exact .plain hc hl (hpq _ hp) (ih hpq)
  | group hc hi _ _ ih => exact .group hc hi (ih hpq)

theorem singleton (hc : l.closer? = none) (hl : l.closes = false) (hp : p l) : Nested p [l] :=
  .plain hc hl hp .nil

theorem enclosed (hc : o.closer? = some c) (h : Nested q ls) : Nested p (o :: ls ++ [c]) :=
  .group hc (h.mono fun _ _ => trivial) .nil

end Nested

-- Code by which the brackets are closed that await it is made of properly nested code, one piece
-- before each of the closing brackets and one behind the last of them.
def Closing (p : Lexeme → Prop) : List Lexeme → List Lexeme → Prop
  | [], ls => Nested p ls
  | c :: awaited, ls =>
    ∃ inner rest, ls = inner ++ c :: rest ∧ Nested (fun _ => True) inner ∧ Closing p awaited rest

theorem Closing.prepend (front : List Lexeme) (h : Closing p awaited ls)
    (hp : awaited = [] → ∀ ms, Nested p ms → Nested p (front ++ ms))
    (ht : ∀ ms, Nested (fun _ => True) ms → Nested (fun _ => True) (front ++ ms)) :
    Closing p awaited (front ++ ls) := by
  cases awaited with
  | nil => exact hp rfl ls h
  | cons c awaited =>
    obtain ⟨inner, rest, rfl, hi, hr⟩ := h
    exact ⟨front ++ inner, rest, by simp, ht inner hi, hr⟩

theorem mem_outer_cons {m : Lexeme} {depth : Nat} (hc : l.closer? = none) (hl : l.closes = false) :
    m ∈ outer depth (l :: ls) ↔ depth = 0 ∧ m = l ∨ m ∈ outer depth ls := by
  cases depth <;> simp [outer, hc, hl]

theorem closing_of_closesAll (h : closesAll awaited ls)
    (ho : ∀ l ∈ outer awaited.length ls, p l) : Closing p awaited ls := by
  fun_induction closesAll awaited ls with
  | case1 awaited =>
    cases List.isEmpty_iff.mp h
    exact .nil
  | case2 awaited l ls c hc ih =>
    rw [outer, hc] at ho
    obtain ⟨inner, rest, rfl, hi, hr⟩ := ih h ho
    have hgroup := hr.prepend (l :: inner ++ [c])
      (fun _ ms hm => by simpa using Nested.group hc hi hm)
      (fun ms hm => by simpa using Nested.group hc hi hm)
    simpa using hgroup
  | case3 l ls hc hl => cases h
  | case4 l ls hc hl c awaited ih =>
    simp only [Bool.and_eq_true, decide_eq_true_eq] at h
    obtain ⟨rfl, h⟩ := h
    rw [outer, hc, hl] at ho
    exact ⟨[], ls, rfl, .nil, ih h ho⟩
  | case5 awaited l ls hc hl ih =>
    have hl := eq_false_of_ne_true hl
    have ih := ih h fun m hm => ho m ((mem_outer_cons hc hl).mpr (.inr hm))
    refine ih.prepend [l] (fun hnil ms hm => ?_) fun ms hm => ?_
    · exact .plain hc hl (ho l ((mem_outer_cons hc hl).mpr (.inl ⟨congrArg _ hnil, rfl⟩))) hm
    · exact .plain hc hl trivial hm

theorem nested_of_isNested (h : isNested ls) (ho : ∀ l ∈ outer 0 ls, p l) : Nested p ls :=
  closing_of_closesAll h ho

theorem Nested.isNested (h : Nested p ls) : isNested ls := by
  induction h with
  | nil => rfl
  | plain hc hl _ _ ih => simpa [Code.isNested, closesAll, hc, hl] using ih
  | @group p o c inner ls hc _ _ ihi ih =>
    have hclose : closesAll [c] (c :: ls) := by
      unfold Lexeme.closer? at hc
      split at hc <;> cases hc <;> exact ih
    rw [Code.isNested, List.cons_append, closesAll, hc]
    exact closesAll_append_append ihi hclose

theorem bare_plain (hc : l.closer? = none) (hl : l.closes = false) (depth : Nat)
    (ls : List Lexeme) :
    bare depth (l :: ls) = if depth = 0 then l :: bare depth ls else bare depth ls := by
  cases l with
  | punct mark =>
    cases mark <;> first | rfl | exact absurd hc (by decide) | exact absurd hl (by decide)
  | _ => rfl

-- Nested code does not end within a pair of brackets.
theorem Nested.bare_append (h : Nested p ls) (depth : Nat) (ms : List Lexeme) :
    bare depth (ls ++ ms) = bare depth ls ++ bare depth ms := by
  induction h generalizing depth ms with
  | nil => rfl
  | plain hc hl _ _ ih =>
    rw [List.cons_append, bare_plain hc hl, bare_plain hc hl, ih]
    split <;> rfl
  | @group p o c inner ls hc _ _ ihi ih =>
    rw [List.append_assoc, List.cons_append, List.cons_append, List.cons_append]
    unfold Lexeme.closer? at hc
    split at hc <;> cases hc
    case h_1 | h_3 => simp [bare, ihi, ih]
    case h_2 =>
      simp only [bare, ihi, ih]
      split <;> simp

theorem nesting_of_neither (hc : l.closer? = none) (hl : l.closes = false) : l.nesting = 0 := by
  unfold Lexeme.nesting
  split
  case h_1 | h_2 | h_3 => cases hc
  case h_4 | h_5 | h_6 => cases hl
  case h_7 => rfl

-- The marks that separate the parts of declarations are no brackets.
theorem nesting_of_group {mark : Punct} (hm : mark = .comma ∨ mark = .semicolon)
    (hc : o.closer? = some c) :
    o.isMark mark = false ∧ c.isMark mark = false ∧ o.nesting = 1 ∧ c.nesting = -1 := by
  unfold Lexeme.closer? at hc
  rcases hm with rfl | rfl <;> split at hc <;> cases hc <;> decide

-- Properly nested code is cut only outside of all its brackets.
theorem Nested.cut_append {mark : Punct} {depth : Nat} {piece rest : List Lexeme}
    {pieces : List (List Lexeme)} (h : Nested p ls) (hm : mark = .comma ∨ mark = .semicolon)
    (hp : depth = 0 → ∀ l, p l → l ≠ .punct mark)
    (hr : cut Lexeme.nesting mark depth rest = piece :: pieces) :
    cut Lexeme.nesting mark depth (ls ++ rest) = (ls ++ piece) :: pieces := by
  induction h generalizing depth rest piece pieces with
  | nil => exact hr
  | @plain p l ls hc hl hl' _ ih =>
    have hcut : (l.isMark mark && decide ((depth : Int) = 0)) = false := by
      cases depth with
      | zero => simpa [Lexeme.isMark] using hp rfl l hl'
      | succ n => simp; omega
    have hnest := nesting_of_neither hc hl
    rw [List.cons_append, cut, hcut, hnest, Int.add_zero, ih hp hr]
    rfl
  | @group p o c inner ls hc hi _ ihi ih =>
    obtain ⟨ho, hc', hno, hnc⟩ := nesting_of_group hm hc
    have hls := ih hp hr
    have hclose : cut Lexeme.nesting mark ((depth + 1 : Nat) : Int) (c :: (ls ++ rest)) =
        (c :: ls ++ piece) :: pieces := by
      have hdepth : ((depth + 1 : Nat) : Int) + c.nesting = depth := by omega
      rw [cut, hc', Bool.false_and, if_neg Bool.false_ne_true, hdepth, hls]
      rfl
    have hinner := ihi (fun hz => absurd hz (Nat.succ_ne_zero depth)) hclose
    have hdepth : (depth : Int) + o.nesting = ((depth + 1 : Nat) : Int) := by omega
    rw [List.append_assoc, List.cons_append, List.cons_append, cut, ho, Bool.false_and,
      if_neg Bool.false_ne_true, hdepth, hinner]
    simp

end Code

namespace Enclosed

-- Each opening bracket is counted together with the one that closes it, or not at all.
structure Pairs (opens closes : Lexeme → Bool) : Prop where
  plain : ∀ l : Lexeme, l.closer? = none → l.closes = false → opens l = false ∧ closes l = false
  group : ∀ o c : Lexeme, o.closer? = some c →
    closes o = false ∧ opens c = false ∧ opens o = closes c

theorem pairs_brackets : Pairs Lexeme.isOpener Lexeme.isCloser where
  plain _ hc hl := ⟨(Lexeme.not_opener_of_closer? hc).1, (Lexeme.closes_eq_false_iff.mp hl).1⟩
  group o c h := by
    unfold Lexeme.closer? at h
    split at h <;> cases h <;> decide

theorem pairs_braces : Pairs (·.isMark .lbrace) (·.isMark .rbrace) where
  plain _ hc hl := ⟨(Lexeme.not_opener_of_closer? hc).2, (Lexeme.closes_eq_false_iff.mp hl).2⟩
  group o c h := by
    unfold Lexeme.closer? at h
    split at h <;> cases h <;> decide

variable {opens closes : Lexeme → Bool} {p : Lexeme → Prop} {ls rest : List Lexeme}

-- The bracket that closes is not in properly nested code.
theorem find?_append (hp : Pairs opens closes) (h : Code.Nested p ls) (depth : Nat)
    (rest : List Lexeme) : find? opens closes depth (ls ++ rest) =
      (find? opens closes depth rest).map fun (inner, close) => (ls ++ inner, close) := by
  induction h generalizing depth rest with
  | nil => simp
  | plain hc hl _ _ ih =>
    obtain ⟨ho, hcl⟩ := hp.plain _ hc hl
    simp [find?, ho, hcl, ih, Function.comp_def]
  | @group p o c inner ls hc _ _ ihi ih =>
    obtain ⟨hclo, hopc, heq⟩ := hp.group o c hc
    have hclose : find? opens closes (if opens o then depth + 1 else depth) (c :: (ls ++ rest)) =
        (find? opens closes depth (ls ++ rest)).map fun (inner, close) => (c :: inner, close) := by
      cases ho : opens o <;> simp [find?, hopc, ← heq, ho]
    have hstep : ∀ ms, find? opens closes depth (o :: ms) =
        (find? opens closes (if opens o then depth + 1 else depth) ms).map
          fun (inner, close) => (o :: inner, close) := fun ms => by simp [find?, hclo]
    rw [List.append_assoc, List.cons_append, List.cons_append, hstep, ihi, hclose, ih]
    simp [Function.comp_def]

theorem read_append (hp : Pairs opens closes) (h : Code.Nested p ls) {close : Lexeme}
    (hc : closes close) (rest : List Lexeme) :
    read opens closes (ls ++ close :: rest) = ⟨ls, some close⟩ := by
  simp [read, find?_append hp h, find?, hc]

theorem inBrackets_append (h : Code.Nested p ls) {close : Lexeme} (hc : close.isCloser)
    (rest : List Lexeme) : inBrackets (ls ++ close :: rest) = ⟨ls, some close⟩ :=
  read_append pairs_brackets h hc rest

theorem inBraces_append (h : Code.Nested p ls) (rest : List Lexeme) :
    inBraces (ls ++ .punct .rbrace :: rest) = ⟨ls, some (.punct .rbrace)⟩ :=
  read_append pairs_braces h rfl rest

end Enclosed
end CLint
