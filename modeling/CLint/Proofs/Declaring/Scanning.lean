import CLint.Proofs.Declaring.Nested

namespace CLint.Scan

open Code

variable {s t u : Scan} {p : Lexeme → Prop} {l o c : Lexeme} {ls ms rest : List Lexeme}

-- Does a scan get over some code without a stop?
def passes (s : Scan) : List Lexeme → Bool
  | [] => true
  | l :: ls => !s.stopsAt l && (s.step l).passes ls

theorem passes_append (s : Scan) (ls ms : List Lexeme) :
    s.passes (ls ++ ms) = (s.passes ls && (ls.foldl step s).passes ms) := by
  induction ls generalizing s with
  | nil => rfl
  | cons l ls ih => simp [passes, ih, Bool.and_assoc]

theorem read_append_of_passes (h : s.passes ls) (rest : List Lexeme) :
    s.read (ls ++ rest) =
      (ls ++ ((ls.foldl step s).read rest).1, ((ls.foldl step s).read rest).2) := by
  induction ls generalizing s with
  | nil => rfl
  | cons l ls ih =>
    simp only [passes, Bool.and_eq_true, Bool.not_eq_true'] at h
    simp [read, h.1, ih h.2, Cut.keep]

-- Between two states the same brackets are open, and an equals sign is not forgotten.
structure SameLevel (s t : Scan) : Prop where
  parens : t.parens = s.parens
  brackets : t.brackets = s.brackets
  braces : t.braces = s.braces
  assigned : s.assigned → t.assigned

namespace SameLevel

theorem refl (s : Scan) : s.SameLevel s :=
  ⟨rfl, rfl, rfl, id⟩

theorem trans (h : s.SameLevel t) (h' : t.SameLevel u) : s.SameLevel u where
  parens := h'.parens.trans h.parens
  brackets := h'.brackets.trans h.brackets
  braces := h'.braces.trans h.braces
  assigned hs := h'.assigned (h.assigned hs)

theorem isTop (h : s.SameLevel t) : t.isTop = s.isTop := by
  rw [Scan.isTop, h.parens, h.brackets, h.braces, Scan.isTop]

theorem step (s : Scan) (hc : l.closer? = none) (hl : l.closes = false) :
    s.SameLevel (s.step l) := by
  unfold Scan.step
  split
  case h_1 | h_3 | h_5 => cases hc
  case h_2 | h_4 | h_6 => cases hl
  case h_7 => exact ⟨rfl, rfl, rfl, fun hs => by simp [hs]⟩
  case h_8 => exact ⟨rfl, rfl, rfl, id⟩

-- Behind a closing bracket as many are open as before the one that it closes.
theorem step_step (hc : o.closer? = some c) (h : (s.step o).SameLevel t) :
    s.SameLevel (t.step c) := by
  unfold Lexeme.closer? at hc
  split at hc <;> cases hc <;>
    exact ⟨by simp [Scan.step, h.parens], by simp [Scan.step, h.brackets],
      by simp [Scan.step, h.braces], fun hs => h.assigned hs⟩

end SameLevel

theorem not_isTop_step (hc : o.closer? = some c) : (s.step o).isTop = false := by
  unfold Lexeme.closer? at hc
  split at hc <;> cases hc <;> simp [step, isTop]

theorem not_stopsAt_closer (hc : o.closer? = some c) (h : (s.step o).SameLevel t) :
    t.stopsAt c = false := by
  unfold Lexeme.closer? at hc
  split at hc <;> cases hc
  case h_1 | h_2 => rfl
  case h_3 => simp [stopsAt, h.braces, step]

theorem not_stopsAt_plain (hc : l.closer? = none) (hl : l.closes = false)
    (hs : s.isTop → l ≠ .punct .semicolon) : s.stopsAt l = false := by
  unfold stopsAt
  split
  case h_1 => cases hc
  case h_2 => cases hl
  case h_3 => exact Bool.eq_false_iff.mpr fun ht => hs ht rfl
  case h_4 => rfl

theorem not_stopsAt_opener (hc : o.closer? = some c) (hs : s.isTop → s.assigned) :
    s.stopsAt o = false := by
  unfold stopsAt
  split
  case h_1 =>
    cases ht : s.isTop with
    | false => rfl
    | true => simp [hs ht]
  case h_2 | h_3 => cases hc
  case h_4 => rfl

-- A scan gets over properly nested code in brackets, and behind an equals sign also over code
-- without a semicolon that is not in brackets.
theorem passes_nested (h : Nested p ls)
    (hs : s.isTop → s.assigned ∧ ∀ l, p l → l ≠ .punct .semicolon) :
    s.passes ls ∧ s.SameLevel (ls.foldl step s) := by
  induction h generalizing s with
  | nil => exact ⟨rfl, .refl s⟩
  | @plain p l ls hc hl hp _ ih =>
    have hstep := SameLevel.step s hc hl
    have hstop : s.stopsAt l = false := not_stopsAt_plain hc hl fun ht => (hs ht).2 l hp
    obtain ⟨hpass, hlevel⟩ := ih (s := s.step l) fun ht =>
      have ht := hstep.isTop ▸ ht
      ⟨hstep.assigned (hs ht).1, (hs ht).2⟩
    exact ⟨by simp [passes, hstop, hpass], hstep.trans hlevel⟩
  | @group p o c inner ls hc _ _ ihi ih =>
    have hopen : s.stopsAt o = false := not_stopsAt_opener hc fun ht => (hs ht).1
    obtain ⟨hinner, hi⟩ := ihi (s := s.step o) fun ht => by simp [not_isTop_step hc] at ht
    have hclose := not_stopsAt_closer hc hi
    have hstep := SameLevel.step_step hc hi
    obtain ⟨hpass, hlevel⟩ := ih (s := (inner.foldl step (s.step o)).step c) fun ht =>
      have ht := hstep.isTop ▸ ht
      ⟨hstep.assigned (hs ht).1, (hs ht).2⟩
    rw [List.foldl_append, List.foldl_cons, List.foldl_cons]
    refine ⟨?_, hstep.trans hlevel⟩
    simp [passes, passes_append, hopen, hinner, hclose, hpass]

-- Code that a scan outside of all brackets gets over, to be there again behind it.
def Crosses (ls : List Lexeme) : Prop :=
  ∀ s : Scan, s.isTop → s.passes ls ∧ (ls.foldl step s).isTop

theorem Crosses.nil : Crosses [] :=
  fun _ hs => ⟨rfl, hs⟩

theorem Crosses.append (h : Crosses ls) (hm : Crosses ms) : Crosses (ls ++ ms) := by
  intro s hs
  obtain ⟨hpass, htop⟩ := h s hs
  obtain ⟨hpass', htop'⟩ := hm _ htop
  rw [List.foldl_append, passes_append, hpass, hpass']
  exact ⟨rfl, htop'⟩

theorem Crosses.singleton (hc : l.closer? = none) (hl : l.closes = false)
    (hne : l ≠ .punct .semicolon) : Crosses [l] := by
  intro s hs
  refine ⟨?_, (SameLevel.step s hc hl).isTop ▸ hs⟩
  simp [passes, not_stopsAt_plain hc hl fun _ => hne]

-- A scan gets over brackets if it does not stop before the opening one.
theorem passes_enclosed (hs : s.isTop) (hstop : s.stopsAt o = false) (hc : o.closer? = some c)
    (h : Nested p ls) :
    s.passes (o :: ls ++ [c]) ∧ ((o :: ls ++ [c]).foldl step s).isTop := by
  obtain ⟨hinner, hi⟩ := passes_nested h (s := s.step o) fun ht => by
    simp [not_isTop_step hc] at ht
  have hclose := not_stopsAt_closer hc hi
  rw [List.foldl_append, List.foldl_cons]
  refine ⟨?_, (SameLevel.step_step hc hi).isTop ▸ hs⟩
  simp [passes, passes_append, hstop, hinner, hclose]

theorem Crosses.enclosed (hc : o.closer? = some c) (ho : o ≠ .punct .lbrace) (h : Nested p ls) :
    Crosses (o :: ls ++ [c]) := by
  intro s hs
  refine passes_enclosed hs ?_ hc h
  unfold stopsAt
  split
  case h_1 => exact absurd rfl ho
  case h_2 | h_3 => cases hc
  case h_4 => rfl

-- Behind an equals sign, braces do not stop a scan.
theorem Crosses.assigned (h : Nested p ls) (hp : ∀ l, p l → l ≠ .punct .semicolon) :
    Crosses (.punct .assign :: ls) := by
  intro s hs
  have hstep : (s.step (.punct .assign)).isTop := hs
  have hassigned : (s.step (.punct .assign)).assigned := by
    simp only [step, Bool.or_eq_true]
    exact .inr hs
  obtain ⟨hpass, hlevel⟩ := passes_nested h fun _ => ⟨hassigned, hp⟩
  exact ⟨by simpa [passes, stopsAt] using hpass, hlevel.isTop ▸ hstep⟩

-- Without an opening brace there is nothing to stop at before a semicolon.
theorem Crosses.braceless (h : Nested p ls) (hp : ∀ l, p l → l ≠ .punct .semicolon)
    (hb : ∀ l ∈ ls, l ≠ .punct .lbrace) : Crosses ls := by
  induction h with
  | nil => exact .nil
  | @plain p l ls hc hl hpl _ ih =>
    obtain ⟨-, hls⟩ := List.forall_mem_cons.mp hb
    have hsingle : Crosses [l] := .singleton hc hl (hp l hpl)
    exact hsingle.append (ih hp hls)
  | @group p o c inner ls hc hi _ _ ih =>
    have hls : ∀ l ∈ ls, l ≠ .punct .lbrace := fun l hl => hb l (by simp [hl])
    have hgroup : Crosses (o :: inner ++ [c]) := .enclosed hc (hb o List.mem_cons_self) hi
    simpa using hgroup.append (ih hp hls)

end CLint.Scan

namespace CLint.Stmt

open Scan

variable {l : Lexeme} {ls : List Lexeme}

-- The text of a statement from its first lexeme on, as far as a scan gets over it.
theorem readText_of_passes {s : Scan} (h : passes {} (l :: ls)) (hs : (l :: ls).foldl step {} = s)
    (rest : List Lexeme) :
    readText l (ls ++ rest) = (ls ++ (s.read rest).1, semicolon (s.read rest).2) := by
  simp only [passes, Bool.and_eq_true] at h
  rw [← hs, readText, read_append_of_passes h.2]
  rfl

theorem readText_of_crosses (h : Crosses (l :: ls)) (rest : List Lexeme) :
    readText l (ls ++ .punct .semicolon :: rest) = (ls, true, rest) := by
  obtain ⟨hpass, htop⟩ := h {} rfl
  have hstop : ((l :: ls).foldl step {}).read (.punct .semicolon :: rest) =
      ([], .punct .semicolon :: rest) := by
    rw [Scan.read, stopsAt, htop, if_pos rfl]
  rw [readText_of_passes hpass rfl, hstop, List.append_nil]
  rfl

theorem readText_rbrace (h : Crosses (l :: ls)) (rest : List Lexeme) :
    readText l (ls ++ .punct .rbrace :: rest) = (ls, false, .punct .rbrace :: rest) := by
  obtain ⟨hpass, htop⟩ := h {} rfl
  have hbraces : ((l :: ls).foldl step {}).braces = 0 := by
    simp only [isTop, Bool.and_eq_true, decide_eq_true_eq] at htop
    exact htop.2
  have hstop : ((l :: ls).foldl step {}).read (.punct .rbrace :: rest) =
      ([], .punct .rbrace :: rest) := by
    rw [Scan.read, stopsAt, hbraces]
    rfl
  rw [readText_of_passes hpass rfl, hstop, List.append_nil]
  rfl

end CLint.Stmt
