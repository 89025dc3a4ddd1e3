import CLint.Control.Block

namespace CLint

-- The lexemes of a run are among those with the numbers from `low` up to, but without, `high`.
structure Run.Within (low high : Nat) (r : Run) : Prop where
  low_le : low ≤ r.first
  first_le : r.first ≤ r.last
  last_lt : r.last < high

theorem Run.Within.mono {low high low' high' : Nat} {r : Run} (h : r.Within low high)
    (hl : low' ≤ low) (hh : high ≤ high') : r.Within low' high' where
  low_le := Nat.le_trans hl h.low_le
  first_le := h.first_le
  last_lt := Nat.lt_of_lt_of_le h.last_lt hh

namespace Stretch

variable {s t u : Stretch} {r : Run}

def Covers (s : Stretch) (r : Run) : Prop :=
  r.Within s.start (s.start + s.length)

-- A part of a stretch has the lexemes and the numbers that they have in the stretch.
def IsPart (t s : Stretch) : Prop :=
  ∃ before after, s.lexemes = before ++ t.lexemes ++ after ∧ t.start = s.start + before.length

namespace IsPart

theorem refl (s : Stretch) : s.IsPart s :=
  ⟨[], [], by simp, rfl⟩

theorem trans (h : u.IsPart t) (h' : t.IsPart s) : u.IsPart s := by
  obtain ⟨before, after, hl, hs⟩ := h
  obtain ⟨before', after', hl', hs'⟩ := h'
  refine ⟨before' ++ before, after ++ after', ?_, ?_⟩
  · simp [hl', hl]
  · simp [hs, hs', Nat.add_assoc]

theorem start_le (h : t.IsPart s) : s.start ≤ t.start := by
  obtain ⟨before, after, hl, hs⟩ := h
  omega

theorem stop_le (h : t.IsPart s) : t.start + t.length ≤ s.start + s.length := by
  obtain ⟨before, after, hl, hs⟩ := h
  simp only [length, hl, List.length_append]
  omega

theorem covers (h : t.IsPart s) (hr : t.Covers r) : s.Covers r :=
  Run.Within.mono hr h.start_le h.stop_le

end IsPart

theorem covers_run (h : s.lexemes ≠ []) : s.Covers s.run := by
  have := List.length_pos_iff.mpr h
  constructor <;> simp only [run, last, length] <;> omega

theorem of_run? (h : s.run? = some r) : s.lexemes ≠ [] ∧ r = s.run := by
  unfold run? at h
  split at h <;> cases h
  case isFalse.refl hs => exact ⟨by simpa [isEmpty] using hs, rfl⟩

theorem covers_of_run? (h : s.run? = some r) : s.Covers r := by
  obtain ⟨hne, rfl⟩ := of_run? h
  exact covers_run hne

theorem isPart_drop {n : Nat} (h : n ≤ s.length) : (s.drop n).IsPart s := by
  have h : (s.lexemes.take n).length = n := List.length_take_of_le h
  exact ⟨s.lexemes.take n, [], by simp [drop], by rw [h]; rfl⟩

end Stretch

namespace Code

-- The pieces of some code, laid out, are parts of it.
theorem isPart_of_mem_cut {nest : Lexeme → Int} {mark : Punct} {depth : Int} {ls : List Lexeme}
    {start : Nat} {t : Stretch} (h : t ∈ laidOut start (cut nest mark depth ls)) :
    t.IsPart ⟨start, ls⟩ := by
  fun_induction cut nest mark depth ls generalizing start t with
  | case1 =>
    cases List.mem_singleton.mp h
    exact .refl _
  | case2 depth l ls _ ih =>
    cases List.mem_cons.mp h
    case inl h =>
      subst h
      exact ⟨[], l :: ls, rfl, rfl⟩
    case inr h => exact (ih h).trans ⟨[l], [], by simp, rfl⟩
  | case3 depth l ls _ hc ih =>
    cases List.mem_singleton.mp h
    exact ⟨[], ls, rfl, rfl⟩
  | case4 depth l ls _ piece pieces hc ih =>
    rw [hc] at ih
    cases List.mem_cons.mp h
    case inl h =>
      subst h
      have hi : Stretch.IsPart ⟨start + 1, piece⟩ ⟨start + 1, ls⟩ := ih List.mem_cons_self
      obtain ⟨before, after, hl, hs⟩ := hi
      have hb : before = [] := by simpa using hs
      subst hb
      exact ⟨[], after, by simp at hl; simp [hl], rfl⟩
    case inr h =>
      have h : t ∈ laidOut (start + 1 + piece.length + 1) pieces := by
        simpa [Nat.add_comm, Nat.add_left_comm, Nat.add_assoc] using h
      have hi : t.IsPart ⟨start + 1, ls⟩ := ih (List.mem_cons_of_mem _ h)
      exact hi.trans ⟨[l], [], by simp, rfl⟩

end Code

namespace Stretch

variable {s t : Stretch} {mark : Punct} {nest : Lexeme → Int}

theorem isPart_of_mem_cut (h : t ∈ s.cut nest mark) : t.IsPart s :=
  Code.isPart_of_mem_cut h

theorem isPart_of_mem_parts (h : t ∈ s.parts mark) : t.IsPart s :=
  isPart_of_mem_cut (List.mem_filter.mp h).1

theorem ne_nil_of_mem_parts (h : t ∈ s.parts mark) : t.lexemes ≠ [] := by
  have h := (List.mem_filter.mp h).2
  simpa [isEmpty] using h

end Stretch
end CLint
