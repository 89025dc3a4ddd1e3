import CLint.Proofs.Extents.Matched
import Mathlib.Data.List.Forall2

namespace CLint

open Code

namespace Operand

-- Code that an operand may be: its brackets match, and nothing outside of them ends an operand.
def IsWhole (opens closes : Lexeme → Bool) : List Lexeme → Prop :=
  Matched opens closes fun l => l.isOperandBoundary = false

-- The longest such code at the front of what is read.
structure IsLongest (opens closes : Lexeme → Bool) (ls taken : List Lexeme) : Prop where
  isPrefix : taken <+: ls
  whole : IsWhole opens closes taken
  longest : ∀ as, as <+: ls → IsWhole opens closes as → as.length ≤ taken.length

variable {opens closes : Lexeme → Bool} {p : Lexeme → Prop} {depth n : Nat}
  {as bs ls : List Lexeme}

theorem extent_append (hs : ∀ l, closes l → opens l = false) (h : Matched opens closes p ls)
    (hp : depth = 0 → ∀ l, p l → l.isOperandBoundary = false) (rest : List Lexeme) :
    extent opens closes depth (ls ++ rest) = ls ++ extent opens closes depth rest := by
  induction h generalizing depth rest with
  | nil => rfl
  | @plain p l ls ho hc hl _ ih =>
    have hstop : (decide (depth = 0) && l.isOperandBoundary) = false := by
      cases depth with
      | zero => exact hp rfl l hl
      | succ n => rfl
    simp [extent, ho, hc, hstop, ih hp]
  | @group p o c inner ls ho hc _ _ ihi ih =>
    have hinner := @ihi (depth + 1) (fun h => absurd h (Nat.succ_ne_zero depth))
    simp [extent, ho, hc, hs c hc, hinner, ih hp]

-- Whatever follows an operand closes a bracket or is a boundary, if anything follows.
theorem exists_front (hs : ∀ l, closes l → opens l = false) (h : Trailing opens closes n ls) :
    ∃ front rest, ls = front ++ rest ∧ IsWhole opens closes front ∧
      extent opens closes 0 rest = [] := by
  have hfirst : ∃ first rest, ls = first ++ rest ∧ Matched opens closes (fun _ => True) first ∧
      extent opens closes 0 rest = [] := by
    cases h with
    | last h => exact ⟨ls, [], by simp, h, rfl⟩
    | @close n c inner ls hi hc _ =>
      exact ⟨inner, c :: ls, rfl, hi, by simp [extent, hs c hc, hc]⟩
  obtain ⟨first, rest, rfl, hm, hrest⟩ := hfirst
  rcases hm.holds_or_split fun l => l.isOperandBoundary = false with
    hm | ⟨front, l, back, rfl, hf, ho, hc, hb⟩
  · exact ⟨first, rest, rfl, hm, hrest⟩
  · exact ⟨front, l :: (back ++ rest), by simp, hf, by simp_all [extent]⟩

theorem isLongest_extent (hs : ∀ l, closes l → opens l = false) (h : Trailing opens closes n ls) :
    IsLongest opens closes ls (extent opens closes 0 ls) := by
  obtain ⟨front, rest, rfl, hfront, hrest⟩ := exists_front hs h
  have htaken : extent opens closes 0 (front ++ rest) = front := by
    rw [extent_append hs hfront (fun _ _ hl => hl), hrest, List.append_nil]
  rw [htaken]
  refine ⟨List.prefix_append .., hfront, fun as ⟨more, has⟩ hm => ?_⟩
  rw [← has, extent_append hs hm (fun _ _ hl => hl)] at htaken
  rw [← htaken, List.length_append]
  exact Nat.le_add_right ..

theorem not_opener_of_closer (l : Lexeme) (h : l.isCloser) : l.isOpener = false := by
  cases l with
  | punct p => cases p <;> first | rfl | cases h
  | _ => rfl

theorem isLongest_forward (h : Matched Lexeme.isOpener Lexeme.isCloser p (as ++ ls)) :
    IsLongest Lexeme.isOpener Lexeme.isCloser ls (forward ls) := by
  obtain ⟨n, hn⟩ := h.exists_trailing rfl
  exact isLongest_extent not_opener_of_closer hn

theorem isLongest_backward (h : Matched Lexeme.isOpener Lexeme.isCloser p (ls ++ bs)) :
    IsLongest Lexeme.isCloser Lexeme.isOpener ls.reverse (backward ls.reverse) := by
  obtain ⟨n, hn⟩ := h.reverse.exists_trailing List.reverse_append
  refine isLongest_extent (fun l ho => eq_false_of_ne_true fun hc => ?_) hn
  exact Bool.noConfusion (ho.symm.trans (not_opener_of_closer l hc))

end Operand

namespace Comparison

variable {constants : List String} {s : Stretch} {c : Comparison Run} {n : Nat} {l : Lexeme}
  {before ls : List Lexeme}

theorem exists_of?_iff {place : Nat} {before after : List Lexeme} :
    (∃ c, of? constants place before l after = some c) ↔
      l.isComparison ∧ Operand.backward before ≠ [] ∧ Operand.forward after ≠ [] := by
  cases l with
  | punct p => simp [of?, Lexeme.isComparison, and_assoc]
  | _ => simp [of?, Lexeme.isComparison]

-- Where the operands of a comparison are.
theorem spans_of_of? {place : Nat} {before after : List Lexeme}
    (h : of? constants place before l after = some c) :
    let first := place - (Operand.backward before).length
    let last := place + (Operand.forward after).length
    l = .punct c.operator ∧ c.left.span = ⟨first, place - 1⟩ ∧
      c.right.span = ⟨place + 1, last⟩ ∧ c.span = ⟨first, last⟩ := by
  unfold of? at h
  split at h
  case h_2 => cases h
  case h_1 p =>
    dsimp only at h
    split at h <;> cases h
    exact ⟨rfl, rfl, rfl, rfl⟩

-- The comparison is that by the operator with the number `n`.
def IsAt (constants : List String) (s : Stretch) (n : Nat) (c : Comparison Run) : Prop :=
  ∃ before l after, s.lexemes = before ++ l :: after ∧ n = s.start + before.length ∧
    of? constants n before.reverse l after = some c

theorem isAt_iff (hs : s.lexemes = before ++ l :: ls) :
    IsAt constants s (s.start + before.length) c ↔
      of? constants (s.start + before.length) before.reverse l ls = some c := by
  refine ⟨fun ⟨front, m, after, hsplit, hn, h⟩ => ?_, fun h => ⟨before, l, ls, hs, rfl, h⟩⟩
  obtain ⟨rfl, hcons⟩ := List.append_inj (hs.symm.trans hsplit) (Nat.add_left_cancel hn)
  obtain ⟨rfl, rfl⟩ := List.cons.inj hcons
  exact h

theorem IsAt.lt (h : IsAt constants s n c) : n < s.start + s.length := by
  obtain ⟨before, l, after, hs, rfl, -⟩ := h
  simp only [Stretch.length, hs, List.length_append, List.length_cons]
  omega

-- The comparisons that are found from some place on are those at the operators from there on, in
-- their order.
theorem exists_places_listFrom (constants : List String) (hs : s.lexemes = before ++ ls) :
    ∃ ns : List Nat, ns.Pairwise (· < ·) ∧
      (∀ n, n ∈ ns ↔ s.start + before.length ≤ n ∧ ∃ c, IsAt constants s n c) ∧
      List.Forall₂ (IsAt constants s) ns
        (listFrom constants (s.start + before.length) before.reverse ls) := by
  induction ls generalizing before with
  | nil =>
    refine ⟨[], .nil, fun n => ⟨nofun, fun ⟨hle, c, hc⟩ => ?_⟩, .nil⟩
    have := hc.lt
    simp only [Stretch.length, hs, List.append_nil] at this
    omega
  | cons l ls ih =>
    have hbehind : s.lexemes = before ++ [l] ++ ls := by simp [hs]
    obtain ⟨ns, hsorted, hmem, hall⟩ := ih hbehind
    simp only [List.length_append, List.length_singleton, List.reverse_append,
      List.reverse_singleton, List.singleton_append, ← Nat.add_assoc] at hmem hall
    have hiff : ∀ c, IsAt constants s (s.start + before.length) c ↔ _ := fun c => isAt_iff hs
    rw [listFrom]
    cases hof : of? constants (s.start + before.length) before.reverse l ls with
    | none =>
      refine ⟨ns, hsorted, fun n => ⟨fun h => ?_, fun ⟨hle, c, hc⟩ => ?_⟩, hall⟩
      · exact ⟨by have := ((hmem n).mp h).1; omega, ((hmem n).mp h).2⟩
      · have hne : n ≠ s.start + before.length := by
          rintro rfl
          simp [hiff, hof] at hc
        exact (hmem n).mpr ⟨by omega, c, hc⟩
    | some c =>
      refine ⟨(s.start + before.length) :: ns, ?_, fun n => ?_, .cons ((hiff c).mpr hof) hall⟩
      · exact List.pairwise_cons.mpr ⟨fun n hn => ((hmem n).mp hn).1, hsorted⟩
      · rw [List.mem_cons, hmem]
        constructor
        · rintro (rfl | ⟨hle, hn⟩)
          · exact ⟨Nat.le_refl _, c, (hiff c).mpr hof⟩
          · exact ⟨by omega, hn⟩
        · rintro ⟨hle, hn⟩
          rcases Nat.eq_or_lt_of_le hle with rfl | hlt
          · exact .inl rfl
          · exact .inr ⟨hlt, hn⟩

theorem exists_places (constants : List String) (s : Stretch) :
    ∃ ns : List Nat, ns.Pairwise (· < ·) ∧ (∀ n, n ∈ ns ↔ ∃ c, IsAt constants s n c) ∧
      List.Forall₂ (IsAt constants s) ns (listOf constants s) := by
  have hs : s.lexemes = [] ++ s.lexemes := rfl
  obtain ⟨ns, hsorted, hmem, hall⟩ := exists_places_listFrom constants hs
  refine ⟨ns, hsorted, fun n => (hmem n).trans ⟨fun h => h.2, fun ⟨c, hc⟩ => ⟨?_, c, hc⟩⟩, hall⟩
  obtain ⟨before, l, after, -, rfl, -⟩ := hc
  exact Nat.le_add_right ..

end Comparison
end CLint
