import CLint.Text.Lowercase
import Mathlib

namespace CLint.Text

variable {a : Nat × Nat × Nat × Int} {c d : Char} {cs before : List Char} {n : Nat}

-- Is a code point one of a range of capital letters?
def covers : Nat × Nat × Nat × Int → Nat → Bool
  | (first, last, step, _), n => first ≤ n && n ≤ last && (n - first) % step = 0

-- Is a code point between two bounds one of a range of capital letters? If only every second one
-- matters, then they may stand between the letters of the range.
def meets (lo hi : Nat) (everySecond : Bool) (a : Nat × Nat × Nat × Int) : Bool :=
  Nat.ble a.1 hi && Nat.ble lo a.2.1 && !(a.2.2.1 == 2 && everySecond && (lo + a.1) % 2 == 1)

-- Are the small letters of a range of capital letters not capital letters themselves?
def staysClear (a : Nat × Nat × Nat × Int) : Bool :=
  let (first, last, step, distance) := a
  !capitalRanges.toList.any
    (meets (first + distance).toNat (last + distance).toNat (step == 2 || first == last))

-- Are they characters outside of the capital letters of ASCII, and different from the one whose
-- small form has two characters?
def isRegular (a : Nat × Nat × Nat × Int) : Bool :=
  let lo := a.1 + a.2.2.2
  let hi := a.2.1 + a.2.2.2
  (90 < lo && hi < 0x130) || (0x130 < lo && hi < 0xd800) || (0xdfff < lo && hi < 0x110000)

theorem staysClear_capitalRanges : ∀ a ∈ capitalRanges.toList, staysClear a := by
  simp only [← List.all_eq_true]
  decide +kernel

theorem isRegular_capitalRanges : ∀ a ∈ capitalRanges.toList, isRegular a := by
  simp only [← List.all_eq_true]
  decide +kernel

theorem not_covers_add (ha : a ∈ capitalRanges.toList) (hn : covers a n) :
    ∀ b ∈ capitalRanges.toList, covers b (n + a.2.2.2).toNat = false := by
  intro b hb
  have hr := isRegular_capitalRanges a ha
  have hs := staysClear_capitalRanges a ha
  rw [staysClear, Bool.not_eq_true', List.any_eq_false] at hs
  have hs := hs b hb
  obtain ⟨first, last, step, distance⟩ := a
  obtain ⟨first', last', step', _⟩ := b
  simp only [isRegular, Bool.or_eq_true, Bool.and_eq_true, decide_eq_true_eq] at hr
  simp only [covers, Bool.and_eq_true, decide_eq_true_eq] at hn
  simp only [meets, Bool.and_eq_true, Nat.ble_eq, Bool.not_eq_true', ← Bool.not_eq_true,
    Bool.or_eq_true, beq_iff_eq] at hs
  rw [← Bool.not_eq_true]
  simp only [covers, Bool.and_eq_true, decide_eq_true_eq]
  rintro ⟨⟨hlo, hhi⟩, hstep⟩
  by_cases hbetween : step' = 2 ∧ (step = 2 ∨ first = last)
  case neg => exact hs ⟨⟨by omega, by omega⟩, fun hb => hbetween hb.1⟩
  case pos =>
    obtain ⟨rfl, rfl | rfl⟩ := hbetween <;> omega

theorem smallLetter_eq_or (hc : 128 ≤ c.toNat) :
    (smallLetter c = c ∧ ∀ a ∈ capitalRanges.toList, covers a c.toNat = false) ∨
      ∃ a ∈ capitalRanges.toList, covers a c.toNat ∧
        smallLetter c = Char.ofNat (c.toNat + a.2.2.2).toNat := by
  rw [smallLetter, if_neg (Nat.not_lt.mpr hc)]
  split
  case h_1 first last step distance hfind =>
    have hmem := Array.mem_of_find?_eq_some hfind
    have hcovers := Array.find?_some hfind
    exact .inr ⟨_, Array.mem_toList_iff.mpr hmem, hcovers, rfl⟩
  case h_2 hfind =>
    refine .inl ⟨rfl, fun a ha => ?_⟩
    exact Bool.eq_false_iff.mpr (Array.find?_eq_none.mp hfind a (Array.mem_toList_iff.mp ha))

theorem smallLetter_eq_self (hc : c.toNat < 65 ∨ 90 < c.toNat)
    (h : ∀ a ∈ capitalRanges.toList, covers a c.toNat = false) : smallLetter c = c := by
  rcases Nat.lt_or_ge c.toNat 128 with hascii | hascii
  · rw [smallLetter, if_pos hascii]
    refine Char.toLower_eq_of_not_isUpper ?_
    simp only [Char.isUpper, decide_eq_true_eq, ge_iff_le, UInt32.le_iff_toNat_le, Char.toNat_val]
    have hbounds : 'A'.toNat = 65 ∧ 'Z'.toNat = 90 := ⟨rfl, rfl⟩
    omega
  · rcases smallLetter_eq_or hascii with ⟨heq, -⟩ | ⟨a, ha, hcovers, -⟩
    · exact heq
    · exact absurd (hcovers.symm.trans (h a ha)) (by decide)

-- The small letter of a capital letter that is not of ASCII is a character outside of all ranges.
theorem isRegular_ofNat (ha : a ∈ capitalRanges.toList) (hn : covers a n) :
    let d := Char.ofNat (n + a.2.2.2).toNat
    d.toNat = (n + a.2.2.2).toNat ∧ 90 < d.toNat ∧ d ≠ '\u0130' := by
  have hr := isRegular_capitalRanges a ha
  obtain ⟨first, last, step, distance⟩ := a
  simp only [isRegular, Bool.or_eq_true, Bool.and_eq_true, decide_eq_true_eq] at hr
  simp only [covers, Bool.and_eq_true, decide_eq_true_eq] at hn
  have hvalid : (n + distance).toNat.isValidChar := by
    rw [Nat.isValidChar]
    omega
  simp only [Char.toNat_ofNat, if_pos hvalid, true_and]
  refine ⟨by omega, fun h => ?_⟩
  have hdotted : '\u0130'.toNat = 0x130 := rfl
  rw [← h, Char.toNat_ofNat, if_pos hvalid] at hdotted
  omega

-- A small letter stays as it is when it is made small once more.
def IsSmall (c : Char) : Prop :=
  lowerChar c = [c]

theorem isSmall_iff : IsSmall c ↔ c ≠ '\u0130' ∧ smallLetter c = c := by
  rw [IsSmall, lowerChar]
  split
  case isTrue h => simp [h]
  case isFalse h => simp [h]

theorem isSmall_of_not_covers (hd : c ≠ '\u0130') (hc : 90 < c.toNat)
    (h : ∀ a ∈ capitalRanges.toList, covers a c.toNat = false) : IsSmall c :=
  isSmall_iff.mpr ⟨hd, smallLetter_eq_self (.inr hc) h⟩

theorem not_covers_of_isSmall (hc : 128 ≤ c.toNat) (h : IsSmall c) :
    ∀ a ∈ capitalRanges.toList, covers a c.toNat = false := by
  rcases smallLetter_eq_or hc with ⟨-, hall⟩ | ⟨a, ha, hcovers, heq⟩
  · exact hall
  · have hsame := (isRegular_ofNat ha hcovers).1
    rw [← heq, (isSmall_iff.mp h).2] at hsame
    rw [hsame]
    exact not_covers_add ha hcovers

theorem isSmall_toLower (hc : c.toNat < 128) : IsSmall c.toLower := by
  have hlt : c.toLower.toNat < 128 := by
    by_cases h : c.isUpper
    · rw [Char.toLower_eq_of_isUpper h, Char.toNat_ofNat]
      simp only [Char.isUpper, decide_eq_true_eq, ge_iff_le, UInt32.le_iff_toNat_le,
        Char.toNat_val] at h
      have hbounds : 'A'.toNat = 65 ∧ 'Z'.toNat = 90 := ⟨rfl, rfl⟩
      split <;> omega
    · rwa [Char.toLower_eq_of_not_isUpper h]
  rw [isSmall_iff, smallLetter, if_pos hlt]
  refine ⟨fun h => ?_, Char.toLower_toLower_eq_toLower c⟩
  rw [h] at hlt
  exact absurd hlt (by decide)

theorem isSmall_smallLetter (hc : c ≠ '\u0130') : IsSmall (smallLetter c) := by
  rcases Nat.lt_or_ge c.toNat 128 with hascii | hascii
  · rw [smallLetter, if_pos hascii]
    exact isSmall_toLower hascii
  · rcases smallLetter_eq_or hascii with ⟨heq, -⟩ | ⟨a, ha, hcovers, heq⟩
    · rw [heq]
      exact isSmall_iff.mpr ⟨hc, heq⟩
    · obtain ⟨hsame, hlt, hd⟩ := isRegular_ofNat ha hcovers
      rw [heq]
      refine isSmall_of_not_covers hd hlt ?_
      rw [hsame]
      exact not_covers_add ha hcovers

theorem isSmall_dot : IsSmall '\u0307' := by
  refine isSmall_of_not_covers (by decide) (by decide) ?_
  simp only [← Bool.not_eq_true', ← List.all_eq_true]
  decide +kernel

theorem isSmall_finalSigma : IsSmall 'ς' := by
  refine isSmall_of_not_covers (by decide) (by decide) ?_
  simp only [← Bool.not_eq_true', ← List.all_eq_true]
  decide +kernel

theorem ne_sigma_of_isSmall (h : IsSmall c) : c ≠ 'Σ' := by
  rintro rfl
  have hcovers : capitalRanges.toList.any (covers · 'Σ'.toNat) := by decide +kernel
  obtain ⟨a, ha, hcovers⟩ := List.any_eq_true.mp hcovers
  exact absurd (hcovers.symm.trans (not_covers_of_isSmall (by decide) h a ha)) (by decide)

-- What is made small consists of small letters only.
theorem forall_isSmall_lowerChar (c : Char) : ∀ d ∈ lowerChar c, IsSmall d := by
  rw [lowerChar]
  split
  case isTrue => exact List.forall_mem_cons.mpr ⟨rfl, List.forall_mem_singleton.mpr isSmall_dot⟩
  case isFalse h => exact List.forall_mem_singleton.mpr (isSmall_smallLetter h)

theorem forall_isSmall_lowerBehind (before cs : List Char) :
    ∀ c ∈ lowerBehind before cs, IsSmall c := by
  induction cs generalizing before with
  | nil => exact List.forall_mem_nil _
  | cons c cs ih =>
    rw [lowerBehind, List.forall_mem_append]
    refine ⟨?_, ih (c :: before)⟩
    split
    case isTrue => exact List.forall_mem_singleton.mpr isSmall_finalSigma
    case isFalse => exact forall_isSmall_lowerChar c

theorem lowerBehind_eq_self (h : ∀ c ∈ cs, IsSmall c) (before : List Char) :
    lowerBehind before cs = cs := by
  induction cs generalizing before with
  | nil => rfl
  | cons c cs ih =>
    obtain ⟨hc, hcs⟩ := List.forall_mem_cons.mp h
    rw [lowerBehind, ih hcs, if_neg (by simp [ne_sigma_of_isSmall hc]), hc]
    rfl

-- To make a text small twice is to do it once.
theorem lower_lower (s : String) : lower (lower s) = lower s := by
  rw [lower, lower, lowerChars, lowerChars, String.toList_ofList]
  exact congrArg String.ofList (lowerBehind_eq_self (forall_isSmall_lowerBehind [] _) [])

end CLint.Text
