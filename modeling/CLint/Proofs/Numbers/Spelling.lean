import CLint.Rule.MagicNumber
import Mathlib.Data.List.DropRight
import Mathlib.Data.List.Forall2
import Mathlib.Data.Nat.Digits.Defs
import Mathlib.Tactic.IntervalCases

namespace CLint

open List (Forall₂)

namespace Numeral

-- A character stands for a digit of a base. If it is a letter, it may have either case.
def IsDigit (base digit : Nat) (c : Char) : Prop :=
  digit < base ∧ (c = digit.digitChar ∨ c = digit.digitChar.toUpper)

-- The ways to write an integer without a suffix, by the base and the digits that they name, the
-- highest digit first. A zero that stands alone is octal.
inductive IsBare : Nat → List Nat → List Char → Prop
  | decimal {d : Nat} {ds : List Nat} {cs : List Char} :
    d ≠ 0 → Forall₂ (IsDigit 10) (d :: ds) cs → IsBare 10 (d :: ds) cs
  | octal {ds : List Nat} {cs : List Char} :
    Forall₂ (IsDigit 8) ds cs → IsBare 8 ds ('0' :: cs)
  | hexadecimal {x : Char} {ds : List Nat} {cs : List Char} :
    x = 'x' ∨ x = 'X' → ds ≠ [] → Forall₂ (IsDigit 16) ds cs → IsBare 16 ds ('0' :: x :: cs)
  | binary {b : Char} {ds : List Nat} {cs : List Char} :
    b = 'b' ∨ b = 'B' → ds ≠ [] → Forall₂ (IsDigit 2) ds cs → IsBare 2 ds ('0' :: b :: cs)

-- An integer of C, which any letters for its type may follow.
def IsInteger (base : Nat) (digits : List Nat) (text : String) : Prop :=
  ∃ bare suffix, IsBare base digits bare ∧ (∀ c ∈ suffix, c ∈ ['u', 'U', 'l', 'L']) ∧
    text.toList = bare ++ suffix

-- A decimal integer with so many digits that its value is not read.
def IsOverlong (text : String) : Prop :=
  ∃ digits, IsInteger 10 digits text ∧ digitLimit < digits.length

-- A spelling of a number that its value is read from.
def Spells (text : String) (n : Nat) : Prop :=
  ∃ base digits, IsInteger base digits text ∧ (base = 10 → digits.length ≤ digitLimit) ∧
    n = Nat.ofDigits base digits.reverse

section Digits

variable {base digit : Nat} {digits : List Nat} {c : Char} {cs : List Char}

theorem IsDigit.eq_of_lt (h : IsDigit base digit c) (hd : digit < 10) : c = digit.digitChar := by
  obtain ⟨_, rfl | rfl⟩ := h
  · rfl
  · interval_cases digit <;> rfl

theorem IsDigit.digitValue (h : IsDigit base digit c) (hb : base ≤ 16) : digitValue c = digit := by
  have hlt : digit < 16 := Nat.lt_of_lt_of_le h.1 hb
  obtain ⟨_, rfl | rfl⟩ := h <;> interval_cases digit <;> rfl

theorem IsDigit.isHexDigit (h : IsDigit base digit c) (hb : base ≤ 16) : isHexDigit c := by
  have hlt : digit < 16 := Nat.lt_of_lt_of_le h.1 hb
  obtain ⟨_, rfl | rfl⟩ := h <;> interval_cases digit <;> rfl

theorem IsDigit.not_isIntegerSuffix (h : IsDigit base digit c) (hb : base ≤ 16) :
    !isIntegerSuffix c := by
  have hlt : digit < 16 := Nat.lt_of_lt_of_le h.1 hb
  obtain ⟨_, rfl | rfl⟩ := h <;> interval_cases digit <;> rfl

theorem IsDigit.isDigit (h : IsDigit 10 digit c) : c.isDigit := by
  have hlt : digit < 10 := h.1
  rw [h.eq_of_lt hlt]
  interval_cases digit <;> rfl

theorem IsDigit.isOctalDigit (h : IsDigit 8 digit c) : isOctalDigit c := by
  have hlt : digit < 8 := h.1
  rw [h.eq_of_lt (by omega)]
  interval_cases digit <;> rfl

theorem IsDigit.isBinaryDigit (h : IsDigit 2 digit c) : isBinaryDigit c := by
  have hlt : digit < 2 := h.1
  rw [h.eq_of_lt (by omega)]
  interval_cases digit <;> rfl

theorem IsDigit.ne_zero (h : IsDigit 10 digit c) (hd : digit ≠ 0) : c ≠ '0' := by
  have hlt : digit < 10 := h.1
  rw [h.eq_of_lt hlt]
  interval_cases digit
  · exact absurd rfl hd
  all_goals decide

theorem isDigit_digitValue (h : c.isDigit) : IsDigit 10 (digitValue c) c := by
  have hc : '0'.toNat ≤ c.toNat ∧ c.toNat ≤ '9'.toNat := by
    simpa [Char.isDigit, Char.le_def, UInt32.le_iff_toNat_le] using h
  obtain ⟨n, hn⟩ : ∃ n, c.toNat = n := ⟨_, rfl⟩
  have hof : c = Char.ofNat n := by rw [← hn, Char.ofNat_toNat]
  have hlo : 48 ≤ n := hn ▸ hc.1
  have hhi : n ≤ 57 := hn ▸ hc.2
  rw [hof]
  interval_cases n <;> exact ⟨by decide, .inl rfl⟩

theorem ofDigits_eq (hb : base ≤ 16) (h : Forall₂ (IsDigit base) digits cs) :
    ofDigits base cs = Nat.ofDigits base digits.reverse := by
  suffices ∀ n, cs.foldl (fun n c => n * base + digitValue c) n =
      n * base ^ digits.length + Nat.ofDigits base digits.reverse by
    simpa [ofDigits] using this 0
  induction h with
  | nil => simp
  | @cons digit c digits cs hd _ ih =>
    intro n
    rw [List.foldl_cons, ih, hd.digitValue hb, Nat.ofDigits_reverse_cons, List.length_cons,
      Nat.pow_succ]
    ring

theorem all_of_forall₂ {p : Char → Bool} (hp : ∀ {d c}, IsDigit base d c → p c)
    (h : Forall₂ (IsDigit base) digits cs) : cs.all p := by
  induction h with
  | nil => rfl
  | cons hd _ ih => simp [hp hd, ih]

theorem ne_nil_of_forall₂ (h : Forall₂ (IsDigit base) digits cs) (hd : digits ≠ []) : cs ≠ [] := by
  rintro rfl
  exact hd (List.forall₂_nil_right_iff.mp h)

end Digits

section Bare

variable {base : Nat} {digits : List Nat} {bare suffix : List Char}

-- The characters that are read as the digits, in front of which the base is told.
theorem IsBare.integerDigits? (h : IsBare base digits bare) :
    ∃ cs, integerDigits? bare = some (base, cs) ∧ base ≤ 16 ∧ Forall₂ (IsDigit base) digits cs := by
  cases h with
  | @decimal d ds cs hd h =>
    cases h with
    | @cons _ c _ cs hc hcs =>
      refine ⟨c :: cs, ?_, by decide, .cons hc hcs⟩
      have hall := all_of_forall₂ IsDigit.isDigit hcs
      simp [Numeral.integerDigits?, hc.ne_zero hd, hc.isDigit, hall]
  | @octal ds cs h =>
    cases h with
    | nil => exact ⟨[], rfl, by decide, .nil⟩
    | @cons d c ds cs hc hcs =>
      refine ⟨c :: cs, ?_, by decide, .cons hc hcs⟩
      have hall := all_of_forall₂ IsDigit.isOctalDigit (.cons hc hcs)
      have hlt : d < 8 := hc.1
      have hx : c ≠ 'x' ∧ c ≠ 'X' ∧ c ≠ 'b' ∧ c ≠ 'B' := by
        rw [hc.eq_of_lt (by omega)]
        interval_cases d <;> decide
      simp [Numeral.integerDigits?, hx, hall]
  | @hexadecimal x ds cs hx hds h =>
    have hall := all_of_forall₂ (p := isHexDigit) (·.isHexDigit (by decide)) h
    have hne := ne_nil_of_forall₂ h hds
    exact ⟨cs, by simp [Numeral.integerDigits?, hx, hne, hall], by decide, h⟩
  | @binary b ds cs hx hds h =>
    have hall := all_of_forall₂ (p := isBinaryDigit) IsDigit.isBinaryDigit h
    have hne := ne_nil_of_forall₂ h hds
    refine ⟨cs, ?_, by decide, h⟩
    obtain rfl | rfl := hx <;> simp [Numeral.integerDigits?, hne, hall]

-- No letter of a suffix is a digit or tells a base.
theorem IsBare.all_not_isIntegerSuffix (h : IsBare base digits bare) :
    bare.all (!isIntegerSuffix ·) := by
  have all_digits {base ds cs} (h : Forall₂ (IsDigit base) ds cs) (hb : base ≤ 16) :
      cs.all (!isIntegerSuffix ·) := all_of_forall₂ (·.not_isIntegerSuffix hb) h
  cases h with
  | decimal _ h => exact all_digits h (by decide)
  | octal h =>
    have hall := all_digits h (by decide)
    exact hall
  | hexadecimal hx _ h =>
    have hall := all_digits h (by decide)
    obtain rfl | rfl := hx <;> exact hall
  | binary hb _ h =>
    have hall := all_digits h (by decide)
    obtain rfl | rfl := hb <;> exact hall

theorem dropEnd_append (hbare : bare.all (!isIntegerSuffix ·))
    (hsuffix : ∀ c ∈ suffix, isIntegerSuffix c) :
    dropEnd isIntegerSuffix (bare ++ suffix) = bare := by
  rw [dropEnd, List.reverse_append, List.dropWhile_append_of_pos (by simpa using hsuffix)]
  have hself : bare.reverse.dropWhile isIntegerSuffix = bare.reverse := by
    refine List.dropWhile_eq_self_iff.mpr fun hl => ?_
    simpa using List.all_eq_true.mp hbare _ (List.mem_reverse.mp (List.getElem_mem hl))
  rw [hself, List.reverse_reverse]

end Bare

section Integers

variable {base n : Nat} {digits : List Nat} {text : String}

theorem isIntegerSuffix_iff {c : Char} : isIntegerSuffix c ↔ c ∈ ['u', 'U', 'l', 'L'] := by
  simp [isIntegerSuffix, or_assoc]

theorem IsInteger.integer? (h : IsInteger base digits text) :
    ∃ cs, integer? text.toList = some (base, cs) ∧ base ≤ 16 ∧
      Forall₂ (IsDigit base) digits cs := by
  obtain ⟨bare, suffix, hbare, hsuffix, ht⟩ := h
  have hdrop := dropEnd_append hbare.all_not_isIntegerSuffix
    (fun c hc => isIntegerSuffix_iff.mpr (hsuffix c hc))
  rw [Numeral.integer?, ht, hdrop]
  exact hbare.integerDigits?

-- What stands behind the digits that are kept is a suffix.
theorem exists_suffix (cs : List Char) : ∃ suffix, (∀ c ∈ suffix, c ∈ ['u', 'U', 'l', 'L']) ∧
    cs = dropEnd isIntegerSuffix cs ++ suffix := by
  refine ⟨(cs.reverse.takeWhile isIntegerSuffix).reverse, fun c hc => ?_, ?_⟩
  · exact isIntegerSuffix_iff.mp (List.mem_takeWhile_imp (List.mem_reverse.mp hc))
  · rw [dropEnd, ← List.reverse_append, List.takeWhile_append_dropWhile, List.reverse_reverse]

-- Only a decimal integer is read in base ten.
theorem eq_of_integerDigits? {bare cs : List Char} (h : integerDigits? bare = some (10, cs)) :
    ∃ c ds, bare = c :: ds ∧ cs = c :: ds ∧ c ≠ '0' ∧ c.isDigit ∧ ∀ d ∈ ds, d.isDigit := by
  fun_cases Numeral.integerDigits? bare with
  | case8 c ds hc hall =>
    simp only [Numeral.integerDigits?, hall, if_true, Option.some.injEq, Prod.mk.injEq] at h
    exact ⟨c, ds, rfl, h.2.symm, hc, by simpa using hall⟩
  | case9 c ds hc hall => simp [Numeral.integerDigits?, hall] at h
  | _ => simp_all [Numeral.integerDigits?]

theorem isInteger_of_integer? {cs : List Char} (h : integer? text.toList = some (10, cs)) :
    ∃ digits, IsInteger 10 digits text ∧ digits.length = cs.length := by
  obtain ⟨suffix, hsuffix, ht⟩ := exists_suffix text.toList
  rw [Numeral.integer?] at h
  obtain ⟨c, ds, hbare, rfl, hc, hcd, hds⟩ := eq_of_integerDigits? h
  have hdigits : Forall₂ (IsDigit 10) ((c :: ds).map digitValue) (c :: ds) := by
    rw [List.forall₂_map_left_iff, List.forall₂_same]
    simpa using ⟨isDigit_digitValue hcd, fun d hd => isDigit_digitValue (hds d hd)⟩
  have hne : digitValue c ≠ 0 := by
    intro h0
    have hz := (isDigit_digitValue hcd).eq_of_lt (h0 ▸ by decide)
    rw [h0] at hz
    exact hc hz
  rw [hbare] at ht
  exact ⟨_, ⟨_, suffix, .decimal hne hdigits, hsuffix, ht⟩, by simp⟩

theorem hasValue_whole (negated : Bool) (n : Nat) (a : Int) :
    (whole n).hasValue negated a ↔ a = if negated then -(n : Int) else n := by
  cases negated <;> simp [hasValue] <;> omega

end Integers

end Numeral

namespace Rule

open Numeral

variable {base n : Nat} {digits : List Nat} {text : String}

-- A number is read as the value that it denotes, unless it is too long.
theorem numeral?_of_isInteger (h : IsInteger base digits text) :
    numeral? text = if base = 10 ∧ digitLimit < digits.length then
      .error (.tooManyDigits digits.length)
    else .ok (some (.whole (Nat.ofDigits base digits.reverse))) := by
  obtain ⟨cs, hcs, hb, hdigits⟩ := h.integer?
  simp [numeral?, hcs, hdigits.length_eq, ofDigits_eq hb hdigits]

theorem numeral?_of_spells (h : Spells text n) : numeral? text = .ok (some (.whole n)) := by
  obtain ⟨base, digits, h, hl, rfl⟩ := h
  rw [numeral?_of_isInteger h, if_neg fun ⟨hb, hlt⟩ => Nat.not_lt.mpr (hl hb) hlt]

theorem isOverlong_iff : IsOverlong text ↔ ∃ e, numeral? text = .error e := by
  constructor
  · intro ⟨digits, h, hl⟩
    exact ⟨_, by rw [numeral?_of_isInteger h, if_pos ⟨rfl, hl⟩]⟩
  · intro ⟨e, h⟩
    rw [numeral?] at h
    split at h
    next base cs hcs =>
      split at h
      next hlong =>
        simp only [Bool.and_eq_true, decide_eq_true_eq] at hlong
        obtain ⟨rfl, hl⟩ := hlong
        have ⟨digits, hdigits, hlen⟩ := isInteger_of_integer? hcs
        exact ⟨digits, hdigits, hlen ▸ hl⟩
      next => cases h
    next => cases h

end Rule
end CLint
