import CLint.Rule.Indentation
import Mathlib

namespace CLint

namespace Probe

variable {p : Probe} {q : Fin 8}

theorem word_lt (n : Int) : word n < 0x10000000000000000 := by
  rw [word]
  omega

-- With nothing left of the word, the places follow each other in one circle.
theorem mem_places_eight (h : p.rest = 0) : q ∈ p.places 8 := by
  have hcircle : ∀ a b : Fin 8, b ∈ (Probe.mk a 0).places 8 := by decide
  obtain ⟨place, rest⟩ := p
  obtain rfl : rest = 0 := h
  exact hcircle place q

theorem mem_places (count : Nat) (h : p.rest < 32 ^ count) : q ∈ p.places (8 + count) := by
  induction count generalizing p with
  | zero => exact mem_places_eight (Nat.lt_one_iff.mp h)
  | succ count ih =>
    refine List.mem_cons_of_mem p.place (ih ?_)
    exact Nat.div_lt_of_lt_mul (by rwa [← Nat.pow_succ'])

theorem mem_places_first (n : Int) (q : Fin 8) : q ∈ (first n).places 21 :=
  mem_places 13 (Nat.lt_trans (word_lt n) (by decide))

end Probe

namespace NumberSet

variable {s : NumberSet} {n m : Int} {ns : List Int}

-- The places that are taken.
def taken (s : NumberSet) : Finset (Fin 8) :=
  Finset.univ.filter fun p => (s.entry p).isSome

def Holds (s : NumberSet) (n : Int) : Prop :=
  ∃ p, s.entry p = some n

theorem exists_placeFor? (h : s.taken.card < 8) : ∃ p, s.placeFor? n = some p := by
  obtain ⟨p, hp⟩ : ∃ p, p ∉ s.taken := by
    by_contra hall
    push Not at hall
    have huniv := Finset.eq_univ_iff_forall.mpr hall
    rw [huniv, Finset.card_univ, Fintype.card_fin] at h
    omega
  refine Option.isSome_iff_exists.mp (List.find?_isSome.mpr ⟨p, Probe.mem_places_first n p, ?_⟩)
  have hnone : s.entry p = none := by simpa [taken] using hp
  rw [hnone]
  rfl

-- Nothing is lost when a number is put where there is nothing but it.
theorem holds_insert (h : s.taken.card < 8) : (s.insert n).Holds m ↔ m = n ∨ s.Holds m := by
  obtain ⟨p, hp⟩ := exists_placeFor? (n := n) h
  have hfree := List.find?_some hp
  simp only [insert, hp, Holds]
  constructor
  case mp =>
    rintro ⟨q, hq⟩
    split at hq
    case isTrue => exact .inl (Option.some.inj hq).symm
    case isFalse => exact .inr ⟨q, hq⟩
  case mpr =>
    rintro (rfl | ⟨q, hq⟩)
    · exact ⟨p, if_pos rfl⟩
    · by_cases hqp : q = p
      · subst hqp
        simp only [hq, Option.all_some, decide_eq_true_eq] at hfree
        exact ⟨q, by rw [if_pos rfl, hfree]⟩
      · exact ⟨q, by rw [if_neg hqp, hq]⟩

theorem card_taken_insert_le : (s.insert n).taken.card ≤ s.taken.card + 1 := by
  rw [insert]
  split
  case h_1 p _ =>
    refine (Finset.card_le_card fun q hq => ?_).trans (Finset.card_insert_le p s.taken)
    by_cases hqp : q = p
    · exact hqp ▸ Finset.mem_insert_self ..
    · refine Finset.mem_insert_of_mem ?_
      simpa [taken, hqp] using hq
  case h_2 => exact Nat.le_succ _

theorem holds_foldl_insert (h : s.taken.card + ns.length ≤ 8) :
    (ns.foldl insert s).Holds m ↔ m ∈ ns ∨ s.Holds m := by
  induction ns generalizing s with
  | nil => simp
  | cons n ns ih =>
    rw [List.length_cons] at h
    have hcard := card_taken_insert_le (s := s) (n := n)
    rw [List.foldl_cons, ih (by omega), holds_insert (by omega), List.mem_cons]
    tauto

theorem mem_toList : n ∈ s.toList ↔ s.Holds n := by
  simp [toList, Holds, List.mem_filterMap]

theorem mem_toList_ofList (h : ns.length ≤ 8) : n ∈ (ofList ns).toList ↔ n ∈ ns := by
  have hempty : ¬empty.Holds n := fun ⟨_, hp⟩ => nomatch hp
  have hcard : empty.taken.card = 0 := rfl
  rw [mem_toList, ofList, holds_foldl_insert (by omega)]
  simp [hempty]

end NumberSet

namespace Rule.Margin

variable {actual n : Int} {ns : List Int}

-- The nearest value is nearer than those before it, and as near as those behind it.
theorem exists_nearest (actual best : Int) (ns : List Int) :
    ∃ before after, best :: ns = before ++ nearest actual best ns :: after ∧
      (∀ n ∈ before, (nearest actual best ns - actual).natAbs < (n - actual).natAbs) ∧
      ∀ n ∈ after, (nearest actual best ns - actual).natAbs ≤ (n - actual).natAbs := by
  induction ns generalizing best with
  | nil => exact ⟨[], [], rfl, by simp, by simp⟩
  | cons n ns ih =>
    rw [nearest]
    split
    case isTrue hn =>
      obtain ⟨before, after, happ, hbefore, hafter⟩ := ih n
      generalize nearest actual n ns = x at happ hbefore hafter ⊢
      refine ⟨best :: before, after, by rw [happ, List.cons_append], ?_, hafter⟩
      refine List.forall_mem_cons.mpr ⟨Nat.lt_of_le_of_lt ?_ hn, hbefore⟩
      cases before with
      | nil => exact Nat.le_of_eq (by rw [(List.cons.inj happ).1])
      | cons => exact Nat.le_of_lt (hbefore n ((List.cons.inj happ).1 ▸ List.mem_cons_self))
    case isFalse hn =>
      obtain ⟨before, after, happ, hbefore, hafter⟩ := ih best
      generalize nearest actual best ns = x at happ hbefore hafter ⊢
      cases before with
      | nil =>
        obtain ⟨rfl, rfl⟩ := List.cons.inj happ
        exact ⟨[], n :: ns, rfl, by simp, List.forall_mem_cons.mpr ⟨Nat.le_of_not_lt hn, hafter⟩⟩
      | cons b before =>
        obtain ⟨rfl, rfl⟩ := List.cons.inj happ
        obtain ⟨hbest, hbefore⟩ := List.forall_mem_cons.mp hbefore
        refine ⟨best :: n :: before, after, rfl, ?_, hafter⟩
        exact List.forall_mem_cons.mpr ⟨hbest,
          List.forall_mem_cons.mpr ⟨Nat.lt_of_lt_of_le hbest (Nat.le_of_not_lt hn), hbefore⟩⟩

-- What is expected is allowed and none of the allowed values is nearer. It comes before all others
-- that are as near.
theorem exists_closest (actual : Int) (h : ns ≠ []) (hns : ns.length ≤ 8) :
    ∃ before after, (NumberSet.ofList ns).toList = before ++ closest actual ns :: after ∧
      (∀ n ∈ before, (closest actual ns - actual).natAbs < (n - actual).natAbs) ∧
      ∀ n ∈ after, (closest actual ns - actual).natAbs ≤ (n - actual).natAbs := by
  obtain ⟨n, hn⟩ := List.exists_mem_of_ne_nil ns h
  have hmem := (NumberSet.mem_toList_ofList hns).mpr hn
  obtain ⟨o, os, hoptions⟩ := List.exists_cons_of_ne_nil (List.ne_nil_of_mem hmem)
  have hclosest : closest actual ns = nearest actual o os := by
    rw [closest, hoptions, List.headD_cons, nearest, if_neg (Nat.lt_irrefl _)]
  rw [hoptions, hclosest]
  exact exists_nearest actual o os

theorem closest_mem (h : ns ≠ []) (hns : ns.length ≤ 8) : closest actual ns ∈ ns := by
  obtain ⟨before, after, happ, -⟩ := exists_closest actual h hns
  rw [← NumberSet.mem_toList_ofList hns, happ]
  exact List.mem_append_right before List.mem_cons_self

theorem natAbs_closest_le (actual : Int) (hns : ns.length ≤ 8) (hn : n ∈ ns) :
    (closest actual ns - actual).natAbs ≤ (n - actual).natAbs := by
  obtain ⟨before, after, happ, hbefore, hafter⟩ :=
    exists_closest actual (List.ne_nil_of_mem hn) hns
  rw [← NumberSet.mem_toList_ofList hns, happ, List.mem_append, List.mem_cons] at hn
  rcases hn with hn | rfl | hn
  · exact Nat.le_of_lt (hbefore n hn)
  · exact Nat.le_refl _
  · exact hafter n hn

-- Of 8 and 4, which are equally near, 8 stands at the first place.
example : closest 6 [8, 4] = 8 := by decide

theorem closest_eq_self_iff (h : ns ≠ []) (hns : ns.length ≤ 8) :
    closest actual ns = actual ↔ actual ∈ ns := by
  refine ⟨fun hc => hc ▸ closest_mem h hns, fun hn => ?_⟩
  have hle := natAbs_closest_le actual hns hn
  omega

theorem closest_singleton (actual n : Int) : closest actual [n] = n :=
  List.mem_singleton.mp (closest_mem (List.cons_ne_nil n []) (Nat.le_add_left 1 7))

section Allowed

variable (m : Margin) (width : Int) (t : Token) (following : Option Token)

theorem allowed_ne_nil : m.allowed width t following ≠ [] := by
  fun_cases allowed m width t following <;> simp

theorem length_allowed_le : (m.allowed width t following).length ≤ 3 := by
  fun_cases allowed m width t following <;> simp

theorem closest_eq_self_allowed_iff :
    closest actual (m.allowed width t following) = actual ↔
      actual ∈ m.allowed width t following :=
  closest_eq_self_iff (allowed_ne_nil m width t following)
    (Nat.le_trans (length_allowed_le m width t following) (by decide))

-- A line without tabs is right just if its indentation is one of those that are allowed.
theorem checkLine_eq_none_iff {lead : List Char} (h : '\t' ∉ lead) :
    (m.checkLine width lead t following).1 = none ↔
      (lead.length : Int) ∈ m.allowed width t following := by
  rw [← closest_eq_self_allowed_iff, checkLine, List.contains_eq_mem, decide_eq_false h]
  simpa using eq_comm

end Allowed

end Rule.Margin

end CLint
