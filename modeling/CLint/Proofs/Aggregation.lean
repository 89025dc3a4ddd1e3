import CLint.Finding
import Mathlib.Data.List.Pairwise

namespace CLint.Finding

variable {a b : Finding} {fs gs : List Finding}

instance transCmp_order : Std.TransCmp order :=
  inferInstanceAs <| Std.TransCmp <| compareLex (compareOn path) <| compareLex (compareOn line) <|
    compareLex (compareOn column) <| compareLex (compareOn rule) (compareOn message)

theorem le_iff : le a b ↔ (order a b).isLE := by
  rw [le]
  cases order a b <;> decide

theorem same_iff : same a b ↔ order a b = .eq := by
  rw [same, beq_iff_eq]

theorem le_trans (a b c : Finding) (hab : le a b) (hbc : le b c) : le a c :=
  le_iff.mpr (Std.TransCmp.isLE_trans (le_iff.mp hab) (le_iff.mp hbc))

theorem le_total (a b : Finding) : le a b || le b a := by
  have hswap : order b a = (order a b).swap := Std.OrientedCmp.eq_swap
  rw [Bool.or_eq_true, le_iff, le_iff, hswap]
  cases order a b <;> decide

theorem same_of_le_of_le (hab : le a b) (hba : le b a) : same a b :=
  same_iff.mpr (Std.OrientedCmp.isLE_antisymm (le_iff.mp hab) (le_iff.mp hba))

-- Duplicates are in the same file.
theorem path_eq_of_same (h : same a b) : a.path = b.path :=
  Std.LawfulEqCmp.eq_of_compare (Ordering.then_eq_eq.mp (same_iff.mp h)).1

theorem sublist_dropRepeats (fs : List Finding) : (dropRepeats fs).Sublist fs := by
  fun_induction dropRepeats fs with
  | case1 => exact .refl _
  | case2 f fs h ih => exact List.cons_sublist_cons.mpr (List.nil_sublist _)
  | case3 f fs g gs h hs ih =>
    exact List.cons_sublist_cons.mpr ((List.sublist_cons_self g gs).trans (h ▸ ih))
  | case4 f fs g gs h hs ih => exact List.cons_sublist_cons.mpr (h ▸ ih)

-- Without its duplicates, a sorted list is strictly sorted.
theorem pairwise_dropRepeats (h : fs.Pairwise fun a b => le a b) :
    (dropRepeats fs).Pairwise fun a b => order a b = .lt := by
  fun_induction dropRepeats fs with
  | case1 => exact .nil
  | case2 f fs hd ih => exact List.pairwise_singleton ..
  | case3 f fs g gs hd hs ih =>
    have ih := hd ▸ ih (List.pairwise_cons.mp h).2
    rw [List.pairwise_cons] at ih ⊢
    refine ⟨fun x hx => ?_, ih.2⟩
    exact Std.TransCmp.lt_of_eq_of_lt (same_iff.mp hs) (ih.1 x hx)
  | case4 f fs g gs hd hs ih =>
    have hg : g ∈ fs := (sublist_dropRepeats fs).mem (hd ▸ List.mem_cons_self)
    have hle := le_iff.mp ((List.pairwise_cons.mp h).1 g hg)
    have hlt : order f g = .lt := by
      rw [same_iff] at hs
      revert hle hs
      cases order f g <;> simp
    have ih := hd ▸ ih (List.pairwise_cons.mp h).2
    refine List.pairwise_cons.mpr ⟨fun x hx => ?_, ih⟩
    cases List.mem_cons.mp hx
    case inl hx => exact hx ▸ hlt
    case inr hx => exact Std.TransCmp.lt_trans hlt ((List.pairwise_cons.mp ih).1 x hx)

theorem pairwise_aggregate (fs : List Finding) :
    (aggregate fs).Pairwise fun a b => order a b = .lt :=
  pairwise_dropRepeats (List.pairwise_mergeSort le_trans le_total fs)

theorem mem_of_mem_aggregate (h : a ∈ aggregate fs) : a ∈ fs :=
  List.mem_mergeSort.mp ((sublist_dropRepeats _).mem h)

-- Among findings that were aggregated there are no duplicates.
theorem eq_of_same_of_mem_aggregate (ha : a ∈ aggregate fs) (hb : b ∈ aggregate fs)
    (h : same a b) : a = b := by
  have hp : (aggregate fs).Pairwise fun a b => order a b ≠ .eq :=
    (pairwise_aggregate fs).imp fun hlt heq => nomatch hlt.symm.trans heq
  have : Std.Symm fun a b => order a b ≠ .eq :=
    ⟨fun _ _ hne heq => hne (Std.OrientedCmp.eq_symm heq)⟩
  by_contra hne
  exact hp.forall ha hb hne (same_iff.mp h)

-- If duplicates do not differ in anything, then it does not matter in which order they come.
theorem aggregate_eq_of_perm (h : fs.Perm gs) (hs : ∀ a ∈ fs, ∀ b ∈ fs, same a b → a = b) :
    aggregate fs = aggregate gs := by
  have hperm : (fs.mergeSort le).Perm (gs.mergeSort le) :=
    (List.mergeSort_perm ..).trans (h.trans (List.mergeSort_perm ..).symm)
  refine congrArg dropRepeats <| hperm.eq_of_pairwise (fun a b ha hb hab hba => ?_)
    (List.pairwise_mergeSort le_trans le_total fs) (List.pairwise_mergeSort le_trans le_total gs)
  exact hs a (List.mem_mergeSort.mp ha) b (h.mem_iff.mpr (List.mem_mergeSort.mp hb))
    (same_of_le_of_le hab hba)

end CLint.Finding
