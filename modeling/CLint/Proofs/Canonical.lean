import CLint.Proofs.Aggregation
import Mathlib.Data.Prod.Lex
import Mathlib.Data.String.Basic
import Mathlib.Data.List.Forall2

namespace CLint

namespace Finding

variable {a b f g : Finding} {fs gs : List Finding}

-- What a finding is sorted by, and what duplicates have in common.
def key (f : Finding) : String ×ₗ Int ×ₗ Int ×ₗ String ×ₗ String :=
  toLex (f.path, toLex (f.line, toLex (f.column, toLex (f.rule, f.message))))

theorem order_eq_lt_iff : order a b = .lt ↔ a.key < b.key := by
  simp only [order, key, Prod.Lex.toLex_lt_toLex, Ordering.then_eq_lt, compare_lt_iff_lt,
    compare_eq_iff_eq]

theorem order_eq_eq_iff : order a b = .eq ↔ a.key = b.key := by
  simp only [order, key, Ordering.then_eq_eq, compare_eq_iff_eq, EmbeddingLike.apply_eq_iff_eq,
    Prod.mk.injEq]

theorem same_iff_key_eq : same a b ↔ a.key = b.key :=
  same_iff.trans order_eq_eq_iff

theorem same_self (f : Finding) : same f f :=
  same_iff_key_eq.mpr rfl

theorem same_eq_same (h : same a b) (f : Finding) : same f a = same f b := by
  rw [Bool.eq_iff_iff, same_iff_key_eq, same_iff_key_eq, same_iff_key_eq.mp h]

-- The sorting leaves duplicates in their order.
theorem filter_same_mergeSort (f : Finding) (fs : List Finding) :
    (fs.mergeSort le).filter (same f) = fs.filter (same f) := by
  have hties : (fs.filter (same f)).Pairwise fun a b => le a b := by
    refine List.pairwise_of_forall_mem_list fun a ha b hb => ?_
    have hab : order a b = .eq := by
      rw [order_eq_eq_iff, ← same_iff_key_eq.mp (List.mem_filter.mp ha).2,
        ← same_iff_key_eq.mp (List.mem_filter.mp hb).2]
    rw [le_iff, hab]
    rfl
  have hsub := (List.sublist_mergeSort le_trans le_total hties List.filter_sublist).filter (same f)
  rw [List.filter_filter, List.filter_congr fun a _ => Bool.and_self _] at hsub
  refine (hsub.eq_of_length ?_).symm
  exact ((List.mergeSort_perm fs le).filter (same f)).length_eq.symm

-- Of duplicates, the first one is found as long as only later ones are dropped.
theorem find?_dropRepeats (f : Finding) (fs : List Finding) :
    (dropRepeats fs).find? (same f) = fs.find? (same f) := by
  fun_induction dropRepeats fs with
  | case1 => rfl
  | case2 g fs hd ih => rw [List.find?_cons, List.find?_cons, ← ih, hd]
  | case3 g fs h hs hd hsame ih =>
    rw [hd, List.find?_cons] at ih
    rw [List.find?_cons, List.find?_cons, ← ih, same_eq_same hsame f]
    cases same f h <;> rfl
  | case4 g fs h hs hd hsame ih =>
    rw [hd] at ih
    rw [List.find?_cons, ih, ← List.find?_cons]

theorem find?_aggregate (f : Finding) (fs : List Finding) :
    (aggregate fs).find? (same f) = fs.find? (same f) := by
  rw [aggregate, find?_dropRepeats, ← List.head?_filter, filter_same_mergeSort, List.head?_filter]

-- What is kept are those findings that no duplicate comes before.
theorem mem_aggregate_iff : f ∈ aggregate fs ↔ fs.find? (same f) = some f := by
  rw [← find?_aggregate]
  constructor
  · intro h
    obtain ⟨g, hg⟩ := Option.isSome_iff_exists.mp
      (List.find?_isSome.mpr ⟨f, h, same_self f⟩)
    have heq := eq_of_same_of_mem_aggregate h (List.mem_of_find?_eq_some hg)
      (List.find?_some hg)
    rw [hg, ← heq]
  · exact List.mem_of_find?_eq_some

-- A strictly sorted list is determined by what is in it.
theorem eq_of_pairwise_of_mem_iff (hf : fs.Pairwise fun a b => order a b = .lt)
    (hg : gs.Pairwise fun a b => order a b = .lt) (h : ∀ f, f ∈ fs ↔ f ∈ gs) : fs = gs := by
  have nodup : ∀ {l : List Finding}, (l.Pairwise fun a b => order a b = .lt) → l.Nodup :=
    fun hl => hl.imp fun hab he => by
      rw [he, order_eq_lt_iff] at hab
      exact lt_irrefl _ hab
  refine ((List.perm_ext_iff_of_nodup (nodup hf) (nodup hg)).mpr h).eq_of_pairwise ?_ hf hg
  intro a b _ _ hab hba
  rw [order_eq_lt_iff] at hab hba
  exact absurd hab hba.asymm

-- The first finding of each key is all that matters.
theorem aggregate_ext (h : ∀ f, fs.find? (same f) = gs.find? (same f)) :
    aggregate fs = aggregate gs := by
  refine eq_of_pairwise_of_mem_iff (pairwise_aggregate fs) (pairwise_aggregate gs) fun f => ?_
  rw [mem_aggregate_iff, mem_aggregate_iff, h]

theorem aggregate_append_aggregate (fs gs : List Finding) :
    aggregate (aggregate fs ++ aggregate gs) = aggregate (fs ++ gs) :=
  aggregate_ext fun f => by
    rw [List.find?_append, List.find?_append, find?_aggregate, find?_aggregate]

-- Do two lists have the same findings, and those with equal keys in the same order?
structure Rearranges (fs gs : List Finding) : Prop where
  perm : fs.Perm gs
  inOrder : ∀ f : Finding, fs.filter (f.key = ·.key) = gs.filter (f.key = ·.key)

theorem filter_key_eq (f : Finding) (fs : List Finding) :
    fs.filter (f.key = ·.key) = fs.filter (same f) :=
  List.filter_congr fun g _ => by rw [Bool.eq_iff_iff, decide_eq_true_iff, same_iff_key_eq]

theorem aggregate_eq_of_rearranges (h : Rearranges fs gs) : aggregate fs = aggregate gs :=
  aggregate_ext fun f => by
    rw [← List.head?_filter, ← List.head?_filter, ← filter_key_eq, h.inOrder, filter_key_eq]

-- Batches may be aggregated each by itself before they are put together.
theorem aggregate_flatten {batches submitted : List (List Finding)}
    (h : List.Forall₂ (fun b s => s = b ∨ s = aggregate b) batches submitted) :
    aggregate submitted.flatten = aggregate batches.flatten := by
  refine aggregate_ext fun f => ?_
  induction h with
  | nil => rfl
  | @cons b s bs ss hs _ ih =>
    have hfirst : s.find? (same f) = b.find? (same f) := by
      rcases hs with rfl | rfl
      · rfl
      · exact find?_aggregate f b
    rw [List.flatten_cons, List.flatten_cons, List.find?_append, List.find?_append, hfirst, ih]

end Finding

theorem FindingStore.submitted_foldl_submit (store : FindingStore) (batches : List (List Finding)) :
    (batches.foldl submit store).submitted = store.submitted ++ batches.flatten := by
  induction batches generalizing store with
  | nil => simp
  | cons b bs ih => rw [List.foldl_cons, ih, submit, List.flatten_cons, List.append_assoc]

namespace Finding

-- Aggregated findings are strictly sorted, and of the findings of each key exactly the first one is
-- among them. It does not matter whether parts were aggregated before, nor in which order findings
-- with different keys come.
theorem aggregate_isCanonical (fs gs : List Finding) :
    ((aggregate fs).Pairwise fun a b => a.key < b.key) ∧
    (∀ f ∈ fs, ∃! g, g ∈ aggregate fs ∧ g.key = f.key) ∧
    (∀ g ∈ aggregate fs, fs.find? (g.key = ·.key) = some g) ∧
    aggregate (aggregate fs ++ aggregate gs) = aggregate (fs ++ gs) ∧
    (Rearranges fs gs → aggregate fs = aggregate gs) ∧
    ∀ batches submitted : List (List Finding),
      List.Forall₂ (fun b s => s = b ∨ s = aggregate b) batches submitted →
        (submitted.foldl FindingStore.submit {}).findings = aggregate batches.flatten := by
  have hsorted := pairwise_aggregate fs
  refine ⟨hsorted.imp order_eq_lt_iff.mp, fun f hf => ?_, fun g hg => ?_,
    aggregate_append_aggregate fs gs, aggregate_eq_of_rearranges, fun batches submitted h => ?_⟩
  · have hfound : ((aggregate fs).find? (same f)).isSome := by
      rw [find?_aggregate]
      exact List.find?_isSome.mpr ⟨f, hf, same_self f⟩
    obtain ⟨g, hg⟩ := Option.isSome_iff_exists.mp hfound
    have hkey := same_iff_key_eq.mp (List.find?_some hg)
    refine ⟨g, ⟨List.mem_of_find?_eq_some hg, hkey.symm⟩, fun a ⟨ha, hfa⟩ => ?_⟩
    exact eq_of_same_of_mem_aggregate ha (List.mem_of_find?_eq_some hg)
      (same_iff_key_eq.mpr (hfa.trans hkey))
  · rw [← List.head?_filter, filter_key_eq, List.head?_filter]
    exact mem_aggregate_iff.mp hg
  · rw [FindingStore.findings, FindingStore.submitted_foldl_submit, List.nil_append,
      aggregate_flatten h]

-- Two duplicates of which the first has a suggestion, and a finding that may stand anywhere.
theorem aggregate_isCanonical_swapped :
    let other : Finding := ⟨"no-goto", .error, "b.c", 1, 1, "goto is not allowed", none, none, none⟩
    let first : Finding := ⟨"line-length", .warning, "a.c", 2, 81, "long", "Wrap it.", none, none⟩
    let second : Finding := { first with suggestion := none }
    Rearranges [other, first, second] [first, other, second] ∧
    aggregate [other, first, second] = aggregate [first, other, second] ∧
    ([aggregate [other, first], [second]].foldl FindingStore.submit {}).findings =
      aggregate [other, first, second] ∧
    first ∈ aggregate [other, first, second] ∧ second ∉ aggregate [other, first, second] := by
  intro other first second
  have hkeys : other.key ≠ first.key := fun h => absurd (same_iff_key_eq.mpr h) (by decide)
  have hr : Rearranges [other, first, second] [first, other, second] := by
    refine ⟨.swap first other [second], fun f => ?_⟩
    by_cases hf : f.key = first.key
    · simp [hf, hkeys.symm]
    · simp [List.filter_cons, hf]
  have hb : List.Forall₂ (fun b s => s = b ∨ s = aggregate b) [[other, first], [second]]
      [aggregate [other, first], [second]] := .cons (.inr rfl) (.cons (.inl rfl) .nil)
  obtain ⟨_, _, _, _, hswap, hstore⟩ :=
    aggregate_isCanonical [other, first, second] [first, other, second]
  refine ⟨hr, hswap hr, hstore _ _ hb, mem_aggregate_iff.mpr (by decide), fun h => ?_⟩
  exact absurd (mem_aggregate_iff.mp h) (by decide)

end Finding
end CLint
