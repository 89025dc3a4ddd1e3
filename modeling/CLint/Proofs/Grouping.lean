import CLint.Outline
import Mathlib.Data.List.Basic

namespace CLint.Outline

variable {σ τ : Type} {n : Nat}

-- The numbering of batches, from a given number on.
def groupedFrom (n : Nat) (batches : List (List (Declaration σ))) : List (Declaration σ) :=
  (batches.zipIdx n).flatMap fun (batch, k) => batch.map ({ · with group := k })

theorem groupedFrom_append (n : Nat) (as bs : List (List (Declaration σ))) :
    groupedFrom n (as ++ bs) = groupedFrom n as ++ groupedFrom (n + as.length) bs := by
  rw [groupedFrom, List.zipIdx_append, List.flatMap_append]
  rfl

-- What is numbered in groups is, apart from its number, what was given.
theorem mem_of_mem_groupedFrom {batches : List (List (Declaration σ))} {d : Declaration σ}
    (h : d ∈ groupedFrom n batches) : ∃ b ∈ batches, ∃ d' ∈ b, ∃ k, d = { d' with group := k } ∧
      n ≤ k ∧ k < n + batches.length := by
  obtain ⟨⟨b, k⟩, hb, hd⟩ := List.mem_flatMap.mp h
  obtain ⟨d', hd', rfl⟩ := List.mem_map.mp hd
  have hk := List.mem_zipIdx hb
  exact ⟨b, List.fst_mem_of_mem_zipIdx hb, d', hd', k, rfl, hk.1, hk.2.1⟩

theorem mem_of_mem_grouped {batches : List (List (Declaration σ))} {d : Declaration σ}
    (h : d ∈ grouped batches) : ∃ b ∈ batches, ∃ d' ∈ b, ∃ k, d = { d' with group := k } := by
  obtain ⟨b, hb, d', hd', k, hk, _⟩ := mem_of_mem_groupedFrom h
  exact ⟨b, hb, d', hd', k, hk⟩

theorem groupedFrom_map {f : Declaration σ → Declaration τ}
    (hf : ∀ d k, f { d with group := k } = { f d with group := k }) (n : Nat)
    (batches : List (List (Declaration σ))) :
    groupedFrom n (batches.map (·.map f)) = (groupedFrom n batches).map f := by
  rw [groupedFrom, groupedFrom, List.zipIdx_map, List.flatMap_map, List.map_flatMap]
  refine List.flatMap_congr fun b _ => ?_
  simp only [Prod.map, id, List.map_map]
  exact List.map_congr_left fun d _ => (hf d b.2).symm

theorem grouped_map {f : Declaration σ → Declaration τ}
    (hf : ∀ d k, f { d with group := k } = { f d with group := k })
    (batches : List (List (Declaration σ))) :
    grouped (batches.map (·.map f)) = (grouped batches).map f :=
  groupedFrom_map hf 1 batches

-- A declaration with another number for its group.
def regroup (f : Nat → Nat) (d : Declaration σ) : Declaration σ :=
  { d with group := f d.group }

theorem groupedFrom_add (n k : Nat) (batches : List (List (Declaration σ))) :
    groupedFrom (n + k) batches = (groupedFrom n batches).map (regroup (· + k)) := by
  induction batches generalizing n with
  | nil => rfl
  | cons b bs ih =>
    have hcons : ∀ n, groupedFrom n (b :: bs) =
        b.map ({ · with group := n }) ++ groupedFrom (n + 1) bs := fun n => rfl
    rw [hcons, hcons, List.map_append, Nat.add_right_comm, ih, List.map_map]
    rfl

theorem groupedFrom_regroup {f : Nat → Nat} {k : Nat} {batches : List (List (Declaration σ))}
    (h : ∀ i, n ≤ i → i < n + batches.length → f i = i + k) :
    (groupedFrom n batches).map (regroup f) = groupedFrom (n + k) batches := by
  rw [groupedFrom_add]
  refine List.map_congr_left fun d hd => ?_
  obtain ⟨_, _, _, _, i, rfl, hle, hlt⟩ := mem_of_mem_groupedFrom hd
  simp only [regroup, h i hle hlt]

end CLint.Outline
