import CLint.Proofs.Within.Block
import Mathlib.Data.List.Basic

namespace CLint

namespace Run

-- The run begins before the other one, which lies in it or behind it.
structure Precedes (r q : Run) : Prop where
  first_lt : r.first < q.first
  last : r.last < q.first ∨ q.last ≤ r.last

-- Neither of two runs is cut by the other one, and they do not begin at the same place.
def Nests (r q : Run) : Prop :=
  r.Precedes q ∨ q.Precedes r

theorem Nests.symm {r q : Run} (h : r.Nests q) : q.Nests r :=
  Or.symm h

theorem nests_of_within {low mid mid' high : Nat} {r q : Run} (hr : r.Within low mid)
    (hq : q.Within mid' high) (h : mid ≤ mid') : r.Nests q := by
  have hlast : r.last < q.first := Nat.lt_of_lt_of_le hr.last_lt (Nat.le_trans h hq.low_le)
  exact .inl ⟨Nat.lt_of_le_of_lt hr.first_le hlast, .inl hlast⟩

-- The runs lie between two numbers, and none is cut by another one.
structure Forest (low high : Nat) (rs : List Run) : Prop where
  within : ∀ r ∈ rs, r.Within low high
  nests : rs.Pairwise Nests

namespace Forest

variable {low mid high : Nat} {rs qs : List Run} {r : Run}

theorem nil : Forest low high [] :=
  ⟨nofun, .nil⟩

theorem mono {low' high' : Nat} (h : Forest low high rs) (hl : low' ≤ low) (hh : high ≤ high') :
    Forest low' high' rs where
  within r hr := (h.within r hr).mono hl hh
  nests := h.nests

theorem perm (h : Forest low high rs) (hp : rs.Perm qs) : Forest low high qs where
  within r hr := h.within r (hp.mem_iff.mpr hr)
  nests := (hp.pairwise_iff Nests.symm).mp h.nests

theorem union (hr : Forest low high rs) (hq : Forest low high qs)
    (h : ∀ r ∈ rs, ∀ q ∈ qs, r.Nests q) : Forest low high (rs ++ qs) where
  within r hm := (List.mem_append.mp hm).elim (hr.within r) (hq.within r)
  nests := List.pairwise_append.mpr ⟨hr.nests, hq.nests, h⟩

theorem append (hr : Forest low mid rs) (hq : Forest mid high qs) (hl : low ≤ mid)
    (hh : mid ≤ high) : Forest low high (rs ++ qs) :=
  (hr.mono (Nat.le_refl _) hh).union (hq.mono hl (Nat.le_refl _)) fun _ hr' _ hq' =>
    nests_of_within (hr.within _ hr') (hq.within _ hq') (Nat.le_refl _)

-- A run around a forest.
theorem enclose (h : Forest (low + 1) high rs) (hl : low < high) :
    Forest low high (⟨low, high - 1⟩ :: rs) where
  within r hm := by
    rcases List.mem_cons.mp hm with rfl | hm
    · constructor <;> simp only <;> omega
    · exact (h.within r hm).mono (Nat.le_succ low) (Nat.le_refl _)
  nests := by
    refine .cons (fun r hr => ?_) h.nests
    have hr := h.within r hr
    have hlow := hr.low_le
    have hlast := hr.last_lt
    refine .inl ⟨?_, .inr ?_⟩ <;> simp only <;> omega

-- Forests that lie one behind the other.
theorem flatMap {α : Type} {start stop : α → Nat} {f : α → List Run} {as : List α}
    (ha : as.Pairwise fun a b => stop a ≤ start b)
    (hb : ∀ a ∈ as, low ≤ start a ∧ stop a ≤ high)
    (h : ∀ a ∈ as, Forest (start a) (stop a) (f a)) : Forest low high (as.flatMap f) where
  within r hm := by
    obtain ⟨a, ham, hr⟩ := List.mem_flatMap.mp hm
    exact ((h a ham).within r hr).mono (hb a ham).1 (hb a ham).2
  nests := by
    refine List.pairwise_flatMap.mpr ⟨fun a ham => (h a ham).nests, ?_⟩
    refine ha.imp_of_mem fun ham hbm hab r hr q hq => ?_
    exact nests_of_within ((h _ ham).within r hr) ((h _ hbm).within q hq) hab

end Forest
end Run

theorem Stmt.listSites_eq_flatMap (start : Nat) (ss : List Stmt) :
    listSites start ss = (Site.placed start ss).flatMap fun s => sites s.start s.stmt := by
  induction ss generalizing start with
  | nil => rfl
  | cons s ss ih => rw [listSites, Site.placed, List.flatMap_cons, ih]

end CLint
