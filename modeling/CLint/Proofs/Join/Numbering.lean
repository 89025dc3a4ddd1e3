import CLint.Proofs.Join.Attaching

namespace CLint

namespace Parts

open Outline

variable {p q : Parts} {m : Move}

-- The batches of declarations: first one for each definition of a directive, then those of the
-- code.

def defined (p : Parts) : List (List (Declaration Span)) :=
  p.definitions.map ([·])

def declared (p : Parts) : List (List (Declaration Span)) :=
  p.batches.map fun b => b.declarations.map (located p.tokens p.leads)

-- The comments, each with the name that it is about.
def attached (p : Parts) : List Comment :=
  p.comments.zipIdx.map fun (c, n) => { c with attachedTo := ownerOf p.declarations n }

theorem declarations_eq (p : Parts) : p.declarations =
    groupedFrom 1 p.defined ++ groupedFrom (1 + p.definitions.length) p.declared := by
  have happend := groupedFrom_append 1 p.defined p.declared
  rw [defined, List.length_map] at happend
  exact happend

theorem defined_join (p q : Parts) (m : Move) : (p.join (m.parts q)).defined =
    p.defined ++ q.defined.map (·.map m.declaration) := by
  rw [defined, definitions_join, List.map_append, List.map_map, defined, defined, List.map_map]
  rfl

-- The numbers of the groups of either part in the whole, where the definitions of both parts come
-- first.

def firstGroup (p q : Parts) (n : Nat) : Nat :=
  if n ≤ p.definitions.length then n else n + q.definitions.length

def secondGroup (p q : Parts) (n : Nat) : Nat :=
  if n ≤ q.definitions.length then n + p.definitions.length
  else n + p.definitions.length + p.batches.length

theorem firstGroup_injective {i j : Nat} (h : firstGroup p q i = firstGroup p q j) : i = j := by
  unfold firstGroup at h
  split at h <;> split at h <;> omega

theorem secondGroup_injective {i j : Nat} (h : secondGroup p q i = secondGroup p q j) : i = j := by
  unfold secondGroup at h
  split at h <;> split at h <;> omega

theorem bounds_group {d : Declaration Span} (h : d ∈ p.declarations) :
    1 ≤ d.group ∧ d.group ≤ p.definitions.length + p.batches.length := by
  obtain ⟨_, _, _, _, k, rfl, hle, hlt⟩ := mem_of_mem_groupedFrom (n := 1) h
  rw [List.length_append, List.length_map, List.length_map] at hlt
  exact ⟨hle, by simp only; omega⟩

theorem firstGroup_ne_secondGroup {d e : Declaration Span} (hd : d ∈ p.declarations)
    (he : e ∈ q.declarations) : firstGroup p q d.group ≠ secondGroup p q e.group := by
  have hd := bounds_group hd
  have he := bounds_group he
  unfold firstGroup secondGroup
  split <;> split <;> omega

theorem regroup_firstGroup (p q : Parts) : p.declarations.map (regroup (firstGroup p q)) =
    groupedFrom 1 p.defined ++
      groupedFrom (1 + p.definitions.length + q.definitions.length) p.declared := by
  have hdefined : (groupedFrom 1 p.defined).map (regroup (firstGroup p q)) =
      groupedFrom 1 p.defined := by
    refine groupedFrom_regroup (k := 0) fun i _ hlt => ?_
    rw [defined, List.length_map] at hlt
    exact if_pos (by omega)
  have hdeclared : (groupedFrom (1 + p.definitions.length) p.declared).map
      (regroup (firstGroup p q)) =
        groupedFrom (1 + p.definitions.length + q.definitions.length) p.declared :=
    groupedFrom_regroup fun i hle _ => if_neg (by omega)
  rw [declarations_eq, List.map_append, hdefined, hdeclared]

theorem regroup_secondGroup (p q : Parts) (m : Move) :
    q.declarations.map (regroup (secondGroup p q) ∘ m.declaration) =
      groupedFrom (1 + p.definitions.length) (q.defined.map (·.map m.declaration)) ++
        groupedFrom (1 + p.definitions.length + q.definitions.length + p.batches.length)
          (q.declared.map (·.map m.declaration)) := by
  have hmap := groupedFrom_map (f := m.declaration) fun _ _ => rfl
  have hdefined : (groupedFrom 1 q.defined).map (regroup (secondGroup p q)) =
      groupedFrom (1 + p.definitions.length) q.defined := by
    refine groupedFrom_regroup fun i _ hlt => ?_
    rw [defined, List.length_map] at hlt
    exact if_pos (by omega)
  have hdeclared : (groupedFrom (1 + q.definitions.length) q.declared).map
      (regroup (secondGroup p q)) =
        groupedFrom (1 + p.definitions.length + q.definitions.length + p.batches.length)
          q.declared := by
    have hnumber : 1 + p.definitions.length + q.definitions.length + p.batches.length =
        1 + q.definitions.length + (p.definitions.length + p.batches.length) := by omega
    rw [hnumber]
    refine groupedFrom_regroup fun i hle _ => ?_
    rw [secondGroup, if_neg (by omega), Nat.add_assoc]
  have hcomm : regroup (secondGroup p q) ∘ m.declaration =
      m.declaration ∘ regroup (secondGroup p q) := rfl
  rw [hcomm, ← List.map_map, declarations_eq, List.map_append, hdefined, hdeclared,
    List.map_append, hmap, hmap]

section

variable (h : p.Before m)

-- The statements of both are read one after the other.
variable (hread : Stmt.readFile (p.lexemes ++ q.lexemes) =
  Stmt.readFile p.lexemes ++ Stmt.readFile q.lexemes)

include h hread

theorem declared_join : (p.join (m.parts q)).declared =
    p.declared ++ q.declared.map (·.map m.declaration) := by
  rw [declared, batches_join h hread, List.map_append, List.map_map, declared, declared,
    List.map_map]
  congr 1
  case e_a =>
    refine List.map_congr_left fun b hb => List.map_congr_left fun d hd => ?_
    exact located_join_left ((p.inRange.batches b hb).declarations d hd)
  case e_a =>
    refine List.map_congr_left fun b hb => ?_
    simp only [Function.comp, Move.batch, List.map_map]
    refine List.map_congr_left fun d hd => ?_
    exact located_join_right h ((q.inRange.batches b hb).declarations d hd)

-- The whole has the declarations of both parts, with other numbers for the groups.
theorem filter_declarations_join :
    (p.join (m.parts q)).declarations.filter (·.startsBefore m.offset) =
        p.declarations.map (regroup (firstGroup p q)) ∧
      (p.join (m.parts q)).declarations.filter (!·.startsBefore m.offset) =
        q.declarations.map (regroup (secondGroup p q) ∘ m.declaration) := by
  have hfirst := regroup_firstGroup p q
  have hsecond := regroup_secondGroup p q m
  have hdefined : p.defined.length = p.definitions.length := List.length_map _
  have hdeclared : p.declared.length = p.batches.length := List.length_map _
  have hlength : (p.join (m.parts q)).definitions.length =
      p.definitions.length + q.definitions.length := by
    rw [definitions_join, List.length_append, List.length_map]
  rw [declarations_eq, defined_join, declared_join h hread, hlength, groupedFrom_append,
    groupedFrom_append, hdefined, hdeclared, ← Nat.add_assoc]
  rw [hfirst, hsecond]
  refine filter_interleaved (fun d hd => ?_) fun d hd => ?_
  · rw [← hfirst] at hd
    obtain ⟨e, he, rfl⟩ := List.mem_map.mp hd
    exact decide_eq_true (h.declarations e he)
  · rw [← hsecond] at hd
    obtain ⟨e, _, rfl⟩ := List.mem_map.mp hd
    exact decide_eq_false (Nat.not_lt.mpr (Nat.le_add_left ..))

theorem startsBefore_iff {d : Declaration Span} (hd : d ∈ (p.join (m.parts q)).declarations)
    {n : Nat} (hn : d.comment = some n) : d.startsBefore m.offset ↔ n < m.comments := by
  obtain ⟨hfirst, hsecond⟩ := filter_declarations_join h hread
  cases hs : d.startsBefore m.offset with
  | true =>
    have hd : d ∈ p.declarations.map (regroup (firstGroup p q)) :=
      hfirst ▸ List.mem_filter.mpr ⟨hd, hs⟩
    obtain ⟨e, he, rfl⟩ := List.mem_map.mp hd
    exact iff_of_true rfl (h.numbers e he n hn)
  | false =>
    have hd : d ∈ q.declarations.map (regroup (secondGroup p q) ∘ m.declaration) :=
      hsecond ▸ List.mem_filter.mpr ⟨hd, by rw [hs]; rfl⟩
    obtain ⟨e, _, rfl⟩ := List.mem_map.mp hd
    obtain ⟨i, _, rfl⟩ := Option.map_eq_some_iff.mp hn
    exact iff_of_false Bool.false_ne_true (Nat.not_lt.mpr (Nat.le_add_left ..))

theorem settled_join : settled (p.join (m.parts q)).declarations =
    (settled p.declarations).map (regroup (firstGroup p q)) ++
      (settled q.declarations).map (regroup (secondGroup p q) ∘ m.declaration) := by
  obtain ⟨hfirst, hsecond⟩ := filter_declarations_join h hread
  rw [settled_filter fun d hd n hn => startsBefore_iff h hread hd hn, hfirst, hsecond,
    (carries_regroup _).settled_map, (carries_declaration m _).settled_map]

theorem ownerOf_join_left {n : Nat} (hn : n < m.comments) :
    ownerOf (p.join (m.parts q)).declarations n = ownerOf p.declarations n := by
  have hbefore : ∀ d ∈ (p.join (m.parts q)).declarations, d.comment = some n →
      d.startsBefore m.offset := fun d hd hc => (startsBefore_iff h hread hd hc).mpr hn
  rw [← ownerOf_filter hbefore, (filter_declarations_join h hread).1]
  exact (carries_regroup _).ownerOf_map _ n

theorem ownerOf_join_right (n : Nat) :
    ownerOf (p.join (m.parts q)).declarations (n + m.comments) = ownerOf q.declarations n := by
  have hbehind : ∀ d ∈ (p.join (m.parts q)).declarations, d.comment = some (n + m.comments) →
      !d.startsBefore m.offset := by
    intro d hd hc
    rw [Bool.not_eq_true', ← Bool.not_eq_true, startsBefore_iff h hread hd hc]
    exact Nat.not_lt.mpr (Nat.le_add_left ..)
  rw [← ownerOf_filter hbehind, (filter_declarations_join h hread).2]
  exact (carries_declaration m _).ownerOf_map _ n

theorem attached_join : (p.join (m.parts q)).attached =
    p.attached ++ q.attached.map m.comment := by
  have hcomments : (p.join (m.parts q)).comments = p.comments ++ q.comments.map m.comment := rfl
  rw [attached, hcomments, List.zipIdx_append, List.map_append]
  congr 1
  case e_a =>
    refine List.map_congr_left fun (c, n) hn => ?_
    have hlt := List.snd_lt_of_mem_zipIdx hn
    rw [Nat.add_zero, ← h.comments] at hlt
    simp only [ownerOf_join_left h hread hlt]
  case e_a =>
    rw [Nat.zero_add, ← h.comments, List.zipIdx_map, List.zipIdx_eq_map_add, attached,
      List.map_map, List.map_map, List.map_map]
    refine List.map_congr_left fun (c, n) _ => ?_
    simp only [Function.comp, Prod.map, id, Nat.add_comm m.comments,
      ownerOf_join_right h hread n]
    rfl

end

end Parts
end CLint
