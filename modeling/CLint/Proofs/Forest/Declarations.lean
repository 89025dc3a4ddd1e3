import CLint.Proofs.Forest.Basic

namespace CLint

namespace Stretch

def stop (s : Stretch) : Nat :=
  s.start + s.length

end Stretch

theorem Code.start_le_of_mem_laidOut {start : Nat} {pieces : List (List Lexeme)} {t : Stretch}
    (h : t ∈ laidOut start pieces) : start ≤ t.start := by
  induction pieces generalizing start with
  | nil => cases h
  | cons piece pieces ih =>
    rcases List.mem_cons.mp h with rfl | h
    · exact Nat.le_refl _
    · have := ih h
      omega

theorem Code.pairwise_laidOut (start : Nat) (pieces : List (List Lexeme)) :
    (laidOut start pieces).Pairwise (·.stop ≤ ·.start) := by
  induction pieces generalizing start with
  | nil => exact .nil
  | cons piece pieces ih =>
    refine .cons (fun t ht => ?_) (ih _)
    have := start_le_of_mem_laidOut ht
    simp only [Stretch.stop, Stretch.length]
    omega

namespace Stretch

variable {s t : Stretch} {mark : Punct}

-- The parts of a stretch lie one behind the other.
theorem pairwise_parts (s : Stretch) (mark : Punct) :
    (s.parts mark).Pairwise (·.stop ≤ ·.start) :=
  (Code.pairwise_laidOut ..).filter _

theorem bounds_of_mem_parts (h : t ∈ s.parts mark) : s.start ≤ t.start ∧ t.stop ≤ s.stop :=
  ⟨(isPart_of_mem_parts h).start_le, (isPart_of_mem_parts h).stop_le⟩

theorem forest_run (h : t.lexemes ≠ []) : Run.Forest t.start t.stop [t.run] where
  within r hr := by
    cases List.mem_singleton.mp hr
    exact covers_run h
  nests := List.pairwise_singleton _ _

end Stretch

-- The body of a tagged type lies among the specifiers of its declaration, behind the first lexeme.
theorem Specifiers.bounds_of_bodyFrom {start : Nat} {list : List Specifier} {b : TagBody}
    (h : bodyFrom start list = some b) :
    start < b.inner.start ∧ b.inner.stop ≤ start + Specifier.totalSize list := by
  induction list generalizing start with
  | nil => cases h
  | cons s ss ih =>
    rcases Option.or_eq_some_iff.mp h with h | ⟨_, h⟩
    · have := ih h
      simp only [Specifier.totalSize, Specifier.size] at this ⊢
      omega
    · split at h <;> cases h
      simp only [Specifier.totalSize, Specifier.size, Specifier.tailSize, Stretch.stop,
        Stretch.length, Enclosed.size, Option.map_some, Option.getD_some]
      split <;> omega

theorem Specifiers.bounds_body {s : Stretch} {d : Specifiers} {b : TagBody} (h : read? s = some d)
    (hb : d.body = some b) : s.start < b.inner.start ∧ b.inner.stop ≤ d.rest.start := by
  unfold read? at h
  simp only at h
  split at h <;> cases h
  exact bounds_of_bodyFrom hb

-- The declarators in some code lie one behind the other.
theorem Declarator.pairwise_readAll (s : Stretch) :
    (readAll s).Pairwise fun a b => a.code.stop ≤ b.code.start := by
  refine List.pairwise_filterMap.mpr ((s.pairwise_parts .comma).imp fun hab a ha b hb => ?_)
  rw [code_of_read? ha, code_of_read? hb]
  exact hab

namespace Batch

-- The runs of all that some batches declare.
def runs (bs : List Batch) : List Run :=
  bs.flatMap fun b => b.declarations.map (·.span)

theorem runs_append (bs cs : List Batch) : runs (bs ++ cs) = runs bs ++ runs cs :=
  List.flatMap_append

theorem runs_flatMap {α : Type} (f : α → List Batch) (as : List α) :
    runs (as.flatMap f) = as.flatMap fun a => runs (f a) :=
  List.flatMap_assoc

variable {s : Stretch} {container : Option Keyword} {scope : Scope}

theorem forest_enumerators (b : TagBody) :
    Run.Forest b.inner.start b.inner.stop (runs [enumerators b]) := by
  have hruns : runs [enumerators b] = (b.inner.parts .comma).flatMap fun t =>
      ((enumerator? t).map (·.span)).toList := by
    simp [runs, enumerators, List.filterMap_eq_flatMap_toList, List.map_flatMap, Option.toList_map]
  rw [hruns]
  refine .flatMap (b.inner.pairwise_parts .comma) (fun t => Stretch.bounds_of_mem_parts) ?_
  intro t ht
  unfold enumerator?
  split
  case h_1 => exact Stretch.forest_run (Stretch.ne_nil_of_mem_parts ht)
  case h_2 => exact .nil

-- The first declarator has the specifiers, and with them the members, in its run.
theorem forest_declared {d : Specifiers} (h : Specifiers.read? s = some d) {rs : List Run}
    (hr : Run.Forest (s.start + 1) d.rest.start rs) :
    Run.Forest s.start s.stop (rs ++ runs [declared container scope s d]) := by
  have hrest := Specifiers.isPart_rest h
  have hcode : ∀ o ∈ Declarator.readAll d.rest, o.code.lexemes ≠ [] ∧
      d.rest.start ≤ o.code.start ∧ o.code.stop ≤ s.stop := fun o ho => by
    obtain ⟨hcode, hne, _⟩ := Declarator.of_mem_readAll ho
    exact ⟨hne, hcode.start_le, (hcode.trans hrest).stop_le⟩
  have hpairwise := Declarator.pairwise_readAll d.rest
  have hruns : runs [declared container scope s d] =
      (declared container scope s d).declarations.map (·.span) := List.flatMap_singleton _ _
  rw [hruns, declared]
  dsimp only
  split
  case h_1 =>
    rw [List.map_nil, List.append_nil]
    exact hr.mono (Nat.le_succ _) (Nat.le_trans (Nat.le_add_right ..) hrest.stop_le)
  case h_2 first others hall =>
    rw [hall] at hcode hpairwise
    obtain ⟨⟨hne, hlow, hhigh⟩, hothers⟩ := List.forall_mem_cons.mp hcode
    have hlow' := hrest.start_le
    have hpos := List.length_pos_iff.mpr hne
    have hfirst : Run.Forest s.start first.code.stop (⟨s.start, first.code.last⟩ :: rs) := by
      refine (hr.mono (Nat.le_refl _) ?_).enclose ?_ <;>
        simp only [Stretch.stop, Stretch.length] <;> omega
    have hrest : Run.Forest first.code.stop s.stop (others.flatMap fun o => [o.code.run]) := by
      refine .flatMap (List.pairwise_cons.mp hpairwise).2 (fun o ho => ?_) fun o ho => ?_
      · exact ⟨(List.pairwise_cons.mp hpairwise).1 o ho, (hothers o ho).2.2⟩
      · exact Stretch.forest_run (hothers o ho).1
    have happend := hfirst.append hrest
      (by simp only [Stretch.stop, Stretch.length]; omega) hhigh
    rw [← List.map_eq_flatMap] at happend
    refine happend.perm ?_
    simp only [declaration, Stretch.run, Function.comp_def, List.map_cons, List.map_map]
    exact List.perm_middle.symm

theorem forest_ofDeclaration (container : Option Keyword) (scope : Scope) (s : Stretch) :
    Run.Forest s.start s.stop (runs (ofDeclaration container scope s)) := by
  induction container, scope, s using ofDeclaration.induct with
  | case1 container scope s hs =>
    rw [ofDeclaration_of_none hs]
    exact .nil
  | case2 container scope s d hd ih =>
    rw [ofDeclaration_of_some hd, runs_append]
    refine forest_declared hd ?_
    unfold members
    split
    case h_1 => exact .nil
    case h_2 body hb =>
      obtain ⟨hstart, hstop⟩ := Specifiers.bounds_body hd hb
      split
      · exact (forest_enumerators body).mono hstart hstop
      · rw [runs_flatMap]
        refine .flatMap (body.inner.pairwise_parts .semicolon) (fun t ht => ?_) fun t ht =>
          ih body hb t ht
        have := Stretch.bounds_of_mem_parts ht
        omega

-- A function definition has a header, and is declared by all of its code.
theorem runs_ofFunction (header : Stretch) (body : Run) :
    runs (ofFunction header body) = [] ∨
      header.lexemes ≠ [] ∧ runs (ofFunction header body) = [⟨header.start, body.last⟩] := by
  unfold ofFunction
  split
  case h_1 => exact .inl rfl
  case h_2 d hd =>
    split
    case h_1 => exact .inl rfl
    case h_2 =>
      refine .inr ⟨?_, rfl⟩
      intro hs
      simp [Specifiers.read?, Specifier.readAll, hs] at hd

end Batch

namespace Site

-- The runs of all that is declared in some statements.
def runs (ss : List Site) : List Run :=
  Batch.runs (ss.flatMap batches)

theorem runs_append (ss ts : List Site) : runs (ss ++ ts) = runs ss ++ runs ts := by
  rw [runs, List.flatMap_append, Batch.runs_append]
  rfl

theorem runs_singleton (s : Site) : runs [s] = Batch.runs s.batches := by
  rw [runs, List.flatMap_singleton]

-- What a control statement declares stands in its header.
theorem forest_batches_control (start : Nat) (head : Head) (group : Option Group)
    (parts : List Stmt) :
    Run.Forest start (Stmt.partsStart start head group)
      (Batch.runs (batches ⟨start, .control head group parts⟩)) := by
  unfold batches
  split
  case h_1 h => cases h
  case h_2 g ps h =>
    cases h
    dsimp only
    split
    case h_1 init hi =>
      have hpart := Group.isPart_forInit? hi
      refine (Batch.forest_ofDeclaration none .block init).mono ?_ ?_
      · exact Nat.le_trans (Nat.le_succ _) hpart.start_le
      · exact hpart.stop_le
    case h_2 => exact .nil
  case h_3 h => cases h
  case h_4 => exact .nil

-- A function is around all that is declared in its body.
theorem forest_function {start : Nat} {header : List Lexeme} {body : Stmt} {rs : List Run}
    (h : Run.Forest (start + header.length) (start + header.length + body.size) rs) :
    Run.Forest start (start + header.length + body.size)
      (rs ++ Batch.runs (batches ⟨start, .function header body⟩)) := by
  have hruns := Batch.runs_ofFunction ⟨start, header⟩
    ⟨start + header.length, start + header.length + body.size - 1⟩
  rw [batches]
  rcases hruns with hnil | ⟨hne, hone⟩
  · rw [hnil, List.append_nil]
    exact h.mono (Nat.le_add_right ..) (Nat.le_refl _)
  · have hpos := List.length_pos_iff.mpr hne
    rw [hone]
    refine .perm (.enclose (h.mono (Nat.add_le_add_left hpos start) (Nat.le_refl _)) ?_)
      (List.perm_append_singleton _ _).symm
    exact Nat.lt_of_lt_of_le (Nat.lt_add_of_pos_right hpos) (Nat.le_add_right ..)

end Site

namespace Stmt

mutual

-- By induction on statements: what is declared in a statement is not cut by anything else that is
-- declared in it.
theorem forest_sites (s : Stmt) (start : Nat) :
    Run.Forest start (start + s.size) (Site.runs (sites start s)) := by
  cases s with
  | simple atFile first text ended =>
    have hsites : sites start (simple atFile first text ended) =
        [⟨start, simple atFile first text ended⟩] := rfl
    rw [hsites, Site.runs_singleton]
    refine (Batch.forest_ofDeclaration _ _ _).mono (Nat.le_refl _) ?_
    simp only [Stretch.stop, Stretch.length, List.length_cons, size]
    omega
  | function header body =>
    rw [sites, Site.runs_append, Site.runs_singleton, size, ← Nat.add_assoc]
    exact Site.forest_function (forest_sites body (start + header.length))
  | block items closed =>
    have hitems := forest_listSites items (start + 1)
    rw [sites]
    refine hitems.mono (Nat.le_succ _) ?_
    simp only [size]
    omega
  | control head group parts =>
    rw [sites, ← List.singleton_append, Site.runs_append]
    have hhead := Site.forest_batches_control start head group parts
    have hparts := forest_listSites parts (partsStart start head group)
    rw [Site.runs_singleton]
    refine (hhead.append hparts ?_ ?_).mono (Nat.le_refl _) ?_ <;>
      simp only [partsStart, size] <;> omega
  | _ => exact .nil

theorem forest_listSites (ss : List Stmt) (start : Nat) :
    Run.Forest start (start + listSize ss) (Site.runs (listSites start ss)) := by
  cases ss with
  | nil => exact .nil
  | cons s ss =>
    rw [listSites, Site.runs_append, listSize]
    have hs := forest_sites s start
    have hss := forest_listSites ss (start + s.size)
    rw [Nat.add_assoc] at hss
    exact hs.append hss (Nat.le_add_right ..) (Nat.add_le_add_left (Nat.le_add_right ..) _)

end

end Stmt
end CLint
