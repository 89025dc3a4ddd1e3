import CLint.Proofs.Forest.Basic
import Mathlib.Data.List.Perm.Basic

namespace CLint

namespace Section

variable {s : Section} {ss : List Site}

theorem label_of_mem_split (h : s ∈ (split ss).2) :
    ∃ word text, s.label.stmt = .label (.keyword word) text := by
  induction ss with
  | nil => cases h
  | cons t ss ih =>
    rw [split] at h
    split at h
    case h_1 word text ht =>
      split at h
      · rcases List.mem_cons.mp h with rfl | h
        · exact ⟨word, text, ht⟩
        · exact ih h
      · exact ih h
    case h_2 => exact ih h

theorem exists_stop_eq (s : Section) : ∃ t ∈ s.label :: s.items, s.stop = t.stop := by
  unfold stop
  cases hl : s.items.getLast? with
  | none => exact ⟨s.label, List.mem_cons_self, rfl⟩
  | some t => exact ⟨t, List.mem_cons_of_mem _ (List.mem_of_getLast? hl), rfl⟩

-- In statements that follow one another, the sections do so as well.
theorem pairwise_split (h : ss.Pairwise (·.stop ≤ ·.start)) :
    (split ss).2.Pairwise fun s t => s.stop ≤ t.label.start := by
  have hs := append_split ss
  rw [← hs] at h
  have h := (List.pairwise_flatMap.mp (List.pairwise_append.mp h).2.1).2
  refine h.imp fun {s t} hst => ?_
  obtain ⟨u, hu, hstop⟩ := s.exists_stop_eq
  exact hstop ▸ hst u hu t.label List.mem_cons_self

-- The statements of a section end where it ends.
theorem stop_le_stop (h : (s.label :: s.items).Pairwise (·.stop ≤ ·.start)) {t : Site}
    (ht : t ∈ s.label :: s.items) : t.stop ≤ s.stop := by
  unfold stop
  cases hl : s.items.getLast? with
  | none =>
    rw [List.getLast?_eq_none_iff.mp hl] at ht
    cases List.mem_singleton.mp ht
    exact Nat.le_refl _
  | some z =>
    obtain ⟨init, hi⟩ := List.getLast?_eq_some_iff.mp hl
    rw [hi, ← List.cons_append] at ht h
    rcases List.mem_append.mp ht with ht | ht
    · have := (List.pairwise_append.mp h).2.2 t ht z (List.mem_singleton_self z)
      exact Nat.le_of_lt (Nat.lt_of_le_of_lt this z.start_lt_stop)
    · cases List.mem_singleton.mp ht
      exact Nat.le_refl _

-- A section is a run around all that is in its statements.
theorem forest_block {f : Site → List Run} (h : (s.label :: s.items).Pairwise (·.stop ≤ ·.start))
    (hf : ∀ t ∈ s.items, Run.Forest t.start t.stop (f t)) :
    Run.Forest s.label.start s.stop (s.block.span :: s.items.flatMap f) := by
  obtain ⟨hlabel, hitems⟩ := List.pairwise_cons.mp h
  have hlow := s.label.start_lt_stop
  refine .enclose (.flatMap hitems (fun t ht => ⟨?_, ?_⟩) hf) ?_
  · exact Nat.le_trans hlow (hlabel t ht)
  · exact stop_le_stop h (List.mem_cons_of_mem _ ht)
  · exact Nat.lt_of_lt_of_le hlow (stop_le_stop h List.mem_cons_self)

theorem mem_of_mem_split_fst {t : Site} (h : t ∈ (split ss).1) : t ∈ ss := by
  rw [← append_split ss]
  exact List.mem_append_left _ h

theorem mem_of_mem_split (h : s ∈ (split ss).2) {t : Site} (ht : t ∈ s.label :: s.items) :
    t ∈ ss :=
  (sublist_of_mem_split h).mem ht

-- What some statements contribute comes from before the first label and from the sections, as long
-- as labels contribute nothing.
theorem perm_split {f : Site → List Run}
    (hlabel : ∀ t ∈ ss, ∀ word text, t.stmt = .label word text → f t = []) :
    ((split ss).1.flatMap f ++ (split ss).2.flatMap fun s => s.block.span :: s.items.flatMap f).Perm
      ((split ss).2.map (·.block.span) ++ ss.flatMap f) := by
  have hitems : ∀ s ∈ (split ss).2, (s.label :: s.items).flatMap f = s.items.flatMap f := by
    intro s hs
    obtain ⟨word, text, ht⟩ := label_of_mem_split hs
    have hnil := hlabel s.label (mem_of_mem_split hs List.mem_cons_self) _ _ ht
    rw [List.flatMap_cons, hnil, List.nil_append]
  have hall : ss.flatMap f =
      (split ss).1.flatMap f ++ (split ss).2.flatMap fun s => s.items.flatMap f := by
    conv => lhs; rw [← append_split ss]
    rw [List.flatMap_append, List.flatMap_assoc, List.flatMap_congr hitems]
  rw [hall, ← List.append_assoc]
  refine List.Perm.trans ?_ (List.perm_append_comm.append_right _)
  rw [List.append_assoc]
  exact (List.map_append_flatMap_perm _ _ _).symm.append_left _

-- The sections of some statements, together with what is in these statements.
theorem forest_split {low high : Nat} {f : Site → List Run}
    (h : ss.Pairwise (·.stop ≤ ·.start)) (hb : ∀ t ∈ ss, low ≤ t.start ∧ t.stop ≤ high)
    (hf : ∀ t ∈ ss, Run.Forest t.start t.stop (f t))
    (hlabel : ∀ t ∈ ss, ∀ word text, t.stmt = .label word text → f t = []) :
    Run.Forest low high ((split ss).2.map (·.block.span) ++ ss.flatMap f) := by
  have hfirst : Run.Forest low high ((split ss).1.flatMap f) := by
    rw [← append_split ss] at h
    exact .flatMap (List.pairwise_append.mp h).1 (fun t ht => hb t (mem_of_mem_split_fst ht))
      fun t ht => hf t (mem_of_mem_split_fst ht)
  have hsection : ∀ s ∈ (split ss).2,
      Run.Forest s.label.start s.stop (s.block.span :: s.items.flatMap f) := fun s hs =>
    forest_block (h.sublist (sublist_of_mem_split hs)) fun t ht =>
      hf t (mem_of_mem_split hs (List.mem_cons_of_mem _ ht))
  have hbounds : ∀ s ∈ (split ss).2, low ≤ s.label.start ∧ s.stop ≤ high := fun s hs => by
    obtain ⟨t, ht, hstop⟩ := s.exists_stop_eq
    have hstart := (hb s.label (mem_of_mem_split hs List.mem_cons_self)).1
    exact ⟨hstart, hstop ▸ (hb t (mem_of_mem_split hs ht)).2⟩
  have hsections := Run.Forest.flatMap (pairwise_split h) hbounds hsection
  refine (hfirst.union hsections fun r hr q hq => ?_).perm (perm_split hlabel)
  -- What is before the first label does not reach into the sections.
  obtain ⟨t, ht, hr⟩ := List.mem_flatMap.mp hr
  obtain ⟨s, hs, hq⟩ := List.mem_flatMap.mp hq
  rw [← append_split ss] at h
  have hapart := (List.pairwise_append.mp h).2.2 t ht s.label
    (List.mem_flatMap.mpr ⟨s, hs, List.mem_cons_self⟩)
  exact Run.nests_of_within ((hf t (mem_of_mem_split_fst ht)).within r hr)
    ((hsection s hs).within q hq) hapart

end Section

namespace Site

variable {constants : List String} {announced : List Nat}

-- The runs of the control blocks that some statements are by themselves.
def blockRuns (constants : List String) (announced : List Nat) (ss : List Site) : List Run :=
  (ss.flatMap (controlBlocks constants announced)).map (·.span)

theorem blockRuns_append (ss ts : List Site) :
    blockRuns constants announced (ss ++ ts) =
      blockRuns constants announced ss ++ blockRuns constants announced ts := by
  simp [blockRuns]

theorem blockRuns_flatMap {α : Type} (f : α → List Site) (as : List α) :
    blockRuns constants announced (as.flatMap f) =
      as.flatMap fun a => blockRuns constants announced (f a) := by
  simp [blockRuns, List.flatMap_assoc, List.map_flatMap]

end Site

namespace Stmt

variable {constants : List String} {announced : List Nat} {start : Nat}

open Site (blockRuns)

theorem blockRuns_sites_control (start : Nat) (head : Head) (group : Option Group)
    (parts : List Stmt) :
    blockRuns constants announced (sites start (control head group parts)) =
      ⟨start, Control.stop start head group parts - 1⟩ ::
        ((Control.sections start head group parts).map (·.block.span) ++
          blockRuns constants announced (listSites (partsStart start head group) parts)) := by
  simp [sites, blockRuns, Site.controlBlocks]

-- The blocks in statements that follow one another, if they are known for each statement.
theorem forest_blockRuns_listSites {ss : List Stmt}
    (h : ∀ t ∈ Site.placed start ss,
      Run.Forest t.start t.stop (blockRuns constants announced (sites t.start t.stmt))) :
    Run.Forest start (start + listSize ss)
      (blockRuns constants announced (listSites start ss)) := by
  rw [listSites_eq_flatMap, Site.blockRuns_flatMap]
  exact .flatMap (Site.pairwise_placed start ss) (fun t => Site.bounds_of_mem_placed) h

-- The block of a control statement is around what is in its own parts. The parts that continue it
-- lie behind.
theorem forest_control {head : Head} {group : Option Group} {parts : List Stmt}
    {owned others : List Run}
    (ho : Run.Forest (start + 1) (Control.stop start head group parts) owned)
    (hr : Run.Forest (Control.stop start head group parts)
      (start + (control head group parts).size) others) :
    Run.Forest start (start + (control head group parts).size)
      (⟨start, Control.stop start head group parts - 1⟩ :: (owned ++ others)) := by
  obtain ⟨hlow, hhigh⟩ := Control.bounds_stop start head group parts
  exact (ho.enclose hlow).append hr (Nat.le_of_lt hlow) hhigh

theorem lt_partsStart (start : Nat) (head : Head) (group : Option Group) :
    start + 1 ≤ partsStart start head group := by
  have := head.length_lexemes_pos
  simp only [partsStart]
  omega

-- All that a control statement contributes, if it has no sections.
theorem forest_parts {head : Head} {group : Option Group} {parts : List Stmt}
    (hs : Control.sections start head group parts = [])
    (h : ∀ t ∈ Site.placed (partsStart start head group) parts,
      Run.Forest t.start t.stop (blockRuns constants announced (sites t.start t.stmt))) :
    Run.Forest start (start + (control head group parts).size)
      (blockRuns constants announced (sites start (control head group parts))) := by
  have hlow := lt_partsStart start head group
  have hall := forest_blockRuns_listSites h
  rw [blockRuns_sites_control, hs, List.map_nil, List.nil_append]
  by_cases hd : head = .doHead
  case pos =>
    have hstop : partsStart start head group + listSize parts =
        Control.stop start head group parts := by simp [Control.stop, hd]
    rw [hstop] at hall
    exact List.append_nil (blockRuns constants announced (listSites _ parts)) ▸
      forest_control (hall.mono hlow (Nat.le_refl _)) .nil
  case neg =>
    cases parts with
    | nil => exact forest_control .nil .nil
    | cons body others =>
      obtain ⟨hbody, hothers⟩ := List.forall_mem_cons.mp h
      have hothers := forest_blockRuns_listSites hothers
      have hstop : partsStart start head group + body.size =
          Control.stop start head group (body :: others) := by
        simp [Control.stop, hd, listSize]
      rw [listSites, Site.blockRuns_append]
      refine forest_control (hbody.mono hlow ?_) (hothers.mono ?_ ?_)
      · exact Nat.le_of_eq hstop
      · exact Nat.le_of_eq hstop.symm
      · simp only [size, listSize, partsStart]
        omega

-- The same for a `switch` with a block, of which the items are known.
theorem forest_switch {group : Option Group} {items others : List Stmt} {closed : Bool}
    (hi : ∀ t ∈ Site.placed (partsStart start .switchHead group + 1) items,
      Run.Forest t.start t.stop (blockRuns constants announced (sites t.start t.stmt)))
    (ho : ∀ t ∈ Site.placed (partsStart start .switchHead group + (block items closed).size) others,
      Run.Forest t.start t.stop (blockRuns constants announced (sites t.start t.stmt))) :
    Run.Forest start (start + (control .switchHead group (block items closed :: others)).size)
      (blockRuns constants announced
        (sites start (control .switchHead group (block items closed :: others)))) := by
  have hlow := lt_partsStart start .switchHead group
  have hothers := forest_blockRuns_listSites ho
  have hsections := Section.forest_split (Site.pairwise_placed _ items)
    (fun t => Site.bounds_of_mem_placed) hi (fun t ht word text hl => by rw [hl]; rfl)
  have hitems : blockRuns constants announced
        (sites (partsStart start .switchHead group) (block items closed)) =
      (Site.placed (partsStart start .switchHead group + 1) items).flatMap fun t =>
        blockRuns constants announced (sites t.start t.stmt) := by
    rw [← Site.blockRuns_flatMap, ← listSites_eq_flatMap]
    rfl
  have hstop : partsStart start .switchHead group + (block items closed).size =
      Control.stop start .switchHead group (block items closed :: others) := by
    simp [Control.stop, listSize]
  rw [blockRuns_sites_control, listSites, Site.blockRuns_append, hitems, ← List.append_assoc]
  refine forest_control (hsections.mono ?_ ?_) (hothers.mono ?_ ?_)
  · exact Nat.le_succ_of_le hlow
  · rw [← hstop]
    simp only [size]
    omega
  · exact Nat.le_of_eq hstop.symm
  · simp only [size, listSize, partsStart]
    omega

mutual

-- By induction on statements: no control block in a statement is cut by another one.
theorem forest_blocks (s : Stmt) (start : Nat) :
    Run.Forest start (start + s.size) (blockRuns constants announced (sites start s)) := by
  cases s with
  | function header body =>
    have hbody := forest_blocks body (start + header.length)
    rw [sites, Site.blockRuns_append]
    refine .perm (hbody.mono (Nat.le_add_right ..) ?_) (.of_eq (List.append_nil _).symm)
    simp only [size, Nat.add_assoc, Nat.le_refl]
  | block items closed =>
    have hitems := forest_blockRuns_listSites (forest_placed items (start + 1))
    rw [sites]
    refine hitems.mono (Nat.le_succ _) ?_
    simp only [size]
    omega
  | control head group parts =>
    have hparts := forest_placed parts (partsStart start head group)
    cases head with
    | switchHead =>
      cases parts with
      | nil => exact forest_parts rfl hparts
      | cons body others =>
        cases body with
        | block items closed => exact forest_switch (forest_placed items _) (forest_placed others _)
        | _ => exact forest_parts rfl hparts
    | _ => exact forest_parts rfl hparts
  | _ => exact .nil

theorem forest_placed (ss : List Stmt) (start : Nat) :
    ∀ t ∈ Site.placed start ss,
      Run.Forest t.start t.stop (blockRuns constants announced (sites t.start t.stmt)) := by
  cases ss with
  | nil => exact List.forall_mem_nil _
  | cons s ss => exact List.forall_mem_cons.mpr ⟨forest_blocks s start, forest_placed ss _⟩

end

end Stmt
end CLint
