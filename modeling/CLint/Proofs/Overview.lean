import CLint.Proofs.Selected
import Mathlib.Data.List.Basic

namespace CLint

theorem Pack.mem_all (p : Pack) : p ∈ all := by
  cases p <;> decide

namespace RuleSettings

-- A pack that is turned off is not active, whether or not it is turned on as well.
def Activates (s : RuleSettings) (p : Pack) : Prop :=
  (p ∈ Pack.defaults ∨ p.name ∈ s.enabledPacks) ∧ p.name ∉ s.disabledPacks

instance (s : RuleSettings) : DecidablePred s.Activates :=
  fun _ => inferInstanceAs (Decidable (_ ∧ _))

-- The rules that the packs ask for. Those without any force are not among them.
def AsksFor (s : RuleSettings) (r : Rule) : Prop :=
  r.strictness ≠ .may ∧ r.id ∉ s.disabledRules ∧ ∃ p ∈ r.packs, s.Activates p

instance (s : RuleSettings) : DecidablePred s.AsksFor :=
  fun _ => inferInstanceAs (Decidable (_ ∧ _ ∧ _))

variable {s t : RuleSettings} {r : Rule} {p : Pack}

theorem Activates.mono (h : s.Activates p) (he : s.enabledPacks ⊆ t.enabledPacks)
    (hd : t.disabledPacks ⊆ s.disabledPacks) : t.Activates p :=
  ⟨h.1.imp_right (@he _), fun hp => h.2 (hd hp)⟩

theorem AsksFor.mono (h : s.AsksFor r) (he : s.enabledPacks ⊆ t.enabledPacks)
    (hd : t.disabledPacks ⊆ s.disabledPacks) (hr : t.disabledRules ⊆ s.disabledRules) :
    t.AsksFor r := by
  obtain ⟨hmay, hid, p, hp, ha⟩ := h
  exact ⟨hmay, fun h => hid (hr h), p, hp, ha.mono he hd⟩

-- To turn on a pack that is turned off has no effect.
theorem activates_filter {name : String} (h : name ∈ s.disabledPacks) :
    { s with enabledPacks := s.enabledPacks.filter (· ≠ name) }.Activates p ↔ s.Activates p := by
  constructor
  case mp => exact fun ha => ha.mono (List.filter_subset_self _) (List.Subset.refl _)
  case mpr =>
    rintro ⟨hon, hoff⟩
    refine ⟨hon.imp_right fun hp => List.mem_filter.mpr ⟨hp, decide_eq_true ?_⟩, hoff⟩
    exact fun heq => hoff (heq ▸ h)

end RuleSettings

namespace Selection

variable {enabled disabled ids : List String} {s t : RuleSettings} {rules : List Rule}

theorem mem_of_activePacks_eq_ok {ps : List Pack}
    (h : activePacks s.enabledPacks s.disabledPacks = .ok ps) (p : Pack) :
    p ∈ ps ↔ s.Activates p := by
  obtain ⟨_, _, _, _, h⟩ := by simpa only [activePacks, bind_eq_ok_iff] using h
  cases h
  simp [RuleSettings.Activates, Pack.mem_all]

theorem isActive_iff {ps : List Pack} {r : Rule} :
    isActive ps r ↔ r.strictness ≠ .may ∧ ∃ p ∈ r.packs, p ∈ ps := by
  simp [isActive, and_comm]

-- Where the packs decide, the rules that are selected are those that the overview marks, without
-- the disabled ones. If names are unknown, both fail alike.
theorem select_of_enabledRules_eq_none (h : s.enabledRules = none) :
    select s = do
      checkRules s.disabledRules
      let all ← overview s.enabledPacks s.disabledPacks
      return (all.filter fun a => a.2 && !s.disabledRules.contains a.1.id).map (·.1) := by
  simp only [select, overview, h, Option.getD_none, List.nil_append]
  cases checkRules s.disabledRules with
  | error e => rfl
  | ok _ =>
    cases activePacks s.enabledPacks s.disabledPacks with
    | error e => rfl
    | ok ps =>
      refine congrArg Except.ok ?_
      rw [List.filter_map, List.map_map]
      exact (List.map_id _).symm

theorem overview_eq_error_iff {e : SelectionError} :
    overview s.enabledPacks s.disabledPacks = .error e ↔
      select { s with enabledRules := none, disabledRules := [] } = .error e := by
  rw [select_of_enabledRules_eq_none rfl]
  cases overview s.enabledPacks s.disabledPacks with
  | error e' => exact ⟨fun h => Except.error.inj h ▸ rfl, fun h => Except.error.inj h ▸ rfl⟩
  | ok all => exact iff_of_false nofun nofun

-- Which rules the packs select, in the order of the catalogue.
theorem select_eq_ok_iff_of_enabledRules_eq_none (h : s.enabledRules = none) :
    select s = .ok rules ↔ s.NamesKnown ∧ rules = Rule.catalogue.filter fun r => s.AsksFor r := by
  have hok : ∀ rules, select s = .ok rules →
      rules = Rule.catalogue.filter fun r => s.AsksFor r := by
    intro rules hs
    rw [select, h] at hs
    obtain ⟨_, _, ps, hps, hs⟩ := by simpa only [bind_eq_ok_iff] using hs
    cases hs
    refine List.filter_congr fun r _ => Bool.eq_iff_iff.mpr ?_
    rw [Bool.and_eq_true, isActive_iff, decide_eq_true_iff, RuleSettings.AsksFor]
    simp only [mem_of_activePacks_eq_ok hps, Bool.not_eq_true', List.contains_eq_mem,
      decide_eq_false_iff_not]
    tauto
  rw [← exists_select_eq_ok_iff]
  constructor
  case mp => exact fun hs => ⟨⟨rules, hs⟩, hok rules hs⟩
  case mpr =>
    rintro ⟨⟨selected, hs⟩, rfl⟩
    exact hok selected hs ▸ hs

theorem idxOf_filter_lt_iff {p : String → Bool} {a b : String} {l : List String} (ha : p a)
    (hb : p b) : (l.filter p).idxOf a < (l.filter p).idxOf b ↔ l.idxOf a < l.idxOf b := by
  induction l with
  | nil => rfl
  | cons x xs ih =>
    cases hx : p x with
    | true =>
      rw [List.filter_cons_of_pos hx]
      simp only [List.idxOf_cons]
      cases x == a <;> cases x == b <;> simp [ih]
    | false =>
      have hxa : x ≠ a := fun h => Bool.false_ne_true (hx.symm.trans (h ▸ ha))
      have hxb : x ≠ b := fun h => Bool.false_ne_true (hx.symm.trans (h ▸ hb))
      rw [List.filter_cons_of_neg (by simp [hx]), ih, List.idxOf_cons_ne _ hxa,
        List.idxOf_cons_ne _ hxb, Nat.succ_lt_succ_iff]

-- What is left when repetitions are dropped stands in the order in which it first occurs.
theorem pairwise_idxOf_eraseDups (names : List String) :
    names.eraseDups.Pairwise fun a b => names.idxOf a < names.idxOf b := by
  match names with
  | [] => exact .nil
  | n :: ns =>
    rw [List.eraseDups_cons]
    refine List.pairwise_cons.mpr ⟨fun b hb => ?_, ?_⟩
    case refine_1 =>
      have hne : n ≠ b := by
        rintro rfl
        simpa using (List.mem_filter.mp (List.mem_eraseDups.mp hb)).2
      rw [List.idxOf_cons_self, List.idxOf_cons_ne _ hne]
      exact Nat.succ_pos _
    case refine_2 =>
      refine (pairwise_idxOf_eraseDups (ns.filter fun b => !b == n)).imp_of_mem ?_
      intro a b ha hb hlt
      have ha := (List.mem_filter.mp (List.mem_eraseDups.mp ha)).2
      have hb := (List.mem_filter.mp (List.mem_eraseDups.mp hb)).2
      have hna : n ≠ a := by rintro rfl; simp at ha
      have hnb : n ≠ b := by rintro rfl; simp at hb
      rw [List.idxOf_cons_ne _ hna, List.idxOf_cons_ne _ hnb]
      exact Nat.succ_lt_succ ((idxOf_filter_lt_iff ha hb).mp hlt)
termination_by names.length
decreasing_by exact Nat.lt_succ_of_le (List.length_filter_le ..)

theorem map_id_filterMap_find? (h : ∀ id ∈ ids, ∃ r ∈ Rule.catalogue, r.id = id) :
    (ids.filterMap Rule.find?).map (·.id) = ids := by
  induction ids with
  | nil => rfl
  | cons id ids ih =>
    obtain ⟨⟨r, hr, rfl⟩, hids⟩ := List.forall_mem_cons.mp h
    rw [List.filterMap_cons_some (Rule.find?_id hr), List.map_cons, ih hids]

theorem ids_of_enabledRules_eq_some (h : s.enabledRules = some enabled)
    (hs : select s = .ok rules) :
    rules.map (·.id) = enabled.eraseDups.filter fun id => !s.disabledRules.contains id := by
  have hknown := (exists_select_eq_ok_iff.mp ⟨rules, hs⟩).rules
  rw [select, h] at hs
  obtain ⟨_, _, hs⟩ := bind_eq_ok_iff.mp hs
  cases hs
  refine map_id_filterMap_find? fun id hid => hknown id (List.mem_append_left _ ?_)
  rw [h]
  exact List.mem_eraseDups.mp (List.mem_filter.mp hid).1

-- What is selected by a list of enabled rules: its entries without the disabled ones, each where it
-- first occurs.
structure FollowsList (s : RuleSettings) (enabled ids : List String) : Prop where
  mem_iff : ∀ id, id ∈ ids ↔ id ∈ enabled ∧ id ∉ s.disabledRules
  inOrder : ids.Pairwise fun a b => enabled.idxOf a < enabled.idxOf b

-- What is selected by the packs: the rules that the overview marks, without the disabled ones. To
-- turn on more packs, or to turn off fewer, never loses a rule.
structure FollowsPacks (s : RuleSettings) (rules : List Rule) : Prop where
  overview : ∃ all, overview s.enabledPacks s.disabledPacks = .ok all ∧
    all.map (·.1) = Rule.catalogue ∧
    rules.map (·.id) = ((all.filter (·.2)).map (·.1.id)).filter (· ∉ s.disabledRules)
  mem_iff : ∀ r, r ∈ rules ↔ r ∈ Rule.catalogue ∧ s.AsksFor r
  binding : ∀ r ∈ rules, r.strictness ≠ .may
  grows : ∀ more fewer, s.enabledPacks ⊆ more → fewer ⊆ s.disabledPacks →
    (∀ name ∈ more, ∃ r ∈ Rule.catalogue, ∃ p ∈ r.packs, p.name = name) →
      ∃ others, select { s with enabledPacks := more, disabledPacks := fewer } = .ok others ∧
        rules.Sublist others
  turnedOff : ∀ name ∈ s.disabledPacks,
    select { s with enabledPacks := s.enabledPacks.filter (· ≠ name) } = .ok rules

theorem followsList_of_select (h : s.enabledRules = some enabled) (hs : select s = .ok rules) :
    FollowsList s enabled (rules.map (·.id)) := by
  rw [ids_of_enabledRules_eq_some h hs]
  constructor
  case mem_iff => simp
  case inOrder => exact (pairwise_idxOf_eraseDups enabled).sublist List.filter_sublist

theorem followsPacks_of_select (h : s.enabledRules = none) (hs : select s = .ok rules) :
    FollowsPacks s rules := by
  obtain ⟨hknown, hrules⟩ := (select_eq_ok_iff_of_enabledRules_eq_none h).mp hs
  constructor
  case overview =>
    rw [select_of_enabledRules_eq_none h] at hs
    obtain ⟨_, _, all, hall, hs⟩ := by simpa only [bind_eq_ok_iff] using hs
    obtain ⟨ps, _, hps⟩ := bind_eq_ok_iff.mp hall
    cases hs
    refine ⟨all, hall, ?_, ?_⟩
    · cases hps
      rw [List.map_map]
      exact List.map_id _
    · rw [List.map_map, List.filter_map, List.filter_filter]
      refine congrArg (List.map _) (List.filter_congr fun a _ => ?_)
      simp [Bool.and_comm]
  case mem_iff => simp [hrules]
  case binding =>
    intro r hr
    rw [hrules, List.mem_filter, decide_eq_true_iff] at hr
    exact hr.2.1
  case grows =>
    intro more fewer hmore hfewer hnames
    let t : RuleSettings := { s with enabledPacks := more, disabledPacks := fewer }
    have ht : t.NamesKnown := by
      refine ⟨hknown.rules, fun _ name hname => ?_⟩
      cases List.mem_append.mp hname with
      | inl hname => exact hnames name hname
      | inr hname => exact hknown.packs h name (List.mem_append_right _ (hfewer hname))
    refine ⟨_, (select_eq_ok_iff_of_enabledRules_eq_none (s := t) h).mpr ⟨ht, rfl⟩, ?_⟩
    rw [hrules]
    refine List.monotone_filter_right _ fun r hr => ?_
    rw [decide_eq_true_iff] at hr ⊢
    exact hr.mono hmore hfewer (List.Subset.refl _)
  case turnedOff =>
    intro name hname
    let t : RuleSettings := { s with enabledPacks := s.enabledPacks.filter (· ≠ name) }
    have hnames : s.enabledPacks.filter (· ≠ name) ++ s.disabledPacks ⊆
        s.enabledPacks ++ s.disabledPacks :=
      (List.filter_sublist.append (List.Sublist.refl _)).subset
    have ht : t.NamesKnown := ⟨hknown.rules, fun _ n hn => hknown.packs h n (hnames hn)⟩
    refine (select_eq_ok_iff_of_enabledRules_eq_none (s := t) h).mpr ⟨ht, ?_⟩
    rw [hrules]
    refine List.filter_congr fun r _ => decide_eq_decide.mpr ?_
    simp only [t, RuleSettings.AsksFor, RuleSettings.activates_filter hname]

theorem nodup_ids_of_select (hs : select s = .ok rules) : (rules.map (·.id)).Nodup := by
  cases h : s.enabledRules with
  | none =>
    rw [((select_eq_ok_iff_of_enabledRules_eq_none h).mp hs).2]
    exact Rule.nodup_ids.sublist (List.filter_sublist.map _)
  | some enabled =>
    rw [ids_of_enabledRules_eq_some h hs]
    exact (nodup_eraseDups enabled).filter _

theorem notMem_disabledRules_of_select (hs : select s = .ok rules) :
    ∀ id ∈ rules.map (·.id), id ∉ s.disabledRules := by
  cases h : s.enabledRules with
  | none =>
    rw [((select_eq_ok_iff_of_enabledRules_eq_none h).mp hs).2]
    intro id hid
    obtain ⟨r, hr, rfl⟩ := List.mem_map.mp hid
    exact (of_decide_eq_true (List.mem_filter.mp hr).2).2.1
  | some enabled => exact fun id hid => (((followsList_of_select h hs).mem_iff id).mp hid).2

-- The selection and the overview agree. Rules are selected once each, and never if they are
-- disabled; a list of enabled rules is followed as it stands, and the packs as the overview shows
-- it. The overview fails just if the packs are at fault, and says the same.
theorem select_agrees_overview (s : RuleSettings) :
    (∀ rules, select s = .ok rules →
      (rules.map (·.id)).Nodup ∧ (∀ id ∈ rules.map (·.id), id ∉ s.disabledRules) ∧
        (∀ enabled, s.enabledRules = some enabled → FollowsList s enabled (rules.map (·.id))) ∧
        (s.enabledRules = none → FollowsPacks s rules)) ∧
    ∀ e, overview s.enabledPacks s.disabledPacks = .error e ↔
      select { s with enabledRules := none, disabledRules := [] } = .error e :=
  ⟨fun _ hs => ⟨nodup_ids_of_select hs, notMem_disabledRules_of_select hs,
    fun _ h => followsList_of_select h hs, fun h => followsPacks_of_select h hs⟩,
    fun _ => overview_eq_error_iff⟩

theorem exists_select_of_map_eq_ok {P : List Rule → Prop}
    (hp : ∀ rules, select s = .ok rules → P rules)
    (h : (select s).map (·.map (·.id)) = .ok ids) :
    ∃ rules, select s = .ok rules ∧ P rules ∧ rules.map (·.id) = ids := by
  cases hs : select s with
  | error e =>
    rw [hs] at h
    cases h
  | ok rules =>
    rw [hs] at h
    exact ⟨rules, rfl, hp rules hs, Except.ok.inj h⟩

-- One pack is turned on and off at once, and a list has a rule twice and one that is disabled.
theorem select_agrees_overview_design :
    let s : RuleSettings := {
      disabledRules := ["field-doc"]
      enabledPacks := ["doxygen", "design"]
      disabledPacks := ["design", "naming", "formatting", "control", "prohibited"] }
    let listing : List String := ["no-goto", "doxygen-tag-order", "field-doc", "no-goto"]
    (∃ rules, select s = .ok rules ∧ FollowsPacks s rules ∧
      rules.map (·.id) = ["unterminated-block", "line-length", "function-doc",
        "function-return-doc", "file-header", "type-doc", "doxygen-comment-style",
        "function-diagram"]) ∧
    ∃ rules, select { s with enabledRules := some listing } = .ok rules ∧
      FollowsList { s with enabledRules := some listing } listing (rules.map (·.id)) ∧
      rules.map (·.id) = ["no-goto", "doxygen-tag-order"] := by
  intro s listing
  constructor
  · exact exists_select_of_map_eq_ok
      (fun rules hs => ((select_agrees_overview s).1 rules hs).2.2.2 rfl) (by decide +kernel)
  · exact exists_select_of_map_eq_ok
      (fun rules hs => ((select_agrees_overview { s with enabledRules := listing }).1 rules
        hs).2.2.1 _ rfl) (by decide +kernel)

end Selection
end CLint
