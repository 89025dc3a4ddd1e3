import CLint.Command.Run
import CLint.Proofs.Independence

namespace CLint

section

variable {ε α β : Type} {x : Except ε α} {f : α → Except ε β}

theorem bind_eq_ok_iff {b : β} : x >>= f = .ok b ↔ ∃ a, x = .ok a ∧ f a = .ok b := by
  refine ⟨exists_of_bind_eq_ok, ?_⟩
  rintro ⟨a, rfl, h⟩
  exact h

theorem exists_bind_eq_ok_iff :
    (∃ b, x >>= f = .ok b) ↔ ∃ a, x = .ok a ∧ ∃ b, f a = .ok b := by
  simp only [bind_eq_ok_iff]
  rw [exists_comm]
  simp only [exists_and_left]

theorem exists_eq_error_iff : (∃ e, x = .error e) ↔ ¬ ∃ a, x = .ok a := by
  cases x <;> simp

end

-- Some rule of the catalogue is in each pack.
theorem Pack.exists_mem_packs (p : Pack) : ∃ r ∈ Rule.catalogue, p ∈ r.packs := by
  cases p <;> decide

theorem Pack.isSome_ofName?_iff {name : String} :
    (ofName? name).isSome ↔ ∃ r ∈ Rule.catalogue, ∃ p ∈ r.packs, p.name = name := by
  have hall : ∀ p, p ∈ all := fun p => by cases p <;> decide
  rw [ofName?, List.find?_isSome]
  constructor
  case mp =>
    rintro ⟨p, -, hp⟩
    obtain ⟨r, hr, hmem⟩ := p.exists_mem_packs
    exact ⟨r, hr, p, hmem, of_decide_eq_true hp⟩
  case mpr =>
    rintro ⟨r, -, p, -, hp⟩
    exact ⟨p, hall p, decide_eq_true hp⟩

theorem Rule.isSome_find?_iff {id : String} : (find? id).isSome ↔ ∃ r ∈ catalogue, r.id = id := by
  rw [find?, List.find?_isSome]
  simp only [decide_eq_true_eq]

-- The names in the settings that are looked up are known. The packs are looked up only if they
-- decide on the rules.
structure RuleSettings.NamesKnown (s : RuleSettings) : Prop where
  rules : ∀ id ∈ s.enabledRules.getD [] ++ s.disabledRules, ∃ r ∈ Rule.catalogue, r.id = id
  packs : s.enabledRules = none → ∀ name ∈ s.enabledPacks ++ s.disabledPacks,
    ∃ r ∈ Rule.catalogue, ∃ p ∈ r.packs, p.name = name

namespace Selection

variable {names enabled disabled : List String} {s : RuleSettings}

theorem checkPacks_eq_ok_iff :
    checkPacks names = .ok () ↔ ∀ name ∈ names, (Pack.ofName? name).isSome := by
  rw [← filter_isNone_eq_nil_iff, checkPacks]
  split <;> simp_all

theorem exists_activePacks_eq_ok_iff :
    (∃ ps, activePacks enabled disabled = .ok ps) ↔
      ∀ name ∈ enabled ++ disabled, (Pack.ofName? name).isSome := by
  rw [List.forall_mem_append, ← checkPacks_eq_ok_iff, ← checkPacks_eq_ok_iff]
  simp only [activePacks, exists_bind_eq_ok_iff]
  constructor
  case mp =>
    rintro ⟨_, he, _, hd, -⟩
    exact ⟨he, hd⟩
  case mpr =>
    rintro ⟨he, hd⟩
    exact ⟨(), he, (), hd, _, rfl⟩

theorem exists_select_eq_ok_iff : (∃ rules, select s = .ok rules) ↔ s.NamesKnown := by
  have hrules : checkRules (s.enabledRules.getD [] ++ s.disabledRules) = .ok () ↔
      ∀ id ∈ s.enabledRules.getD [] ++ s.disabledRules, ∃ r ∈ Rule.catalogue, r.id = id :=
    checkRules_eq_ok_iff.trans (forall₂_congr fun _ _ => Rule.isSome_find?_iff)
  have hpacks : (∃ ps, activePacks s.enabledPacks s.disabledPacks = .ok ps) ↔
      ∀ name ∈ s.enabledPacks ++ s.disabledPacks,
        ∃ r ∈ Rule.catalogue, ∃ p ∈ r.packs, p.name = name :=
    exists_activePacks_eq_ok_iff.trans (forall₂_congr fun _ _ => Pack.isSome_ofName?_iff)
  rw [select, exists_bind_eq_ok_iff]
  constructor
  case mp =>
    rintro ⟨_, hc, h⟩
    refine ⟨hrules.mp hc, fun hnone => hpacks.mp ?_⟩
    rw [hnone] at h
    obtain ⟨ps, hps, -⟩ := exists_bind_eq_ok_iff.mp h
    exact ⟨ps, hps⟩
  case mpr =>
    rintro ⟨hc, hp⟩
    refine ⟨(), hrules.mpr hc, ?_⟩
    cases he : s.enabledRules with
    | some ids => exact ⟨_, rfl⟩
    | none =>
      obtain ⟨ps, hps⟩ := hpacks.mpr (hp he)
      exact exists_bind_eq_ok_iff.mpr ⟨ps, hps, _, rfl⟩

end Selection

namespace Command

variable {t : Files} {o : ShowOptions} {α : Type} {x : Except SelectionError α} {a : α}

theorem selected_eq_ok_iff : selected x = .ok a ↔ x = .ok a := by
  cases x <;> simp [selected]

theorem loadSelected_eq_ok_iff {form : OutputFormat} {s : Settings} {rules : List Rule} :
    loadSelected t o = .ok (form, s, rules) ↔
      format o.format = .ok form ∧ loadSettings t o.place.root o.place.file = .ok s ∧
        Selection.select s.rules = .ok rules := by
  simp only [loadSelected, bind_eq_ok_iff, selected_eq_ok_iff]
  constructor
  case mp =>
    rintro ⟨form, hform, s, hs, rules, hrules, h⟩
    cases h
    exact ⟨hform, hs, hrules⟩
  case mpr =>
    rintro ⟨hform, hs, hrules⟩
    exact ⟨form, hform, s, hs, rules, hrules, rfl⟩

theorem exists_runValidate_eq_ok_iff :
    (∃ out, runValidate t o = .ok out) ↔
      ∃ form s, format o.format = .ok form ∧
        loadSettings t o.place.root o.place.file = .ok s ∧ s.rules.NamesKnown := by
  rw [runValidate, exists_bind_eq_ok_iff]
  constructor
  case mp =>
    rintro ⟨⟨form, s, rules⟩, h, -⟩
    obtain ⟨hform, hs, hrules⟩ := loadSelected_eq_ok_iff.mp h
    exact ⟨form, s, hform, hs, Selection.exists_select_eq_ok_iff.mp ⟨rules, hrules⟩⟩
  case mpr =>
    rintro ⟨form, s, hform, hs, hknown⟩
    obtain ⟨rules, hrules⟩ := Selection.exists_select_eq_ok_iff.mpr hknown
    refine ⟨(form, s, rules), loadSelected_eq_ok_iff.mpr ⟨hform, hs, hrules⟩, ?_⟩
    cases form <;> exact ⟨_, rfl⟩

-- Rules are not selected just if a name that is looked up is unknown, and settings are called valid
-- just if there is none.
theorem fails_iff_not_namesKnown (settings : RuleSettings) (t : Files) (time : String)
    (o : ShowOptions) :
    ((∃ e, Selection.select settings = .error e) ↔ ¬ settings.NamesKnown) ∧
      ((∃ out, run t time (.validate o) = .ok out) ↔
        ∃ form s, format o.format = .ok form ∧
          loadSettings t o.place.root o.place.file = .ok s ∧ s.rules.NamesKnown) :=
  ⟨exists_eq_error_iff.trans (not_congr Selection.exists_select_eq_ok_iff),
    exists_runValidate_eq_ok_iff⟩

-- A pack that there is not is only found out where the packs decide on the rules.
theorem accepts_unknown_pack :
    let selection (enabled : Option (List String)) : Except SelectionError (List String) :=
      (Selection.select { enabledRules := enabled, enabledPacks := ["misc"] }).map ids
    (∀ r ∈ Rule.catalogue, ∀ p ∈ r.packs, p.name ≠ "misc") ∧
      selection (some ["no-goto"]) = .ok ["no-goto"] ∧
      selection none = .error (.unknownPacks ["misc"]) := by
  decide +kernel

end Command

end CLint
