import CLint.Proofs.Selected
import CLint.Proofs.SmallLetters
import CLint.Settings.Reading

namespace CLint

namespace Value

variable {ss ts : List String} {ms ns : List Int}

theorem texts_inj : texts ss = texts ts ↔ ss = ts := by
  rw [texts, texts, list.injEq, List.map_inj_right fun _ _ => text.inj]

theorem ints_inj : ints ms = ints ns ↔ ms = ns := by
  rw [ints, ints, list.injEq, List.map_inj_right fun _ _ => int.inj]

end Value

theorem map_eq_ok_iff {ε α β : Type} {x : Except ε α} {f : α → β} {b : β} :
    f <$> x = .ok b ↔ ∃ a, x = .ok a ∧ f a = b := by
  cases x <;> simp [Functor.map, Except.map]

namespace Reading

variable {α : Type} {field : String} {v : Value} {entry : Option Value}

theorem table_eq_ok_iff {t : Table} :
    table field entry = .ok t ↔ entry.getD (.table []) = .table t := by
  cases entry with
  | none => simp [table, eq_comm]
  | some v => cases v <;> simp [table]

theorem int_eq_ok_iff {n : Int} : int field v = .ok n ↔ v = .int n := by
  cases v <;> simp [int]

theorem textItem_eq_ok_iff {s : String} : textItem field v = .ok s ↔ v = .text s := by
  cases v <;> simp [textItem]

-- Items are read one by one, and each has to be of the right kind.
theorem mapM_eq_ok_iff {f : Value → Reading α} {kind : α → Value}
    (hf : ∀ v a, f v = .ok a ↔ v = kind a) {items : List Value} {as : List α} :
    items.mapM f = .ok as ↔ items = as.map kind := by
  induction items generalizing as with
  | nil =>
    rw [List.mapM_nil]
    cases as <;> simp [pure, Except.pure]
  | cons v vs ih =>
    simp only [List.mapM_cons, bind_eq_ok_iff, hf, ih]
    constructor
    case mp =>
      rintro ⟨a, rfl, as, rfl, h⟩
      cases h
      rfl
    case mpr =>
      intro h
      obtain ⟨a, as, rfl, rfl, rfl⟩ := List.map_eq_cons_iff.mp h.symm
      exact ⟨a, rfl, as, rfl, rfl⟩

theorem texts_eq_ok_iff {ss : List String} : texts field v = .ok ss ↔ v = .texts ss := by
  cases v with
  | list items =>
    rw [texts, mapM_eq_ok_iff fun _ _ => textItem_eq_ok_iff, Value.texts, Value.list.injEq]
  | _ => exact iff_of_false nofun nofun

theorem ints_eq_ok_iff {ns : List Int} : ints field v = .ok ns ↔ v = .ints ns := by
  cases v with
  | list items =>
    rw [ints, mapM_eq_ok_iff fun _ _ => int_eq_ok_iff, Value.ints, Value.list.injEq]
  | _ => exact iff_of_false nofun nofun

theorem textsOrNone_eq_ok_iff {ss : List String} :
    textsOrNone field entry = .ok ss ↔ entry.getD (.texts []) = .texts ss := by
  cases entry with
  | none => simp [textsOrNone, Value.texts_inj, eq_comm]
  | some v => exact texts_eq_ok_iff

theorem positive_eq_ok_iff {fallback n : Int} :
    positive field fallback entry = .ok n ↔ entry.getD (.int fallback) = .int n ∧ 0 < n := by
  simp only [positive, bind_eq_ok_iff, int_eq_ok_iff]
  constructor
  case mp =>
    rintro ⟨m, hm, h⟩
    split at h
    · cases h
    · cases h
      exact ⟨hm, by omega⟩
  case mpr =>
    rintro ⟨hn, hpos⟩
    exact ⟨n, hn, if_neg (by omega)⟩

section

variable {name : α → String} {all : List α} {a : α}

-- A choice is named by a text in small letters, if names are not given twice.
theorem choice?_eq_some_iff (hall : ∀ a, a ∈ all) (hname : name.Injective) {s : String} :
    choice? name all s = some a ↔ Text.lower s = name a := by
  have hfound : ∀ {b}, choice? name all s = some b → name b = Text.lower s := fun h => by
    simpa using List.find?_some h
  constructor
  case mp => exact fun h => (hfound h).symm
  case mpr =>
    intro h
    have hsome : (choice? name all s).isSome :=
      List.find?_isSome.mpr ⟨a, hall a, decide_eq_true h.symm⟩
    obtain ⟨b, hb⟩ := Option.isSome_iff_exists.mp hsome
    rw [hb, hname ((hfound hb).trans h)]

theorem choice_eq_ok_iff {fallback : α} (hall : ∀ a, a ∈ all) (hname : name.Injective) :
    choice field name all fallback entry = .ok a ↔
      (entry = none ∧ a = fallback) ∨ ∃ s, entry = some (.text s) ∧ Text.lower s = name a := by
  cases entry with
  | none => simp [choice, eq_comm]
  | some v =>
    cases v with
    | text s =>
      simp only [choice, ← choice?_eq_some_iff hall hname, reduceCtorEq, false_and,
        Option.some.injEq, Value.text.injEq, false_or, exists_eq_left']
      cases choice? name all s <;> simp
    | _ => simp [choice]

end

end Reading

-- The table of a name, which is empty if there is none.
def Table.HasTable (t : Table) (key : String) (entries : Table) : Prop :=
  (t.present? key).getD (.table []) = .table entries

-- The texts of a name, of which there are none if they are not mentioned.
def Table.HasTexts (t : Table) (key : String) (ss : List String) : Prop :=
  (t.present? key).getD (.texts []) = .texts ss

-- A number above zero, which is as usual if it is not mentioned.
def Table.HasPositive (t : Table) (key : String) (usual n : Int) : Prop :=
  (t.lookup key).getD (.int usual) = .int n ∧ 0 < n

-- A word that is a name in small letters, if it is mentioned.
def Table.HasChoice {α : Type} (t : Table) (key : String) (name : α → String) (usual a : α) :
    Prop :=
  (t.lookup key = none ∧ a = usual) ∨
    ∃ word, t.lookup key = some (.text word) ∧ Text.lower word = name a

namespace RuleSettings

-- What the tables of rules, packs and options say, entry by entry.
structure AreDescribedBy (s : RuleSettings) (rules packs options : Table) : Prop where
  indentWidth : options.HasPositive "indent_width" 2 s.indentWidth
  maxLineLength : options.HasPositive "max_line_length" 80 s.maxLineLength
  verbs : (options.present? "verbs" = none ∧ s.verbs = ({} : RuleSettings).verbs) ∨
    ∃ words, options.present? "verbs" = some (.texts words) ∧ s.verbs = words.map Text.lower
  allowedNumbers : (options.present? "allowed_magic_numbers").getD (.ints [0, 1, -1]) =
    .ints s.allowedNumbers
  enabledRules : rules.present? "enable" = s.enabledRules.map .texts
  disabledRules : rules.HasTexts "disable" s.disabledRules
  enabledPacks : packs.HasTexts "enable" s.enabledPacks
  disabledPacks : packs.HasTexts "disable" s.disabledPacks

variable {s : RuleSettings} {rules options packs : Table}

open Reading

theorem verbs_eq_ok_iff {usual words : List String} :
    (options.present? "verbs").elim (.ok usual) verbsOf = .ok words ↔
      (options.present? "verbs" = none ∧ words = usual) ∨
        ∃ ws, options.present? "verbs" = some (.texts ws) ∧ words = ws.map Text.lower := by
  cases options.present? "verbs" with
  | none => simp [eq_comm]
  | some v =>
    have htexts : ∀ ws, texts "options.verbs" v = .ok ws ↔ v = .texts ws := fun _ => texts_eq_ok_iff
    simp only [Option.elim_some, verbsOf, reduceCtorEq, false_and, false_or, Option.some.injEq,
      ← htexts]
    cases texts "options.verbs" v <;> simp [Except.map, eq_comm]

theorem allowedNumbers_eq_ok_iff {usual ns : List Int} :
    (options.present? "allowed_magic_numbers").elim (.ok usual)
        (ints "options.allowed_magic_numbers") = .ok ns ↔
      (options.present? "allowed_magic_numbers").getD (.ints usual) = .ints ns := by
  cases options.present? "allowed_magic_numbers" with
  | none => simp [Value.ints_inj]
  | some v => exact ints_eq_ok_iff

theorem enabledRules_eq_ok_iff {ids : Option (List String)} :
    (rules.present? "enable").mapM (texts "rules.enable") = .ok ids ↔
      rules.present? "enable" = ids.map .texts := by
  cases rules.present? "enable" with
  | none => cases ids <;> simp [pure, Except.pure]
  | some v =>
    rw [Option.mapM_some, map_eq_ok_iff]
    simp only [texts_eq_ok_iff]
    cases ids <;> simp

-- Rules are described as the tables say, and by nothing else.
theorem ofTables_eq_ok_iff : ofTables rules options = .ok s ↔
    ∃ packs, rules.HasTable "packs" packs ∧ s.AreDescribedBy rules packs options := by
  simp only [ofTables, bind_eq_ok_iff, table_eq_ok_iff, positive_eq_ok_iff, verbs_eq_ok_iff,
    allowedNumbers_eq_ok_iff, enabledRules_eq_ok_iff, textsOrNone_eq_ok_iff]
  constructor
  case mp =>
    rintro ⟨packs, hpacks, _, hindent, _, hlength, _, hverbs, _, hnumbers, _, henabled, _,
      hdisabled, _, hon, _, hoff, h⟩
    cases h
    exact ⟨packs, hpacks, hindent, hlength, hverbs, hnumbers, henabled, hdisabled, hon, hoff⟩
  case mpr =>
    rintro ⟨packs, hpacks, h⟩
    exact ⟨packs, hpacks, _, h.indentWidth, _, h.maxLineLength, _, h.verbs, _, h.allowedNumbers, _,
      h.enabledRules, _, h.disabledRules, _, h.enabledPacks, _, h.disabledPacks, rfl⟩

end RuleSettings

theorem OutputFormat.name_injective : Function.Injective name := by
  intro a b h
  cases a <;> cases b <;> first | rfl | exact absurd h (by decide)

theorem OutputFormat.mem_all (a : OutputFormat) : a ∈ all := by
  cases a <;> decide

theorem Threshold.name_injective : Function.Injective name := by
  intro a b h
  cases a <;> cases b <;> first | rfl | exact absurd h (by decide)

theorem Threshold.mem_all (a : Threshold) : a ∈ all := by
  cases a <;> decide

namespace Settings

-- What a table says about the settings, entry by entry.
structure IsDescribedBy (s : Settings) (t : Table) : Prop where
  format : t.HasChoice "format" OutputFormat.name .human s.format
  failOn : t.HasChoice "fail_on" Threshold.name .error s.failOn
  jobs : t.HasPositive "jobs" 1 s.jobs
  includes : t.HasTexts "include" s.includes
  excludes : t.HasTexts "exclude" s.excludes
  rules : ∃ rules options packs, t.HasTable "rules" rules ∧ t.HasTable "options" options ∧
    rules.HasTable "packs" packs ∧ s.rules.AreDescribedBy rules packs options

variable {s : Settings} {t : Table} {source : String}

open Reading

-- Settings are as the table says, and by nothing else.
theorem ofTable_eq_ok_iff :
    ofTable source t = .ok s ↔ s.IsDescribedBy t ∧ s.source = some source := by
  simp only [ofTable, bind_eq_ok_iff, table_eq_ok_iff, positive_eq_ok_iff,
    choice_eq_ok_iff OutputFormat.mem_all OutputFormat.name_injective,
    choice_eq_ok_iff Threshold.mem_all Threshold.name_injective, textsOrNone_eq_ok_iff,
    RuleSettings.ofTables_eq_ok_iff]
  constructor
  case mp =>
    rintro ⟨rules, hrules, options, hoptions, _, hjobs, _, hformat, _, hfailOn, _, hincludes, _,
      hexcludes, _, ⟨packs, hpacks, hs⟩, h⟩
    cases h
    exact ⟨⟨hformat, hfailOn, hjobs, hincludes, hexcludes, rules, options, packs, hrules, hoptions,
      hpacks, hs⟩, rfl⟩
  case mpr =>
    rintro ⟨⟨hformat, hfailOn, hjobs, hincludes, hexcludes, rules, options, packs, hrules, hoptions,
      hpacks, hs⟩, hsource⟩
    obtain ⟨format, failOn, jobs, includes, excludes, ruleSettings, _⟩ := s
    cases hsource
    exact ⟨rules, hrules, options, hoptions, jobs, hjobs, format, hformat, failOn, hfailOn,
      includes, hincludes, excludes, hexcludes, ruleSettings, ⟨packs, hpacks, hs⟩, rfl⟩

-- What is true of all settings that are read from a table.
structure IsNormal (s : Settings) : Prop where
  format : s.format.name ∈ ["human", "json"]
  failOn : s.failOn.name ∈ ["error", "warning", "info", "never"]
  jobs : 0 < s.jobs
  indentWidth : 0 < s.rules.indentWidth
  maxLineLength : 0 < s.rules.maxLineLength
  verbs : ∀ verb ∈ s.rules.verbs, Text.lower verb = verb

theorem IsDescribedBy.isNormal (h : s.IsDescribedBy t) : s.IsNormal := by
  obtain ⟨rules, options, packs, _, _, _, hs⟩ := h.rules
  constructor
  case format => cases s.format <;> decide
  case failOn => cases s.failOn <;> decide
  case jobs => exact h.jobs.2
  case indentWidth => exact hs.indentWidth.2
  case maxLineLength => exact hs.maxLineLength.2
  case verbs =>
    rcases hs.verbs with ⟨-, hverbs⟩ | ⟨words, -, hverbs⟩
    · rw [hverbs]
      decide +kernel
    · rw [hverbs]
      exact List.forall_mem_map.mpr fun word _ => Text.lower_lower word

-- Settings in normal form are described by the table that is written for them.
theorem IsNormal.isDescribedBy_toTable (h : s.IsNormal) : s.IsDescribedBy s.toTable := by
  constructor
  case format => exact .inr ⟨_, rfl, by cases s.format <;> decide +kernel⟩
  case failOn => exact .inr ⟨_, rfl, by cases s.failOn <;> decide +kernel⟩
  case jobs => exact ⟨rfl, h.jobs⟩
  case includes => rfl
  case excludes => rfl
  case rules =>
    refine ⟨_, _, _, rfl, rfl, rfl, ?_⟩
    constructor
    case indentWidth => exact ⟨rfl, h.indentWidth⟩
    case maxLineLength => exact ⟨rfl, h.maxLineLength⟩
    case verbs => exact .inr ⟨_, rfl, ((List.map_congr_left h.verbs).trans (List.map_id _)).symm⟩
    case allowedNumbers => rfl
    case enabledRules => cases s.rules.enabledRules <;> rfl
    case disabledRules => rfl
    case enabledPacks => rfl
    case disabledPacks => rfl

-- A table is either refused or read as settings in normal form, and these are what it says, entry
-- by entry. They are read again from the table that is written for them.
theorem isNormal_ofTable (source : String) (t : Table) :
    (∃ e, ofTable source t = .error e ∧ ∀ s : Settings, ¬ s.IsDescribedBy t) ∨
      ∃ s, ofTable source t = .ok s ∧ s.IsDescribedBy t ∧ s.source = some source ∧ s.IsNormal ∧
        ofTable source s.toTable = .ok s := by
  cases hs : ofTable source t with
  | error e =>
    refine .inl ⟨e, rfl, fun s h => ?_⟩
    have hok : ofTable source t = .ok { s with source := some source } :=
      ofTable_eq_ok_iff.mpr ⟨⟨h.format, h.failOn, h.jobs, h.includes, h.excludes, h.rules⟩, rfl⟩
    exact nomatch hs.symm.trans hok
  | ok s =>
    obtain ⟨hdescribed, hsource⟩ := ofTable_eq_ok_iff.mp hs
    have hnormal := hdescribed.isNormal
    exact .inr ⟨s, rfl, hdescribed, hsource, hnormal,
      ofTable_eq_ok_iff.mpr ⟨hnormal.isDescribedBy_toTable, hsource⟩⟩

end Settings
end CLint
