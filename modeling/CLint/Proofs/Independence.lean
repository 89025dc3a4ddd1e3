import CLint.Proofs.Canonical
import CLint.Proofs.Located.Run
import Mathlib.Algebra.Group.Int.Defs
import Mathlib.Data.List.Nodup

namespace CLint

namespace Finding

-- Does a finding come from the rule of the given name, be it that the rule found something or that
-- it failed?
def isFrom (id : String) (f : Finding) : Bool :=
  f.rule = id ||
    (f.rule = "rule-internal-error" &&
      s!"rule {id} failed: ".toList.isPrefixOf f.message.toList)

variable {f g : Finding} {fs : List Finding} {p : Finding → Bool}

-- The rule of a finding is a part of its key, also if the rule failed.
theorem isFrom_congr (h : same f g) (id : String) : f.isFrom id = g.isFrom id := by
  have hkey := same_iff_key_eq.mp h
  simp only [key, EmbeddingLike.apply_eq_iff_eq, Prod.mk.injEq] at hkey
  rw [isFrom, isFrom, hkey.2.2.2.1, hkey.2.2.2.2]

-- Findings can be left out by their keys before or after they are aggregated.
theorem aggregate_filter (h : ∀ {f g}, same f g → p f = p g) (fs : List Finding) :
    aggregate (fs.filter p) = (aggregate fs).filter p := by
  have hsorted := (pairwise_aggregate fs).sublist (List.filter_sublist (p := p))
  refine eq_of_pairwise_of_mem_iff (pairwise_aggregate _) hsorted fun f => ?_
  rw [List.mem_filter, mem_aggregate_iff, mem_aggregate_iff]
  cases hf : p f with
  | true =>
    have hfilter : (fs.filter p).filter (same f) = fs.filter (same f) := by
      rw [List.filter_filter]
      refine List.filter_congr fun g _ => ?_
      cases hg : same f g with
      | true => rw [← h hg, hf]; rfl
      | false => rfl
    rw [← List.head?_filter, hfilter, List.head?_filter]
    exact (and_iff_left rfl).symm
  | false =>
    refine iff_of_false (fun hfind => ?_) fun hand => nomatch hand.2
    have hmem := List.mem_filter.mp (List.mem_of_find?_eq_some hfind)
    exact absurd (hf.symm.trans hmem.2) (by decide)

end Finding

namespace Rule

variable {a b r : Rule} {settings : RuleSettings} {o : Outline}

theorem nodup_ids : (catalogue.map (·.id)).Nodup := by
  decide +kernel

theorem eq_of_id_eq (ha : a ∈ catalogue) (hb : b ∈ catalogue) (h : a.id = b.id) : a = b :=
  List.inj_on_of_nodup_map nodup_ids ha hb h

theorem blank_notMem_id : ∀ r ∈ catalogue, ' ' ∉ r.id.toList := by
  decide +kernel

theorem id_ne_internalError : ∀ r ∈ catalogue, r.id ≠ "rule-internal-error" := by
  decide +kernel

theorem id_of_find? {id : String} (h : find? id = some r) : r.id = id := by
  simpa using List.find?_some h

theorem find?_id (h : r ∈ catalogue) : find? r.id = some r := by
  have hfound : (find? r.id).isSome := List.find?_isSome.mpr ⟨r, h, by simp⟩
  obtain ⟨s, hs⟩ := Option.isSome_iff_exists.mp hfound
  rw [hs, eq_of_id_eq (List.mem_of_find?_eq_some hs) h (id_of_find? hs)]

theorem numberRemarks_congr {other : RuleSettings}
    (h : settings.allowedNumbers = other.allowedNumbers) (before ts : List Token) :
    numberRemarks settings o before ts = numberRemarks other o before ts := by
  induction ts generalizing before with
  | nil => rfl
  | cons t ts ih => simp only [numberRemarks, numberRemark, h, ih]

theorem check_magicNumber (enabled : Option (List String)) (disabled : List String) :
    magicNumber.check { settings with enabledRules := enabled, disabledRules := disabled } o =
      magicNumber.check settings o :=
  numberRemarks_congr (by rfl) [] o.code.toList

-- No rule looks at which rules are enabled and disabled.
theorem check_eq_of_mem_catalogue (enabled : Option (List String)) (disabled : List String) :
    ∀ r ∈ catalogue,
      r.check { settings with enabledRules := enabled, disabledRules := disabled } o =
        r.check settings o := by
  simp only [catalogue, List.forall_mem_cons]
  and_intros
  all_goals first | rfl | exact check_magicNumber .. | exact List.forall_mem_nil _

end Rule

namespace Selection

variable {settings : RuleSettings} {rules : List Rule} {ids others : List String}

theorem nodup_eraseDups (names : List String) : names.eraseDups.Nodup := by
  match names with
  | [] => exact .nil
  | n :: ns =>
    rw [List.eraseDups_cons]
    refine List.nodup_cons.mpr ⟨fun h => ?_, nodup_eraseDups _⟩
    simpa using (List.mem_filter.mp (List.mem_eraseDups.mp h)).2
termination_by names.length
decreasing_by exact Nat.lt_succ_of_le (List.length_filter_le ..)

theorem perm_eraseDups (h : ∀ id, id ∈ ids ↔ id ∈ others) : ids.eraseDups.Perm others.eraseDups :=
  (List.perm_ext_iff_of_nodup (nodup_eraseDups _) (nodup_eraseDups _)).mpr fun id => by
    rw [List.mem_eraseDups, List.mem_eraseDups, h]

theorem sorted_congr (h : ∀ id, id ∈ ids ↔ id ∈ others) : sorted ids = sorted others := by
  have hle : ∀ names : List String, (names.mergeSort (· ≤ ·)).Pairwise (· ≤ ·) := fun names =>
    (List.pairwise_mergeSort (by simpa using fun a b c => le_trans) (by simpa using le_total)
      names).imp of_decide_eq_true
  have hperm := (List.mergeSort_perm ids.eraseDups (· ≤ ·)).trans
    ((perm_eraseDups h).trans (List.mergeSort_perm others.eraseDups (· ≤ ·)).symm)
  exact hperm.eq_of_pairwise (fun _ _ _ _ => le_antisymm) (hle _) (hle _)

theorem filter_isNone_eq_nil_iff {α : Type} {f : String → Option α} :
    (ids.filter fun id => (f id).isNone) = [] ↔ ∀ id ∈ ids, (f id).isSome := by
  rw [List.filter_eq_nil_iff]
  exact forall₂_congr fun id _ => by simp [Option.isSome_iff_ne_none]

theorem checkRules_eq_ok_iff : checkRules ids = .ok () ↔ ∀ id ∈ ids, (Rule.find? id).isSome := by
  rw [← filter_isNone_eq_nil_iff, checkRules]
  split <;> simp_all

-- Which names are unknown depends neither on their order nor on how often they come.
theorem checkRules_congr (h : ∀ id, id ∈ ids ↔ id ∈ others) :
    checkRules ids = checkRules others := by
  have hunknown : ∀ id, (id ∈ ids.filter fun id => (Rule.find? id).isNone) ↔
      id ∈ others.filter fun id => (Rule.find? id).isNone := fun id => by
    rw [List.mem_filter, List.mem_filter, h]
  have hsorted := sorted_congr hunknown
  unfold checkRules
  split
  case h_1 hids =>
    rw [hids] at hunknown
    have hothers := List.eq_nil_iff_forall_not_mem.mpr fun id hid => nomatch (hunknown id).mpr hid
    rw [hothers]
  case h_2 hids =>
    rw [hsorted]
    split
    case h_1 hothers =>
      rw [hothers] at hunknown
      have hnil := List.eq_nil_iff_forall_not_mem.mpr fun id hid => nomatch (hunknown id).mp hid
      exact absurd hnil hids
    case h_2 => rfl

-- To disable a rule takes it out of those that are selected, and nothing else.
theorem select_disabled (h : select settings = .ok rules) {r : Rule} (hr : r ∈ Rule.catalogue) :
    select { settings with disabledRules := settings.disabledRules ++ [r.id] } =
      .ok (rules.filter (·.id ≠ r.id)) := by
  obtain ⟨_, hc, h⟩ := exists_of_bind_eq_ok h
  have hcheck : checkRules (settings.enabledRules.getD [] ++ (settings.disabledRules ++ [r.id])) =
      .ok () := by
    have hknown := checkRules_eq_ok_iff.mp hc
    rw [checkRules_eq_ok_iff, ← List.append_assoc]
    intro id hid
    rcases List.mem_append.mp hid with hid | hid
    · exact hknown id hid
    · rw [List.mem_singleton.mp hid, Rule.find?_id hr]
      rfl
  cases he : settings.enabledRules with
  | none =>
    rw [he] at h hcheck
    obtain ⟨packs, hp, h⟩ := exists_of_bind_eq_ok h
    cases h
    simp only [select, hcheck, hp]
    refine congrArg Except.ok ?_
    rw [List.filter_filter]
    refine List.filter_congr fun s _ => ?_
    simp only [List.contains_append, List.contains_cons, List.contains_nil, Bool.or_false,
      Bool.not_or, decide_not, beq_eq_decide]
    ac_rfl
  | some ids =>
    rw [he] at h hcheck
    cases h
    simp only [select, hcheck]
    refine congrArg Except.ok ?_
    rw [List.filter_filterMap, List.filterMap_filter, List.filterMap_filter]
    refine List.filterMap_congr fun id _ => ?_
    by_cases hid : id = r.id
    · simp [hid, Rule.find?_id hr, Option.filter]
    · cases hf : Rule.find? id with
      | none => simp
      | some s => simp [hid, Rule.id_of_find? hf, Option.filter]

-- The rules that a list enables are the same ones in whatever order and however often it has them.
theorem select_perm (settings : RuleSettings) (h : ∀ id, id ∈ ids ↔ id ∈ others) :
    (∃ as bs, select { settings with enabledRules := some ids } = .ok as ∧
      select { settings with enabledRules := some others } = .ok bs ∧ as.Perm bs) ∨
    ∃ e, select { settings with enabledRules := some ids } = .error e ∧
      select { settings with enabledRules := some others } = .error e := by
  have hcheck : checkRules (ids ++ settings.disabledRules) =
      checkRules (others ++ settings.disabledRules) :=
    checkRules_congr fun id => by rw [List.mem_append, List.mem_append, h]
  simp only [select, Option.getD_some, ← hcheck]
  cases checkRules (ids ++ settings.disabledRules) with
  | error e => exact .inr ⟨e, rfl, rfl⟩
  | ok u => exact .inl ⟨_, _, rfl, rfl, ((perm_eraseDups h).filter _).filterMap _⟩

end Selection

namespace Run

variable {settings : RuleSettings} {rules others : List Rule} {o : Outline} {a b r : Rule}
  {f : Finding}

theorem ruleFindings_congr (enabled : Option (List String)) (disabled : List String)
    (hr : r ∈ Rule.catalogue) :
    ruleFindings { settings with enabledRules := enabled, disabledRules := disabled } o r =
      ruleFindings settings o r := by
  rw [ruleFindings, ruleFindings, Rule.findings, Rule.findings,
    Rule.check_eq_of_mem_catalogue enabled disabled r hr]

-- What a rule answers comes from this rule.
theorem isFrom_of_mem_ruleFindings (h : f ∈ ruleFindings settings o r) : f.isFrom r.id := by
  rw [ruleFindings, Rule.findings] at h
  cases hc : r.check settings o with
  | ok remarks =>
    rw [hc] at h
    obtain ⟨m, _, rfl⟩ := List.mem_map.mp h
    simp [Finding.isFrom, Rule.finding]
  | error failure =>
    rw [hc] at h
    rw [List.mem_singleton.mp h]
    simp [Finding.isFrom, failureFinding]

-- The name of a rule that failed can be read off what is said about it, since it has no blanks.
theorem eq_of_failureLead {as bs cs ds : List Char} (ha : ' ' ∉ as) (hb : ' ' ∉ bs)
    (h : bs ++ ' ' :: cs <+: as ++ ' ' :: ds) : as = bs := by
  have hcut : ∀ {xs : List Char} (ys : List Char), ' ' ∉ xs →
      (xs ++ ' ' :: ys).takeWhile (· != ' ') = xs := fun {xs} ys hx => by
    have hpos : ∀ c ∈ xs, (c != ' ') = true := fun c hc =>
      bne_iff_ne.mpr fun he => hx (he ▸ hc)
    rw [List.takeWhile_append_of_pos hpos]
    simp
  obtain ⟨more, hmore⟩ := h
  rw [← hcut ds ha, ← hmore, List.append_assoc, List.cons_append, hcut _ hb]

-- A finding comes from no more than one rule.
theorem eq_of_isFrom (ha : a ∈ Rule.catalogue) (hb : b ∈ Rule.catalogue)
    (h : f ∈ ruleFindings settings o a) (hf : f.isFrom b.id) : a = b := by
  refine Rule.eq_of_id_eq ha hb ?_
  rw [ruleFindings, Rule.findings] at h
  cases hc : a.check settings o with
  | ok remarks =>
    rw [hc] at h
    obtain ⟨m, _, rfl⟩ := List.mem_map.mp h
    rw [Finding.isFrom, Bool.or_eq_true, decide_eq_true_iff] at hf
    rcases hf with hf | hf
    · exact hf
    · have hinternal := of_decide_eq_true (Bool.and_eq_true_iff.mp hf).1
      exact absurd hinternal (Rule.id_ne_internalError a ha)
  | error failure =>
    rw [hc] at h
    have hlead : s!"rule {b.id} failed: ".toList <+:
        (failureFinding a o.source.path failure).message.toList := by
      rw [List.mem_singleton.mp h] at hf
      simpa [Finding.isFrom, failureFinding, (Rule.id_ne_internalError b hb).symm] using hf
    simp only [failureFinding, toString, String.toList_append, List.append_assoc] at hlead
    have hnames := (List.prefix_append_right_inj _).mp hlead
    exact String.toList_inj.mp
      (eq_of_failureLead (Rule.blank_notMem_id a ha) (Rule.blank_notMem_id b hb) hnames)

-- Two rules never answer the same.
theorem filter_append_comm (settings : RuleSettings) (o : Outline) (f : Finding)
    (ha : a ∈ Rule.catalogue)
    (hb : b ∈ Rule.catalogue) :
    ((ruleFindings settings o a).filter fun g => f.key = g.key) ++
        ((ruleFindings settings o b).filter fun g => f.key = g.key) =
      ((ruleFindings settings o b).filter fun g => f.key = g.key) ++
        ((ruleFindings settings o a).filter fun g => f.key = g.key) := by
  cases has : (ruleFindings settings o a).filter fun g => f.key = g.key with
  | nil => simp
  | cons g gs =>
    cases hbs : (ruleFindings settings o b).filter fun g => f.key = g.key with
    | nil => simp
    | cons h hs =>
      obtain ⟨hg, hfg⟩ := List.mem_filter.mp (has ▸ List.mem_cons_self)
      obtain ⟨hh, hfh⟩ := List.mem_filter.mp (hbs ▸ List.mem_cons_self)
      have hsame : Finding.same g h := Finding.same_iff_key_eq.mpr
        ((of_decide_eq_true hfg).symm.trans (of_decide_eq_true hfh))
      have hab : a = b := eq_of_isFrom ha hb hg
        ((Finding.isFrom_congr hsame b.id).trans (isFrom_of_mem_ruleFindings hh))
      rw [← has, ← hbs, hab]

-- In which order rules are asked does not change the order of findings with equal keys.
theorem rearranges_flatMap (h : rules.Perm others) (hmem : ∀ r ∈ rules, r ∈ Rule.catalogue) :
    Finding.Rearranges (rules.flatMap (ruleFindings settings o))
      (others.flatMap (ruleFindings settings o)) := by
  refine ⟨h.flatMap_right _, fun f => ?_⟩
  rw [List.filter_flatMap, List.filter_flatMap]
  induction h with
  | nil => rfl
  | cons r _ ih =>
    rw [List.flatMap_cons, List.flatMap_cons, ih fun s hs => hmem s (.tail r hs)]
  | swap b a rs =>
    have hcomm := filter_append_comm settings o f (hmem a (.head _))
      (hmem b (.tail a (.head rs)))
    simp only [List.flatMap_cons, ← List.append_assoc]
    rw [hcomm]
  | trans hl _ ihl ihr =>
    exact (ihl hmem).trans (ihr fun r hr => hmem r (hl.mem_iff.mpr hr))

-- To leave a rule out is to leave out what comes from it.
theorem flatMap_filter (hmem : ∀ s ∈ rules, s ∈ Rule.catalogue) (hr : r ∈ Rule.catalogue) :
    (rules.filter (·.id ≠ r.id)).flatMap (ruleFindings settings o) =
      (rules.flatMap (ruleFindings settings o)).filter (!·.isFrom r.id) := by
  induction rules with
  | nil => rfl
  | cons s rs ih =>
    obtain ⟨hs, hrs⟩ := List.forall_mem_cons.mp hmem
    rw [List.flatMap_cons, List.filter_append, ← ih hrs]
    by_cases hid : s.id = r.id
    · have hnone : (ruleFindings settings o s).filter (!·.isFrom r.id) = [] :=
        List.filter_eq_nil_iff.mpr fun f hf => by simp [← hid, isFrom_of_mem_ruleFindings hf]
      rw [List.filter_cons_of_neg (by simpa using hid), hnone, List.nil_append]
    · have hall : (ruleFindings settings o s).filter (!·.isFrom r.id) = ruleFindings settings o s :=
        List.filter_eq_self.mpr fun f hf => by
          rw [Bool.not_eq_true', Bool.eq_false_iff]
          exact fun hfrom => hid (congrArg Rule.id (eq_of_isFrom hs hr hf hfrom))
      rw [List.filter_cons_of_pos (by simpa using hid), List.flatMap_cons, hall]

-- Which rules are enabled and disabled matters for the selection only.
theorem checkFile_congr (settings : RuleSettings) (path text : String)
    (enabled : Option (List String)) (disabled : List String)
    (hmem : ∀ s ∈ rules, s ∈ Rule.catalogue) :
    checkFile rules { settings with enabledRules := enabled, disabledRules := disabled } path text =
      checkFile rules settings path text :=
  congrArg Finding.aggregate
    (List.flatMap_congr fun s hs => ruleFindings_congr enabled disabled (hmem s hs))

theorem checkFile_filter (path text : String) (hmem : ∀ s ∈ rules, s ∈ Rule.catalogue)
    (hr : r ∈ Rule.catalogue) :
    checkFile (rules.filter (·.id ≠ r.id)) settings path text =
      (checkFile rules settings path text).filter (!·.isFrom r.id) := by
  have hkeys : ∀ {f g : Finding}, f.same g → (!f.isFrom r.id) = !g.isFrom r.id :=
    fun h => congrArg _ (Finding.isFrom_congr h r.id)
  rw [checkFile, checkFile, ← Finding.aggregate_filter hkeys, ← flatMap_filter hmem hr]

theorem checkFile_perm (path text : String) (hmem : ∀ s ∈ rules, s ∈ Rule.catalogue)
    (h : rules.Perm others) :
    checkFile rules settings path text = checkFile others settings path text :=
  Finding.aggregate_eq_of_rearranges (rearranges_flatMap h hmem)

-- A rule has no influence on what the other rules find: without it, the findings are the same ones
-- but for its own. In which order and how often the rules are asked for has no influence either.
theorem analyzeFile_isIndependent (settings : RuleSettings) (path text : String) :
    (∀ rules, Selection.select settings = .ok rules →
      ∃ fs, analyzeFile settings path text = .ok fs ∧
        ∀ r ∈ Rule.catalogue,
          analyzeFile { settings with disabledRules := settings.disabledRules ++ [r.id] } path
            text = .ok (fs.filter (!·.isFrom r.id))) ∧
    ∀ ids others : List String, (∀ id, id ∈ ids ↔ id ∈ others) →
      analyzeFile { settings with enabledRules := some ids } path text =
        analyzeFile { settings with enabledRules := some others } path text := by
  constructor
  · intro rules h
    have hmem : ∀ s ∈ rules, s ∈ Rule.catalogue := fun s hs => Selection.subset_catalogue h hs
    refine ⟨checkFile rules settings path text, by rw [analyzeFile, h]; rfl, fun r hr => ?_⟩
    rw [analyzeFile, Selection.select_disabled h hr, ← checkFile_filter path text hmem hr,
      ← checkFile_congr settings path text _ _ fun s hs => hmem s (List.mem_filter.mp hs).1]
    rfl
  · intro ids others h
    rcases Selection.select_perm settings h with ⟨as, bs, ha, hb, hperm⟩ | ⟨e, ha, hb⟩
    · have hmem : ∀ s ∈ as, s ∈ Rule.catalogue := fun s hs => Selection.subset_catalogue ha hs
      have hall := checkFile_congr settings path text (some ids) settings.disabledRules hmem
      have hsome := checkFile_congr settings path text (some others) settings.disabledRules
        fun s hs => hmem s (hperm.mem_iff.mpr hs)
      rw [analyzeFile, analyzeFile, ha, hb]
      exact congrArg Except.ok (hall.trans ((checkFile_perm path text hmem hperm).trans hsome.symm))
    · rw [analyzeFile, analyzeFile, ha, hb]
      rfl

-- One of two rules fails, since no message can have an indentation of so many blanks in it.
theorem analyzeFile_isIndependent_failing :
    let settings : RuleSettings := {
      indentWidth := 10 ^ 4300
      enabledRules := some ["no-goto", "tab-indentation"] }
    ∃ fs, analyzeFile settings "a.c" "\tgoto end;\n" = .ok fs ∧
      analyzeFile { settings with disabledRules := ["tab-indentation"] } "a.c" "\tgoto end;\n" =
        .ok (fs.filter (!·.isFrom "tab-indentation")) ∧
      (∃ f ∈ fs, f.rule = "rule-internal-error" ∧ f.isFrom "tab-indentation") ∧
      (∃ f ∈ fs, f.isFrom "no-goto") ∧
      analyzeFile { settings with
          enabledRules := some ["tab-indentation", "no-goto", "tab-indentation"] }
        "a.c" "\tgoto end;\n" = .ok fs := by
  intro settings
  have hs : Selection.select settings = .ok [Rule.noGoto, Rule.tabIndentation] := rfl
  have hr : Rule.tabIndentation ∈ Rule.catalogue :=
    List.mem_of_find?_eq_some (rfl : Rule.find? "tab-indentation" = some Rule.tabIndentation)
  have hnames : ∀ id, id ∈ ["tab-indentation", "no-goto", "tab-indentation"] ↔
      id ∈ ["no-goto", "tab-indentation"] := fun id => by simp; tauto
  obtain ⟨fs, hfs, hwithout⟩ := (analyzeFile_isIndependent settings "a.c" "\tgoto end;\n").1 _ hs
  have hsame := (analyzeFile_isIndependent settings "a.c" "\tgoto end;\n").2 _ _ hnames
  have hfs' := hfs
  rw [analyzeFile, hs] at hfs'
  cases hfs'
  refine ⟨_, hfs, hwithout _ hr, ?_, ?_, hsame.trans hfs⟩
  · exact ⟨failureFinding .tabIndentation "a.c" .unwritable,
      Finding.mem_aggregate_iff.mpr (by decide +kernel), rfl, by decide +kernel⟩
  · exact ⟨⟨"no-goto", .warning, "a.c", 1, 2, "goto should not be used",
        some "Restructure with loops, flags or a single cleanup path.", some 1, some 6⟩,
      Finding.mem_aggregate_iff.mpr (by decide +kernel), by decide⟩

end Run
end CLint
