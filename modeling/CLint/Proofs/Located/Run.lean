import CLint.Proofs.Aggregation
import CLint.Proofs.Located.Blocks
import CLint.Proofs.Located.Code
import CLint.Proofs.Located.Declarations
import CLint.Run

namespace CLint

variable {settings : RuleSettings} {o : Outline} {ts : List Token} {r : Rule}

-- One lemma for each rule. Only the length of lines depends on the settings for its place.
theorem Rule.isAnchored_of_mem_catalogue (h : 0 < settings.maxLineLength) (ho : o.IsOver ts)
    (hl : o.source.lines ≠ []) : ∀ r ∈ catalogue, r.IsAnchored settings o ts := by
  simp only [catalogue, List.forall_mem_cons]
  exact ⟨isAnchored_unterminatedBlock ho, isAnchored_fileNaming hl, isAnchored_constantNaming ho,
    isAnchored_typeNaming ho, isAnchored_stdintTypes ho, isAnchored_variableNaming ho,
    isAnchored_functionNaming ho, isAnchored_indentation ho, isAnchored_tabIndentation,
    isAnchored_bracesRequired ho, isAnchored_oneStatementPerLine ho,
    isAnchored_oneDeclarationPerLine ho, isAnchored_lineLength h,
    isAnchored_spaceAroundOperators ho, isAnchored_spaceInsideParentheses ho,
    isAnchored_emptyParentheses ho, isAnchored_comparisonOrder ho, isAnchored_switchDefault ho,
    isAnchored_switchBreak ho, isAnchored_explicitBooleanTest ho,
    isAnchored_assignmentInCondition ho, isAnchored_functionDoc ho,
    isAnchored_functionReturnDoc ho, isAnchored_magicNumber ho, isAnchored_noGoto ho,
    isAnchored_singleReturn ho, isAnchored_dynamicAllocation ho, isAnchored_sideEffectInCall ho,
    isAnchored_noGlobalVariables ho, isAnchored_fileHeader ho hl, isAnchored_typeDoc ho,
    isAnchored_fieldDoc ho, isAnchored_doxygenCommentStyle ho, isAnchored_functionDiagram ho,
    isAnchored_doxygenTagOrder ho, List.forall_mem_nil _⟩

theorem Selection.subset_catalogue {rules : List Rule} (h : select settings = .ok rules) :
    rules ⊆ Rule.catalogue := by
  obtain ⟨_, _, h⟩ := exists_of_bind_eq_ok h
  split at h
  case h_1 =>
    obtain ⟨packs, _, h⟩ := exists_of_bind_eq_ok h
    cases h
    exact List.filter_subset_self _
  case h_2 =>
    cases h
    intro r hr
    obtain ⟨id, _, hr⟩ := List.mem_filterMap.mp hr
    exact List.mem_of_find?_eq_some hr

namespace Run

variable {path text : String} {rules : List Rule}

theorem lines_ne_nil (path text : String) : (Source.ofText path text).lines ≠ [] := by
  simp [Source.ofText, Source.splitLines_ne_nil]

-- A rule that fails is reported at the beginning of the first line.
theorem isLocated_failureFinding (r : Rule) (failure : RuleFailure) :
    (failureFinding r path failure).IsLocated (Source.ofText path text).lines := by
  obtain ⟨l, ls, hl⟩ := List.exists_cons_of_ne_nil (lines_ne_nil path text)
  exact hl ▸ Finding.isLocated_of_line (n := 0) (k := 0) rfl (Nat.zero_le _) rfl rfl
    fun _ h => nomatch h

theorem isLocated_of_mem_checkFile (h : 0 < settings.maxLineLength) (hr : rules ⊆ Rule.catalogue) :
    ∀ f ∈ checkFile rules settings path text, f.IsLocated (Source.ofText path text).lines := by
  intro f hf
  obtain ⟨r, hmem, hf⟩ := List.mem_flatMap.mp (Finding.mem_of_mem_aggregate hf)
  have ho := Outline.isOver_ofSource (.ofText path text)
  have hanchored := Rule.isAnchored_of_mem_catalogue h ho (lines_ne_nil path text) r (hr hmem)
  rw [ruleFindings, Rule.findings] at hf
  cases hc : r.check settings (.ofSource (.ofText path text)) with
  | ok ms =>
    rw [hc] at hf
    obtain ⟨m, hm, rfl⟩ := List.mem_map.mp hf
    exact (hanchored ms hc m hm).isLocated r
  | error failure =>
    rw [hc] at hf
    exact List.mem_singleton.mp hf ▸ isLocated_failureFinding r failure

-- Each finding has a place in its file, whatever the text is, by whichever rules it is checked, and
-- also where a rule fails. Only if no rules can be selected there are no findings at all.
theorem isLocated_findings (h : 0 < settings.maxLineLength) (path text : String) :
    (∀ rules ⊆ Rule.catalogue, ∀ f ∈ checkFile rules settings path text,
      f.IsLocated (Source.ofText path text).lines) ∧
    ∀ rules, Selection.select settings = .ok rules →
      ∃ fs, analyzeFile settings path text = .ok fs ∧
        ∀ f ∈ fs, f.IsLocated (Source.ofText path text).lines := by
  refine ⟨fun rules hr => isLocated_of_mem_checkFile h hr, fun rules hr => ?_⟩
  refine ⟨checkFile rules settings path text, ?_, ?_⟩
  · rw [analyzeFile, hr]
    rfl
  · exact isLocated_of_mem_checkFile h (Selection.subset_catalogue hr)

-- A line that is too long, behind one that may be as long as it is.
theorem isLocated_findings_longLine :
    let settings : RuleSettings := {
      maxLineLength := 8
      enabledRules := some ["line-length", "no-goto"] }
    0 < settings.maxLineLength ∧
    ∃ fs, analyzeFile settings "a.c" "int i;\n  i = i + 1;\n" = .ok fs ∧
      fs.map (fun f => (f.line, f.column)) = [(2, 9)] ∧
      ∀ f ∈ fs, f.IsLocated ["int i;", "  i = i + 1;", ""] := by
  intro settings
  have h : 0 < settings.maxLineLength := by decide
  have hr : Selection.select settings = .ok [Rule.lineLength, Rule.noGoto] := rfl
  have hlines : (Source.ofText "a.c" "int i;\n  i = i + 1;\n").lines =
      ["int i;", "  i = i + 1;", ""] := by decide +kernel
  have hplaces : (checkFile [Rule.lineLength, Rule.noGoto] settings "a.c"
      "int i;\n  i = i + 1;\n").map (fun f => (f.line, f.column)) = [(2, 9)] := by
    decide +kernel
  obtain ⟨fs, hfs, hl⟩ := (isLocated_findings h "a.c" "int i;\n  i = i + 1;\n").2 _ hr
  have hcheck := hfs
  rw [analyzeFile, hr] at hcheck
  cases hcheck
  exact ⟨h, _, hfs, hplaces, hlines ▸ hl⟩

end Run
end CLint
