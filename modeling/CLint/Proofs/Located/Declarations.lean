import CLint.Proofs.Located.Outline
import CLint.Rule.Documentation
import CLint.Rule.Hazard
import CLint.Rule.Layout
import CLint.Rule.Structure

namespace CLint.Rule

open Outline Remark

-- The lines and tokens of a file, and a place in it that a declaration or a comment has.
variable {settings : RuleSettings} {o : Outline} {lines : List String} {ts : List Token}
  {d : Declaration Span} {m : Remark}

theorem isAnchored_constantRemark (h : d.span.Over ts) (hm : constantRemark d = some m) :
    m.IsAnchored lines ts := by
  simp only [constantRemark] at hm
  split at hm
  case isTrue =>
    split at hm <;> cases hm
    exact .span h
  case isFalse =>
    split at hm <;> cases hm
    exact .span h

theorem isAnchored_constantNaming (ho : o.IsOver ts) : constantNaming.IsAnchored settings o ts :=
  isAnchored_of_ok rfl <| List.forall_mem_filterMap.mpr fun _ hd _ hm =>
    isAnchored_constantRemark (ho.declaration hd) hm

theorem isAnchored_typeRemark (h : d.span.Over ts) (hm : typeRemark d = some m) :
    m.IsAnchored lines ts := by
  unfold typeRemark at hm
  split at hm <;> cases hm
  exact .span h

theorem isAnchored_typeNaming (ho : o.IsOver ts) : typeNaming.IsAnchored settings o ts :=
  isAnchored_of_ok rfl <| List.forall_mem_filterMap.mpr fun _ hd _ hm =>
    isAnchored_typeRemark (ho.declaration hd) hm

theorem isAnchored_variableRemark {label name : String} {s : Span} (h : s.Over ts)
    (hm : variableRemark label name s = some m) : m.IsAnchored lines ts := by
  unfold variableRemark at hm
  split at hm
  case isTrue =>
    cases hm
    exact .span h
  case isFalse =>
    split at hm <;> cases hm
    exact .span h

-- A declaration is remarked on where it stands, and its parameters where they do.
theorem isAnchored_variableRemarks (h : d.span.Over ts)
    (hp : ∀ p ∈ d.parameters, p.span.Over ts) :
    ∀ m ∈ variableRemarks d, m.IsAnchored lines ts := by
  unfold variableRemarks
  dsimp only
  split
  case isTrue => exact List.forall_mem_nil _
  case isFalse =>
    refine List.forall_mem_append.mpr ⟨fun m hm => ?_, ?_⟩
    · rw [Option.mem_toList] at hm
      split at hm
      · exact isAnchored_variableRemark h hm
      · cases hm
    · exact List.forall_mem_filterMap.mpr fun p hmem m hm =>
        isAnchored_variableRemark (hp p (List.mem_filter.mp hmem).1) hm

theorem isAnchored_variableNaming (ho : o.IsOver ts) : variableNaming.IsAnchored settings o ts :=
  isAnchored_of_ok rfl <| List.forall_mem_flatMap.mpr fun _ hd =>
    isAnchored_variableRemarks (ho.declaration hd) fun _ hp => ho.parameter hd hp

theorem isAnchored_functionRemark {verbs : List String} (h : d.span.Over ts)
    (hm : functionRemark verbs d = some m) : m.IsAnchored lines ts := by
  simp only [functionRemark] at hm
  split at hm
  case isTrue => cases hm
  case isFalse =>
    split at hm
    case isTrue =>
      cases hm
      exact .span h
    case isFalse =>
      split at hm <;> cases hm
      exact .span h

theorem isAnchored_functionNaming (ho : o.IsOver ts) : functionNaming.IsAnchored settings o ts :=
  isAnchored_of_ok rfl <| List.forall_mem_filterMap.mpr fun _ hd _ hm =>
    isAnchored_functionRemark (ho.declaration hd) hm

theorem isAnchored_noGlobalVariables (ho : o.IsOver ts) :
    noGlobalVariables.IsAnchored settings o ts :=
  isAnchored_of_ok rfl <| List.forall_mem_map.mpr fun _ hd =>
    .span (ho.declaration (List.mem_filter.mp hd).1)

theorem isAnchored_groupRemark {ds : List (Declaration Span)} {group : Nat}
    (h : ∀ d ∈ ds, d.span.Over ts) (hm : groupRemark ds group = some m) :
    m.IsAnchored lines ts := by
  unfold groupRemark at hm
  split at hm
  case h_1 first second others hds =>
    cases hm
    have hmem : second ∈ ds.filter (·.group = group) := by simp [hds]
    exact .span (h second (List.mem_filter.mp hmem).1)
  case h_2 => cases hm

theorem isAnchored_oneDeclarationPerLine (ho : o.IsOver ts) :
    oneDeclarationPerLine.IsAnchored settings o ts :=
  isAnchored_of_ok rfl <| List.forall_mem_filterMap.mpr fun _ _ _ hm =>
    isAnchored_groupRemark (fun _ hd => ho.declaration (List.mem_filter.mp hd).1) hm

-- What is missing in a comment is remarked on where the parameter stands, what is too much where
-- the comment does.
theorem isAnchored_parameterRemarks {c : Comment} (hc : c.span.Over ts)
    (hp : ∀ p ∈ d.parameters, p.span.Over ts) :
    ∀ m ∈ parameterRemarks d c, m.IsAnchored lines ts :=
  List.forall_mem_append.mpr
    ⟨List.forall_mem_map.mpr fun p hmem => .span (hp p (List.mem_filter.mp hmem).1),
      List.forall_mem_map.mpr fun _ _ => .span hc⟩

theorem isAnchored_functionDocRemarks {documented : List String} (ho : o.IsOver ts)
    (hd : d ∈ o.declarations) :
    ∀ m ∈ functionDocRemarks o documented d, m.IsAnchored lines ts := by
  unfold functionDocRemarks
  split
  case h_1 =>
    split
    · exact List.forall_mem_nil _
    · exact List.forall_mem_singleton.mpr (.span (ho.declaration hd))
  case h_2 c hc =>
    refine List.forall_mem_append.mpr ⟨?_, ?_⟩
    · split
      · exact List.forall_mem_nil _
      · exact List.forall_mem_singleton.mpr (.span (ho.comment hc))
    · exact isAnchored_parameterRemarks (ho.comment hc) fun _ hp => ho.parameter hd hp

theorem isAnchored_functionDoc (ho : o.IsOver ts) : functionDoc.IsAnchored settings o ts :=
  isAnchored_of_ok rfl <| List.forall_mem_flatMap.mpr fun _ hd =>
    isAnchored_functionDocRemarks ho (List.mem_filter.mp hd).1

theorem isAnchored_functionReturnDoc (ho : o.IsOver ts) :
    functionReturnDoc.IsAnchored settings o ts :=
  isAnchored_of_ok rfl <| List.forall_mem_filterMap.mpr fun d hd m hm => by
    split at hm
    case h_1 => cases hm
    case h_2 c hc =>
      split at hm <;> cases hm
      exact .span (ho.comment hc)

theorem mem_comments_of_fileHeader? {c : Comment} (h : fileHeader? o = some c) :
    c ∈ o.comments := by
  unfold fileHeader? at h
  split at h
  case h_1 => cases h
  case h_2 _ _ hc =>
    dsimp only at h
    split at h <;> cases h
    exact hc ▸ List.mem_cons_self

theorem isAnchored_fileHeader (ho : o.IsOver ts) (hl : o.source.lines ≠ []) :
    fileHeader.IsAnchored settings o ts := by
  intro ms hms
  simp only [fileHeader] at hms
  split at hms
  case h_1 =>
    cases hms
    exact List.forall_mem_singleton.mpr (.origin hl)
  case h_2 c hc =>
    split at hms <;> cases hms
    · exact List.forall_mem_nil _
    · exact List.forall_mem_singleton.mpr (.span (ho.comments c (mem_comments_of_fileHeader? hc)))

theorem isAnchored_typeDoc (ho : o.IsOver ts) : typeDoc.IsAnchored settings o ts :=
  isAnchored_of_ok rfl <| List.forall_mem_map.mpr fun _ hd =>
    .span (ho.declaration (List.mem_filter.mp hd).1)

theorem isAnchored_doxygenTagOrder (ho : o.IsOver ts) :
    doxygenTagOrder.IsAnchored settings o ts :=
  isAnchored_of_ok rfl <| List.forall_mem_filterMap.mpr fun c hc m hm => by
    obtain ⟨_, _, rfl⟩ := Option.map_eq_some_iff.mp hm
    exact .span (ho.comments c (List.mem_filter.mp hc).1)

theorem isAnchored_doxygenCommentStyle (ho : o.IsOver ts) :
    doxygenCommentStyle.IsAnchored settings o ts :=
  isAnchored_of_ok rfl <| List.forall_mem_map.mpr fun c hc =>
    .span (ho.comments c (List.mem_filter.mp hc).1)

theorem isAnchored_fieldDoc (ho : o.IsOver ts) : fieldDoc.IsAnchored settings o ts :=
  isAnchored_of_ok rfl <| List.forall_mem_filterMap.mpr fun d hd m hm => by
    simp only [fieldRemark] at hm
    split at hm <;> cases hm
    exact .span (ho.declaration hd)

theorem isAnchored_functionDiagram (ho : o.IsOver ts) :
    functionDiagram.IsAnchored settings o ts :=
  isAnchored_of_ok rfl <| List.forall_mem_filterMap.mpr fun d hd m hm => by
    unfold diagramRemark at hm
    split at hm
    case h_1 => cases hm
    case h_2 =>
      split at hm <;> cases hm
      exact .span (ho.function hd)

theorem mem_of_earliest {ds : List Diagnostic} {d : Diagnostic} (h : earliest ds = some d) :
    d ∈ ds := by
  induction ds generalizing d with
  | nil => cases h
  | cons e ds ih =>
    unfold earliest at h
    split at h
    case h_1 =>
      cases h
      exact List.mem_cons_self
    case h_2 e' he =>
      split at h <;> cases h
      · exact List.mem_cons_of_mem _ (ih he)
      · exact List.mem_cons_self

theorem isAnchored_unterminatedBlock (ho : o.IsOver ts) :
    unterminatedBlock.IsAnchored settings o ts := by
  refine isAnchored_of_ok rfl ?_
  simp only [structuralRemarks]
  split
  case h_1 => exact List.forall_mem_nil _
  case h_2 first hfirst =>
    exact List.forall_mem_singleton.mpr (.span (ho.diagnostics first (mem_of_earliest hfirst)))

theorem isAnchored_fileNaming (hl : o.source.lines ≠ []) : fileNaming.IsAnchored settings o ts := by
  intro ms hms
  simp only [fileNaming] at hms
  split at hms
  case h_1 =>
    cases hms
    exact List.forall_mem_nil _
  case h_2 =>
    split at hms <;> cases hms
    · exact List.forall_mem_singleton.mpr (.origin hl)
    · exact List.forall_mem_nil _

end CLint.Rule
