import CLint.Proofs.Located.Outline
import CLint.Rule.Condition
import CLint.Rule.Control
import CLint.Rule.Layout

namespace CLint.Rule

open Outline Remark

variable {settings : RuleSettings} {o : Outline} {lines : List String} {ts us : List Token}
  {b : ControlBlock Span} {m : Remark}

theorem isAnchored_bracesRequired (ho : o.IsOver ts) : bracesRequired.IsAnchored settings o ts :=
  isAnchored_of_ok rfl <| List.forall_mem_filterMap.mpr fun b hb m hm => by
    simp only [bracesRemark] at hm
    split at hm <;> cases hm
    exact .span (ho.keyword hb)

theorem isAnchored_comparisonOrder (ho : o.IsOver ts) :
    comparisonOrder.IsAnchored settings o ts :=
  isAnchored_of_ok rfl <| List.forall_mem_filterMap.mpr fun c hc m hm => by
    obtain ⟨b, hb, hc⟩ := List.mem_flatMap.mp hc
    simp only [comparisonRemark] at hm
    split at hm <;> cases hm
    exact .span (ho.comparison hb hc)

theorem isAnchored_switchDefault (ho : o.IsOver ts) : switchDefault.IsAnchored settings o ts :=
  isAnchored_of_ok rfl <| List.forall_mem_map.mpr fun _ hb =>
    .span (ho.keyword (List.mem_filter.mp hb).1)

theorem isAnchored_switchBreak (ho : o.IsOver ts) : switchBreak.IsAnchored settings o ts :=
  isAnchored_of_ok rfl <| List.forall_mem_flatMap.mpr fun b hb =>
    List.forall_mem_filterMap.mpr fun c hc m hm => by
      unfold clauseRemark at hm
      split at hm <;> cases hm
      exact .span (ho.label (List.mem_filter.mp hb).1 hc)

theorem sublist_conditionTokens (ho : o.IsOver ts) (b : ControlBlock Span) :
    (conditionTokens o b).Sublist ts := by
  unfold conditionTokens
  split
  case h_1 => exact List.nil_sublist _
  case h_2 => exact (ho.sublist_extract ..)

theorem isAnchored_assignmentInCondition (ho : o.IsOver ts) :
    assignmentInCondition.IsAnchored settings o ts :=
  isAnchored_of_ok rfl <| List.forall_mem_flatMap.mpr fun b _ =>
    List.forall_mem_map.mpr fun t ht => by
      have ht : t ∈ ts := (sublist_conditionTokens ho b).mem (List.mem_filter.mp ht).1
      exact .span (Span.over_of_mem ht)

-- What is cut off or taken out to get at the terms leaves the other tokens in their order.

theorem sublist_dropOpening (ts : List Token) : (dropOpening ts).Sublist ts := by
  induction ts with
  | nil => exact .refl _
  | cons t ts ih =>
    unfold dropOpening
    split
    · exact ih.cons t
    · exact .refl _

theorem sublist_dropClosing (ts : List Token) : (dropClosing ts).Sublist ts := by
  suffices ∀ us, (dropClosing.go us).reverse.Sublist us by
    simpa [dropClosing] using (this ts.reverse).reverse
  intro us
  induction us with
  | nil => exact .refl _
  | cons t us ih =>
    unfold dropClosing.go
    split
    · exact ih.cons t
    · rw [List.reverse_reverse]

theorem sublist_unwrap (ts : List Token) : (unwrap ts).Sublist ts := by
  fun_induction unwrap ts with
  | case1 ts _ ih => exact ih.trans ((List.dropLast_sublist _).trans (List.drop_sublist 1 ts))
  | case2 => exact .refl _

theorem sublist_of_mem_logicalParts (h : us ∈ logicalParts ts) : us.Sublist ts := by
  fun_induction logicalParts ts generalizing us with
  | case1 =>
    cases List.mem_singleton.mp h
    exact .refl _
  | case2 t ts _ ih =>
    cases List.mem_cons.mp h
    case inl h => exact h ▸ List.nil_sublist _
    case inr h => exact (ih h).cons t
  | case3 t ts _ hp ih =>
    cases List.mem_singleton.mp h
    exact (List.nil_sublist ts).cons_cons t
  | case4 t ts _ p ps hp ih =>
    rw [hp] at ih
    cases List.mem_cons.mp h
    case inl h => exact h ▸ (ih List.mem_cons_self).cons_cons t
    case inr h => exact (ih (List.mem_cons_of_mem p h)).cons t

theorem sublist_of_mem_terms (h : us ∈ terms ts) : us.Sublist ts := by
  obtain ⟨p, hp, rfl⟩ := List.mem_map.mp (List.mem_filter.mp h).1
  have hdrop := (sublist_dropClosing (dropOpening p)).trans (sublist_dropOpening p)
  exact (sublist_unwrap _).trans (hdrop.trans (sublist_of_mem_logicalParts hp))

theorem isAnchored_termRemark (h : us.Sublist ts) (hm : termRemark o us = some m) :
    m.IsAnchored lines ts := by
  unfold termRemark at hm
  split at hm
  case h_1 => cases hm
  case h_2 first others =>
    split at hm <;> cases hm
    exact .span ⟨first, others, h, rfl⟩

theorem isAnchored_negationRemark {c : Comparison Span} {operand : Operand Span}
    (h : c.span.Over ts) (hm : negationRemark o c operand = some m) : m.IsAnchored lines ts := by
  simp only [negationRemark] at hm
  split at hm <;> cases hm
  exact .span h

theorem isAnchored_booleanRemarks (ho : o.IsOver ts) (hb : b ∈ o.blocks) :
    ∀ m ∈ booleanRemarks o b, m.IsAnchored lines ts := by
  simp only [booleanRemarks]
  split
  case isTrue => exact List.forall_mem_nil _
  case isFalse =>
    refine List.forall_mem_append.mpr ⟨?_, ?_⟩
    · exact List.forall_mem_filterMap.mpr fun us hus m hm =>
        isAnchored_termRemark ((sublist_of_mem_terms hus).trans (sublist_conditionTokens ho b)) hm
    · refine List.forall_mem_flatMap.mpr fun c hc => List.forall_mem_append.mpr ⟨?_, ?_⟩
      all_goals
        intro m hm
        exact isAnchored_negationRemark (ho.comparison hb hc) (Option.mem_toList.mp hm)

theorem isAnchored_explicitBooleanTest (ho : o.IsOver ts) :
    explicitBooleanTest.IsAnchored settings o ts :=
  isAnchored_of_ok rfl <| List.forall_mem_flatMap.mpr fun _ hb => isAnchored_booleanRemarks ho hb

end CLint.Rule
