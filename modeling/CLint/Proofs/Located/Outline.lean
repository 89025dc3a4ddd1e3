import CLint.Proofs.Join.Gathering
import CLint.Proofs.Located.Basic

namespace CLint

-- All that an outline tells of a file is about spans over the tokens given.
structure Outline.IsOver (ts : List Token) (o : Outline) : Prop where
  code : o.code.toList.Sublist ts
  declarations : ∀ d ∈ o.declarations, ∀ s ∈ d.spans, s.Over ts
  blocks : ∀ b ∈ o.blocks, ∀ s ∈ b.spans, s.Over ts
  comments : ∀ c ∈ o.comments, c.span.Over ts
  diagnostics : ∀ d ∈ o.diagnostics, d.span.Over ts

-- Blanks and line breaks are passed over when a file is divided.
theorem Gathering.foldl_step_filter (ts : List Token) (g : Gathering) :
    (ts.filter (!·.lexeme.isTrivia)).foldl step g = ts.foldl step g := by
  induction ts generalizing g with
  | nil => rfl
  | cons t ts ih =>
    by_cases h : t.lexeme.isTrivia
    case pos =>
      have hstep : g.step t = g := foldl_step_of_isTrivia (List.forall_mem_singleton.mpr h)
      rw [List.filter_cons_of_neg (by simpa using h), ih, List.foldl_cons, hstep]
    case neg =>
      rw [List.filter_cons_of_pos (by simpa using h), List.foldl_cons, List.foldl_cons, ih]

theorem Parts.ofTokens_essential (s : Source) : ofTokens s.essential = ofTokens s.tokens := by
  simp only [ofTokens, Gathering.ofTokens, Source.essential, Gathering.foldl_step_filter]

theorem Outline.spans_keepComment (ds : List (Declaration Span)) (d : Declaration Span) :
    (keepComment ds d).spans = d.spans := by
  unfold keepComment
  split <;> rfl

-- What an outline is about begins and ends with tokens that are neither blanks nor line breaks.
theorem Outline.isOver_ofSource (s : Source) : (ofSource s).IsOver s.essential := by
  have hparts : Parts.ofTokens s.tokens = Parts.ofTokens s.essential :=
    (Parts.ofTokens_essential s).symm
  simp only [ofSource, hparts]
  constructor
  case code => exact Parts.sublist_code _
  case declarations =>
    intro d hd
    obtain ⟨d', hd', rfl⟩ := List.mem_map.mp (List.mem_mergeSort.mp hd)
    rw [spans_keepComment]
    exact Parts.over_declaration hd'
  case blocks =>
    intro b hb
    obtain ⟨b', hb', rfl⟩ := List.mem_map.mp (List.mem_mergeSort.mp hb)
    exact Parts.over_block hb'
  case comments =>
    intro c hc
    obtain ⟨⟨c', n⟩, hc', rfl⟩ := List.mem_map.mp hc
    have : c'.span.Over s.essential := Parts.over_comment (List.fst_mem_of_mem_zipIdx hc')
    exact this
  case diagnostics =>
    intro d hd
    change d ∈ diagnosticsOf _ _ at hd
    unfold diagnosticsOf at hd
    split at hd
    case h_1 c hc =>
      cases List.mem_singleton.mp hd
      exact Parts.over_comment (List.mem_of_find?_eq_some hc)
    case h_2 =>
      obtain ⟨q, hq, rfl⟩ := List.mem_map.mp hd
      exact Parts.over_problem hq

namespace Outline.IsOver

variable {o : Outline} {ts : List Token}

theorem declaration (ho : o.IsOver ts) {d : Declaration Span} (h : d ∈ o.declarations) :
    d.span.Over ts :=
  ho.declarations d h _ List.mem_cons_self

theorem parameter (ho : o.IsOver ts) {d : Declaration Span} (h : d ∈ o.declarations)
    {p : Parameter Span} (hp : p ∈ d.parameters) : p.span.Over ts :=
  ho.declarations d h _ <|
    List.mem_append_left _ (List.mem_cons_of_mem _ (List.mem_map_of_mem hp))

theorem function (ho : o.IsOver ts) {d : Declaration Span} (h : d ∈ o.functions) :
    d.span.Over ts :=
  ho.declaration (List.mem_filter.mp h).1

theorem comment (ho : o.IsOver ts) {d : Declaration Span} {c : Comment}
    (h : o.commentOf d = some c) : c.span.Over ts := by
  obtain ⟨n, _, hc⟩ := Option.bind_eq_some_iff.mp h
  exact ho.comments c (List.mem_of_getElem? hc)

theorem keyword (ho : o.IsOver ts) {b : ControlBlock Span} (h : b ∈ o.blocks) :
    b.keyword.Over ts :=
  ho.blocks b h _ (by simp [ControlBlock.spans])

theorem comparison (ho : o.IsOver ts) {b : ControlBlock Span} (h : b ∈ o.blocks)
    {c : Comparison Span} (hc : c ∈ b.comparisons) : c.span.Over ts := by
  have hspan : c.span ∈ b.comparisons.flatMap Comparison.spans :=
    List.mem_flatMap_of_mem hc (by simp [Comparison.spans])
  exact ho.blocks b h _ (by simp [ControlBlock.spans, hspan])

theorem label (ho : o.IsOver ts) {b : ControlBlock Span} (h : b ∈ o.blocks) {c : Clause Span}
    (hc : c ∈ b.clauses) : c.label.Over ts :=
  ho.blocks b h _ (List.mem_append_right _ (List.mem_map_of_mem hc))

theorem sublist_extract (ho : o.IsOver ts) (i j : Nat) :
    (o.code.extract i j).toList.Sublist ts := by
  rw [Array.toList_extract, List.extract_eq_take_drop]
  exact ((List.take_sublist ..).trans (List.drop_sublist ..)).trans ho.code

end Outline.IsOver
end CLint
