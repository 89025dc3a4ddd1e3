import CLint.Proofs.Division
import CLint.Proofs.Grouping
import CLint.Proofs.Within.Block

namespace CLint

-- The span has some text. It starts where a token of the file starts, and stops where one stops.
structure Span.OnTokens (source : Source) (s : Span) : Prop where
  start_mem : ∃ t ∈ source.tokens, t.span.start = s.start
  stop_mem : ∃ t ∈ source.tokens, t.span.stop = s.stop
  nonempty : s.start.offset < s.stop.offset
  stop_le : s.stop.offset ≤ source.text.length

-- The span reaches from one of the tokens to the same one or to a later one.
def Span.Over (ts : List Token) (s : Span) : Prop :=
  ∃ first others, (first :: others).Sublist ts ∧
    s = first.span.cover (others.getLast?.getD first).span

-- The lexemes of the run are there, and the span reaches from the first of them to the last.
structure Run.Locates (code : Array Token) (r : Run) (s : Span) : Prop where
  first_le : r.first ≤ r.last
  last_lt : r.last < code.size
  span_eq : s = (code[r.first].span).cover (code[r.last].span)

-- No number of a lexeme that is looked up in the code is too large for it.
structure Parts.InRange (p : Parts) : Prop where
  batches : ∀ b ∈ p.batches, b.Within 0 p.tokens.size
  blocks : ∀ b ∈ p.blocks, ∀ r ∈ b.spans, r.Within 0 p.tokens.size
  problems : ∀ q ∈ p.problems, q.2 < p.tokens.size

structure Declaration.WellPlaced (source : Source) (code : Array Token) (d : Declaration Span) :
    Prop where
  spans : ∀ s ∈ d.spans, s.OnTokens source
  body : ∀ r ∈ d.bodyRun, ∃ s ∈ d.body, r.Locates code s

structure ControlBlock.WellPlaced (source : Source) (code : Array Token) (b : ControlBlock Span) :
    Prop where
  spans : ∀ s ∈ b.spans, s.OnTokens source
  condition : ∀ r ∈ b.conditionRun, ∃ s ∈ b.condition, r.Locates code s

structure Outline.WellFormed (o : Outline) : Prop where
  declarations : ∀ d ∈ o.declarations, d.WellPlaced o.source o.code
  blocks : ∀ b ∈ o.blocks, b.WellPlaced o.source o.code
  comments : ∀ c ∈ o.comments, c.span.OnTokens o.source
  directives : ∀ d ∈ o.directives, d.span.OnTokens o.source
  diagnostics : ∀ d ∈ o.diagnostics, d.span.OnTokens o.source
  regions : ∀ r ∈ o.constantRegions, r.1 < r.2 ∧ r.2 ≤ o.source.text.length

namespace Parts

variable {p : Parts} {s : Site}

theorem size_tokens (p : Parts) : p.tokens.size = p.code.length := by
  simp [tokens]

theorem listSize_readFile (p : Parts) :
    Stmt.listSize (Stmt.readFile p.lexemes) = p.tokens.size := by
  rw [← Stmt.length_listLexemes, Stmt.listLexemes_readFile, size_tokens]
  simp [lexemes]

theorem stop_le_of_mem_sites (h : s ∈ p.sites) : s.stop ≤ p.tokens.size := by
  have := (Stmt.bounds_of_mem_listSites _ h).2
  rwa [Nat.zero_add, listSize_readFile] at this

theorem inRange (p : Parts) : p.InRange where
  batches b hb := by
    obtain ⟨s, hs, hb⟩ := List.mem_flatMap.mp hb
    exact (Site.within_of_mem_batches hb).mono (Nat.zero_le _) (stop_le_of_mem_sites hs)
  blocks b hb r hr := by
    obtain ⟨s, hs, hb⟩ := List.mem_flatMap.mp hb
    exact (Site.within_of_mem_controlBlocks hb hr).mono (Nat.zero_le _) (stop_le_of_mem_sites hs)
  problems q hq := by
    cases List.mem_append.mp hq
    case inl hq =>
      obtain ⟨s, hs, hq⟩ := List.mem_flatMap.mp hq
      exact Nat.lt_of_lt_of_le (Site.lt_stop_of_mem_problems hq) (stop_le_of_mem_sites hs)
    case inr hq =>
      obtain ⟨s, hs, rfl⟩ := Option.map_eq_some_iff.mp (Option.mem_toList.mp hq)
      exact Nat.lt_of_lt_of_le s.start_lt_stop (stop_le_of_mem_sites (List.mem_of_find?_eq_some hs))

end Parts

namespace Span

variable {s : Span} {ts us : List Token} {t u : Token}

theorem Over.mono (h : s.Over ts) (hs : ts.Sublist us) : s.Over us := by
  obtain ⟨first, others, ho, rfl⟩ := h
  exact ⟨first, others, ho.trans hs, rfl⟩

theorem over_of_mem (h : t ∈ ts) : t.span.Over ts :=
  ⟨t, [], List.singleton_sublist.mpr h, rfl⟩

theorem over_cover_of_sublist (h : [t, u].Sublist ts) : (t.span.cover u.span).Over ts :=
  ⟨t, [u], h, rfl⟩

theorem over_cover_getElem? {i j : Nat} (hij : i ≤ j) (ht : ts[i]? = some t)
    (hu : ts[j]? = some u) : (t.span.cover u.span).Over ts := by
  rcases Nat.eq_or_lt_of_le hij with rfl | hlt
  · cases ht.symm.trans hu
    exact over_of_mem (List.mem_of_getElem? ht)
  · obtain ⟨hi, rfl⟩ := List.getElem?_eq_some_iff.mp ht
    have hmem : u ∈ ts.drop (i + 1) := by
      refine List.mem_of_getElem? (i := j - (i + 1)) ?_
      rwa [List.getElem?_drop, Nat.add_sub_cancel' hlt]
    have hpair : [ts[i], u].Sublist (ts.drop i) :=
      List.drop_eq_getElem_cons hi ▸ (List.singleton_sublist.mpr hmem).cons_cons ts[i]
    exact over_cover_of_sublist (hpair.trans (List.drop_sublist i ts))

end Span

theorem Source.onTokens_of_over {path text : String} {s : Span}
    (h : s.Over (ofText path text).tokens) : s.OnTokens (ofText path text) := by
  obtain ⟨first, others, hs, rfl⟩ := h
  have hlast : (first :: others)[others.length]? = some (others.getLast?.getD first) := by
    rw [← List.getLast?_cons, List.getLast?_eq_getElem?, List.length_cons, Nat.add_sub_cancel]
  have hmem := hs.mem (List.mem_of_getElem? hlast)
  obtain ⟨hj, he⟩ := List.getElem?_eq_some_iff.mp hlast
  constructor
  case start_mem => exact ⟨first, hs.mem List.mem_cons_self, rfl⟩
  case stop_mem => exact ⟨_, hmem, rfl⟩
  case nonempty => exact he ▸ ((ordered_tokens path text).sublist hs).lt_of_le (Nat.zero_le _) hj
  case stop_le => exact endOffset_le_of_mem_tokens hmem

section

variable {σ τ : Type}

@[simp]
theorem Declaration.spans_map (f : σ → τ) (d : Declaration σ) :
    (d.map f).spans = d.spans.map f := by
  simp [spans, map, Parameter.map, Option.toList_map, Function.comp_def]

@[simp]
theorem Comparison.spans_map (f : σ → τ) (c : Comparison σ) : (c.map f).spans = c.spans.map f :=
  rfl

@[simp]
theorem ControlBlock.spans_map (f : σ → τ) (b : ControlBlock σ) :
    (b.map f).spans = b.spans.map f := by
  simp [spans, map, Clause.map, Option.toList_map, List.flatMap_map, List.map_flatMap,
    Function.comp_def]

end

namespace Outline

variable {code : Array Token} {r : Run}

theorem locates_locate (h : r.Within 0 code.size) : r.Locates code (locate code r) where
  first_le := h.first_le
  last_lt := h.last_lt
  span_eq := by
    have hfirst : r.first < code.size := Nat.lt_of_le_of_lt h.first_le h.last_lt
    simp [locate, tokenAt, hfirst, h.last_lt]

end Outline

namespace Parts

variable {ts : List Token} {r : Run}

theorem over_locate (h : r.Within 0 (ofTokens ts).tokens.size) :
    (Outline.locate (ofTokens ts).tokens r).Over ts := by
  rw [(Outline.locates_locate h).span_eq]
  have hspan := Span.over_cover_getElem? h.first_le
    (List.getElem?_eq_getElem (Nat.lt_of_le_of_lt h.first_le h.last_lt))
    (List.getElem?_eq_getElem h.last_lt)
  exact hspan.mono (sublist_code ts)

theorem over_comment {c : Comment} (h : c ∈ (ofTokens ts).comments) : c.span.Over ts := by
  obtain ⟨first, others, hs, hc⟩ := sublist_comment h
  rw [List.getLast?_cons, Option.getD_some] at hc
  exact ⟨first, others, hs, hc⟩

theorem over_directive {d : Marked × List Marked} (h : d ∈ (ofTokens ts).directives) :
    (Directive.ofTokens d.1 d.2).span.Over ts := by
  have hs := sublist_directive h
  rw [List.map_cons] at hs
  refine ⟨d.1.token, d.2.map (·.token), hs, ?_⟩
  rw [List.getLast?_map, Option.getD_map Marked.token]
  rfl

-- What a directive defines is located by the whole of the directive, and has no body.
theorem spans_of_mem_definitions {d : Declaration Span} (h : d ∈ (ofTokens ts).definitions) :
    d.bodyRun = none ∧
      ∃ e ∈ (ofTokens ts).directives, d.spans = [(Directive.ofTokens e.1 e.2).span] := by
  obtain ⟨⟨hash, rest⟩, hd, h⟩ := List.mem_filterMap.mp h
  dsimp only at h
  unfold Directive.definition? at h
  split at h
  case h_2 => cases h
  case h_1 =>
    split at h <;> cases h
    exact ⟨rfl, _, hd, rfl⟩

theorem over_located {b : Batch} (hb : b ∈ (ofTokens ts).batches) {d : Declaration Run}
    (hd : d ∈ b.declarations) (leads : Array (Option Nat)) :
    ∀ s ∈ (Outline.located (ofTokens ts).tokens leads d).spans, s.Over ts := by
  intro s hs
  have hs : s ∈ (d.map (Outline.locate (ofTokens ts).tokens)).spans := hs
  rw [Declaration.spans_map] at hs
  obtain ⟨r, hr, rfl⟩ := List.mem_map.mp hs
  exact over_locate (((ofTokens ts).inRange.batches b hb).declarations d hd r hr)

theorem over_declaration {d : Declaration Span} (h : d ∈ (ofTokens ts).declarations) :
    ∀ s ∈ d.spans, s.Over ts := by
  obtain ⟨ds, hds, d', hd, n, rfl⟩ := Outline.mem_of_mem_grouped h
  change ∀ s ∈ d'.spans, s.Over ts
  cases List.mem_append.mp hds
  case inl hds =>
    obtain ⟨m, hm, rfl⟩ := List.mem_map.mp hds
    cases List.mem_singleton.mp hd
    obtain ⟨_, e, he, hs⟩ := spans_of_mem_definitions hm
    intro s hmem
    rw [hs] at hmem
    cases List.mem_singleton.mp hmem
    exact over_directive he
  case inr hds =>
    obtain ⟨b, hb, rfl⟩ := List.mem_map.mp hds
    obtain ⟨r, hr, rfl⟩ := List.mem_map.mp hd
    exact over_located hb hr _

theorem over_block {b : ControlBlock Run} (h : b ∈ (ofTokens ts).blocks) :
    ∀ s ∈ (b.map (Outline.locate (ofTokens ts).tokens)).spans, s.Over ts := by
  intro s hs
  rw [ControlBlock.spans_map] at hs
  obtain ⟨r, hr, rfl⟩ := List.mem_map.mp hs
  exact over_locate ((ofTokens ts).inRange.blocks b h r hr)

theorem over_problem {q : Problem × Nat} (h : q ∈ (ofTokens ts).problems) :
    (Outline.tokenAt (ofTokens ts).tokens q.2).span.Over ts :=
  over_locate (r := ⟨q.2, q.2⟩)
    ⟨Nat.zero_le _, Nat.le_refl _, (ofTokens ts).inRange.problems q h⟩

-- The run of a body is that of its span.
theorem locates_body {d : Declaration Span} (h : d ∈ (ofTokens ts).declarations) :
    ∀ r ∈ d.bodyRun, ∃ s ∈ d.body, r.Locates (ofTokens ts).tokens s := by
  obtain ⟨ds, hds, d', hd, n, rfl⟩ := Outline.mem_of_mem_grouped h
  change ∀ r ∈ d'.bodyRun, ∃ s ∈ d'.body, r.Locates (ofTokens ts).tokens s
  intro r hr
  cases List.mem_append.mp hds
  case inl hds =>
    obtain ⟨m, hm, rfl⟩ := List.mem_map.mp hds
    cases List.mem_singleton.mp hd
    rw [(spans_of_mem_definitions hm).1] at hr
    cases hr
  case inr hds =>
    obtain ⟨b, hb, rfl⟩ := List.mem_map.mp hds
    obtain ⟨e, he, rfl⟩ := List.mem_map.mp hd
    have hw := (ofTokens ts).inRange.batches b hb
    have hbody : e.body = some r := hw.bodies e he ▸ hr
    refine ⟨Outline.locate (ofTokens ts).tokens r, ?_, Outline.locates_locate ?_⟩
    · simp [Outline.located, Declaration.map, hbody]
    · exact hw.declarations e he r (by simp [Declaration.spans, hbody])

theorem locates_condition {b : ControlBlock Run} (h : b ∈ (ofTokens ts).blocks) :
    ∀ r ∈ b.conditionRun, ∃ s ∈ (b.map (Outline.locate (ofTokens ts).tokens)).condition,
      r.Locates (ofTokens ts).tokens s := by
  intro r hr
  obtain ⟨s, hs, hb⟩ := List.mem_flatMap.mp h
  have hcond : b.condition = some r := Site.conditionRun_of_mem_controlBlocks hb ▸ hr
  refine ⟨Outline.locate (ofTokens ts).tokens r, ?_, Outline.locates_locate ?_⟩
  · simp [ControlBlock.map, hcond]
  · exact (ofTokens ts).inRange.blocks b h r (by simp [ControlBlock.spans, hcond])

end Parts

namespace Declaration.WellPlaced

variable {source : Source} {code : Array Token} {d : Declaration Span}

theorem keepComment (h : d.WellPlaced source code) (ds : List (Declaration Span)) :
    (Outline.keepComment ds d).WellPlaced source code := by
  unfold Outline.keepComment
  split
  · exact h
  · exact ⟨h.spans, h.body⟩

end Declaration.WellPlaced

section

-- The tokens of a file, and what the file is made of.
variable {path text : String} {ts : List Token} (hts : ts = (Source.ofText path text).tokens)

include hts

theorem Parts.onTokens_locate {r : Run} (h : r.Within 0 (ofTokens ts).tokens.size) :
    (Outline.locate (ofTokens ts).tokens r).OnTokens (.ofText path text) :=
  Source.onTokens_of_over (hts ▸ over_locate h)

theorem Parts.onTokens_comment {c : Comment} (h : c ∈ (ofTokens ts).comments) :
    c.span.OnTokens (.ofText path text) :=
  Source.onTokens_of_over (hts ▸ over_comment h)

theorem Parts.onTokens_directive {d : Marked × List Marked} (h : d ∈ (ofTokens ts).directives) :
    (Directive.ofTokens d.1 d.2).span.OnTokens (.ofText path text) :=
  Source.onTokens_of_over (hts ▸ over_directive h)

theorem Parts.wellPlaced_declaration {d : Declaration Span} (h : d ∈ (ofTokens ts).declarations) :
    d.WellPlaced (.ofText path text) (ofTokens ts).tokens where
  spans s hs := Source.onTokens_of_over (hts ▸ over_declaration h s hs)
  body := locates_body h

theorem Parts.wellPlaced_block {b : ControlBlock Run} (h : b ∈ (ofTokens ts).blocks) :
    (b.map (Outline.locate (ofTokens ts).tokens)).WellPlaced (.ofText path text)
      (ofTokens ts).tokens where
  spans s hs := Source.onTokens_of_over (hts ▸ over_block h s hs)
  condition := locates_condition h

end

-- All that an outline says of places is true of the text: what it locates begins and ends with
-- tokens, and no lexeme is looked up that is not there.
theorem Outline.wellFormed_ofSource (path text : String) :
    (Parts.ofTokens (Source.ofText path text).tokens).InRange ∧
      (ofSource (.ofText path text)).WellFormed := by
  refine ⟨Parts.inRange _, ?_⟩
  have hin := (Parts.ofTokens (Source.ofText path text).tokens).inRange
  constructor
  case declarations =>
    intro d hd
    obtain ⟨d', hd', rfl⟩ := List.mem_map.mp (List.mem_mergeSort.mp hd)
    exact (Parts.wellPlaced_declaration rfl hd').keepComment _
  case blocks =>
    intro b hb
    obtain ⟨b', hb', rfl⟩ := List.mem_map.mp (List.mem_mergeSort.mp hb)
    exact Parts.wellPlaced_block rfl hb'
  case comments =>
    intro c hc
    obtain ⟨⟨c', n⟩, hc', rfl⟩ := List.mem_map.mp hc
    have : c'.span.OnTokens _ := Parts.onTokens_comment rfl (List.fst_mem_of_mem_zipIdx hc')
    exact this
  case directives =>
    intro d hd
    obtain ⟨d', hd', rfl⟩ := List.mem_map.mp hd
    exact Parts.onTokens_directive rfl hd'
  case diagnostics =>
    intro d hd
    change d ∈ diagnosticsOf _ _ at hd
    unfold diagnosticsOf at hd
    split at hd
    case h_1 c hc =>
      cases List.mem_singleton.mp hd
      exact Parts.onTokens_comment rfl (List.mem_of_find?_eq_some hc)
    case h_2 =>
      obtain ⟨q, hq, rfl⟩ := List.mem_map.mp hd
      have := hin.problems q hq
      exact Parts.onTokens_locate rfl (r := ⟨q.2, q.2⟩) ⟨Nat.zero_le _, Nat.le_refl _, this⟩
  case regions =>
    intro r hr
    obtain ⟨run, hrun, rfl⟩ := List.mem_map.mp hr
    obtain ⟨b, hb, hrun⟩ := List.mem_filterMap.mp hrun
    have := Parts.onTokens_locate rfl ((hin.batches b hb).region run hrun)
    exact ⟨this.nonempty, this.stop_le⟩

end CLint
