import CLint.Proofs.Sketch
import CLint.Proofs.Spelling

namespace CLint

namespace Token

-- A token without its place.
def spelling (t : Token) : LexemeKind × String :=
  (t.kind, t.text)

theorem map_lexeme_of_map_spelling {ts us : List Token} (ht : ∀ t ∈ ts, t.lexeme.Typical)
    (hu : ∀ u ∈ us, u.lexeme.Typical) (h : ts.map spelling = us.map spelling) :
    ts.map (·.lexeme) = us.map (·.lexeme) := by
  induction ts generalizing us with
  | nil =>
    cases us with
    | nil => rfl
    | cons => cases h
  | cons t ts ih =>
    cases us with
    | nil => cases h
    | cons u us =>
      obtain ⟨hs, hss⟩ := List.cons_eq_cons.mp h
      obtain ⟨hkind, htext⟩ := Prod.mk.inj hs
      have hlexeme := Lexeme.eq_of_typical (ht t List.mem_cons_self) (hu u List.mem_cons_self)
        hkind htext
      have hrest := ih (fun t h => ht t (List.mem_cons_of_mem _ h))
        (fun u h => hu u (List.mem_cons_of_mem _ h)) hss
      exact List.cons_eq_cons.mpr ⟨hlexeme, hrest⟩

end Token

namespace Source

-- A source without comments and directives.
def IsPlain (s : Source) : Prop :=
  ∀ t ∈ s.tokens, t.kind ≠ .comment ∧ t.text ≠ "#"

instance (s : Source) : Decidable s.IsPlain :=
  inferInstanceAs (Decidable (∀ t ∈ s.tokens, _))

end Source

section

variable {ts : List Token}

theorem Gathering.foldl_step_plain (h : ∀ t ∈ ts, t.lexeme.isComment = false) (g : Gathering)
    (hg : g.pending = none) :
    (ts.foldl step g).comments = g.comments ∧
      (ts.foldl step g).marked =
        ((ts.filter (!·.lexeme.isTrivia)).map (⟨·, none⟩)).reverse ++ g.marked := by
  induction ts generalizing g with
  | nil => exact ⟨rfl, rfl⟩
  | cons t ts ih =>
    have ht := h t List.mem_cons_self
    have hts := fun u hu => h u (List.mem_cons_of_mem t hu)
    cases hb : t.lexeme.isTrivia
    case true =>
      have hstep : g.step t = g := by simp [step, ht, hb]
      simpa [hstep, hb] using ih hts g hg
    case false =>
      have hstep : g.step t =
          { g with pending := none, line := some t.endLine, marked := ⟨t, none⟩ :: g.marked } := by
        simp [step, ht, hb, hg]
      simpa [hstep, hb] using ih hts (g.step t) (by rw [hstep])

theorem Divided.ofMarked_plain {ms : List Marked}
    (h : ∀ m ∈ ms, m.token.lexeme.isMark .hash = false) (previous : Option Token) :
    ofMarked previous none ms = { code := ms } := by
  induction ms generalizing previous with
  | nil => rfl
  | cons m ms ih =>
    have hm := h m List.mem_cons_self
    have hc : continues previous none m.token = false := by
      unfold continues
      split <;> simp_all
    simp [ofMarked, hc, begins, hm, ih fun m hm => h m (List.mem_cons_of_mem _ hm)]

-- A file without comments and directives is all code.
theorem Parts.ofTokens_plain (hc : ∀ t ∈ ts, t.lexeme.isComment = false)
    (hh : ∀ t ∈ ts, t.lexeme.isMark .hash = false) :
    ofTokens ts = ⟨[], [], (ts.filter (!·.lexeme.isTrivia)).map (⟨·, none⟩)⟩ := by
  obtain ⟨hcomments, hmarked⟩ := Gathering.foldl_step_plain hc {} rfl
  have hlist : (Gathering.ofTokens ts).markedList =
      (ts.filter (!·.lexeme.isTrivia)).map (⟨·, none⟩) := by
    rw [Gathering.markedList, Gathering.ofTokens, hmarked]
    simp
  have hcommentList : (Gathering.ofTokens ts).commentList = [] := by
    rw [Gathering.commentList, Gathering.ofTokens, hcomments]
    rfl
  have hplain : ∀ m ∈ (ts.filter (!·.lexeme.isTrivia)).map (Marked.mk · none),
      m.token.lexeme.isMark .hash = false := by
    intro m hm
    obtain ⟨t, ht, rfl⟩ := List.mem_map.mp hm
    exact hh t (List.mem_filter.mp ht).1
  simp only [ofTokens, hcommentList, hlist, Divided.ofMarked_plain hplain]

end

theorem Source.ofTokens_of_isPlain {s : Source} (h : s.IsPlain) :
    Parts.ofTokens s.tokens = ⟨[], [], s.essential.map (⟨·, none⟩)⟩ := by
  refine Parts.ofTokens_plain (fun t ht => ?_) (fun t ht => ?_)
  · have := (h t ht).1
    unfold Token.kind at this
    cases hl : t.lexeme <;> simp_all [Lexeme.kind, Lexeme.isComment]
  · have := (h t ht).2
    simp only [Lexeme.isMark, decide_eq_false_iff_not]
    intro hl
    exact this (by rw [Token.text, hl]; decide)

def Declaration.uncommented {σ : Type} (d : Declaration σ) : Declaration σ :=
  { d with comment := none }

namespace Outline

theorem constantNames_map {σ τ : Type} (f : σ → τ) (ds : List (Declaration σ)) :
    constantNames (ds.map (·.map f)) = constantNames ds := by
  simp only [constantNames, List.filter_map, List.map_map]
  rfl

theorem keepComment_of_none {ds : List (Declaration Span)} {d : Declaration Span}
    (h : d.comment = none) : keepComment ds d = d := by
  unfold keepComment
  split
  · rfl
  · rw [← h]

-- The sketch of a file without comments and directives, drawn from its lexemes alone.
def Sketch.ofLexemes (ls : List Lexeme) : Sketch :=
  let sites := Stmt.listSites 0 (Stmt.readFile ls)
  let batches := sites.flatMap Site.batches
  let declarations := grouped (batches.map (·.declarations.map Declaration.uncommented))
  let blocks := sites.flatMap (Site.controlBlocks (constantNames declarations) [])
  { declarations := declarations.mergeSort (·.span.startsBefore ·.span)
    blocks := blocks.mergeSort (·.span.encloses ·.span)
    diagnostics := (Site.problemsOf sites).map fun (p, n) => (p, ⟨n, n⟩)
    constantRegions := batches.filterMap (·.region) }

section

variable {p : Parts} (hd : p.directives = []) (hm : ∀ m ∈ p.code, m.comment = none)
    (ho : Token.Ordered p.tokens.toList)

include hm in
theorem located_uncommented (d : Declaration Run) :
    located p.tokens (p.code.map (·.comment)).toArray d =
      d.uncommented.map (locate p.tokens) := by
  have : ((p.code.map (·.comment)).toArray[d.span.first]?).join = none := by
    simp only [List.getElem?_toArray, List.getElem?_map]
    cases hc : p.code[d.span.first]? with
    | none => rfl
    | some m => simpa using hm m (List.mem_of_getElem? hc)
  rw [located, this]
  rfl

include hd hm in
theorem declarations_plain :
    p.declarations = (grouped (p.batches.map (·.declarations.map Declaration.uncommented))).map
      (·.map (locate p.tokens)) := by
  rw [← grouped_map fun _ _ => rfl]
  have := funext (located_uncommented hm)
  simp [Parts.declarations, Parts.definitions, hd, this, Function.comp_def]

theorem within_of_mem_uncommented {d : Declaration Run}
    (h : d ∈ grouped (p.batches.map (·.declarations.map Declaration.uncommented))) {r : Run}
    (hr : r ∈ d.spans) : r.Within 0 p.tokens.size := by
  obtain ⟨ds, hds, d', hd', n, rfl⟩ := mem_of_mem_grouped h
  obtain ⟨b, hb, rfl⟩ := List.mem_map.mp hds
  obtain ⟨d, hd, rfl⟩ := List.mem_map.mp hd'
  exact (p.inRange.batches b hb).declarations d hd r hr

include ho in
theorem sorted_declarations {ds : List (Declaration Run)}
    (h : ∀ d ∈ ds, ∀ r ∈ d.spans, r.Within 0 p.tokens.size) :
    ((ds.map (·.map (locate p.tokens))).mergeSort declarationLe).map (·.map (runOf p.tokens)) =
      ds.mergeSort (·.span.startsBefore ·.span) := by
  have hspan : ∀ d ∈ ds, d.span.Within 0 p.tokens.size := fun d hd =>
    h d hd d.span List.mem_cons_self
  rw [← List.map_mergeSort fun a ha b hb =>
    (declarationLe_locate ho (hspan a ha) (hspan b hb)).symm, List.map_map]
  refine (List.map_congr_left fun d hd => ?_).trans (List.map_id _)
  have hid : ∀ r ∈ d.spans, runOf p.tokens (locate p.tokens r) = id r := fun r hr =>
    runOf_locate ho (h d (List.mem_mergeSort.mp hd) r hr)
  rw [Function.comp_apply, Declaration.map_map]
  exact (Declaration.map_congr hid).trans d.map_id

include ho in
theorem sorted_blocks {bs : List (ControlBlock Run)}
    (h : ∀ b ∈ bs, ∀ r ∈ b.spans, r.Within 0 p.tokens.size) :
    ((bs.map (·.map (locate p.tokens))).mergeSort blockLe).map (·.map (runOf p.tokens)) =
      bs.mergeSort (·.span.encloses ·.span) := by
  have hspan : ∀ b ∈ bs, b.span.Within 0 p.tokens.size := fun b hb =>
    h b hb b.span List.mem_cons_self
  rw [← List.map_mergeSort fun a ha b hb =>
    (blockLe_locate ho (hspan a ha) (hspan b hb)).symm, List.map_map]
  refine (List.map_congr_left fun b hb => ?_).trans (List.map_id _)
  have hid : ∀ r ∈ b.spans, runOf p.tokens (locate p.tokens r) = id r := fun r hr =>
    runOf_locate ho (h b (List.mem_mergeSort.mp hb) r hr)
  rw [Function.comp_apply, ControlBlock.map_map]
  exact (ControlBlock.map_congr hid).trans b.map_id

include hd hm ho in
theorem sketch_declarations :
    ((p.declarations.map (keepComment p.declarations)).mergeSort declarationLe).map
        (·.map (runOf p.tokens)) = (Sketch.ofLexemes p.lexemes).declarations := by
  have hkeep : p.declarations.map (keepComment p.declarations) = p.declarations := by
    refine (List.map_congr_left fun d hd => ?_).trans (List.map_id _)
    rw [declarations_plain ‹_› hm] at hd
    obtain ⟨d₁, h₁, rfl⟩ := List.mem_map.mp hd
    obtain ⟨ds, hds, d₂, h₂, n, rfl⟩ := mem_of_mem_grouped h₁
    obtain ⟨b, _, rfl⟩ := List.mem_map.mp hds
    obtain ⟨d₃, _, rfl⟩ := List.mem_map.mp h₂
    exact keepComment_of_none rfl
  rw [hkeep, declarations_plain hd hm]
  exact sorted_declarations ho fun d => within_of_mem_uncommented

include hd hm ho in
theorem sketch_blocks (hc : p.comments = []) :
    ((p.blocks.map (·.map (locate p.tokens))).mergeSort blockLe).map (·.map (runOf p.tokens)) =
      (Sketch.ofLexemes p.lexemes).blocks := by
  rw [sorted_blocks ho p.inRange.blocks, Parts.blocks, hc, declarations_plain hd hm,
    constantNames_map]
  rfl

include ho in
theorem sketch_diagnostics :
    p.problems.map (fun q => (q.1, runOf p.tokens (tokenAt p.tokens q.2).span)) =
      (Sketch.ofLexemes p.lexemes).diagnostics := by
  refine List.map_congr_left fun q hq => Prod.ext rfl ?_
  have := p.inRange.problems q hq
  exact runOf_locate (r := ⟨q.2, q.2⟩) ho ⟨Nat.zero_le _, Nat.le_refl _, this⟩

include ho in
theorem sketch_regions :
    p.regions.map (fun r => runOf p.tokens (locate p.tokens r)) =
      (Sketch.ofLexemes p.lexemes).constantRegions := by
  refine (List.map_congr_left fun r hr => ?_).trans (List.map_id _)
  obtain ⟨b, hb, hr⟩ := List.mem_filterMap.mp hr
  exact runOf_locate ho ((p.inRange.batches b hb).region r hr)

end

-- Without comments and directives, what is found in a file depends on its lexemes only.
theorem sketch_ofSource {path text : String} (h : (Source.ofText path text).IsPlain) :
    (ofSource (.ofText path text)).sketch =
      .ofLexemes ((Source.ofText path text).essential.map (·.lexeme)) := by
  have hp := Source.ofTokens_of_isPlain h
  generalize hparts : Parts.ofTokens (Source.ofText path text).tokens = p at hp
  have hm : ∀ m ∈ p.code, m.comment = none := by
    intro m hm
    rw [hp] at hm
    obtain ⟨t, _, rfl⟩ := List.mem_map.mp hm
    rfl
  have hd : p.directives = [] := by rw [hp]
  have hc : p.comments = [] := by rw [hp]
  have ho : Token.Ordered p.tokens.toList := by
    have := (Source.ordered_tokens path text).sublist (Parts.sublist_code _)
    rwa [hparts] at this
  have hl : p.lexemes = (Source.ofText path text).essential.map (·.lexeme) := by
    rw [hp]
    simp [Parts.lexemes]
  rw [← hl]
  simp only [sketch, ofSource, hparts, hc, diagnosticsOf, List.find?_nil, List.map_map]
  exact Sketch.ext (sketch_declarations hd hm ho) (sketch_blocks hd hm ho hc)
    (sketch_diagnostics ho) (sketch_regions ho)

-- Blanks and line breaks do not matter: two files that consist of the same words are read alike.
theorem sketch_eq_of_spelling_eq {path path' text text' : String}
    (h : (Source.ofText path text).IsPlain) (h' : (Source.ofText path' text').IsPlain)
    (hs : (Source.ofText path text).essential.map (·.spelling) =
      (Source.ofText path' text').essential.map (·.spelling)) :
    (ofSource (.ofText path text)).sketch = (ofSource (.ofText path' text')).sketch := by
  have typical : ∀ path text, ∀ t ∈ (Source.ofText path text).essential, t.lexeme.Typical := by
    intro path text t ht
    have ht := List.mem_map_of_mem (f := Token.lexeme) (List.mem_filter.mp ht).1
    rw [Source.ofText, Source.map_lexeme_placed] at ht
    exact Lexer.typical_of_mem_lexemes ht
  rw [sketch_ofSource h, sketch_ofSource h',
    Token.map_lexeme_of_map_spelling (typical path text) (typical path' text') hs]

-- A function on one line, and the same function on five.
theorem sketch_eq_on_five_lines :
    let short := Source.ofText "a.c" "int f(void)\x7bif(a<1)return 0;\x7d"
    let long := Source.ofText "b.c" "int f(void)\n\x7b\n  if (a < 1)\r\n\treturn 0;\n\x7d\n"
    short.IsPlain ∧ long.IsPlain ∧
      short.essential.map (·.spelling) = long.essential.map (·.spelling) ∧
      (ofSource short).sketch = (ofSource long).sketch := by
  intro short long
  have hshort : short.IsPlain := by decide +kernel
  have hlong : long.IsPlain := by decide +kernel
  have hs : short.essential.map (·.spelling) = long.essential.map (·.spelling) := by
    decide +kernel
  exact ⟨hshort, hlong, hs, sketch_eq_of_spelling_eq hshort hlong hs⟩

end Outline
end CLint
