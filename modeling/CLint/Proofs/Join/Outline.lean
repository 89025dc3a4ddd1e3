import CLint.Proofs.Join.Clauses
import CLint.Proofs.Join.Numbering
import CLint.Proofs.Join.Placing
import CLint.Proofs.Join.Reading
import Mathlib.Logic.Function.Basic

namespace CLint

namespace Parts

variable {ts : List Token} {n : Nat}

-- The comments that the tokens and the declarations of a file have are comments of the file.

theorem lt_of_mem_comment {k : Marked} (h : k ∈ (Gathering.ofTokens ts).markedList)
    (hn : n ∈ k.comment) : n < (ofTokens ts).comments.length := by
  have hlength := (Gathering.ofTokens ts).length_commentList
  have hlt := (Gathering.numbered_ofTokens ts).marked k (List.mem_reverse.mp h) n hn
  rwa [← hlength] at hlt

theorem lt_of_mem_definition {d : Declaration Span} (h : d ∈ (ofTokens ts).definitions)
    (hn : d.comment = some n) : n < (ofTokens ts).comments.length := by
  obtain ⟨⟨hash, rest⟩, hd, h⟩ := List.mem_filterMap.mp h
  have hmem := ((Divided.sublist_ofMarked ..).2.2 _ hd).mem List.mem_cons_self
  dsimp only at h
  unfold Directive.definition? at h
  split at h
  case h_2 => cases h
  case h_1 =>
    split at h <;> cases h
    exact lt_of_mem_comment hmem hn

theorem lt_of_join_leads {i : Nat} (hn : ((ofTokens ts).leads[i]?).join = some n) :
    n < (ofTokens ts).comments.length := by
  have hlead := Array.mem_of_getElem? (Option.join_eq_some_iff.mp hn)
  rw [leads, List.mem_toArray] at hlead
  obtain ⟨k, hk, hc⟩ := List.mem_map.mp hlead
  exact lt_of_mem_comment ((Divided.sublist_ofMarked ..).1.mem hk) hc

theorem lt_of_mem_declarations {d : Declaration Span} (h : d ∈ (ofTokens ts).declarations)
    (hn : d.comment = some n) : n < (ofTokens ts).comments.length := by
  obtain ⟨ds, hds, d', hd, k, rfl⟩ := Outline.mem_of_mem_grouped h
  cases List.mem_append.mp hds
  case inl hds =>
    obtain ⟨e, he, rfl⟩ := List.mem_map.mp hds
    cases List.mem_singleton.mp hd
    exact lt_of_mem_definition he hn
  case inr hds =>
    obtain ⟨b, _, rfl⟩ := List.mem_map.mp hds
    obtain ⟨r, _, rfl⟩ := List.mem_map.mp hd
    exact lt_of_join_leads hn

variable {path text : String} {m : Move}

-- The length of a text, its tokens and its comments put what is moved behind all of its parts.
theorem before_ofTokens (hts : ts = (Source.ofText path text).tokens)
    (ho : m.offset = text.length) (ht : m.tokens = (ofTokens ts).code.length)
    (hc : m.comments = (ofTokens ts).comments.length) : (ofTokens ts).Before m := by
  have hspan : ∀ s : Span, s.OnTokens (.ofText path text) → s.start.offset < m.offset :=
    fun s hs => ho ▸ Nat.lt_of_lt_of_le hs.nonempty hs.stop_le
  constructor
  case tokens => exact ht
  case comments => exact hc
  case code =>
    intro k hk
    have hk := (sublist_code ts).mem (List.mem_map_of_mem hk)
    rw [hts] at hk
    have hlt := (Source.ordered_tokens path text).nonempty _ hk
    exact ho ▸ Nat.lt_of_lt_of_le hlt (Source.endOffset_le_of_mem_tokens hk)
  case spans => exact fun c h => hspan _ (onTokens_comment hts h)
  case declarations =>
    exact fun d h => hspan _ ((wellPlaced_declaration hts h).spans _ List.mem_cons_self)
  case blocks =>
    exact fun b h => hspan _ ((wellPlaced_block hts h).spans _ List.mem_cons_self)
  case numbers => exact fun d h n hn => hc ▸ lt_of_mem_declarations h hn

end Parts

namespace Outline

-- How far the text of a file moves what follows it.
def extent (o : Outline) : Move where
  lines := o.source.lines.length - 1
  offset := o.source.text.length
  tokens := o.code.size
  comments := o.comments.length

def lexemes (o : Outline) : List Lexeme :=
  o.code.toList.map (·.lexeme)

-- A file of which the last word is a semicolon of the code, with a line feed behind it. All
-- brackets of the code are matched, and nothing is wrong with the file.
structure IsClosed (o : Outline) : Prop where
  ends : o.source.EndsStatement
  code : o.code.toList.getLast? = o.source.essential.getLast?
  nested : Code.isNested o.lexemes
  sound : o.diagnostics = []

-- One outline is made of two others, of which the second one is moved behind the first one. Only
-- the groups get other numbers, and what an operand is may depend on the constants of both.
structure IsJoin (whole first second : Outline) : Prop where
  code : whole.code = first.code ++ second.code.map first.extent.token
  declarations : ∃ f g : Nat → Nat, f.Injective ∧ g.Injective ∧
    (∀ d ∈ first.declarations, ∀ e ∈ second.declarations, f d.group ≠ g e.group) ∧
    whole.declarations = first.declarations.map (regroup f) ++
      (second.declarations.map first.extent.declaration).map (regroup g)
  blocks : whole.blocks.map (·.unkinded) =
    (first.blocks ++ second.blocks.map first.extent.block).map (·.unkinded)
  comments : whole.comments = first.comments ++ second.comments.map first.extent.comment
  directives : whole.directives = first.directives ++ second.directives.map first.extent.directive
  diagnostics : whole.diagnostics =
    first.diagnostics ++ second.diagnostics.map first.extent.diagnostic
  constantRegions : whole.constantRegions =
    first.constantRegions ++ second.constantRegions.map first.extent.region

section

variable {cs ds : List Comment} {problems : List Diagnostic} {m : Move}

theorem diagnosticsOf_eq_nil_iff :
    diagnosticsOf cs problems = [] ↔ (∀ c ∈ cs, c.terminated) ∧ problems = [] := by
  unfold diagnosticsOf
  split
  case h_1 c hc =>
    have hopen : ¬ c.terminated := by simpa using List.find?_some hc
    simp only [List.cons_ne_nil, false_iff]
    exact fun h => hopen (h.1 c (List.mem_of_find?_eq_some hc))
  case h_2 hc => simpa using fun _ => hc

theorem diagnosticsOf_append (h : ∀ c ∈ cs, c.terminated) :
    diagnosticsOf (cs ++ ds.map m.comment) (problems.map m.diagnostic) =
      (diagnosticsOf ds problems).map m.diagnostic := by
  have hcs : cs.find? (!·.terminated) = none :=
    List.find?_eq_none.mpr fun c hc => by simp [h c hc]
  have hds : (ds.map m.comment).find? (!·.terminated) =
      (ds.find? (!·.terminated)).map m.comment := by
    rw [List.find?_map]
    rfl
  rw [diagnosticsOf, diagnosticsOf, List.find?_append, hcs, Option.none_or, hds]
  cases ds.find? (!·.terminated) <;> rfl

end

variable {path text : String}

theorem one_le_lines (path text : String) : 1 ≤ (Source.ofText path text).lines.length := by
  have hline := Place.line_advance .origin text.toList
  have hle := Place.line_le_advance .origin text.toList none
  rw [Source.ofText, List.length_map]
  simp only [Place.origin] at hline hle
  omega

theorem advance_extent (h : (Source.ofText path text).EndsStatement) :
    Place.origin.advance text.toList none =
      (ofSource (.ofText path text)).extent.place .origin := by
  have hlines := one_le_lines path text
  have hlength : (Source.ofText path text).lines.length = (Source.splitLines text.toList).length :=
    List.length_map _
  refine Source.advance_origin h.feed ?_ ?_
  · exact (Nat.sub_add_cancel hlines).trans hlength
  · exact String.length_toList.symm

-- The text that follows is taken apart as it is by itself.
theorem parts_append (h : (ofSource (.ofText path text)).IsClosed) (text' : String) :
    Parts.ofTokens (Source.ofText path (text ++ text')).tokens =
      (Parts.ofTokens (Source.ofText path text).tokens).join
        ((ofSource (.ofText path text)).extent.parts
          (Parts.ofTokens (Source.ofText path text').tokens)) := by
  have hm := advance_extent h.ends
  obtain ⟨t, ht, hl⟩ := Option.map_eq_some_iff.mp h.ends.semicolon
  rw [Source.tokens_append h.ends hm]
  refine Parts.ofTokens_append (Source.ordered_tokens path text).nodup ht (h.code.trans ht)
    (hl ▸ rfl) ?_ ?_ fun u hu => Source.line_le_of_mem_placed hu
  · simp [extent, ofSource]
  · exact Source.endLine_le_of_mem_tokens h.ends.feed hm
      (List.mem_filter.mp (List.mem_of_getLast? ht)).1

theorem IsClosed.ends_lexemes {o : Outline} (h : o.IsClosed) : Code.Ends o.lexemes where
  last l hl := by
    rw [lexemes, List.getLast?_map, h.code, h.ends.semicolon] at hl
    exact (Option.some.inj hl).symm
  nested := ⟨[], h.nested⟩

theorem lexemes_ofSource (source : Source) :
    (ofSource source).lexemes = (Parts.ofTokens source.tokens).lexemes := by
  simp only [lexemes, ofSource, Parts.tokens, Parts.lexemes, List.map_map]
  rfl

-- Where the parts of a file are those of two others one behind the other, so is its outline.
theorem isJoin_of_parts {whole first second : Source}
    (hparts : Parts.ofTokens whole.tokens = (Parts.ofTokens first.tokens).join
      ((ofSource first).extent.parts (Parts.ofTokens second.tokens)))
    (hbefore : (Parts.ofTokens first.tokens).Before (ofSource first).extent)
    (hread : Stmt.readFile ((ofSource first).lexemes ++ (ofSource second).lexemes) =
      Stmt.readFile (ofSource first).lexemes ++ Stmt.readFile (ofSource second).lexemes)
    (hsound : (ofSource first).diagnostics = []) :
    IsJoin (ofSource whole) (ofSource first) (ofSource second) := by
  obtain ⟨hterminated, hproblems⟩ := diagnosticsOf_eq_nil_iff.mp hsound
  rw [List.map_eq_nil_iff] at hproblems
  have htidy := Stmt.problemsOf_listSites_eq_nil_iff.mp hproblems
  rw [lexemes_ofSource, lexemes_ofSource] at hread
  constructor
  case code => exact (congrArg Parts.tokens hparts).trans (Parts.tokens_join ..)
  case declarations =>
    have hsettled := (congrArg (settled ∘ Parts.declarations) hparts).trans
      (Parts.settled_join hbefore hread)
    rw [← List.map_map] at hsettled
    refine ⟨_, _, fun _ _ h => Parts.firstGroup_injective h,
      fun _ _ h => Parts.secondGroup_injective h, fun d hd e he => ?_, hsettled⟩
    obtain ⟨d', hd', hg⟩ := group_of_mem_settled hd
    obtain ⟨e', he', hg'⟩ := group_of_mem_settled he
    rw [hg, hg']
    exact Parts.firstGroup_ne_secondGroup hd' he'
  case blocks =>
    rw [List.map_append]
    exact (congrArg (fun p => p.placedBlocks.map (·.unkinded)) hparts).trans
      (Parts.placedBlocks_join hbefore hread htidy)
  case comments =>
    exact (congrArg Parts.attached hparts).trans (Parts.attached_join hbefore hread)
  case directives => exact (congrArg Parts.found hparts).trans (Parts.found_join ..)
  case diagnostics =>
    have hdiagnosed := Parts.diagnosed_join hbefore hread hproblems
    rw [hsound, List.nil_append]
    refine (congrArg (fun p => diagnosticsOf p.comments p.diagnosed) hparts).trans ?_
    rw [hdiagnosed]
    exact diagnosticsOf_append hterminated
  case constantRegions =>
    exact (congrArg Parts.constantRegions hparts).trans
      (Parts.constantRegions_join hbefore hread)

-- Behind a file that is closed, another one is read as it is by itself, unless it goes on with
-- what could continue a statement.
theorem isJoin_ofSource_append {path text text' : String}
    (h : (ofSource (.ofText path text)).IsClosed)
    (hs : Stmt.Starts (ofSource (.ofText path text')).lexemes) :
    IsJoin (ofSource (.ofText path (text ++ text'))) (ofSource (.ofText path text))
      (ofSource (.ofText path text')) := by
  have hproblems := (diagnosticsOf_eq_nil_iff.mp h.sound).2
  rw [List.map_eq_nil_iff] at hproblems
  have htidy := Stmt.problemsOf_listSites_eq_nil_iff.mp hproblems
  rw [← lexemes_ofSource] at htidy
  refine isJoin_of_parts (parts_append h text') ?_ (Stmt.readFile_append h.ends_lexemes htidy hs)
    h.sound
  exact Parts.before_ofTokens rfl rfl (Parts.size_tokens _) (by simp [extent, ofSource])

-- A definition and a variable, and behind them a function with a comment.
theorem isJoin_ofSource_append_function :
    let first := "#define N 4\nint a = N; \n"
    let second := "// Reads it.\nint f(void)\n\x7b\n  return a;\n\x7d\n"
    (ofSource (.ofText "a.c" first)).IsClosed ∧
      Stmt.Starts (ofSource (.ofText "a.c" second)).lexemes ∧
      IsJoin (ofSource (.ofText "a.c" (first ++ second))) (ofSource (.ofText "a.c" first))
        (ofSource (.ofText "a.c" second)) := by
  intro first second
  have h : (ofSource (.ofText "a.c" first)).IsClosed := by
    refine ⟨⟨?_, ?_⟩, ?_, ?_, ?_⟩ <;> decide +kernel
  have hs : Stmt.Starts (ofSource (.ofText "a.c" second)).lexemes := by
    constructor <;> decide +kernel
  exact ⟨h, hs, isJoin_ofSource_append h hs⟩

end Outline
end CLint
