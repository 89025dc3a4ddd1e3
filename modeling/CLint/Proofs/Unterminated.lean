import CLint.Proofs.Join.Outline
import CLint.Proofs.Lexemes.Appended
import Mathlib.Data.List.Infix

namespace CLint

namespace Source

variable {p : Place} {ls : List Lexeme} {t : Token} {path text : String}

-- As much of a text stands before a token as the lexemes before it spell.
theorem exists_lexemes_of_mem_placed (h : t ∈ placed p ls) :
    ∃ as bs, ls = as ++ t.lexeme :: bs ∧ t.offset = p.offset + (spelled as).length := by
  induction ls generalizing p with
  | nil => cases h
  | cons l ls ih =>
    cases List.mem_cons.mp h
    case inl h => exact ⟨[], ls, by rw [h]; rfl, by rw [h]; rfl⟩
    case inr h =>
      obtain ⟨as, bs, hls, ho⟩ := ih h
      refine ⟨l :: as, bs, by rw [hls, List.cons_append], ?_⟩
      rw [ho, Place.offset_advance, spelled, spelled, List.flatMap_cons, List.length_append,
        Nat.add_assoc]

-- A text that begins a block comment and does not end it.
structure IsOpenComment (tail : String) : Prop where
  opens : ['/', '*'] <+: tail.toList
  endless : ¬['*', '/'] <:+: tail.toList.drop 2

instance (tail : String) : Decidable (IsOpenComment tail) :=
  decidable_of_iff (['/', '*'] <+: tail.toList ∧ ¬['*', '/'] <:+: tail.toList.drop 2)
    ⟨fun h => ⟨h.1, h.2⟩, fun h => ⟨h.opens, h.endless⟩⟩

variable {tail : String}

theorem IsOpenComment.exists_toList (h : IsOpenComment tail) :
    ∃ body, tail.toList = '/' :: '*' :: body ∧ ¬['*', '/'] <:+: body := by
  obtain ⟨body, hbody⟩ := h.opens
  refine ⟨body, hbody.symm, ?_⟩
  have hendless := h.endless
  rw [← hbody] at hendless
  exact hendless

theorem IsOpenComment.lexemes (h : IsOpenComment tail) :
    Lexer.lexemes tail.toList = [.comment tail] := by
  obtain ⟨body, hbody, hend⟩ := h.exists_toList
  rw [hbody, Lexer.lexemes_openComment hend, ← hbody, String.ofList_toList]

theorem IsOpenComment.not_terminated (h : IsOpenComment tail) :
    (Lexeme.comment tail).terminated = false := by
  obtain ⟨body, hbody, hend⟩ := h.exists_toList
  rw [← String.ofList_toList (s := tail), hbody, Bool.eq_false_iff]
  exact fun h => hend ((Lexer.terminated_block body).mp h).isInfix

-- The token that such a text is behind another text.
def openCommentAt (text tail : String) : Token :=
  let start := Place.origin.advance text.toList (some '/')
  ⟨.comment tail, ⟨start, (start.last tail.toList).right⟩⟩

theorem tokens_openComment (hbreak : Lexer.EndsInBreak (Lexer.lexemes text.toList))
    (h : IsOpenComment tail)
    (hq : Lexer.closesQuote tail.toList (Lexer.lexemes text.toList) = false) :
    (ofText path (text ++ tail)).tokens =
      (ofText path text).tokens ++ [openCommentAt text tail] := by
  obtain ⟨body, hbody, -⟩ := h.exists_toList
  have hhead : tail.toList.head? = some '/' := by rw [hbody]; rfl
  have hlexemes := Lexer.lexemes_append_of_endsInBreak hbreak hhead hq
  rw [h.lexemes] at hlexemes
  simp only [ofText, String.toList_append, hlexemes]
  rw [placed_append_of_ne_nil fun _ => Lexer.text_ne_nil_of_mem_lexemes, spelled,
    Lexer.flatMap_text_lexemes]
  simp [placed, Lexeme.text, hhead, openCommentAt]

theorem offset_openCommentAt (text tail : String) :
    (openCommentAt text tail).offset = text.length := by
  rw [openCommentAt, Token.offset, Place.offset_advance, String.length_toList]
  exact Nat.zero_add _

theorem endOffset_openCommentAt (h : tail.toList ≠ []) :
    (openCommentAt text tail).endOffset = text.length + tail.length := by
  have hlast := Place.offset_last (openCommentAt text tail).span.start h
  have hstart := offset_openCommentAt text tail
  rw [Token.offset] at hstart
  rw [hstart, String.length_toList] at hlast
  exact hlast

end Source

theorem Gathering.step_of_isComment {t : Token} (ht : t.lexeme.isComment)
    (hline : Comment.isLine t = false) (g : Gathering) : ∃ trailing pending,
      g.step t = { g with comments := (t, [], trailing) :: g.comments, pending := pending } := by
  have hnone : g.continues? t = none := by
    unfold continues?
    split
    · rfl
    · simp [hline]
  rw [step, if_pos ht, comment, hnone]
  exact ⟨_, _, rfl⟩

namespace Parts

open Outline

-- A file with one more comment behind all of it.
def withComment (p : Parts) (c : Comment) : Parts :=
  { p with comments := p.comments ++ [c] }

theorem ofTokens_concat {t : Token} (ht : t.lexeme.isComment) (hline : Comment.isLine t = false)
    (ts : List Token) : ∃ trailing,
      ofTokens (ts ++ [t]) = (ofTokens ts).withComment (Comment.ofTokens t [] trailing) := by
  obtain ⟨trailing, pending, hstep⟩ :=
    Gathering.step_of_isComment ht hline (Gathering.ofTokens ts)
  refine ⟨trailing, ?_⟩
  rw [ofTokens, Gathering.ofTokens_concat, hstep, withComment, ofTokens]
  simp [Gathering.commentList, Gathering.markedList]

variable {p : Parts} {c : Comment}

theorem blocks_withComment (hcode : ∀ k ∈ p.code, k.token.offset < c.span.start.offset)
    (htidy : Stmt.listTidy (Stmt.readFile p.lexemes)) : (p.withComment c).blocks = p.blocks := by
  have hblocks : (p.withComment c).blocks = p.sites.flatMap (Site.controlBlocks
      (constantNames p.declarations) (announced p.code (p.comments ++ [c]))) := rfl
  rw [hblocks, blocks]
  refine List.flatMap_congr fun s hs => Site.controlBlocks_eq_of_contains _ fun t ht => ?_
  have hlt := Site.stop_lt_of_mem_sections (Stmt.isTidy_of_mem_listSites _ htidy hs) ht
  have hle := stop_le_of_mem_sites hs
  rw [size_tokens] at hle
  have hall : p.code.countP (·.token.offset < c.span.start.offset) = p.code.length :=
    List.countP_eq_length.mpr fun k hk => decide_eq_true (hcode k hk)
  -- The comment counts as one behind the last lexeme, and no section reaches that far.
  have hother : t.stop ∉ announced p.code [c] := by
    intro hmem
    obtain ⟨d, hd, hstop⟩ := List.mem_map.mp hmem
    cases List.mem_singleton.mp (List.mem_filter.mp hd).1
    omega
  have hsplit : announced p.code (p.comments ++ [c]) =
      announced p.code p.comments ++ announced p.code [c] := by
    simp only [announced, List.filter_append, List.map_append]
  have hmem : t.stop ∈ announced p.code (p.comments ++ [c]) ↔
      t.stop ∈ announced p.code p.comments := by
    rw [hsplit, List.mem_append, or_iff_left hother]
  exact Bool.eq_iff_iff.mpr (by simpa only [List.contains_iff_mem] using hmem)

end Parts

-- The comment that a text without the end of a comment is behind another text.
structure Comment.IsOpenTail (c : Comment) (front tail : String) : Prop where
  text : c.text = tail
  endless : c.terminated = false
  dangling : c.isDangling
  start : c.span.start.offset = front.length
  stop : c.span.stop.offset = front.length + tail.length

namespace Outline

-- One outline is another one with a comment behind all of it that hides the end of the file.
structure IsCutOffBy (whole first : Outline) (c : Comment) : Prop where
  code : whole.code = first.code
  declarations : whole.declarations = first.declarations
  commentOf : ∀ d ∈ first.declarations, whole.commentOf d = first.commentOf d
  blocks : whole.blocks = first.blocks
  directives : whole.directives = first.directives
  constantRegions : whole.constantRegions = first.constantRegions
  comments : whole.comments = first.comments ++ [c]
  diagnostics : whole.diagnostics = [⟨.openComment, c.span⟩]

theorem exists_comment_of_mem_declarations {source : Source} {d : Declaration Span} {n : Nat}
    (hd : d ∈ (ofSource source).declarations) (hn : d.comment = some n) :
    ∃ e ∈ (Parts.ofTokens source.tokens).declarations, e.comment = some n := by
  obtain ⟨e, he, rfl⟩ := List.mem_map.mp (List.mem_mergeSort.mp hd)
  refine ⟨e, he, ?_⟩
  unfold keepComment at hn
  split at hn
  · exact hn
  · cases hn

theorem isCutOffBy_of_parts {whole first : Source} {c : Comment}
    (hparts : Parts.ofTokens whole.tokens = (Parts.ofTokens first.tokens).withComment c)
    (hcode : ∀ k ∈ (Parts.ofTokens first.tokens).code, k.token.offset < c.span.start.offset)
    (hsound : (ofSource first).diagnostics = []) (hopen : c.terminated = false)
    (hdangling : c.attachedTo = none) :
    IsCutOffBy (ofSource whole) (ofSource first) c := by
  obtain ⟨hterminated, hproblems⟩ := diagnosticsOf_eq_nil_iff.mp hsound
  rw [List.map_eq_nil_iff] at hproblems
  have htidy := Stmt.problemsOf_listSites_eq_nil_iff.mp hproblems
  have hcomments : (ofSource whole).comments = (ofSource first).comments ++ [c] := by
    have howner : ownerOf (Parts.ofTokens first.tokens).declarations
        (Parts.ofTokens first.tokens).comments.length = none := by
      rw [ownerOf, Option.map_eq_none_iff, List.find?_eq_none]
      intro d hd hn
      have hlt := Parts.lt_of_mem_declarations hd (of_decide_eq_true hn)
      exact Nat.lt_irrefl _ hlt
    have hc : { c with attachedTo := none } = c := by rw [← hdangling]
    have hdeclarations : ((Parts.ofTokens first.tokens).withComment c).declarations =
        (Parts.ofTokens first.tokens).declarations := rfl
    simp only [ofSource, hparts, hdeclarations]
    simp [Parts.withComment, List.zipIdx_append, howner, hc]
  constructor
  case code => exact (congrArg Parts.tokens hparts).trans rfl
  case declarations => exact (congrArg (settled ∘ Parts.declarations) hparts).trans rfl
  case commentOf =>
    intro d hd
    cases hn : d.comment with
    | none => simp [commentOf, hn]
    | some n =>
      obtain ⟨e, he, hen⟩ := exists_comment_of_mem_declarations hd hn
      have hlt : n < (ofSource first).comments.length := by
        simpa [ofSource] using Parts.lt_of_mem_declarations he hen
      rw [commentOf, commentOf, hn, hcomments]
      exact List.getElem?_append_left hlt
  case blocks =>
    have hblocks := Parts.blocks_withComment hcode htidy
    simp only [ofSource, hparts, hblocks]
    rfl
  case directives => exact (congrArg Parts.found hparts).trans rfl
  case constantRegions => exact (congrArg Parts.constantRegions hparts).trans rfl
  case comments => exact hcomments
  case diagnostics =>
    have hfind : ((Parts.ofTokens first.tokens).comments ++ [c]).find? (!·.terminated) =
        some c := by
      have hold : (Parts.ofTokens first.tokens).comments.find? (!·.terminated) = none :=
        List.find?_eq_none.mpr fun c hc => by simp [hterminated c hc]
      rw [List.find?_append, hold, Option.none_or, List.find?_singleton, hopen]
      rfl
    simp only [ofSource, hparts, diagnosticsOf, Parts.withComment, hfind]

variable {path text tail : String}

theorem endsInBreak_lexemes
    (h : ∃ t ∈ (Source.ofText path text).tokens.getLast?, t.kind = .newline) :
    Lexer.EndsInBreak (Lexer.lexemes text.toList) := by
  obtain ⟨t, ht, hkind⟩ := h
  have hlast := congrArg (Option.map Token.lexeme) (Option.mem_def.mp ht)
  rw [← List.getLast?_map, Source.ofText, Source.map_lexeme_placed, Option.map_some] at hlast
  cases hl : t.lexeme with
  | newline s => exact ⟨s, hl ▸ hlast⟩
  | _ => rw [Token.kind, hl] at hkind; cases hkind

theorem isOpenTail_ofTokens (h : Source.IsOpenComment tail) (text : String) (trailing : Bool) :
    (Comment.ofTokens (Source.openCommentAt text tail) [] trailing).IsOpenTail text tail where
  text := by simp [Comment.ofTokens, Source.openCommentAt, Token.text, Lexeme.text]
  endless := by
    simpa [Comment.ofTokens, Source.openCommentAt] using h.not_terminated
  dangling := rfl
  start := Source.offset_openCommentAt text tail
  stop := by
    obtain ⟨body, hbody, -⟩ := h.exists_toList
    exact Source.endOffset_openCommentAt (by rw [hbody]; exact List.cons_ne_nil _ _)

-- At the place of a comment the text is divided between two lexemes.
theorem exists_lexemes_of_mem_comments {c : Comment}
    (h : c ∈ (ofSource (.ofText path text)).comments) : ∃ as bs,
      Lexer.lexemes text.toList = as ++ bs ∧ c.span.start.offset = (Source.spelled as).length := by
  obtain ⟨⟨c', n⟩, hc', rfl⟩ := List.mem_map.mp h
  have hon : c'.span.OnTokens (.ofText path text) :=
    Parts.onTokens_comment rfl (List.fst_mem_of_mem_zipIdx hc')
  obtain ⟨t, ht, hstart⟩ := hon.start_mem
  obtain ⟨as, bs, hls, hoffset⟩ := Source.exists_lexemes_of_mem_placed ht
  refine ⟨as, _, hls, ?_⟩
  rw [Token.offset, hstart] at hoffset
  exact hoffset.trans (Nat.zero_add _)

-- A comment without its end takes nothing from the text before it, but for a quote that is open
-- in that text and finds its closing quote only in the comment.
theorem isCutOffBy_iff (hlast : ∃ t ∈ (Source.ofText path text).tokens.getLast?, t.kind = .newline)
    (hsound : (ofSource (.ofText path text)).diagnostics = [])
    (hopen : Source.IsOpenComment tail) :
    (∃ c, Comment.IsOpenTail c text tail ∧
      IsCutOffBy (ofSource (.ofText path (text ++ tail))) (ofSource (.ofText path text)) c) ↔
    Lexer.closesQuote tail.toList (Lexer.lexemes text.toList) = false := by
  have hbreak := endsInBreak_lexemes hlast
  obtain ⟨body, hbody, -⟩ := hopen.exists_toList
  constructor
  case mp =>
    rintro ⟨c, htail, hcut⟩
    rw [Bool.eq_false_iff]
    intro hq
    have hmem : c ∈ (ofSource (.ofText path (text ++ tail))).comments := by
      rw [hcut.comments]
      exact List.mem_append_right _ List.mem_cons_self
    obtain ⟨as, bs, hls, hstart⟩ := exists_lexemes_of_mem_comments hmem
    have hspelled : Source.spelled as ++ Source.spelled bs = text.toList ++ tail.toList := by
      rw [Source.spelled, Source.spelled, ← List.flatMap_append, ← hls,
        Lexer.flatMap_text_lexemes, String.toList_append]
    rw [htail.start, ← String.length_toList] at hstart
    rw [String.toList_append] at hls
    exact Lexer.spelled_ne_of_closesQuote hbreak (by rw [hbody]; rfl) hq hls
      (List.append_inj_left hspelled hstart.symm)
  case mpr =>
    intro hq
    let t := Source.openCommentAt text tail
    have hline : Comment.isLine t = false := by
      simp [Comment.isLine, t, Source.openCommentAt, Token.text, Lexeme.text, hbody,
        List.isPrefixOf]
    obtain ⟨trailing, hparts⟩ :=
      Parts.ofTokens_concat (t := t) rfl hline (Source.ofText path text).tokens
    rw [← Source.tokens_openComment hbreak hopen hq] at hparts
    have hc := isOpenTail_ofTokens hopen text trailing
    refine ⟨_, hc, isCutOffBy_of_parts hparts (fun k hk => ?_) hsound hc.endless rfl⟩
    have hmem := (Parts.sublist_code _).mem (List.mem_map_of_mem hk)
    have hlt := (Source.ordered_tokens path text).nonempty _ hmem
    rw [hc.start]
    exact Nat.lt_of_lt_of_le hlt (Source.endOffset_le_of_mem_tokens hmem)

-- An open quote behind which no other one stands, and a comment that speaks of a fall through and
-- seems to end with its own beginning.
theorem isCutOffBy_iff_openQuote :
    let text := "void f(int a)\n\x7b\n  switch (a)\n  \x7b\n    case 1:\n      g(); // It's.\n" ++
      "    default:\n      break;\n  \x7d\n\x7d\n#error don't\n"
    let tail := "/*/ Falls through."
    (∃ t ∈ (Source.ofText "a.c" text).tokens.getLast?, t.kind = .newline) ∧
      (ofSource (.ofText "a.c" text)).diagnostics = [] ∧ Source.IsOpenComment tail ∧
      ∃ c, Comment.IsOpenTail c text tail ∧
        IsCutOffBy (ofSource (.ofText "a.c" (text ++ tail))) (ofSource (.ofText "a.c" text)) c := by
  intro text tail
  have hlast : ∃ t ∈ (Source.ofText "a.c" text).tokens.getLast?, t.kind = .newline := by
    decide +kernel
  have hsound : (ofSource (.ofText "a.c" text)).diagnostics = [] := by decide +kernel
  have hopen : Source.IsOpenComment tail := by decide +kernel
  exact ⟨hlast, hsound, hopen, (isCutOffBy_iff hlast hsound hopen).mpr (by decide +kernel)⟩

-- The backslash before the last line break is one that takes the break with it once the double
-- quote before it is closed: the comment is part of a string then.
theorem comments_of_closesQuote :
    let text := "\"a 'b' \\\n"
    let tail := "/* \""
    (∃ t ∈ (Source.ofText "a.c" text).tokens.getLast?, t.kind = .newline) ∧
      (ofSource (.ofText "a.c" text)).diagnostics = [] ∧ Source.IsOpenComment tail ∧
      (ofSource (.ofText "a.c" (text ++ tail))).comments = [] ∧
      (ofSource (.ofText "a.c" (text ++ tail))).diagnostics = [] := by
  decide +kernel

end Outline

end CLint
