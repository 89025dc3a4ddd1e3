import CLint.Proofs.Join.Gathering
import CLint.Proofs.Lines
import Mathlib.Data.List.TakeWhile

namespace CLint

namespace Lexer

variable {l : Lexeme} {c : Char} {cs : List Char}

theorem isComment_code (c : Char) (cs : List Char) : (code c cs).1.isComment = false := by
  unfold code
  split
  case h_1 =>
    unfold literal
    split <;> rfl
  case h_2 =>
    split
    case h_1 => rfl
    case h_2 =>
      split
      case isTrue =>
        unfold word named
        split <;> rfl
      case isFalse =>
        unfold mark
        split <;> rfl

theorem isBreak_eq_false_of_next_comment (hl : (next c cs).1.isComment)
    (hline : "//".toList.isPrefixOf (next c cs).1.text.toList) :
    ∀ d ∈ (next c cs).1.text.toList, isBreak d = false := by
  unfold next at hl hline ⊢
  split at hl
  case h_4 cs =>
    intro d hd
    simp only [Lexeme.text, String.toList_ofList, List.mem_cons] at hd
    rcases hd with rfl | rfl | hd
    · rfl
    · rfl
    · simpa using List.mem_takeWhile_imp hd
  case h_5 => simp [Lexeme.text] at hline
  case h_6 =>
    split at hl
    · cases hl
    · rw [isComment_code] at hl
      cases hl
  all_goals cases hl

-- A comment behind a double slash ends where its line ends.
theorem isBreak_eq_false_of_isComment (h : l ∈ lexemes cs) (hl : l.isComment)
    (hline : "//".toList.isPrefixOf l.text.toList) : ∀ d ∈ l.text.toList, isBreak d = false := by
  fun_induction lexemes cs with
  | case1 => cases h
  | case2 c cs ih =>
    cases List.mem_cons.mp h
    case inl h =>
      subst h
      exact isBreak_eq_false_of_next_comment hl hline
    case inr h => exact ih h

end Lexer

theorem Place.line_last {cs : List Char} (p : Place) (h : ∀ c ∈ cs, Lexer.isBreak c = false) :
    (p.last cs).line = p.line := by
  fun_induction last p cs with
  | case1 => rfl
  | case2 => rfl
  | case3 p c d cs ih =>
    obtain ⟨hc, hcs⟩ := List.forall_mem_cons.mp h
    have hends : endsLine c (some d) = false := by
      simp only [Lexer.isBreak, Bool.or_eq_false_iff] at hc
      simp [endsLine, hc.1, hc.2]
    rw [ih hcs, line_step, hends]
    rfl

namespace Source

variable {p : Place} {ls : List Lexeme} {path text : String} {t : Token}

theorem span_of_mem_placed (h : t ∈ placed p ls) :
    t.span.stop = (t.span.start.last t.text.toList).right := by
  induction ls generalizing p with
  | nil => cases h
  | cons l ls ih =>
    cases List.mem_cons.mp h
    case inl h => rw [h]; rfl
    case inr h => exact ih h

theorem endLine_of_isLine (h : t ∈ (ofText path text).tokens) (hc : t.lexeme.isComment)
    (hline : Comment.isLine t) : t.endLine = t.line := by
  have hbreaks := Lexer.isBreak_eq_false_of_isComment (mem_lexemes_of_mem_tokens h) hc hline
  rw [Token.endLine, span_of_mem_placed h]
  exact Place.line_last t.span.start hbreaks

end Source

-- Two line comments on consecutive lines, with nothing but blanks between them.
structure Token.Continues (ts : List Token) (a b : Token) : Prop where
  left : Comment.isLine a
  right : Comment.isLine b
  line : b.line = a.line + 1
  between : ∃ before blanks after, ts = before ++ a :: (blanks ++ b :: after) ∧
    ∀ t ∈ blanks, t.lexeme.isTrivia

-- A comment is made of some tokens if it has their text, and covers it from the first to the last.
structure Comment.IsOf (tokens : List Token) (c : Comment) : Prop where
  text : c.text = "\n".intercalate (tokens.map Token.text)
  span : ∃ first ∈ tokens.head?, ∃ last ∈ tokens.getLast?, c.span = first.span.cover last.span

-- A directive is made of some tokens if the first one is a number sign, and it covers them all.
structure Directive.IsOf (tokens : List Token) (d : Directive) : Prop where
  hash : ∃ first ∈ tokens.head?, first.lexeme.isMark .hash
  span : ∃ first ∈ tokens.head?, ∃ last ∈ tokens.getLast?, d.span = first.span.cover last.span

namespace Gathering

-- The tokens that a comment is made of, in the order of the text.
def tokensOf (c : Token × List Token × Bool) : List Token :=
  (c.1 :: c.2.1).reverse

def groups (g : Gathering) : List (List Token) :=
  g.comments.reverse.map tokensOf

variable {g : Gathering} {t : Token} {ts : List Token} {c : Token × List Token × Bool}

theorem comments_of_continues? (h : g.continues? t = some c) :
    g.comments = c :: g.comments.tail := by
  unfold continues? at h
  split at h
  case h_1 => cases h
  case h_2 hc =>
    split at h <;> cases h
    rw [hc, List.tail_cons]

theorem flatten_groups_comment (g : Gathering) (t : Token) :
    (g.comment t).groups.flatten = g.groups.flatten ++ [t] := by
  unfold comment
  split
  case h_1 last earlier trailing hc =>
    conv => rhs; rw [groups, comments_of_continues? hc]
    simp [groups, tokensOf]
  case h_2 => simp [groups, tokensOf]

theorem markedList_comment (g : Gathering) (t : Token) :
    (g.comment t).markedList = g.markedList := by
  unfold comment
  split <;> rfl

-- Each token goes to the comments, to what is marked, or nowhere if it is blank.
theorem flatten_groups_step (g : Gathering) (t : Token) :
    (g.step t).groups.flatten = g.groups.flatten ++ [t].filter (·.lexeme.isComment) := by
  unfold step
  split
  case isTrue hc => simp [flatten_groups_comment, hc]
  case isFalse hc =>
    have hnone : [t].filter (·.lexeme.isComment) = [] := by simpa using hc
    rw [hnone, List.append_nil]
    split <;> rfl

theorem markedList_step (g : Gathering) (t : Token) :
    (g.step t).markedList.map (·.token) = g.markedList.map (·.token) ++
      [t].filter fun t => !t.lexeme.isComment && !t.lexeme.isTrivia := by
  unfold step
  split
  case isTrue hc => simp [markedList_comment, hc]
  case isFalse hc =>
    split
    case isTrue ht => simp [ht]
    case isFalse ht => simp [markedList, hc, ht]

theorem ofTokens_concat (ts : List Token) (t : Token) :
    ofTokens (ts ++ [t]) = (ofTokens ts).step t :=
  List.foldl_concat ..

theorem flatten_groups_ofTokens (ts : List Token) :
    (ofTokens ts).groups.flatten = ts.filter (·.lexeme.isComment) := by
  induction ts using List.reverseRecOn with
  | nil => rfl
  | append_singleton ts t ih => rw [ofTokens_concat, flatten_groups_step, ih, List.filter_append]

theorem markedList_ofTokens (ts : List Token) :
    (ofTokens ts).markedList.map (·.token) =
      ts.filter fun t => !t.lexeme.isComment && !t.lexeme.isTrivia := by
  induction ts using List.reverseRecOn with
  | nil => rfl
  | append_singleton ts t ih => rw [ofTokens_concat, markedList_step, ih, List.filter_append]

-- Comments were only put together where one continues the other. Nothing but blanks came behind
-- the last one if it is still waiting for what it is about.
structure Grouped (g : Gathering) (ts : List Token) : Prop where
  chains : ∀ c ∈ g.comments, (tokensOf c).IsChain (Token.Continues ts)
  waiting : g.pending = some (g.comments.length - 1) → ∀ c ∈ g.comments.head?,
    ∃ before blanks, ts = before ++ c.1 :: blanks ∧ ∀ b ∈ blanks, b.lexeme.isTrivia

end Gathering

theorem Token.Continues.append {a b : Token} {ts : List Token} (h : Continues ts a b)
    (us : List Token) : Continues (ts ++ us) a b where
  left := h.left
  right := h.right
  line := h.line
  between := by
    obtain ⟨before, blanks, after, rfl, hblanks⟩ := h.between
    exact ⟨before, blanks, after ++ us, by simp, hblanks⟩

namespace Gathering

variable {g : Gathering} {t : Token} {ts : List Token} {c : Token × List Token × Bool}

theorem Grouped.continues_of_continues? (h : Grouped g ts)
    (hends : ∀ c ∈ g.comments, Comment.isLine c.1 → c.1.endLine = c.1.line)
    (hc : g.continues? t = some c) : Token.Continues (ts ++ [t]) c.1 t := by
  have hcomments := comments_of_continues? hc
  rw [continues?_cons hcomments] at hc
  split at hc
  case isFalse => cases hc
  case isTrue hjoins =>
    simp only [ne_eq, Bool.and_eq_true, decide_eq_true_eq] at hjoins
    obtain ⟨⟨⟨⟨_, hpending⟩, ht⟩, hlast⟩, hline⟩ := hjoins
    obtain ⟨before, blanks, hts, hblanks⟩ := h.waiting hpending c (by rw [hcomments]; rfl)
    refine ⟨hlast, ht, ?_, before, blanks, [], by simp [hts], hblanks⟩
    rw [← hline, hends c (hcomments ▸ List.mem_cons_self) hlast]

theorem Grouped.step (h : Grouped g ts)
    (hends : ∀ c ∈ g.comments, Comment.isLine c.1 → c.1.endLine = c.1.line) (t : Token) :
    Grouped (g.step t) (ts ++ [t]) := by
  have hchains : ∀ c ∈ g.comments, (tokensOf c).IsChain (Token.Continues (ts ++ [t])) :=
    fun c hc => (h.chains c hc).imp fun _ _ hab => hab.append [t]
  unfold Gathering.step
  split
  case isTrue =>
    unfold Gathering.comment
    split
    case h_1 last earlier trailing hc =>
      have hmem := mem_of_continues? hc
      have hcontinues := h.continues_of_continues? hends hc
      refine ⟨List.forall_mem_cons.mpr ⟨?_, fun c hc => hchains c (List.mem_of_mem_tail hc)⟩,
        fun _ c hc => ⟨ts, [], ?_⟩⟩
      · rw [tokensOf, List.reverse_cons]
        refine List.isChain_append.mpr ⟨hchains _ hmem, .singleton t, ?_⟩
        simpa using hcontinues
      · cases hc
        simp
    case h_2 =>
      refine ⟨List.forall_mem_cons.mpr ⟨.singleton t, hchains⟩, fun _ c hc => ⟨ts, [], ?_⟩⟩
      cases hc
      simp
  case isFalse =>
    split
    case isTrue htrivia =>
      refine ⟨hchains, fun hpending c hc => ?_⟩
      obtain ⟨before, blanks, hts, hblanks⟩ := h.waiting hpending c hc
      refine ⟨before, blanks ++ [t], by simp [hts], fun b hb => ?_⟩
      rcases List.mem_append.mp hb with hb | hb
      · exact hblanks b hb
      · exact List.mem_singleton.mp hb ▸ htrivia
    case isFalse => exact ⟨hchains, fun hpending => nomatch hpending⟩

theorem grouped_ofTokens (ts : List Token)
    (h : ∀ t ∈ ts, t.lexeme.isComment → Comment.isLine t → t.endLine = t.line) :
    Grouped (ofTokens ts) ts := by
  induction ts using List.reverseRecOn with
  | nil => exact ⟨by simp [ofTokens], by simp [ofTokens]⟩
  | append_singleton ts t ih =>
    rw [ofTokens_concat]
    refine (ih fun t ht => h t (List.mem_append_left _ ht)).step (fun c hc => ?_) t
    have hmem : c.1 ∈ (ofTokens ts).groups.flatten :=
      List.mem_flatten.mpr ⟨tokensOf c, List.mem_map_of_mem (List.mem_reverse.mpr hc),
        by simp [tokensOf]⟩
    rw [flatten_groups_ofTokens, List.mem_filter] at hmem
    exact h c.1 (List.mem_append_left _ hmem.1) hmem.2

end Gathering

theorem Comment.isOf_ofTokens (first : Token) (others : List Token) (trailing : Bool) :
    IsOf (first :: others) (ofTokens first others trailing) where
  text := rfl
  span := by
    have hlast := List.getLast?_eq_some_getLast (List.cons_ne_nil first others)
    exact ⟨first, rfl, _, hlast, by rw [ofTokens, hlast]; rfl⟩

namespace Gathering

theorem isOf_commentList (g : Gathering) : List.Forall₂ Comment.IsOf g.groups g.commentList := by
  unfold groups commentList
  rw [List.forall₂_map_left_iff, List.forall₂_map_right_iff, List.forall₂_same]
  rintro ⟨last, earlier, trailing⟩ -
  rw [tokensOf, List.reverse_cons]
  dsimp only
  cases earlier.reverse with
  | nil => exact Comment.isOf_ofTokens last [] trailing
  | cons first others => exact Comment.isOf_ofTokens first (others ++ [last]) trailing

end Gathering

namespace Divided

variable {m : Marked} {ms : List Marked} {previous : Option Token} {line : Option Nat}

-- The tokens of each directive, the number sign first.
def groups (d : Divided) : List (List Marked) :=
  d.directives.map fun (hash, rest) => hash :: rest

theorem continuation_ofMarked_none (previous : Option Token) (ms : List Marked) :
    (ofMarked previous none ms).continuation = [] := by
  induction ms generalizing previous with
  | nil => rfl
  | cons m ms ih =>
    have hnot : continues previous none m.token = false := by
      cases previous <;> rfl
    rw [ofMarked, hnot, if_neg Bool.false_ne_true]
    split
    case isTrue => rfl
    case isFalse => exact ih _

-- Each token goes to one directive or to the code, and directives stay in order.
theorem divides_ofMarked (previous : Option Token) (line : Option Nat) (ms : List Marked) :
    let d := ofMarked previous line ms
    (d.continuation ++ d.groups.flatten ++ d.code).Perm ms ∧
    (d.continuation ++ d.groups.flatten).Sublist ms ∧
    ∀ g ∈ d.directives, g.1.token.lexeme.isMark .hash := by
  induction ms generalizing previous line with
  | nil => exact ⟨.refl _, .refl _, by simp [ofMarked]⟩
  | cons m ms ih =>
    simp only [ofMarked]
    split
    case isTrue =>
      obtain ⟨hperm, hsub, hhash⟩ := ih (some m.token) (some m.token.line)
      exact ⟨hperm.cons m, hsub.cons_cons m, hhash⟩
    case isFalse =>
      split
      case isTrue hbegins =>
        obtain ⟨hperm, hsub, hhash⟩ := ih (some m.token) (some m.token.line)
        refine ⟨hperm.cons m, hsub.cons_cons m, List.forall_mem_cons.mpr ⟨?_, hhash⟩⟩
        exact (Bool.and_eq_true_iff.mp hbegins).1
      case isFalse =>
        obtain ⟨hperm, hsub, hhash⟩ := ih (some m.token) none
        refine ⟨List.perm_middle.trans (hperm.cons m), hsub.cons m, hhash⟩

end Divided

theorem Directive.isOf_ofTokens {hash : Marked} {rest : List Marked}
    (h : hash.token.lexeme.isMark .hash) :
    IsOf ((hash :: rest).map (·.token)) (ofTokens hash rest) where
  hash := ⟨hash.token, rfl, h⟩
  span := by
    refine ⟨hash.token, rfl, (rest.getLast?.getD hash).token, ?_, rfl⟩
    rw [List.getLast?_map, List.getLast?_cons]
    rfl

namespace Parts

-- The tokens of each directive, in the order of the text.
def directiveGroups (p : Parts) : List (List Token) :=
  p.directives.map fun (hash, rest) => (hash :: rest).map (·.token)

variable {ts : List Token}

theorem flatten_directiveGroups (p : Parts) : p.directiveGroups.flatten =
    (p.directives.map fun (hash, rest) => hash :: rest).flatten.map (·.token) := by
  rw [List.map_flatten, List.map_map]
  rfl

theorem isTrivia_eq_false_of_isComment {l : Lexeme} (h : l.isComment) : l.isTrivia = false := by
  cases l <;> first | rfl | cases h

-- Blanks, comments and all else are told apart by what they are.
theorem perm_kinds (ts : List Token) :
    (ts.filter (·.lexeme.isTrivia) ++ (ts.filter (·.lexeme.isComment) ++
      ts.filter fun t => !t.lexeme.isComment && !t.lexeme.isTrivia)).Perm ts := by
  have hcomments : ts.filter (·.lexeme.isComment) =
      (ts.filter (!·.lexeme.isTrivia)).filter (·.lexeme.isComment) := by
    rw [List.filter_filter]
    refine List.filter_congr fun t _ => ?_
    cases hc : t.lexeme.isComment with
    | true => rw [isTrivia_eq_false_of_isComment hc]; rfl
    | false => rfl
  rw [hcomments, ← List.filter_filter]
  exact (List.Perm.append_left _ (List.filter_append_perm _ _)).trans (List.filter_append_perm _ _)

theorem divides_ofTokens (ts : List Token) :
    ((ofTokens ts).directiveGroups.flatten ++ (ofTokens ts).tokens.toList).Perm
      (ts.filter fun t => !t.lexeme.isComment && !t.lexeme.isTrivia) ∧
    (ofTokens ts).directiveGroups.flatten.Sublist
      (ts.filter fun t => !t.lexeme.isComment && !t.lexeme.isTrivia) ∧
    ∀ d ∈ (ofTokens ts).directives, d.1.token.lexeme.isMark .hash := by
  obtain ⟨hperm, hsub, hhash⟩ :=
    Divided.divides_ofMarked none none (Gathering.ofTokens ts).markedList
  rw [Divided.continuation_ofMarked_none, List.nil_append] at hperm hsub
  rw [← Gathering.markedList_ofTokens, flatten_directiveGroups]
  refine ⟨?_, hsub.map _, hhash⟩
  have hmap := hperm.map (·.token)
  rw [List.map_append] at hmap
  exact hmap

theorem perm_ofTokens (ts : List Token) :
    (ts.filter (·.lexeme.isTrivia) ++ (Gathering.ofTokens ts).groups.flatten ++
      (ofTokens ts).directiveGroups.flatten ++ (ofTokens ts).tokens.toList).Perm ts := by
  rw [Gathering.flatten_groups_ofTokens, List.append_assoc, List.append_assoc]
  refine List.Perm.trans (.append_left _ (.append_left _ ?_)) (perm_kinds ts)
  exact (divides_ofTokens ts).1

theorem isOf_directives (ts : List Token) :
    List.Forall₂ Directive.IsOf (ofTokens ts).directiveGroups
      ((ofTokens ts).directives.map fun (hash, rest) => Directive.ofTokens hash rest) := by
  unfold directiveGroups
  rw [List.forall₂_map_left_iff, List.forall₂_map_right_iff, List.forall₂_same]
  exact fun d hd => Directive.isOf_ofTokens ((divides_ofTokens ts).2.2 d hd)

end Parts

theorem Outline.isOf_comments (source : Source) :
    List.Forall₂ Comment.IsOf (Gathering.ofTokens source.tokens).groups
      (ofSource source).comments := by
  have hzip : ∀ n, List.Forall₂ Comment.IsOf (Gathering.ofTokens source.tokens).groups
      (((Parts.ofTokens source.tokens).comments.zipIdx n).map Prod.fst) := fun n => by
    rw [List.zipIdx_map_fst]
    exact Gathering.isOf_commentList _
  rw [ofSource]
  have hz := hzip 0
  rw [List.forall₂_map_right_iff] at hz ⊢
  exact hz.imp fun _ _ h => ⟨h.text, h.span⟩

-- A file is divided into blanks, comments, directives and code. Each of its tokens is at one place
-- only, all of them stay in order, and comments are only put together where nothing but blanks is
-- between them.
theorem Outline.ofSource_partitions (path text : String) :
    let ts := (Source.ofText path text).tokens
    let o := Outline.ofSource (.ofText path text)
    let comments := (Gathering.ofTokens ts).groups
    let directives := (Parts.ofTokens ts).directiveGroups
    ts.Nodup ∧
    (ts.filter (·.lexeme.isTrivia) ++ comments.flatten ++ directives.flatten ++
      o.code.toList).Perm ts ∧
    comments.flatten.Sublist ts ∧ directives.flatten.Sublist ts ∧ o.code.toList.Sublist ts ∧
    List.Forall₂ Comment.IsOf comments o.comments ∧
    List.Forall₂ Directive.IsOf directives o.directives ∧
    ∀ group ∈ comments, group.IsChain (Token.Continues ts) := by
  intro ts o comments directives
  refine ⟨(Source.ordered_tokens path text).nodup, Parts.perm_ofTokens ts, ?_,
    (Parts.divides_ofTokens ts).2.1.trans List.filter_sublist, Parts.sublist_code ts,
    Outline.isOf_comments _, Parts.isOf_directives ts, ?_⟩
  · exact Gathering.flatten_groups_ofTokens ts ▸ List.filter_sublist
  · intro group hg
    obtain ⟨c, hc, rfl⟩ := List.mem_map.mp hg
    exact (Gathering.grouped_ofTokens ts fun t => Source.endLine_of_isLine).chains c
      (List.mem_reverse.mp hc)

end CLint
