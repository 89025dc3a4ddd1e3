import CLint.Proofs.LogicalLine
import Mathlib.Data.List.Nodup

namespace CLint

-- A part of what was filtered comes from a part of the list that begins and ends alike.
theorem exists_append_of_filter {α : Type} {p : α → Bool} {l as ms bs : List α}
    (h : l.filter p = as ++ ms ++ bs) (hm : ms ≠ []) :
    ∃ xs ys zs, l = xs ++ ys ++ zs ∧ xs.filter p = as ∧ ys.filter p = ms ∧ zs.filter p = bs ∧
      ys.head? = ms.head? ∧ ys.getLast? = ms.getLast? := by
  obtain ⟨m, ms, rfl⟩ := List.exists_cons_of_ne_nil hm
  obtain ⟨front, zs, rfl, hfront, rfl⟩ := List.filter_eq_append_iff.mp h
  obtain ⟨xs, rest, rfl, rfl, hrest⟩ := List.filter_eq_append_iff.mp hfront
  obtain ⟨skipped, ys, rfl, hskipped, hp, hys⟩ := List.filter_eq_cons_iff.mp hrest
  have hcons : (m :: ys).filter p = m :: ms := by rw [List.filter_cons_of_pos hp, hys]
  obtain ⟨last, hlast⟩ : ∃ last, (m :: ms).getLast? = some last :=
    ⟨_, List.getLast?_eq_some_getLast hm⟩
  obtain ⟨-, init, tail, hsplit, htail⟩ := append_of_getLast?_filter (hcons ▸ hlast)
  have hskipped : skipped.filter p = [] := by simpa using hskipped
  have htail : tail.filter p = [] := by simpa using htail
  have hfilter : (init ++ [last]).filter p = m :: ms := by
    rw [← hcons, hsplit, List.append_cons init last tail, List.filter_append (init ++ [last]),
      htail, List.append_nil]
  have hhead : (init ++ [last]).head? = some m := by
    have hhead := congrArg List.head? hsplit
    simpa [List.head?_append] using hhead.symm
  refine ⟨xs ++ skipped, init ++ [last], tail ++ zs, by simp [hsplit], ?_, hfilter, ?_, hhead, ?_⟩
  · rw [List.filter_append, hskipped, List.append_nil]
  · rw [List.filter_append, htail, List.nil_append]
  · rw [List.getLast?_concat, hlast]

namespace Divided

variable {m first last : Marked} {ms as bs cs zs ws : List Marked} {previous : Option Token}
  {line : Option Nat}

-- Tokens without a number sign are code, if no directive is open before them.
theorem exists_code_append (h : ∀ m ∈ zs, m.token.lexeme.isMark .hash = false)
    (previous : Option Token) (ws : List Marked) :
    ∃ p, (ofMarked previous none (zs ++ ws)).code = zs ++ (ofMarked p none ws).code := by
  induction zs generalizing previous with
  | nil => exact ⟨previous, rfl⟩
  | cons m zs ih =>
    obtain ⟨hm, hzs⟩ := List.forall_mem_cons.mp h
    obtain ⟨p, hp⟩ := ih hzs (some m.token)
    have hcontinues : continues previous none m.token = false := by cases previous <;> rfl
    have hbegins : begins previous m.token = false := by rw [begins, hm, Bool.false_and]
    refine ⟨p, ?_⟩
    rw [List.cons_append, ofMarked, hcontinues, hbegins]
    exact congrArg (m :: ·) hp

-- Behind a token of the code, no directive is open.
theorem exists_of_code (h : (ofMarked previous line ms).code = as ++ m :: bs) :
    ∃ xs ys, ms = xs ++ m :: ys ∧ (ofMarked (some m.token) none ys).code = bs := by
  induction ms generalizing previous line as with
  | nil => simp [ofMarked] at h
  | cons a ms ih =>
    simp only [ofMarked] at h
    split at h
    case isTrue =>
      obtain ⟨xs, ys, rfl, hys⟩ := ih h
      exact ⟨a :: xs, ys, rfl, hys⟩
    case isFalse =>
      split at h
      case isTrue =>
        obtain ⟨xs, ys, rfl, hys⟩ := ih h
        exact ⟨a :: xs, ys, rfl, hys⟩
      case isFalse =>
        cases as with
        | nil =>
          obtain ⟨rfl, hcode⟩ := List.cons.inj h
          exact ⟨[], ms, rfl, hcode⟩
        | cons b as =>
          obtain ⟨rfl, hcode⟩ := List.cons.inj h
          obtain ⟨xs, ys, rfl, hys⟩ := ih hcode
          exact ⟨a :: xs, ys, rfl, hys⟩

-- A part of the code stands in one piece unless there is a number sign in between.
theorem exists_append_of_code (h : (ofMarked previous line ms).code = as ++ cs ++ bs)
    (hf : first ∈ cs.head?) (hl : last ∈ cs.getLast?) (hn : ms.Nodup)
    (hplain : ∀ xs zs ys, ms = xs ++ zs ++ ys → zs.head? = some first →
      zs.getLast? = some last → ∀ m ∈ zs, m.token.lexeme.isMark .hash = false) :
    ∃ xs ys, ms = xs ++ cs ++ ys := by
  obtain ⟨rest, rfl⟩ := List.head?_eq_some_iff.mp hf
  obtain ⟨init, hinit⟩ := List.getLast?_eq_some_iff.mp hl
  have hnodup : (as ++ (first :: rest) ++ bs).Nodup := h ▸ hn.sublist (sublist_ofMarked ..).1
  obtain ⟨xs, ys, rfl, hcode⟩ := exists_of_code (by simpa using h)
  have hlast : last ∈ first :: ys := by
    have hmem : last ∈ first :: (rest ++ bs) := List.mem_append_left bs (List.mem_of_getLast? hl)
    rw [← hcode] at hmem
    exact ((sublist_ofMarked ..).1.cons_cons first).mem hmem
  obtain ⟨zs, ws, hsplit⟩ := List.append_of_mem hlast
  have hhead : (zs ++ [last]).head? = some first := by
    simpa [List.head?_append] using (congrArg List.head? hsplit).symm
  have hsharp := hplain xs (zs ++ [last]) ws (by simp [hsplit]) hhead List.getLast?_concat
  -- No directive is open in front of the part, so that its tokens are taken one by one.
  obtain ⟨p, hp⟩ := exists_code_append hsharp none ws
  have hfirst := hsharp first (List.mem_of_head? hhead)
  have hstart : (ofMarked none none (first :: ys)).code = first :: (rest ++ bs) := by
    rw [ofMarked, ← hcode]
    simp [continues, begins, hfirst]
  have hcodes : init ++ last :: bs = zs ++ last :: (ofMarked p none ws).code := by
    rw [List.append_cons init, ← hinit, List.cons_append, ← hstart, hsplit,
      List.append_cons zs last ws, hp, ← List.append_cons]
  have hnotMem : last ∉ init ++ bs := by
    rw [hinit, List.append_assoc] at hnodup
    have hmiddle := (List.nodup_append.mp hnodup).2.1
    rw [← List.append_cons] at hmiddle
    exact (List.nodup_cons.mp (List.perm_middle.nodup_iff.mp hmiddle)).1
  obtain ⟨hinit', hbs⟩ := not_or.mp (mt List.mem_append.mpr hnotMem)
  obtain ⟨rfl, -⟩ := (List.append_cons_inj_of_notMem hinit' hbs).mp hcodes
  exact ⟨xs, ws, by simp [hsplit, hinit]⟩

end Divided

-- Is it more than a blank or a comment?
def Lexeme.isSignificant (l : Lexeme) : Bool :=
  !l.isComment && !l.isTrivia

theorem Lexeme.trivia_or_comment {l : Lexeme} (h : l.isSignificant = false) :
    l.isTrivia ∨ l.isComment := by
  cases hc : l.isComment <;> simp_all [isSignificant]

-- The span is that from the first to the last of some tokens.
def Span.Reaches (s : Span) (ts : List Token) : Prop :=
  ∃ first ∈ ts.head?, ∃ last ∈ ts.getLast?, s = first.span.cover last.span

theorem Span.Reaches.ne_nil {s : Span} {ts : List Token} (h : s.Reaches ts) : ts ≠ [] := by
  rintro rfl
  obtain ⟨first, hf, -⟩ := h
  cases hf

namespace Token

-- The lexemes of some tokens that are neither blanks nor comments.
def codeOf (ts : List Token) : List Lexeme :=
  (ts.filter (·.lexeme.isSignificant)).map (·.lexeme)

-- No blank and no comment stands at either end of some tokens.
structure Trimmed (ts : List Token) : Prop where
  head : ts.head? = (ts.filter (·.lexeme.isSignificant)).head?
  last : ts.getLast? = (ts.filter (·.lexeme.isSignificant)).getLast?

variable {t : Token} {ts : List Token}

theorem codeOf_append (ts us : List Token) : codeOf (ts ++ us) = codeOf ts ++ codeOf us := by
  rw [codeOf, List.filter_append, List.map_append]
  rfl

theorem codeOf_eq_filter (ts : List Token) :
    codeOf ts = (ts.map (·.lexeme)).filter Lexeme.isSignificant := by
  rw [codeOf, List.filter_map]
  rfl

theorem isSignificant_of_mem_codeOf {l : Lexeme} (h : l ∈ codeOf ts) : l.isSignificant := by
  obtain ⟨t, ht, rfl⟩ := List.mem_map.mp h
  exact (List.mem_filter.mp ht).2

theorem mem_head?_codeOf (h : t ∈ ts.head?) (ht : t.lexeme.isSignificant) :
    t.lexeme ∈ (codeOf ts).head? := by
  obtain ⟨us, rfl⟩ := List.head?_eq_some_iff.mp h
  have hfirst : codeOf [t] = [t.lexeme] := by simp [codeOf, ht]
  rw [← List.singleton_append, codeOf_append, hfirst]
  rfl

theorem mem_getLast?_codeOf (h : t ∈ ts.getLast?) (ht : t.lexeme.isSignificant) :
    t.lexeme ∈ (codeOf ts).getLast? := by
  obtain ⟨us, rfl⟩ := List.getLast?_eq_some_iff.mp h
  have hlast : codeOf [t] = [t.lexeme] := by simp [codeOf, ht]
  rw [codeOf_append, hlast, List.getLast?_concat]
  rfl

theorem Trimmed.head?_codeOf (h : Trimmed ts) : (codeOf ts).head? = (ts.map (·.lexeme)).head? := by
  rw [codeOf, List.head?_map, List.head?_map, h.head]

theorem Trimmed.getLast?_codeOf (h : Trimmed ts) :
    (codeOf ts).getLast? = (ts.map (·.lexeme)).getLast? := by
  rw [codeOf, List.getLast?_map, List.getLast?_map, h.last]

theorem Trimmed.reaches {s : Span} (h : Trimmed ts)
    (hs : s.Reaches (ts.filter (·.lexeme.isSignificant))) : s.Reaches ts := by
  unfold Span.Reaches
  rwa [h.head, h.last]

end Token

namespace Source

-- The tokens of a file in a span.
def tokensIn (s : Source) (span : Span) : List Token :=
  s.tokens.filter fun t => span.start.offset ≤ t.offset && t.endOffset ≤ span.stop.offset

def codeIn (s : Source) (span : Span) : List Lexeme :=
  Token.codeOf (s.tokensIn span)

-- The span is that of some tokens of the file, between those before it and those behind it.
structure IsPiece (s : Source) (span : Span) (before ts after : List Token) : Prop where
  tokens : s.tokens = before ++ ts ++ after
  start : span.start.offset = (before.flatMap (·.text.toList)).length
  stop : span.stop.offset = ((before ++ ts).flatMap (·.text.toList)).length

variable {s : Source} {path text : String} {span whole : Span} {first last t : Token}
  {before ts after xs ys zs : List Token} {p : Place} {ls : List Lexeme}

theorem offset_of_placed (h : placed p ls = before ++ t :: after) :
    t.offset = p.offset + (before.flatMap (·.text.toList)).length := by
  induction before generalizing p ls with
  | nil =>
    cases ls with
    | nil => cases h
    | cons l ls =>
      rw [placed] at h
      cases h
      rfl
  | cons u before ih =>
    cases ls with
    | nil => cases h
    | cons l ls =>
      rw [placed] at h
      obtain ⟨rfl, htail⟩ := List.cons.inj h
      rw [ih htail, Place.offset_advance, List.flatMap_cons, List.length_append, Nat.add_assoc]
      rfl

theorem offset_eq_length (h : (ofText path text).tokens = before ++ t :: after) :
    t.offset = (before.flatMap (·.text.toList)).length :=
  (offset_of_placed h).trans (Nat.zero_add _)

theorem endOffset_eq_length (h : (ofText path text).tokens = before ++ t :: after) :
    t.endOffset = ((before ++ [t]).flatMap (·.text.toList)).length := by
  have hmem : t ∈ (ofText path text).tokens := by simp [h]
  rw [endOffset_of_mem_tokens hmem, offset_eq_length h, ← String.length_toList]
  simp

-- Tokens that follow one another are where they are together.
theorem bounds_of_mem (h : (ofText path text).tokens = before ++ ts ++ after) (ht : t ∈ ts) :
    (before.flatMap (·.text.toList)).length ≤ t.offset ∧ t.offset < t.endOffset ∧
      t.endOffset ≤ ((before ++ ts).flatMap (·.text.toList)).length := by
  obtain ⟨xs, ys, rfl⟩ := List.append_of_mem ht
  have hsplit : (ofText path text).tokens = (before ++ xs) ++ t :: (ys ++ after) := by simp [h]
  have hmem : t ∈ (ofText path text).tokens := by simp [h]
  have hpos := List.length_pos_iff.mpr (text_ne_nil_of_mem_tokens hmem)
  rw [offset_eq_length hsplit, endOffset_eq_length hsplit]
  simp only [List.flatMap_append, List.flatMap_cons, List.flatMap_nil, List.length_append,
    List.append_nil]
  omega

theorem toList_text (path text : String) :
    text.toList = (ofText path text).tokens.flatMap (·.text.toList) := by
  have htokens := map_lexeme_placed .origin (Lexer.lexemes text.toList)
  rw [← Lexer.flatMap_text_lexemes text.toList]
  conv => lhs; rw [← htokens, List.flatMap_map]
  rfl

namespace IsPiece

theorem of_reaches (h : (ofText path text).tokens = before ++ ts ++ after)
    (hs : span.Reaches ts) : (ofText path text).IsPiece span before ts after := by
  obtain ⟨first, hf, last, hl, rfl⟩ := hs
  refine ⟨h, ?_, ?_⟩
  · obtain ⟨us, rfl⟩ := List.head?_eq_some_iff.mp hf
    have hsplit : (ofText path text).tokens = before ++ first :: (us ++ after) := by simp [h]
    exact offset_eq_length hsplit
  · obtain ⟨us, rfl⟩ := List.getLast?_eq_some_iff.mp hl
    have hsplit : (ofText path text).tokens = (before ++ us) ++ last :: after := by simp [h]
    rw [← List.append_assoc]
    exact endOffset_eq_length hsplit

-- What is between the starts of two pieces, and between their ends.

theorem front (h : s.IsPiece whole before (xs ++ ys ++ zs) after)
    (hs : s.IsPiece span (before ++ xs) ys (zs ++ after)) :
    s.IsPiece ⟨whole.start, span.start⟩ before xs (ys ++ zs ++ after) where
  tokens := by simp [h.tokens]
  start := h.start
  stop := hs.start

theorem back (h : s.IsPiece whole before (xs ++ ys ++ zs) after)
    (hs : s.IsPiece span (before ++ xs) ys (zs ++ after)) :
    s.IsPiece ⟨span.stop, whole.stop⟩ (before ++ xs ++ ys) zs after where
  tokens := by simp [h.tokens]
  start := hs.stop
  stop := by simpa using h.stop

theorem slice (h : (ofText path text).IsPiece span before ts after) :
    ((ofText path text).slice span).toList = ts.flatMap (·.text.toList) := by
  have htext : text.toList = before.flatMap (·.text.toList) ++ (ts.flatMap (·.text.toList) ++
      after.flatMap (·.text.toList)) := by
    rw [toList_text path text, h.tokens]
    simp
  have hlen : span.stop.offset - span.start.offset = (ts.flatMap (·.text.toList)).length := by
    rw [h.start, h.stop, List.flatMap_append, List.length_append, Nat.add_sub_cancel_left]
  rw [Source.slice, String.toList_ofList, hlen, h.start]
  show (text.toList.drop _).take _ = _
  rw [htext, List.drop_left, List.take_left]

theorem tokensIn (h : (ofText path text).IsPiece span before ts after) :
    (ofText path text).tokensIn span = ts := by
  have hbefore : before.filter (fun t => span.start.offset ≤ t.offset &&
      t.endOffset ≤ span.stop.offset) = [] := by
    refine List.filter_eq_nil_iff.mpr fun t ht => ?_
    have hsplit : (ofText path text).tokens = [] ++ before ++ (ts ++ after) := by simp [h.tokens]
    obtain ⟨-, hlt, hle⟩ := bounds_of_mem hsplit ht
    rw [List.nil_append, ← h.start] at hle
    simp only [Bool.and_eq_true, decide_eq_true_eq]
    omega
  have hafter : after.filter (fun t => span.start.offset ≤ t.offset &&
      t.endOffset ≤ span.stop.offset) = [] := by
    refine List.filter_eq_nil_iff.mpr fun t ht => ?_
    have hsplit : (ofText path text).tokens = (before ++ ts) ++ after ++ [] := by simp [h.tokens]
    obtain ⟨hle, hlt, -⟩ := bounds_of_mem hsplit ht
    rw [← h.stop] at hle
    simp only [Bool.and_eq_true, decide_eq_true_eq]
    omega
  rw [Source.tokensIn, h.tokens, List.filter_append, List.filter_append, hbefore, hafter,
    List.nil_append, List.append_nil]
  refine List.filter_eq_self.mpr fun t ht => ?_
  obtain ⟨hle, -, hle'⟩ := bounds_of_mem h.tokens ht
  rw [← h.start] at hle
  rw [← h.stop] at hle'
  simp [hle, hle']

theorem codeIn (h : (ofText path text).IsPiece span before ts after) :
    (ofText path text).codeIn span = Token.codeOf ts := by
  rw [Source.codeIn, h.tokensIn]

end IsPiece

-- Significant tokens that follow one another, with what is between them.
theorem exists_isPiece_of_significant (h : (ofText path text).significant = xs ++ ts ++ ys)
    (hs : span.Reaches ts) :
    ∃ before us after, (ofText path text).IsPiece span before us after ∧
      us.filter (·.lexeme.isSignificant) = ts ∧ Token.Trimmed us := by
  obtain ⟨before, us, after, htokens, -, rfl, -, hhead, hlast⟩ :=
    exists_append_of_filter h hs.ne_nil
  have htrimmed : Token.Trimmed us := ⟨hhead, hlast⟩
  exact ⟨before, us, after, .of_reaches htokens (htrimmed.reaches hs), rfl, htrimmed⟩

-- The same for tokens of the code, if there is no number sign in their span.
theorem exists_isPiece_of_code
    (h : (Parts.ofTokens (ofText path text).tokens).tokens.toList = xs ++ ts ++ ys)
    (hs : span.Reaches ts)
    (hplain : ∀ l ∈ (ofText path text).codeIn span, l.isMark .hash = false) :
    ∃ before us after, (ofText path text).IsPiece span before us after ∧
      us.filter (·.lexeme.isSignificant) = ts ∧ Token.Trimmed us := by
  have hmarked : (Gathering.ofTokens (ofText path text).tokens).markedList.map (·.token) =
      (ofText path text).significant := Gathering.markedList_ofTokens _
  have hnodup : (Gathering.ofTokens (ofText path text).tokens).markedList.Nodup := by
    refine List.Nodup.of_map (·.token) ?_
    rw [hmarked]
    exact (ordered_tokens path text).nodup.filter _
  simp only [Parts.tokens, Parts.ofTokens] at h
  obtain ⟨front, mys, hcode, hfront, rfl⟩ := List.map_eq_append_iff.mp h
  obtain ⟨mxs, mts, rfl, rfl, rfl⟩ := List.map_eq_append_iff.mp hfront
  obtain ⟨first, hf, last, hl, hspan⟩ := id hs
  rw [List.head?_map] at hf
  rw [List.getLast?_map] at hl
  obtain ⟨mfirst, hmfirst, rfl⟩ := Option.map_eq_some_iff.mp hf
  obtain ⟨mlast, hmlast, rfl⟩ := Option.map_eq_some_iff.mp hl
  have hsharp : ∀ vs zs ws, (Gathering.ofTokens (ofText path text).tokens).markedList =
      vs ++ zs ++ ws → zs.head? = some mfirst → zs.getLast? = some mlast →
      ∀ m ∈ zs, m.token.lexeme.isMark .hash = false := by
    intro vs zs ws hsplit hhead hlast m hm
    have hreaches : span.Reaches (zs.map (·.token)) :=
      ⟨mfirst.token, by rw [List.head?_map, hhead]; rfl, mlast.token,
        by rw [List.getLast?_map, hlast]; rfl, hspan⟩
    rw [hsplit, List.map_append, List.map_append] at hmarked
    obtain ⟨_, us, _, hpiece, hus, -⟩ := exists_isPiece_of_significant hmarked.symm hreaches
    refine hplain m.token.lexeme ?_
    have hmem : m.token ∈ zs.map (·.token) := List.mem_map_of_mem hm
    rw [hpiece.codeIn, Token.codeOf, hus]
    exact List.mem_map_of_mem hmem
  obtain ⟨vs, ws, hsplit⟩ := Divided.exists_append_of_code hcode hmfirst hmlast hnodup hsharp
  rw [hsplit, List.map_append, List.map_append] at hmarked
  exact exists_isPiece_of_significant hmarked.symm hs

-- The tokens of a span, cut before and behind two spans in it. Neither blanks nor comments are at
-- the ends of any of the three.
structure IsCut (s : Source) (whole left right : Span) (as bs ls ms rs cs zs : List Token) :
    Prop where
  whole : s.IsPiece whole as (bs ++ ls ++ (ms ++ rs ++ cs)) zs
  left : s.IsPiece left (as ++ bs) ls (ms ++ rs ++ cs ++ zs)
  right : s.IsPiece right (as ++ (bs ++ ls ++ ms)) rs (cs ++ zs)
  trimmed : Token.Trimmed (bs ++ ls ++ (ms ++ rs ++ cs))
  trimmed_left : Token.Trimmed ls
  trimmed_right : Token.Trimmed rs

theorem IsCut.front {left right : Span} {as bs ls ms rs cs zs : List Token}
    (h : s.IsCut whole left right as bs ls ms rs cs zs) :
    s.IsPiece ⟨whole.start, left.start⟩ as bs (ls ++ (ms ++ rs ++ cs) ++ zs) :=
  h.whole.front h.left

theorem IsCut.back {left right : Span} {as bs ls ms rs cs zs : List Token}
    (h : s.IsCut whole left right as bs ls ms rs cs zs) :
    s.IsPiece ⟨right.stop, whole.stop⟩ (as ++ (bs ++ ls ++ ms) ++ rs) cs zs := by
  have hwhole := h.whole
  rw [List.append_assoc ms, ← List.append_assoc (bs ++ ls), ← List.append_assoc] at hwhole
  exact hwhole.back h.right

theorem exists_isCut {left right : Span} {bs ls ms rs cs : List Token}
    (h : (Parts.ofTokens (ofText path text).tokens).tokens.toList =
      xs ++ (bs ++ ls ++ (ms ++ rs ++ cs)) ++ ys)
    (hwhole : whole.Reaches (bs ++ ls ++ (ms ++ rs ++ cs))) (hleft : left.Reaches ls)
    (hright : right.Reaches rs)
    (hplain : ∀ l ∈ (ofText path text).codeIn whole, l.isMark .hash = false) :
    ∃ as bs' ls' ms' rs' cs' zs,
      (ofText path text).IsCut whole left right as bs' ls' ms' rs' cs' zs ∧
      Token.codeOf bs' = bs.map (·.lexeme) ∧ Token.codeOf ls' = ls.map (·.lexeme) ∧
      Token.codeOf ms' = ms.map (·.lexeme) ∧ Token.codeOf rs' = rs.map (·.lexeme) ∧
      Token.codeOf cs' = cs.map (·.lexeme) := by
  obtain ⟨as, us, zs, hpiece, hus, htrimmed⟩ := exists_isPiece_of_code h hwhole hplain
  obtain ⟨bs', ls', rest, rfl, rfl, rfl, hrest, hhead, hlast⟩ :=
    exists_append_of_filter hus hleft.ne_nil
  obtain ⟨ms', rs', cs', rfl, rfl, rfl, rfl, hhead', hlast'⟩ :=
    exists_append_of_filter hrest hright.ne_nil
  have htrimmed_left : Token.Trimmed ls' := ⟨hhead, hlast⟩
  have htrimmed_right : Token.Trimmed rs' := ⟨hhead', hlast'⟩
  refine ⟨as, bs', ls', ms', rs', cs', zs, ⟨hpiece, ?_, ?_, htrimmed, htrimmed_left,
    htrimmed_right⟩, rfl, rfl, rfl, rfl, rfl⟩
  · exact .of_reaches (by simp [hpiece.tokens]) (htrimmed_left.reaches hleft)
  · exact .of_reaches (by simp [hpiece.tokens]) (htrimmed_right.reaches hright)

end Source
end CLint
