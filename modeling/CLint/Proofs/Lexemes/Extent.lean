import CLint.Proofs.Flipped.Respelled

namespace CLint

-- Does an open quote find its closing quote in the text behind it?
def Lexeme.isClosedBy (more : List Char) : Lexeme → Bool
  | openQuote t =>
    match Lexer.literalStart t.toList with
    | some (_, quote, body) => (Lexer.closeQuote quote (body ++ more)).isSome
    | none => false
  | _ => false

-- Would a lexeme be read in another way if that text stood behind it?

def Punct.goesOn (more : List Char) : Punct → Bool
  | .ellipsis => false
  | .dot => more.head?.any Char.isDigit || ['.', '.'].isPrefixOf more
  | p => more.head?.any (Lexeme.punct p).runsOn

def Lexeme.goesOn (more : List Char) : Lexeme → Bool
  | quoted _ | stray _ => false
  | openQuote t => (openQuote t).isClosedBy more || !(Lexer.openRun more).1.isEmpty
  | comment t =>
    if ['/', '*'].isPrefixOf t.toList then !(comment t).terminated && !more.isEmpty
    else more.head?.any (!Lexer.isBreak ·)
  | punct p => p.goesOn more
  | l => more.head?.any l.runsOn

theorem Punct.lex?_dot (cs : List Char) :
    lex? ('.' :: cs) = some (if ['.', '.'].isPrefixOf cs then .ellipsis else .dot) := by
  cases h : ['.', '.'].isPrefixOf cs <;> simp_all [lex?, all, chars, List.isPrefixOf]

-- The first character of a punctuator is one by itself.
theorem Punct.lex?_eq_none {c : Char} {cs : List Char} (h : lex? (c :: cs) = none)
    (ds : List Char) : lex? (c :: ds) = none := by
  have hfirst : ∀ p ∈ all, ∃ q ∈ all, q.chars = p.chars.take 1 := by decide
  refine List.find?_eq_none.mpr fun p hp hpre => ?_
  obtain ⟨q, hq, hchars⟩ := hfirst p hp
  obtain ⟨d, ds', hd⟩ := List.exists_cons_of_ne_nil p.chars_ne_nil
  rw [hd, List.isPrefixOf_iff_prefix, List.cons_prefix_cons] at hpre
  refine List.find?_eq_none.mp h q hq ?_
  rw [hchars, hd, hpre.1]
  simp [List.isPrefixOf]

namespace Lexer

open Cut

variable {c d quote : Char} {cs lead taken rest more : List Char} {l : Lexeme}

-- A lexeme goes on neither where it ends nor at the end of a text; and it is read before any text
-- into which it does not go on.
structure Delimited (l : Lexeme) (rest : List Char) : Prop where
  stops : l.goesOn rest = false
  alone : l.goesOn [] = false
  reads : ∀ more, l.goesOn more = false → Reads l more

theorem Ends.delimited (h : Ends l rest) (hc : l.isComment = false)
    (hg : ∀ more, l.goesOn more = more.head?.any l.runsOn) : Delimited l rest where
  stops := by
    rw [hg, Option.any_eq_false]
    exact h.stops
  alone := by rw [hg, List.head?_nil, Option.any_none]
  reads more hm := by
    rw [hg, Option.any_eq_false] at hm
    exact h.reads (by simp [hc]) more hm

-- A block comment that ends with the sign for that ends there whatever follows.
theorem blockComment_of_suffix (h : ['*', '/'] <:+ (blockComment cs).1) (more : List Char) :
    blockComment ((blockComment cs).1 ++ more) = ((blockComment cs).1, more) := by
  fun_induction blockComment cs with
  | case1 => simp at h
  | case2 => rfl
  | case3 c cs hc ih =>
    rw [fst_keep] at h
    have hinner : ['*', '/'] <:+ (blockComment cs).1 := by
      refine (List.suffix_cons_iff.mp h).resolve_left fun he => ?_
      obtain ⟨rfl, htaken⟩ := List.cons.inj he
      have hcut := blockComment_append cs
      rw [← htaken] at hcut
      exact hc _ rfl hcut.symm
    rw [fst_keep, List.cons_append, blockComment, ih hinner]
    · rfl
    · intro ds hstar hd
      obtain ⟨e, es, he⟩ := List.exists_cons_of_ne_nil (List.IsSuffix.ne_nil hinner (by simp))
      have hcut := blockComment_append cs
      rw [he] at hd hcut
      obtain ⟨rfl, -⟩ := List.cons.inj hd
      exact hc _ hstar hcut.symm

-- A literal ends with its closing quote whatever follows.
theorem closeQuote_taken (h : closeQuote quote cs = some (taken, rest)) (more : List Char) :
    closeQuote quote (taken ++ more) = some (taken, more) := by
  fun_induction closeQuote quote cs generalizing taken rest with
  | case1 | case3 | case4 => cases h
  | case2 =>
    cases h
    rw [List.singleton_append, closeQuote.eq_def]
    simp
  | case5 d ds hq hb ih =>
    obtain ⟨⟨_, _⟩, hinner, hkeep⟩ := Option.map_eq_some_iff.mp h
    cases hkeep
    simp [closeQuote, hq, hb, ih hinner, keep]
  | case6 c cs hq hb hs ih =>
    obtain ⟨⟨_, _⟩, hinner, hkeep⟩ := Option.map_eq_some_iff.mp h
    cases hkeep
    rw [List.cons_append, closeQuote.eq_def]
    simp [hq, hb, hs, ih hinner, keep]

-- There is no closing quote in what an open quote takes with it.
theorem closeQuote_openRun (hq : isQuote quote) (cs : List Char) :
    closeQuote quote (openRun cs).1 = none := by
  fun_induction openRun cs with
  | case1 | case2 | case3 => rfl
  | case4 d ds hc ih =>
    have hne : '\\' ≠ quote := by
      rintro rfl
      cases hq
    simp [closeQuote, hne, isBreak, ih]
  | case5 c cs hc hs ih =>
    have hne : c ≠ quote := by
      rintro rfl
      simp [hq] at hc
    rw [fst_keep, closeQuote.eq_def]
    simp only [Bool.or_eq_true, not_or, Bool.not_eq_true] at hc
    simp [hne, hs, hc.2, ih]

theorem openRun_taken (hm : (openRun more).1 = []) (cs : List Char) :
    openRun ((openRun cs).1 ++ more) = ((openRun cs).1, more) := by
  have hnone : openRun more = ([], more) := by
    have hcut := openRun_append more
    rw [hm, List.nil_append] at hcut
    exact Prod.ext hm hcut
  fun_induction openRun cs with
  | case1 | case2 | case3 => exact hnone
  | case4 d ds hc ih => simp [openRun, isQuote, isBreak, ih, keep]
  | case5 c cs hc hs ih =>
    rw [fst_keep, List.cons_append, openRun.eq_def]
    simp [hc, hs, ih, keep]

theorem openRun_stops (cs : List Char) : (openRun (openRun cs).2).1 = [] := by
  fun_induction openRun cs with
  | case1 => rfl
  | case2 c cs hc =>
    show (openRun (c :: cs)).1 = []
    rw [openRun.eq_def]
    simp [hc]
  | case3 => rfl
  | case4 d ds hc ih => exact ih
  | case5 c cs hc hs ih => exact ih

-- What a literal begins with.
theorem lead_of_literalStart (h : literalStart cs = some (lead, quote, rest)) : isQuote quote ∧
    (lead = [] ∨ lead = ['u', '8'] ∨ ∃ c, (c = 'u' ∨ c = 'U' ∨ c = 'L') ∧ lead = [c]) := by
  unfold literalStart at h
  split at h
  case h_3 =>
    split at h
    case isTrue hq =>
      cases h
      exact ⟨hq, .inl rfl⟩
    case isFalse =>
      split at h
      case isFalse => cases h
      case isTrue hq =>
        cases h
        simp only [Bool.and_eq_true, Bool.or_eq_true, decide_eq_true_eq, or_assoc] at hq
        exact ⟨hq.2, .inr (.inr ⟨_, hq.1, rfl⟩)⟩
  case h_4 =>
    split at h <;> cases h
    case isTrue hq => exact ⟨hq, .inl rfl⟩
  case h_5 => cases h
  all_goals
    cases h
    exact ⟨rfl, .inr (.inl rfl)⟩

theorem literalStart_lead (h : literalStart cs = some (lead, quote, rest)) (more : List Char) :
    literalStart (lead ++ quote :: more) = some (lead, quote, more) := by
  obtain ⟨hq, rfl | rfl | ⟨c, hc, rfl⟩⟩ := lead_of_literalStart h
  · cases more with
    | nil => simp [literalStart, hq]
    | cons d ds =>
      rw [List.nil_append, literalStart_of_ne, if_pos hq]
      rintro rfl
      cases hq
  · simp only [isQuote, Bool.or_eq_true, decide_eq_true_eq] at hq
    rcases hq with rfl | rfl <;> rfl
  · have hne : quote ≠ '8' := by
      rintro rfl
      cases hq
    rw [List.singleton_append, literalStart_of_ne fun _ h => absurd h hne]
    simp only [isQuote, Bool.or_eq_true, decide_eq_true_eq] at hq
    rcases hc with rfl | rfl | rfl <;> rcases hq with rfl | rfl <;> rfl

-- A literal is neither a break nor a blank nor a comment.
theorem exists_next_literal (h : literalStart cs = some (lead, quote, rest)) (more : List Char) :
    ∃ c front, lead ++ [quote] = c :: front ∧
      next c (front ++ more) = literal lead quote more := by
  obtain ⟨c, front, hfront, hplain⟩ : ∃ c front, lead ++ [quote] = c :: front ∧
      isBreak c = false ∧ isBlank c = false ∧ c ≠ '/' := by
    obtain ⟨hq, rfl | rfl | ⟨c, hc, rfl⟩⟩ := lead_of_literalStart h
    · refine ⟨quote, [], rfl, ?_⟩
      simp only [isQuote, Bool.or_eq_true, decide_eq_true_eq] at hq
      rcases hq with rfl | rfl <;> decide
    · exact ⟨'u', ['8', quote], rfl, by decide⟩
    · refine ⟨c, [quote], rfl, ?_⟩
      rcases hc with rfl | rfl | rfl <;> decide
  have hlead : c :: (front ++ more) = lead ++ quote :: more := by
    rw [← List.cons_append, ← hfront, List.append_assoc, List.singleton_append]
  refine ⟨c, front, hfront, ?_⟩
  rw [next_of_plain hplain.1 hplain.2.1 hplain.2.2, code, hlead, literalStart_lead h]

theorem delimited_literal (h : literalStart cs = some (lead, quote, rest)) :
    Delimited (literal lead quote rest).1 (literal lead quote rest).2 := by
  have hq := (lead_of_literalStart h).1
  cases hclose : closeQuote quote rest with
  | some r =>
    obtain ⟨taken, after⟩ := r
    have hread : literal lead quote rest =
        (.quoted (String.ofList (lead ++ quote :: taken)), after) := by rw [literal, hclose]
    rw [hread]
    refine ⟨rfl, rfl, fun more _ => ?_⟩
    obtain ⟨c, front, hfront, hnext⟩ := exists_next_literal h (taken ++ more)
    refine ⟨c, front ++ taken, ?_, ?_⟩
    · simp [Lexeme.text, ← List.cons_append, ← hfront]
    · rw [List.append_assoc, hnext, literal, closeQuote_taken hclose]
  | none =>
    have hread : literal lead quote rest =
        (.openQuote (String.ofList (lead ++ quote :: (openRun rest).1)), (openRun rest).2) := by
      rw [literal, hclose]
    have hgoesOn (more : List Char) :
        (Lexeme.openQuote (String.ofList (lead ++ quote :: (openRun rest).1))).goesOn more =
          ((closeQuote quote ((openRun rest).1 ++ more)).isSome ||
            !(openRun more).1.isEmpty) := by
      rw [Lexeme.goesOn, Lexeme.isClosedBy, String.toList_ofList, literalStart_lead h]
    rw [hread]
    constructor
    case stops =>
      rw [hgoesOn, openRun_append, hclose, openRun_stops]
      rfl
    case alone =>
      rw [hgoesOn, List.append_nil, closeQuote_openRun hq]
      rfl
    case reads =>
      intro more hm
      rw [hgoesOn, Bool.or_eq_false_iff, Option.isSome_eq_false_iff, Option.isNone_iff_eq_none,
        Bool.not_eq_false', List.isEmpty_iff] at hm
      obtain ⟨c, front, hfront, hnext⟩ := exists_next_literal h ((openRun rest).1 ++ more)
      refine ⟨c, front ++ (openRun rest).1, ?_, ?_⟩
      · simp [Lexeme.text, ← List.cons_append, ← hfront]
      · rw [List.append_assoc, hnext, literal, hm.1, openRun_taken hm.2]

theorem code_dot (h : more.head?.any Char.isDigit = false) :
    code '.' more = mark '.' more := by
  have hnumber : numberStart ('.' :: more) = none := by
    cases more with
    | nil => rfl
    | cons d ds => simpa [numberStart] using h
  rw [code, literalStart_of_plain rfl (by decide), hnumber]
  rfl

theorem delimited_dot (hn : numberStart ('.' :: cs) = none) :
    Delimited (mark '.' cs).1 (mark '.' cs).2 := by
  have hdigit : cs.head?.any Char.isDigit = false := by
    cases cs with
    | nil => rfl
    | cons d ds => simpa [numberStart] using hn
  cases hdots : ['.', '.'].isPrefixOf cs with
  | false =>
    have hread : mark '.' cs = (.punct .dot, cs) := by
      rw [mark, Punct.lex?_dot, hdots]
      rfl
    rw [hread]
    refine ⟨by rw [Lexeme.goesOn, Punct.goesOn, hdigit, hdots]; rfl, rfl, fun more hm =>
      ⟨'.', [], by simp [Lexeme.text, Punct.text, Punct.chars], ?_⟩⟩
    rw [Lexeme.goesOn, Punct.goesOn, Bool.or_eq_false_iff] at hm
    rw [List.nil_append, next_of_plain rfl rfl (by decide), code_dot hm.1, mark, Punct.lex?_dot,
      hm.2]
    rfl
  | true =>
    obtain ⟨after, rfl⟩ := List.isPrefixOf_iff_prefix.mp hdots
    have hread (ds : List Char) : mark '.' ('.' :: '.' :: ds) = (.punct .ellipsis, ds) := by
      rw [mark, Punct.lex?_dot]
      simp [List.isPrefixOf, Punct.chars]
    rw [List.cons_append, List.singleton_append, hread]
    refine ⟨rfl, rfl, fun more _ =>
      ⟨'.', ['.', '.'], by simp [Lexeme.text, Punct.text, Punct.chars], ?_⟩⟩
    rw [List.cons_append, List.singleton_append, next_of_plain rfl rfl (by decide),
      code_dot (by rfl), hread]

theorem goesOn_punct {p : Punct} (h : (Lexeme.punct p).isSteady) (more : List Char) :
    (Lexeme.punct p).goesOn more = more.head?.any (Lexeme.punct p).runsOn := by
  cases p <;> first | rfl | cases h

theorem delimited_mark (hm : isMarkStart c) (hc : ∀ d ∈ cs.head?, c = '/' → d ≠ '/' ∧ d ≠ '*') :
    Delimited (mark c cs).1 (mark c cs).2 := by
  cases hp : Punct.lex? (c :: cs) with
  | none =>
    have hread : mark c cs = (.stray c, cs) := by rw [mark, hp]
    have hslash : c ≠ '/' := by
      rintro rfl
      have hslash := Punct.lex?_eq_none hp []
      cases hslash
    simp only [isMarkStart, Bool.and_eq_true, Bool.not_eq_true'] at hm
    rw [hread]
    refine ⟨rfl, rfl, fun more _ => ⟨c, [], by simp [Lexeme.text], ?_⟩⟩
    rw [List.nil_append, next_of_plain hm.2 hm.1.2 hslash,
      code_of_isMarkStart (by simp [isMarkStart, hm]), mark, Punct.lex?_eq_none hp]
  | some p =>
    have hread : (mark c cs).1 = .punct p := by rw [mark, hp]
    have hsteady : (Lexeme.punct p).isSteady := by
      have hfirst := Punct.prefix_of_lex? hp
      have hdot : c ≠ '.' := by
        rintro rfl
        cases hm
      cases p <;> first | rfl | exact absurd (List.cons_prefix_cons.mp hfirst).1.symm hdot
    have hends := ends_mark (hread ▸ hsteady) hc
    refine hends.delimited (by rw [hread]; rfl) ?_
    rw [hread]
    exact goesOn_punct hsteady

theorem isComment_named (name : String) : (named name).isComment = false := by
  unfold named
  split <;> rfl

theorem goesOn_named (name : String) (more : List Char) :
    (named name).goesOn more = more.head?.any (named name).runsOn := by
  unfold named
  split <;> rfl

theorem not_isQuote_of_literalStart (h : literalStart (c :: cs) = none) : isQuote c = false := by
  cases hq : isQuote c with
  | false => rfl
  | true =>
    have hquote : literalStart [c] = some ([], c, []) := by simp [literalStart, hq]
    have hsome := literalStart_lead hquote cs
    rw [List.nil_append, h] at hsome
    cases hsome

theorem delimited_code (hb : isBreak c = false) (hbl : isBlank c = false)
    (hc : ∀ d ∈ cs.head?, c = '/' → d ≠ '/' ∧ d ≠ '*') :
    Delimited (code c cs).1 (code c cs).2 := by
  unfold code
  split
  case h_1 hl => exact delimited_literal hl
  case h_2 hl =>
    split
    case h_1 hn => exact (ends_number hn).delimited rfl fun _ => rfl
    case h_2 hn =>
      split
      case isTrue hw =>
        exact (ends_word hw hl).delimited (isComment_named _) (goesOn_named _)
      case isFalse hw =>
        by_cases hdot : c = '.'
        case pos =>
          subst hdot
          exact delimited_dot hn
        case neg =>
          refine delimited_mark ?_ hc
          have hdigit : c.isDigit = false := by simpa [numberStart_of_ne hdot] using hn
          simp [isMarkStart, not_isQuote_of_literalStart hl, hw, hdigit, hdot, hb, hbl]

theorem delimited_lineComment (cs : List Char) :
    Delimited (.comment (String.ofList ('/' :: '/' :: (lineComment cs).1))) (lineComment cs).2 where
  stops := by
    rw [Lexeme.goesOn, if_neg (by simp [List.isPrefixOf]), Option.any_eq_false]
    exact fun d hd => stop_of_dropWhile hd
  alone := by rw [Lexeme.goesOn, if_neg (by simp [List.isPrefixOf])]; rfl
  reads more hm := by
    rw [Lexeme.goesOn, if_neg (by simp [List.isPrefixOf]), Option.any_eq_false] at hm
    have htaken : ∀ d ∈ (lineComment cs).1, (!isBreak d) := fun d => List.mem_takeWhile_imp
    obtain ⟨htake, hdrop⟩ := takeWhile_append_of_stop htaken hm
    refine ⟨'/', '/' :: (lineComment cs).1, by simp [Lexeme.text], ?_⟩
    rw [List.cons_append, next, lineComment, htake, hdrop]

-- A block comment that has a character behind it has its end.
theorem suffix_of_blockComment (h : (blockComment cs).2 ≠ []) :
    ['*', '/'] <:+ (blockComment cs).1 := by
  fun_induction blockComment cs with
  | case1 => contradiction
  | case2 => exact List.suffix_rfl
  | case3 c cs hc ih => exact (ih h).trans (List.suffix_cons c _)

theorem terminated_block (taken : List Char) :
    (Lexeme.comment (String.ofList ('/' :: '*' :: taken))).terminated ↔ ['*', '/'] <:+ taken := by
  rw [Lexeme.terminated, String.toList_ofList]
  simp only [List.isPrefixOf, beq_self_eq_true, Bool.and_true, Bool.not_true, Bool.false_or,
    Bool.and_eq_true, decide_eq_true_eq, List.isSuffixOf_iff_suffix]
  constructor
  · rintro ⟨hlen, hend⟩
    exact List.suffix_of_suffix_length_le hend ⟨['/', '*'], rfl⟩ (by simpa using hlen)
  · exact fun h => ⟨by simpa using h.length_le, h.trans ⟨['/', '*'], rfl⟩⟩

theorem delimited_blockComment (cs : List Char) :
    Delimited (.comment (String.ofList ('/' :: '*' :: (blockComment cs).1)))
      (blockComment cs).2 := by
  have hgoesOn (more : List Char) :
      (Lexeme.comment (String.ofList ('/' :: '*' :: (blockComment cs).1))).goesOn more = false ↔
        ['*', '/'] <:+ (blockComment cs).1 ∨ more = [] := by
    rw [Lexeme.goesOn, if_pos (by simp [List.isPrefixOf]), ← terminated_block]
    cases more <;> simp
  constructor
  case stops =>
    rw [hgoesOn]
    by_cases h : (blockComment cs).2 = []
    case pos => exact .inr h
    case neg => exact .inl (suffix_of_blockComment h)
  case alone =>
    rw [hgoesOn]
    exact .inr rfl
  case reads =>
    intro more hm
    rw [hgoesOn] at hm
    refine ⟨'/', '*' :: (blockComment cs).1, by simp [Lexeme.text], ?_⟩
    rw [List.cons_append, next]
    by_cases h : ['*', '/'] <:+ (blockComment cs).1
    case pos => rw [blockComment_of_suffix h]
    case neg =>
      obtain rfl := hm.resolve_left h
      have hall : (blockComment cs).2 = [] := by
        by_contra hne
        exact h (suffix_of_blockComment hne)
      have hcut := blockComment_append cs
      rw [hall, List.append_nil] at hcut
      rw [hcut, List.append_nil, hcut, hall]

theorem delimited_next (c : Char) (cs : List Char) : Delimited (next c cs).1 (next c cs).2 := by
  fun_cases next c cs with
  | case1 cs =>
    have hends : (next '\r' ('\n' :: cs)).1.isSteady → Ends _ _ := ends_next
    exact (hends rfl).delimited rfl fun _ => rfl
  | case2 cs hn =>
    have hends : (next '\r' cs).1.isSteady → Ends _ _ := ends_next
    rw [next] at hends
    · exact (hends rfl).delimited rfl fun _ => rfl
    · exact hn
  | case3 cs =>
    have hends : (next '\n' cs).1.isSteady → Ends _ _ := ends_next
    exact (hends rfl).delimited rfl fun _ => rfl
  | case4 cs => exact delimited_lineComment cs
  | case5 cs => exact delimited_blockComment cs
  | case6 c cs _ hr hn hs hs' hb =>
    have hends : (next c cs).1.isSteady → Ends _ _ := ends_next
    rw [next_of_ne hr hn hs hs', if_pos hb] at hends
    exact (hends rfl).delimited rfl fun _ => rfl
  | case7 c cs _ hr hn hs hs' hb =>
    have hbreak : isBreak c = false := by simpa [isBreak] using ⟨hr, hn⟩
    refine delimited_code hbreak (by simpa using hb) fun d hd hc => ?_
    obtain ⟨ds, rfl⟩ := List.head?_eq_some_iff.mp hd
    exact ⟨fun hd => hs ds hc (hd ▸ rfl), fun hd => hs' ds hc (hd ▸ rfl)⟩

theorem delimited_of_mem_lexemes (h : l ∈ lexemes cs) : ∃ rest, Delimited l rest := by
  obtain ⟨c, cs, rfl⟩ := exists_next_of_mem_lexemes h
  exact ⟨_, delimited_next c cs⟩

theorem Delimited.lexemes_append (h : Delimited l rest)
    (hm : l.goesOn more = false) : lexemes (l.text.toList ++ more) = l :: lexemes more :=
  (h.reads more hm).lexemes_append

theorem Delimited.lexemes_text (h : Delimited l rest) : lexemes l.text.toList = [l] := by
  have halone := h.lexemes_append h.alone
  rwa [List.append_nil, lexemes_nil] at halone

end Lexer

end CLint
