import CLint.Proofs.Join.Basic

namespace CLint.Lexer

open Cut

-- A text that ends with a line feed, and with no backslash before that. What is read from the
-- front of such a text does not depend on what follows it.
def Sealed (cs : List Char) : Prop :=
  ∃ front, cs = front ++ ['\n'] ∧ front.getLast? ≠ some '\\'

variable {c : Char} {cs more : List Char}

namespace Sealed

theorem mem (h : Sealed cs) : '\n' ∈ cs := by
  obtain ⟨front, rfl, _⟩ := h
  exact List.mem_append_right front List.mem_cons_self

theorem ne_nil (h : Sealed cs) : cs ≠ [] :=
  List.ne_nil_of_mem h.mem

theorem of_append {as : List Char} (h : Sealed (as ++ cs)) (hne : cs ≠ []) : Sealed cs := by
  obtain ⟨front, he, hl⟩ := h
  obtain ⟨front', last, rfl⟩ : ∃ front' last, cs = front' ++ [last] :=
    ⟨_, _, (List.dropLast_concat_getLast hne).symm⟩
  rw [← List.append_assoc] at he
  obtain ⟨rfl, hlast⟩ := List.append_inj' he rfl
  refine ⟨front', by rw [hlast], fun h' => hl ?_⟩
  rw [List.getLast?_append, h', Option.some_or]

theorem tail (h : Sealed (c :: cs)) (hc : c ≠ '\n') : Sealed cs := by
  replace h : Sealed ([c] ++ cs) := h
  refine h.of_append ?_
  rintro rfl
  exact hc (List.mem_singleton.mp h.mem).symm

theorem of_append_of_notMem {as : List Char} (h : Sealed (as ++ cs)) (ha : '\n' ∉ as) :
    Sealed cs := by
  refine of_append h ?_
  rintro rfl
  exact ha (List.append_nil as ▸ h.mem)

-- A backslash does not stand directly before the end.
theorem tail_tail {d : Char} (h : Sealed ('\\' :: d :: cs)) : Sealed cs := by
  replace h : Sealed (['\\', d] ++ cs) := h
  refine h.of_append ?_
  rintro rfl
  obtain ⟨front, he, hl⟩ := h
  obtain ⟨rfl, _⟩ := List.append_inj' (show ['\\'] ++ [d] = front ++ ['\n'] from he) rfl
  exact hl rfl

end Sealed

variable {p : Char → Bool}

theorem takeWhile_append_of_sealed (hp : p '\n' = false) (h : Sealed cs) (more : List Char) :
    (cs ++ more).takeWhile p = cs.takeWhile p := by
  induction cs with
  | nil => exact absurd rfl h.ne_nil
  | cons c cs ih =>
    cases hc : p c
    case false => simp [hc]
    case true =>
      have hne : c ≠ '\n' := by
        rintro rfl
        simp [hp] at hc
      simp [hc, ih (h.tail hne)]

theorem dropWhile_append_of_sealed (hp : p '\n' = false) (h : Sealed cs) (more : List Char) :
    (cs ++ more).dropWhile p = cs.dropWhile p ++ more := by
  have hsplit : (cs ++ more).takeWhile p ++ (cs ++ more).dropWhile p =
      cs.takeWhile p ++ (cs.dropWhile p ++ more) := by
    rw [List.takeWhile_append_dropWhile, ← List.append_assoc, List.takeWhile_append_dropWhile]
  rw [takeWhile_append_of_sealed hp h] at hsplit
  exact List.append_cancel_left hsplit

theorem lineComment_followed (h : Sealed cs) (more : List Char) :
    lineComment (cs ++ more) = followed (lineComment cs) more :=
  Prod.ext (takeWhile_append_of_sealed rfl h more) (dropWhile_append_of_sealed rfl h more)

-- A comment that is terminated ends where it did.
theorem blockComment_followed (h : (blockComment cs).2 ≠ []) (more : List Char) :
    blockComment (cs ++ more) = followed (blockComment cs) more := by
  fun_induction blockComment cs with
  | case1 => contradiction
  | case2 => rfl
  | case3 c cs hc ih =>
    have hne : cs ≠ [] := by
      rintro rfl
      exact h rfl
    rw [List.cons_append, blockComment, ih h]
    · rfl
    · intro ds hd he
      obtain ⟨e, es, rfl⟩ := List.exists_cons_of_ne_nil hne
      obtain ⟨rfl, _⟩ := List.cons.inj he
      exact hc es hd rfl

theorem closeQuote_followed {quote : Char} (h : Sealed cs) (more : List Char) :
    closeQuote quote (cs ++ more) = (closeQuote quote cs).map (followed · more) := by
  fun_induction closeQuote quote cs with
  | case1 => exact absurd rfl h.ne_nil
  | case2 =>
    rw [List.cons_append, closeQuote.eq_def]
    simp [followed]
  | case3 c cs hc hb =>
    rw [List.cons_append, closeQuote.eq_def]
    simp [hc, hb]
  | case4 => cases List.mem_singleton.mp h.mem
  | case5 d ds hc hb ih =>
    rw [List.cons_append, List.cons_append, closeQuote, if_neg hc, if_neg hb, if_pos rfl,
      ih h.tail_tail, Option.map_map, Option.map_map]
    rfl
  | case6 c cs hc hb hs ih =>
    have hcs := h.tail (by rintro rfl; exact hb rfl)
    rw [List.cons_append, closeQuote.eq_def]
    simp only [hc, hb, hs, if_false, ih hcs, Option.map_map, Bool.false_eq_true]
    rfl

theorem openRun_followed (h : Sealed cs) (more : List Char) :
    openRun (cs ++ more) = followed (openRun cs) more := by
  fun_induction openRun cs with
  | case1 => exact absurd rfl h.ne_nil
  | case2 c cs hc =>
    rw [List.cons_append, openRun.eq_def]
    simp [hc, followed]
  | case3 => cases List.mem_singleton.mp h.mem
  | case4 d ds hc ih =>
    rw [List.cons_append, List.cons_append, openRun, if_neg hc, if_pos rfl, ih h.tail_tail]
    rfl
  | case5 c cs hc hs ih =>
    have hcs := h.tail (by rintro rfl; exact hc rfl)
    rw [List.cons_append, openRun.eq_def]
    simp only [hc, hs, if_false, ih hcs, Bool.false_eq_true]
    rfl

theorem numberRun_followed (h : Sealed cs) (more : List Char) :
    numberRun (cs ++ more) = followed (numberRun cs) more := by
  fun_induction numberRun cs with
  | case1 => exact absurd rfl h.ne_nil
  | case2 c hc =>
    cases List.mem_singleton.mp h.mem
    cases hc
  | case3 c hc =>
    cases List.mem_singleton.mp h.mem
    cases more <;> rfl
  | case4 c d cs hc ih =>
    have hc' : c ≠ '\n' := by rintro rfl; cases hc
    have hd : d ≠ '\n' := by rintro rfl; simp at hc
    rw [List.cons_append, List.cons_append, numberRun, if_pos hc, ih ((h.tail hc').tail hd)]
    rfl
  | case5 c d cs hc hw ih =>
    have hc' : c ≠ '\n' := by rintro rfl; cases hw
    rw [List.cons_append, List.cons_append, numberRun, if_neg hc, if_pos hw, ← List.cons_append,
      ih (h.tail hc')]
    rfl
  | case6 c d cs hc hw =>
    rw [List.cons_append, List.cons_append, numberRun, if_neg hc, if_neg hw]
    rfl

theorem literalStart_of_ne {d : Char} {ds : List Char}
    (h : c = 'u' → d = '8' → ds.head?.any isQuote = false) : literalStart (c :: d :: ds) =
      if isQuote c then some ([], c, d :: ds)
      else if (c = 'u' || c = 'U' || c = 'L') && isQuote d then some ([c], d, ds)
      else none := by
  rw [literalStart]
  all_goals
    rintro es rfl rfl rfl
    simp [isQuote] at h

theorem literalStart_followed (h : Sealed (c :: cs)) (more : List Char) :
    literalStart (c :: cs ++ more) =
      (literalStart (c :: cs)).map fun r => (r.1, followed r.2 more) := by
  match cs with
  | [] =>
    cases List.mem_singleton.mp h.mem
    cases more <;> rfl
  | d :: ds =>
    by_cases hq : c = 'u' ∧ d = '8' ∧ ds.head?.any isQuote
    case pos =>
      obtain ⟨rfl, rfl, hq⟩ := hq
      cases ds with
      | nil => cases hq
      | cons e es =>
        simp only [List.head?_cons, Option.any_some, isQuote, Bool.or_eq_true,
          decide_eq_true_eq] at hq
        rcases hq with rfl | rfl <;> rfl
    case neg =>
      have hds : c = 'u' → d = '8' → ds.head?.any isQuote = false := by
        rintro rfl rfl
        simpa using hq
      have hmore : c = 'u' → d = '8' → (ds ++ more).head?.any isQuote = false := by
        rintro rfl rfl
        cases ds with
        | nil => simpa using h.mem
        | cons e es => exact hds rfl rfl
      rw [List.cons_append, List.cons_append, literalStart_of_ne hds, literalStart_of_ne hmore]
      split
      · rfl
      · split <;> rfl

theorem Sealed.of_literalStart {lead rest : List Char} {quote : Char} (h : Sealed cs)
    (hl : literalStart cs = some (lead, quote, rest)) : Sealed rest := by
  rw [← literalStart_append hl, List.append_cons] at h
  refine h.of_append_of_notMem ?_
  have hquote : ∀ c, isQuote c → c ≠ '\n' := by
    rintro c hc rfl
    cases hc
  unfold literalStart at hl
  split at hl
  case h_3 =>
    split at hl
    case isTrue hq =>
      cases hl
      simpa [eq_comm] using hquote _ hq
    case isFalse =>
      split at hl
      case isFalse => cases hl
      case isTrue hq =>
        cases hl
        simp only [Bool.and_eq_true, Bool.or_eq_true, decide_eq_true_eq] at hq
        rcases hq.1 with (rfl | rfl) | rfl <;> simpa [eq_comm] using hquote _ hq.2
  case h_4 =>
    split at hl
    case isFalse => cases hl
    case isTrue hq =>
      cases hl
      simpa [eq_comm] using hquote _ hq
  case h_5 => cases hl
  all_goals
    cases hl
    decide

theorem numberStart_of_ne {ds : List Char} (hc : c ≠ '.') :
    numberStart (c :: ds) = if c.isDigit then some ([c], ds) else none := by
  rw [numberStart]
  rintro d es rfl
  contradiction

theorem numberStart_followed (h : Sealed (c :: cs)) (more : List Char) :
    numberStart (c :: cs ++ more) = (numberStart (c :: cs)).map (followed · more) := by
  by_cases hc : c = '.'
  case pos =>
    subst hc
    obtain ⟨d, ds, rfl⟩ := List.exists_cons_of_ne_nil (h.tail (by decide)).ne_nil
    simp only [List.cons_append, numberStart]
    split <;> rfl
  case neg =>
    rw [List.cons_append, numberStart_of_ne hc, numberStart_of_ne hc]
    split <;> rfl

theorem Sealed.of_numberStart {lead rest : List Char} (h : Sealed cs)
    (hn : numberStart cs = some (lead, rest)) : Sealed rest := by
  rw [← numberStart_append hn] at h
  refine h.of_append_of_notMem ?_
  have hdigit : ∀ c : Char, c.isDigit → c ≠ '\n' := by
    rintro c hc rfl
    cases hc
  unfold numberStart at hn
  split at hn
  case h_3 => cases hn
  all_goals
    split at hn
    case isTrue hd =>
      cases hn
      simpa [eq_comm] using hdigit _ hd
    case isFalse => cases hn

theorem lex?_append (h : Sealed cs) (more : List Char) :
    Punct.lex? (cs ++ more) = Punct.lex? cs := by
  have hfree : ∀ p : Punct, '\n' ∉ p.chars := by
    intro p
    cases p <;> decide
  have hpre : (fun p : Punct => p.chars.isPrefixOf (cs ++ more)) =
      fun p => p.chars.isPrefixOf cs := by
    funext p
    rw [Bool.eq_iff_iff, List.isPrefixOf_iff_prefix, List.isPrefixOf_iff_prefix]
    refine ⟨fun hp => ?_, fun hp => hp.trans (List.prefix_append cs more)⟩
    refine (List.prefix_or_prefix_of_prefix hp (List.prefix_append cs more)).resolve_right ?_
    exact fun hp => hfree p (hp.mem h.mem)
  rw [Punct.lex?, Punct.lex?, hpre]

theorem mark_followed (h : Sealed (c :: cs)) (more : List Char) :
    mark c (cs ++ more) = followed (mark c cs) more := by
  unfold mark
  rw [← List.cons_append, lex?_append h]
  split
  case h_1 hp =>
    have hlen := congrArg List.length (Punct.chars_append_drop hp)
    rw [List.length_append, List.length_drop] at hlen
    rw [List.drop_append_of_le_length (by omega)]
    rfl
  case h_2 => rfl

theorem literal_followed (lead : List Char) (quote : Char) (h : Sealed cs) (more : List Char) :
    literal lead quote (cs ++ more) = followed (literal lead quote cs) more := by
  rw [literal, literal, closeQuote_followed h, openRun_followed h]
  cases closeQuote quote cs <;> rfl

theorem number_followed (lead : List Char) (h : Sealed cs) (more : List Char) :
    number lead (cs ++ more) = followed (number lead cs) more := by
  rw [number, number, numberRun_followed h]
  rfl

theorem word_followed (h : Sealed cs) (more : List Char) :
    word (cs ++ more) = followed (word cs) more := by
  rw [word, word, takeWhile_append_of_sealed rfl h, dropWhile_append_of_sealed rfl h]
  rfl

theorem code_followed (h : Sealed (c :: cs)) (more : List Char) :
    code c (cs ++ more) = followed (code c cs) more := by
  unfold code
  rw [← List.cons_append, literalStart_followed h, numberStart_followed h]
  cases hl : literalStart (c :: cs) with
  | some r =>
    obtain ⟨lead, quote, rest⟩ := r
    exact literal_followed lead quote (h.of_literalStart hl) more
  | none =>
    cases hn : numberStart (c :: cs) with
    | some r =>
      obtain ⟨lead, rest⟩ := r
      exact number_followed lead (h.of_numberStart hn) more
    | none =>
      dsimp only [Option.map_none]
      split
      · exact word_followed h more
      · exact mark_followed h more

theorem next_of_ne (hr : c ≠ '\r') (hn : c ≠ '\n') (hs : ∀ ds, c = '/' → cs = '/' :: ds → False)
    (hs' : ∀ ds, c = '/' → cs = '*' :: ds → False) : next c cs =
      if isBlank c then (.blank (String.ofList (c :: cs.takeWhile isBlank)), cs.dropWhile isBlank)
      else code c cs := by
  rw [next]
  · exact hr
  · exact hn
  · exact fun _ hc _ => hr hc
  · exact hs
  · exact hs'

theorem next_followed (h : Sealed (c :: cs))
    (hc : (next c cs).1.isComment → (next c cs).2 ≠ []) (more : List Char) :
    next c (cs ++ more) = followed (next c cs) more := by
  -- What a text begins with it still begins with when more follows.
  have hfront : ∀ {d : Char} {cs : List Char} (c : Char), cs ≠ [] →
      (∀ ds, c = '/' → cs = d :: ds → False) → ∀ ds, c = '/' → cs ++ more = d :: ds → False := by
    intro d cs c hne hs ds hc he
    obtain ⟨e, es, rfl⟩ := List.exists_cons_of_ne_nil hne
    obtain ⟨rfl, _⟩ := List.cons.inj he
    exact hs es hc rfl
  fun_cases next c cs with
  | case1 => rfl
  | case2 cs hn =>
    obtain ⟨d, ds, rfl⟩ := List.exists_cons_of_ne_nil (h.tail (by decide)).ne_nil
    rw [next]
    · rfl
    · rintro es he
      obtain ⟨rfl, _⟩ := List.cons.inj he
      exact hn ds rfl
  | case3 => rfl
  | case4 cs =>
    have hcs := (h.tail (by decide)).tail (by decide)
    rw [List.cons_append, next, lineComment_followed hcs]
    rfl
  | case5 cs =>
    rw [List.cons_append, next, blockComment_followed (by simpa [next, Lexeme.isComment] using hc)]
    rfl
  | case6 c cs _ hr hn hs hs' hb =>
    have hcs := h.tail hn
    rw [next_of_ne hr hn (hfront c hcs.ne_nil hs) (hfront c hcs.ne_nil hs'), if_pos hb,
      takeWhile_append_of_sealed rfl hcs, dropWhile_append_of_sealed rfl hcs]
    rfl
  | case7 c cs _ hr hn hs hs' hb =>
    have hcs := h.tail hn
    rw [next_of_ne hr hn (hfront c hcs.ne_nil hs) (hfront c hcs.ne_nil hs'), if_neg hb,
      code_followed h]

-- A sealed text that does not end in a comment is read on its own, whatever follows it.
theorem lexemes_append (h : Sealed cs) (hc : (lexemes cs).getLast?.any Lexeme.isComment = false)
    (more : List Char) : lexemes (cs ++ more) = lexemes cs ++ lexemes more := by
  fun_induction lexemes cs with
  | case1 => exact absurd rfl h.ne_nil
  | case2 c cs ih =>
    have hcomment : (next c cs).1.isComment → (next c cs).2 ≠ [] := by
      intro hl he
      simp [he, lexemes_nil, hl] at hc
    rw [List.cons_append, lexemes_cons, next_followed h hcomment, followed, List.cons_append]
    by_cases hr : (next c cs).2 = []
    case pos => rw [hr, lexemes_nil]; rfl
    case neg =>
      have hrest : Sealed (next c cs).2 := by
        rw [← next_append c cs] at h
        exact h.of_append hr
      have hlast : (lexemes (next c cs).2).getLast?.any Lexeme.isComment = false := by
        obtain ⟨d, ds, hd⟩ := List.exists_cons_of_ne_nil hr
        have hne : lexemes (next c cs).2 ≠ [] := by
          rw [hd, lexemes_cons]
          exact List.cons_ne_nil _ _
        rwa [List.getLast?_cons_of_ne_nil hne] at hc
      rw [ih hrest hlast]

theorem isTrivia_code (c : Char) (cs : List Char) : (code c cs).1.isTrivia = false := by
  unfold code literal number word mark named
  repeat' split
  all_goals rfl

theorem backslash_notMem_next (h : (next c cs).1.isTrivia) :
    '\\' ∉ (next c cs).1.text.toList := by
  fun_cases next c cs with
  | case1 | case2 | case3 => simp [Lexeme.text]
  | case4 | case5 => simp [next, Lexeme.isTrivia] at h
  | case6 c cs _ _ _ _ _ hb =>
    rw [Lexeme.text, String.toList_ofList, List.mem_cons, not_or]
    refine ⟨?_, fun hm => ?_⟩
    · rintro rfl
      cases hb
    · cases List.all_eq_true.mp List.all_takeWhile _ hm
  | case7 c cs _ hr hn hs hs' hb =>
    rw [next_of_ne hr hn hs hs', if_neg hb, isTrivia_code] at h
    cases h

theorem backslash_notMem_of_mem_lexemes {l : Lexeme} (hl : l ∈ lexemes cs) (h : l.isTrivia) :
    '\\' ∉ l.text.toList := by
  fun_induction lexemes cs with
  | case1 => cases hl
  | case2 c cs ih =>
    cases List.mem_cons.mp hl
    case inl hl =>
      subst hl
      exact backslash_notMem_next h
    case inr hl => exact ih hl

-- Behind a semicolon with nothing but blanks and line breaks after it, nothing is escaped.
theorem sealed_of_getLast? (h : cs.getLast? = some '\n')
    (hs : ((lexemes cs).filter (!·.isTrivia)).getLast? = some (.punct .semicolon)) :
    Sealed cs ∧ (lexemes cs).getLast?.any Lexeme.isComment = false := by
  obtain ⟨_, as, bs, hl, hbs⟩ := append_of_getLast?_filter hs
  have htrivia : ∀ b ∈ bs, b.isTrivia := fun b hb => by simpa using hbs b hb
  have hcs : cs = as.flatMap (·.text.toList) ++ [';'] ++ bs.flatMap (·.text.toList) := by
    rw [← flatMap_text_lexemes cs, hl]
    simp [Lexeme.text, Punct.text, Punct.chars]
  have hne : bs.flatMap (·.text.toList) ≠ [] := by
    intro he
    rw [he, List.append_nil] at hcs
    simp [hcs] at h
  obtain ⟨front, he⟩ : ∃ front, bs.flatMap (·.text.toList) = front ++ ['\n'] := by
    rw [hcs, List.getLast?_append, Option.or_of_isSome (List.getLast?_isSome.mpr hne)] at h
    exact List.getLast?_eq_some_iff.mp h
  have hfree : '\\' ∉ front := by
    intro hm
    have hm : '\\' ∈ bs.flatMap (·.text.toList) := he ▸ List.mem_append_left _ hm
    obtain ⟨b, hb, hm⟩ := List.mem_flatMap.mp hm
    have hb' : b ∈ lexemes cs := hl ▸ List.mem_append_right as (List.mem_cons_of_mem _ hb)
    exact backslash_notMem_of_mem_lexemes hb' (htrivia b hb) hm
  constructor
  · refine ⟨as.flatMap (·.text.toList) ++ [';'] ++ front, ?_, ?_⟩
    · rw [hcs, he, List.append_assoc, List.append_assoc, List.append_assoc]
    · rw [List.getLast?_append]
      cases hf : front.getLast? with
      | none => simp
      | some c =>
        rintro ⟨⟩
        exact hfree (List.mem_of_getLast? hf)
  · have hbs : bs ≠ [] := by
      rintro rfl
      exact hne rfl
    obtain ⟨bs, b, rfl⟩ : ∃ bs' b, bs = bs' ++ [b] :=
      ⟨_, _, (List.dropLast_concat_getLast hbs).symm⟩
    have hb := htrivia b (List.mem_append_right bs List.mem_cons_self)
    rw [hl, ← List.cons_append, ← List.append_assoc, List.getLast?_concat]
    cases b <;> first | rfl | cases hb

end CLint.Lexer
