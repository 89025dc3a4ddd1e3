import CLint.Proofs.Lexemes.Extent

namespace CLint.Lexer

open Source (spelled)

variable {c : Char} {cs rest more taken : List Char} {l : Lexeme} {ls as bs : List Lexeme}
  {t : String} {quote : Char}

-- Is a quote that is left open by some lexemes closed by the text behind them?
def closesQuote (more : List Char) : List Lexeme → Bool
  | [] => false
  | l :: ls => l.isClosedBy (spelled ls ++ more) || closesQuote more ls

-- The last line of a text is empty.
def EndsInBreak (ls : List Lexeme) : Prop :=
  ∃ t, ls.getLast? = some (.newline t)

theorem EndsInBreak.tail (h : EndsInBreak (l :: ls)) (hls : ls ≠ []) : EndsInBreak ls := by
  obtain ⟨t, ht⟩ := h
  exact ⟨t, by rwa [List.getLast?_cons_of_ne_nil hls] at ht⟩

theorem EndsInBreak.ne (h : EndsInBreak (lexemes cs)) : cs ≠ ['.'] ∧ cs ≠ ['\\'] := by
  obtain ⟨t, ht⟩ := h
  constructor
  · rintro rfl
    have : lexemes ['.'] = [.punct .dot] := by decide +kernel
    rw [this] at ht
    cases ht
  · rintro rfl
    have : lexemes ['\\'] = [.stray '\\'] := by decide +kernel
    rw [this] at ht
    cases ht

theorem openRun_append_eq_nil (h : (openRun cs).1 = []) (hne : cs ≠ []) (hs : cs ≠ ['\\'])
    (more : List Char) : (openRun (cs ++ more)).1 = [] := by
  fun_cases openRun cs with
  | case1 => contradiction
  | case2 c cs hc =>
    rw [List.cons_append, openRun.eq_def]
    simp [hc]
  | case3 => contradiction
  | case4 d ds hc => simp [openRun, hc] at h
  | case5 c cs hc hb =>
    rw [openRun.eq_def] at h
    simp [hc, hb] at h

-- Behind a line break, only a quote can go on.
theorem goesOn_append (h : l.goesOn rest = false) (hrest : EndsInBreak (lexemes rest))
    (hc : l.isClosedBy (rest ++ more) = false) (hm : more.head? = some '/') :
    l.goesOn (rest ++ more) = false := by
  obtain ⟨hdot, hslash⟩ := hrest.ne
  obtain ⟨d, ds, rfl⟩ : ∃ d ds, rest = d :: ds := by
    refine List.exists_cons_of_ne_nil ?_
    rintro rfl
    obtain ⟨t, ht⟩ := hrest
    rw [lexemes_nil] at ht
    cases ht
  cases l with
  | quoted t | stray c => rfl
  | openQuote t =>
    rw [Lexeme.goesOn, Bool.or_eq_false_iff, Bool.not_eq_false', List.isEmpty_iff] at h ⊢
    exact ⟨hc, openRun_append_eq_nil h.2 (List.cons_ne_nil d ds) hslash more⟩
  | comment t =>
    rw [Lexeme.goesOn] at h ⊢
    split at h
    case isTrue hblock =>
      rw [if_pos hblock]
      simpa using h
    case isFalse hblock =>
      rw [if_neg hblock]
      exact h
  | punct p =>
    cases p with
    | dot =>
      rw [Lexeme.goesOn, Punct.goesOn, Bool.or_eq_false_iff] at h ⊢
      refine ⟨h.1, ?_⟩
      cases ds with
      | nil =>
        obtain ⟨ms, rfl⟩ := List.head?_eq_some_iff.mp hm
        simp [List.isPrefixOf]
      | cons e es => simpa [List.isPrefixOf] using h.2
    | _ => exact h
  | _ => exact h

theorem goesOn_lineBreak (hm : more.head? = some '/') :
    (Lexeme.newline t).goesOn more = false := by
  simp [Lexeme.goesOn, hm, Lexeme.runsOn]

theorem lexemes_append_of_goesOn (h : (next c cs).1.goesOn ((next c cs).2 ++ more) = false) :
    lexemes (c :: cs ++ more) = (next c cs).1 :: lexemes ((next c cs).2 ++ more) := by
  have hread := (delimited_next c cs).lexemes_append h
  rwa [← List.append_assoc, next_append] at hread

theorem goesOn_of_endsInBreak (h : EndsInBreak (lexemes (c :: cs))) (hm : more.head? = some '/')
    (hc : (next c cs).1.isClosedBy ((next c cs).2 ++ more) = false) :
    (next c cs).1.goesOn ((next c cs).2 ++ more) = false := by
  rw [lexemes_cons] at h
  cases hrest : (next c cs).2 with
  | nil =>
    obtain ⟨t, ht⟩ := h
    rw [hrest, lexemes_nil, List.getLast?_singleton, Option.some.injEq] at ht
    rw [ht]
    exact goesOn_lineBreak hm
  | cons d ds =>
    have hne : lexemes (next c cs).2 ≠ [] := by
      rw [hrest, lexemes_cons]
      exact List.cons_ne_nil _ _
    rw [← hrest]
    exact goesOn_append (delimited_next c cs).stops (h.tail hne) hc hm

-- A text whose last line is empty is read alike before a text that closes none of its quotes.
theorem lexemes_append_of_endsInBreak (h : EndsInBreak (lexemes cs)) (hm : more.head? = some '/')
    (hc : closesQuote more (lexemes cs) = false) :
    lexemes (cs ++ more) = lexemes cs ++ lexemes more := by
  fun_induction lexemes cs with
  | case1 =>
    obtain ⟨t, ht⟩ := h
    cases ht
  | case2 c cs ih =>
    rw [closesQuote, spelled, flatMap_text_lexemes, Bool.or_eq_false_iff] at hc
    rw [← lexemes_cons] at h
    rw [lexemes_append_of_goesOn (goesOn_of_endsInBreak h hm hc.1), List.cons_append]
    by_cases hrest : (next c cs).2 = []
    case pos => rw [hrest, lexemes_nil]; rfl
    case neg =>
      rw [lexemes_cons] at h
      have hne : lexemes (next c cs).2 ≠ [] := by
        obtain ⟨d, ds, hd⟩ := List.exists_cons_of_ne_nil hrest
        rw [hd, lexemes_cons]
        exact List.cons_ne_nil _ _
      rw [ih (h.tail hne) hc.2]

-- An open quote was looked for a closing one in all that stands behind it.
theorem of_next_openQuote (h : (next c cs).1 = .openQuote t) : ∃ lead quote body,
    literalStart (c :: cs) = some (lead, quote, body) ∧ closeQuote quote body = none ∧
      literalStart t.toList = some (lead, quote, (openRun body).1) ∧
        (openRun body).2 = (next c cs).2 := by
  fun_cases next c cs with
  | case7 c cs _ hr hn hs hs' hb =>
    rw [next_of_ne hr hn hs hs', if_neg hb] at h
    unfold code at h ⊢
    split at h
    case h_1 lead quote body hl =>
      refine ⟨lead, quote, body, hl, ?_⟩
      unfold literal at h ⊢
      split at h
      case h_1 => cases h
      case h_2 hclose =>
        cases h
        rw [String.toList_ofList, literalStart_lead hl]
        exact ⟨hclose, rfl, rfl⟩
    case h_2 =>
      split at h
      case h_1 => cases h
      case h_2 =>
        split at h
        case isTrue =>
          unfold word named at h
          split at h <;> cases h
        case isFalse =>
          unfold mark at h
          split at h <;> cases h
  | _ => simp_all [next]

-- A quote that was open and is closed makes a literal that reaches behind the end of the text.
theorem length_lt_of_isClosedBy (h : (next c cs).1.isClosedBy ((next c cs).2 ++ more)) :
    (c :: cs).length < (next c (cs ++ more)).1.text.toList.length := by
  cases hl : (next c cs).1 with
  | openQuote t =>
    obtain ⟨lead, quote, body, hstart, hopen, ht, hrest⟩ := of_next_openQuote hl
    rw [hl, Lexeme.isClosedBy, ht, ← hrest] at h
    dsimp only at h
    rw [← List.append_assoc, openRun_append] at h
    obtain ⟨⟨taken, after⟩, hclose⟩ := Option.isSome_iff_exists.mp h
    have hlonger : body.length < taken.length := by
      by_contra hle
      have hcut := closeQuote_append hclose
      obtain ⟨left, rfl⟩ : taken <+: body :=
        List.prefix_of_prefix_length_le ⟨after, hcut⟩ ⟨more, rfl⟩ (Nat.le_of_not_lt hle)
      rw [closeQuote_taken hclose] at hopen
      cases hopen
    obtain ⟨c', front, hfront, hnext⟩ := exists_next_literal hstart (body ++ more)
    have hcut := literalStart_append hstart
    rw [List.append_cons, hfront, List.cons_append] at hcut
    obtain ⟨rfl, rfl⟩ := List.cons.inj hcut
    have hlength := congrArg List.length hfront
    rw [List.append_assoc, hnext, literal, hclose]
    simp only [List.length_append, List.length_cons, List.length_nil, Lexeme.text,
      String.toList_ofList] at hlength ⊢
    omega
  | _ =>
    rw [hl] at h
    cases h

-- Where a quote is closed, no lexeme ends at the end of the text in which it was open.
theorem spelled_ne_of_closesQuote (h : EndsInBreak (lexemes cs)) (hm : more.head? = some '/')
    (hc : closesQuote more (lexemes cs)) (hls : lexemes (cs ++ more) = as ++ bs) :
    spelled as ≠ cs := by
  fun_induction lexemes cs generalizing as with
  | case1 => cases hc
  | case2 c cs ih =>
    intro has
    obtain ⟨a, as, rfl⟩ : ∃ a as', as = a :: as' := by
      refine List.exists_cons_of_ne_nil ?_
      rintro rfl
      cases has
    have hfirst := hls
    rw [List.cons_append, lexemes_cons] at hfirst
    obtain ⟨hfirst, -⟩ := List.cons.inj hfirst
    cases hclosed : (next c cs).1.isClosedBy ((next c cs).2 ++ more) with
    | true =>
      have hlt := length_lt_of_isClosedBy hclosed
      rw [hfirst, ← has, spelled, List.flatMap_cons, List.length_append] at hlt
      omega
    | false =>
      rw [closesQuote, spelled, flatMap_text_lexemes, hclosed, Bool.false_or] at hc
      have hne : lexemes (next c cs).2 ≠ [] := fun hnil => by
        rw [hnil] at hc
        cases hc
      have htail := h.tail hne
      rw [← lexemes_cons] at h
      rw [lexemes_append_of_goesOn (goesOn_of_endsInBreak h hm hclosed)] at hls
      obtain ⟨rfl, hbehind⟩ := List.cons.inj (hls.trans (List.cons_append ..))
      refine ih htail hc hbehind ?_
      rw [spelled, List.flatMap_cons, ← next_append c cs] at has
      exact List.append_cancel_left has

theorem blockComment_of_not_infix (h : ¬['*', '/'] <:+: cs) : blockComment cs = (cs, []) := by
  fun_induction blockComment cs with
  | case1 => rfl
  | case2 cs => exact absurd ⟨[], cs, rfl⟩ h
  | case3 c cs hc ih =>
    rw [ih fun hend => h (hend.trans (List.suffix_cons c cs).isInfix)]
    rfl

-- A comment without its end is all that is left of a text.
theorem lexemes_openComment (h : ¬['*', '/'] <:+: cs) :
    lexemes ('/' :: '*' :: cs) = [.comment (String.ofList ('/' :: '*' :: cs))] := by
  rw [lexemes_cons, next, blockComment_of_not_infix h, lexemes_nil]

end CLint.Lexer
