import CLint.Proofs.Join.Lexing
import Mathlib.Data.List.TakeWhile

namespace CLint

namespace Punct

variable {p q : Punct} {d : Char} {cs : List Char}

-- No punctuator stands in the list behind one that it begins with.
theorem pairwise_all : all.Pairwise fun p q => ¬p.chars <+: q.chars := by
  decide

-- A punctuator that goes on where another one ends does so by single characters, but for the dots.
theorem mem_chars_of_append (hp : p ≠ .dot) (hq : q.chars = p.chars ++ d :: cs) :
    p.chars ++ [d] ∈ all.map chars := by
  have hclosed : ∀ p ∈ all, ∀ q ∈ all, p ≠ .dot → p.chars <+: q.chars →
      p.chars.length < q.chars.length →
      q.chars.take (p.chars.length + 1) ∈ all.map chars := by decide +kernel
  have hlen : p.chars.length < q.chars.length := by simp [hq]
  have hmem := hclosed p p.mem_all q q.mem_all hp ⟨_, hq.symm⟩ hlen
  rwa [hq, List.take_append, List.take_of_length_le (Nat.le_succ _), Nat.add_sub_cancel_left]
    at hmem

theorem prefix_of_lex? (h : lex? cs = some p) : p.chars <+: cs := by
  have h := List.find?_some h
  exact List.isPrefixOf_iff_prefix.mp h

-- What is found is the longest that there is.
theorem eq_of_lex? (h : lex? cs = some p) (hq : q.chars <+: cs) (hpq : p.chars <+: q.chars) :
    q = p := by
  obtain ⟨-, before, after, hall, hbefore⟩ := List.find?_eq_some_iff_append.mp h
  have hmem := q.mem_all
  rw [hall, List.mem_append, List.mem_cons] at hmem
  rcases hmem with hmem | rfl | hmem
  · have hno := hbefore q hmem
    rw [List.isPrefixOf_iff_prefix.mpr hq] at hno
    cases hno
  · rfl
  · have hsorted := pairwise_all
    rw [hall] at hsorted
    exact absurd hpq (List.rel_of_pairwise_cons (List.pairwise_append.mp hsorted).2.1 hmem)

theorem notMem_of_lex? (h : lex? (p.chars ++ d :: cs) = some p) :
    p.chars ++ [d] ∉ all.map chars := by
  intro hmem
  obtain ⟨q, -, hq⟩ := List.mem_map.mp hmem
  have hpre : q.chars <+: p.chars ++ d :: cs := ⟨cs, by simp [hq]⟩
  have hlen := congrArg List.length hq
  rw [eq_of_lex? h hpre ⟨[d], hq.symm⟩] at hlen
  simp at hlen

theorem lex?_chars_append (hp : p ≠ .dot)
    (h : ∀ d ∈ cs.head?, p.chars ++ [d] ∉ all.map chars) : lex? (p.chars ++ cs) = some p := by
  cases hl : lex? (p.chars ++ cs) with
  | none =>
    have hnone := List.find?_eq_none.mp hl p p.mem_all
    exact absurd (List.isPrefixOf_iff_prefix.mpr (List.prefix_append ..)) hnone
  | some q =>
    have hprefix : p.chars <+: p.chars ++ cs := List.prefix_append ..
    rcases List.prefix_or_prefix_of_prefix (prefix_of_lex? hl) hprefix with hqp | ⟨more, hpq⟩
    · rw [eq_of_lex? hl hprefix hqp]
    · cases more with
      | nil => rw [eq_of_lex? hl hprefix ⟨[], by simpa using hpq.symm⟩]
      | cons d more =>
        have hhead : d ∈ cs.head? := by
          have := prefix_of_lex? hl
          rw [← hpq, List.prefix_append_right_inj] at this
          obtain ⟨_, rfl⟩ := this
          rfl
        exact absurd (mem_chars_of_append hp hpq.symm) (h d hhead)

-- The characters by which punctuators go on.
theorem mem_of_chars_append (h : p.chars ++ [d] ∈ all.map chars) :
    d ∈ ['=', '<', '>', '+', '-', '&', '|', '#'] := by
  have hlast : ∀ p ∈ all, ∀ q ∈ all, q.chars.dropLast = p.chars →
      q.chars.getLast?.all ['=', '<', '>', '+', '-', '&', '|', '#'].contains := by decide +kernel
  obtain ⟨q, hq, hchars⟩ := List.mem_map.mp h
  have hd := hlast p p.mem_all q hq (by simp [hchars])
  rw [hchars, List.getLast?_concat] at hd
  exact List.contains_iff_mem.mp hd

end Punct

def Lexer.isExponent (c : Char) : Bool :=
  c = 'e' || c = 'E' || c = 'p' || c = 'P'

namespace Lexeme

-- The lexemes of which it is told below where they end. For what a quote begins, and for what dots
-- begin, more than the next character matters.
def isSteady : Lexeme → Bool
  | quoted _ | openQuote _ | stray _ => false
  | punct p => p ≠ .dot && p ≠ .ellipsis
  | _ => true

-- The words that belong to the literal before which they stand.
def isEncoding (word : List Char) : Bool :=
  word = ['u', '8'] || word = ['u'] || word = ['U'] || word = ['L']

-- Would a lexeme go on with this character, or be read in another way, if that stood behind it?
def runsOn (l : Lexeme) (d : Char) : Bool :=
  match l with
  | newline t => t.toList = ['\r'] && d = '\n'
  | blank _ => Lexer.isBlank d
  | comment t => ['/', '/'].isPrefixOf t.toList && !Lexer.isBreak d
  | number t =>
    Lexer.isWordChar d || d = '.' ||
      (d = '+' || d = '-') && t.toList.getLast?.any Lexer.isExponent
  | punct p => (Punct.all.map Punct.chars).contains (p.chars ++ [d]) ||
      p = .slash && (d = '/' || d = '*')
  | _ => Lexer.isWordChar d || Lexer.isQuote d && isEncoding l.text.toList

end Lexeme

namespace Lexer

open Cut

variable {c d : Char} {cs ds rest more : List Char} {l : Lexeme} {p : Char → Bool}

theorem takeWhile_append_of_stop (hc : ∀ c ∈ cs, p c) (hs : ∀ d ∈ rest.head?, p d = false) :
    (cs ++ rest).takeWhile p = cs ∧ (cs ++ rest).dropWhile p = rest := by
  have hrest : rest.takeWhile p = [] ∧ rest.dropWhile p = rest := by
    cases rest with
    | nil => exact ⟨rfl, rfl⟩
    | cons d ds => simp [hs d rfl]
  rw [List.takeWhile_append_of_pos hc, List.dropWhile_append_of_pos hc, hrest.1, hrest.2]
  exact ⟨List.append_nil cs, rfl⟩

theorem stop_of_dropWhile (h : d ∈ (cs.dropWhile p).head?) : p d = false := by
  have := List.head?_dropWhile_not p cs
  rw [Option.mem_def.mp h] at this
  simpa using this

theorem blockComment_eq_nil (h : (blockComment cs).1 = []) : (blockComment cs).2 = [] := by
  fun_cases blockComment cs with
  | case1 => rfl
  | case2 | case3 => simp_all [blockComment, keep]

-- A comment that ends before the text does is read alike whatever stands behind it.
theorem blockComment_of_ends (h : (blockComment cs).2 ≠ []) (rest : List Char) :
    blockComment ((blockComment cs).1 ++ rest) = ((blockComment cs).1, rest) := by
  fun_induction blockComment cs with
  | case1 => contradiction
  | case2 => rfl
  | case3 c cs hc ih =>
    have h : (blockComment cs).2 ≠ [] := h
    obtain ⟨d, taken, htaken⟩ := List.exists_cons_of_ne_nil (mt blockComment_eq_nil h)
    simp only [keep, List.cons_append]
    rw [blockComment, ih h]
    · rfl
    · intro ds hcs hd
      rw [htaken] at hd
      cases hd
      have hcut := blockComment_append cs
      rw [htaken] at hcut
      exact hc _ hcs hcut.symm

-- What may stand behind a number that has been read up to the end of `lead`.
def EndsNumber (lead rest : List Char) : Prop :=
  ∀ d ∈ rest.head?, isWordChar d = false ∧ d ≠ '.' ∧
    (lead.getLast?.any isExponent → d ≠ '+' ∧ d ≠ '-')

theorem isWordChar_of_isExponent (h : isExponent c) : isWordChar c := by
  simp only [isExponent, Bool.or_eq_true, decide_eq_true_eq] at h
  rcases h with ((rfl | rfl) | rfl) | rfl <;> rfl

theorem endsNumber_cons {lead : List Char} (hl : lead ≠ []) :
    EndsNumber (c :: lead) rest ↔ EndsNumber lead rest := by
  obtain ⟨d, ds, rfl⟩ := List.exists_cons_of_ne_nil hl
  simp [EndsNumber, List.getLast?_cons_cons]

theorem EndsNumber.of_cons {lead : List Char} (h : EndsNumber (c :: lead) rest) :
    EndsNumber lead rest := by
  cases lead with
  | nil => exact fun d hd => ⟨(h d hd).1, (h d hd).2.1, by simp⟩
  | cons d ds => exact (endsNumber_cons (List.cons_ne_nil d ds)).mp h

theorem EndsNumber.cons {lead : List Char} (h : EndsNumber lead rest)
    (hs : lead = [] → ∀ d ∈ rest.head?, isExponent c → d ≠ '+' ∧ d ≠ '-') :
    EndsNumber (c :: lead) rest := by
  cases lead with
  | nil => exact fun d hd => ⟨(h d hd).1, (h d hd).2.1, by simpa using hs rfl d hd⟩
  | cons d ds => exact (endsNumber_cons (List.cons_ne_nil d ds)).mpr h

theorem EndsNumber.nil (lead : List Char) : EndsNumber lead [] :=
  nofun

theorem numberRun_stop (h : EndsNumber [] rest) : numberRun rest = ([], rest) := by
  cases rest with
  | nil => rfl
  | cons d ds =>
    obtain ⟨hd, hdot, -⟩ := h d rfl
    have hexp : isExponent d = false := by
      cases he : isExponent d with
      | false => rfl
      | true => rw [isWordChar_of_isExponent he] at hd; cases hd
    cases ds with
    | nil => simp [numberRun, hd, hdot]
    | cons e es =>
      simp only [isExponent] at hexp
      simp [numberRun, hd, hdot, hexp]

theorem numberRun_cons (hc : isWordChar c ∨ c = '.')
    (hs : ∀ d ∈ cs.head?, isExponent c → d ≠ '+' ∧ d ≠ '-') :
    numberRun (c :: cs) = keep c (numberRun cs) := by
  cases cs with
  | nil => simp [numberRun, hc, keep]
  | cons d ds =>
    have hsign : ((c = 'e' || c = 'E' || c = 'p' || c = 'P') && (d = '+' || d = '-')) = false := by
      cases he : isExponent c with
      | false => exact Bool.and_eq_false_imp.mpr fun h => absurd h (by simpa [isExponent] using he)
      | true => simp [hs d rfl he]
    simp only [numberRun, hsign, Bool.false_eq_true, if_false]
    rw [if_pos (by simpa using hc)]

-- Where a number ends, it ends whatever stands there, if that may stand there.
theorem numberRun_of_stop {lead : List Char} (h : numberRun cs = (lead, rest)) :
    EndsNumber lead rest ∧
      ∀ more, EndsNumber lead more → numberRun (lead ++ more) = (lead, more) := by
  fun_induction numberRun cs generalizing lead with
  | case1 =>
    cases h
    exact ⟨.nil [], fun more => numberRun_stop⟩
  | case2 c hc =>
    cases h
    have hc : isWordChar c ∨ c = '.' := by simpa using hc
    refine ⟨.nil [c], fun more hmore => ?_⟩
    rw [List.singleton_append, numberRun_cons hc fun d hd he => (hmore d hd).2.2 (by simpa),
      numberRun_stop hmore.of_cons]
    rfl
  | case3 c hc =>
    cases h
    refine ⟨fun d hd => ?_, fun more => numberRun_stop⟩
    cases hd
    simpa using hc
  | case4 c d cs hc ih =>
    cases h
    obtain ⟨hends, hread⟩ := ih rfl
    have hd : isExponent d = false := by
      simp only [Bool.and_eq_true, Bool.or_eq_true, decide_eq_true_eq] at hc
      rcases hc.2 with rfl | rfl <;> rfl
    refine ⟨(hends.cons ?_).cons fun hnil => absurd hnil (List.cons_ne_nil _ _),
      fun more hmore => ?_⟩
    · intro _ _ _ he
      rw [hd] at he
      cases he
    · have hread := hread more hmore.of_cons.of_cons
      simp only [keep, List.cons_append]
      rw [numberRun, if_pos hc, hread]
      rfl
  | case5 c d cs hc hw ih =>
    cases h
    obtain ⟨hends, hread⟩ := ih rfl
    have hw : isWordChar c ∨ c = '.' := by simpa using hw
    have hsign : isExponent c → d ≠ '+' ∧ d ≠ '-' := by
      intro he
      simp only [isExponent] at he
      simpa [he] using hc
    refine ⟨hends.cons fun hnil e he => ?_, fun more hmore => ?_⟩
    · have hcut := numberRun_append (d :: cs)
      rw [hnil, List.nil_append] at hcut
      rw [hcut] at he
      cases he
      exact hsign
    · rw [List.cons_append, numberRun_cons hw, hread more hmore.of_cons]
      · rfl
      · intro e he hexp
        cases hlead : (numberRun (d :: cs)).1 with
        | nil =>
          rw [hlead] at he hmore
          exact (hmore e he).2.2 (by simpa using hexp)
        | cons x xs =>
          have hcut := numberRun_append (d :: cs)
          rw [hlead] at he hcut
          cases he
          obtain ⟨rfl, -⟩ := List.cons.inj hcut
          exact hsign hexp
  | case6 c d cs hc hw =>
    cases h
    refine ⟨fun d hd => ?_, fun more => numberRun_stop⟩
    cases hd
    simpa using hw

-- A lexeme and the text behind it, where they are told apart by the reader.
def Reads (l : Lexeme) (rest : List Char) : Prop :=
  ∃ c cs, l.text.toList = c :: cs ∧ next c (cs ++ rest) = (l, rest)

theorem literalStart_of_plain (hq : isQuote c = false) (hc : c ≠ 'u' ∧ c ≠ 'U' ∧ c ≠ 'L')
    (cs : List Char) : literalStart (c :: cs) = none := by
  cases cs with
  | nil => simp [literalStart, hq]
  | cons d ds => rw [literalStart_of_ne fun h => absurd h hc.1]; simp [hq, hc]

theorem not_quote_of_isWordChar (h : isWordChar c) : isQuote c = false := by
  cases hq : isQuote c with
  | false => rfl
  | true =>
    simp only [isQuote, Bool.or_eq_true, decide_eq_true_eq] at hq
    rcases hq with rfl | rfl <;> cases h

-- A word is not taken for the beginning of a literal, unless a quote stands behind it.
theorem literalStart_word (hc : isWordChar c) (hcs : ∀ d ∈ cs, isWordChar d)
    (hrest : ∀ d ∈ rest.head?, isWordChar d = false) : literalStart (c :: (cs ++ rest)) = none ↔
      ∀ d ∈ rest.head?, isQuote d → Lexeme.isEncoding (c :: cs) = false := by
  have hq := not_quote_of_isWordChar hc
  match cs with
  | [] =>
    cases rest with
    | nil => simp [literalStart, hq]
    | cons d ds =>
      have hd := hrest d rfl
      rw [List.nil_append, literalStart_of_ne fun _ h => by subst h; cases hd]
      cases hquote : isQuote d <;> simp [hq, hquote, Lexeme.isEncoding]
  | [d] =>
    have hd := not_quote_of_isWordChar (hcs d List.mem_cons_self)
    by_cases hu : c = 'u' ∧ d = '8'
    case pos =>
      obtain ⟨rfl, rfl⟩ := hu
      cases rest with
      | nil => simp [literalStart, isQuote]
      | cons e es =>
        cases he : isQuote e with
        | false =>
          rw [List.singleton_append, literalStart_of_ne fun _ _ => by simpa using he]
          simp [hq, hd, he]
        | true =>
          simp only [isQuote, Bool.or_eq_true, decide_eq_true_eq] at he
          rcases he with rfl | rfl <;> simp [literalStart, isQuote, Lexeme.isEncoding]
    case neg =>
      rw [List.singleton_append, literalStart_of_ne fun h h' => absurd ⟨h, h'⟩ hu]
      simp [hq, hd, Lexeme.isEncoding, hu]
  | d :: e :: es =>
    have hd := not_quote_of_isWordChar (hcs d (by simp))
    have he := not_quote_of_isWordChar (hcs e (by simp))
    rw [List.cons_append, List.cons_append, literalStart_of_ne fun _ _ => by simpa using he]
    simp [hq, hd, Lexeme.isEncoding]

-- The first character of a mark that is no dot.
def isMarkStart (c : Char) : Bool :=
  !isQuote c && !isWordStart c && !c.isDigit && c ≠ '.' && !isBlank c && !isBreak c

theorem code_of_isMarkStart (h : isMarkStart c) (cs : List Char) : code c cs = mark c cs := by
  simp only [isMarkStart, Bool.and_eq_true, Bool.not_eq_true', decide_eq_true_eq] at h
  obtain ⟨⟨⟨⟨⟨hq, hw⟩, hd⟩, hdot⟩, -⟩, -⟩ := h
  have hlead : c ≠ 'u' ∧ c ≠ 'U' ∧ c ≠ 'L' := by
    refine ⟨?_, ?_, ?_⟩ <;>
    · rintro rfl
      cases hw
  simp [code, literalStart_of_plain hq hlead, numberStart_of_ne hdot, hd, hw]

theorem exists_isMarkStart (p : Punct) (h : (Lexeme.punct p).isSteady) :
    ∃ c cs, p.chars = c :: cs ∧ isMarkStart c ∧
      (c = '/' → p = .slash ∧ cs = [] ∨ cs = ['=']) := by
  cases p <;> first | exact ⟨_, _, rfl, by decide, by decide⟩ | cases h

-- Where a lexeme ends, no character stands that it runs on into; and it ends before any text that
-- begins with no such character.
structure Ends (l : Lexeme) (rest : List Char) : Prop where
  stops : ∀ d ∈ rest.head?, l.runsOn d = false
  reads : (l.isComment → rest ≠ []) → ∀ more : List Char,
    (∀ d ∈ more.head?, l.runsOn d = false) → Reads l more

theorem next_of_plain (hb : isBreak c = false) (hbl : isBlank c = false) (hc : c ≠ '/')
    (cs : List Char) : next c cs = code c cs := by
  rw [next_of_ne, hbl, if_neg Bool.false_ne_true]
  · rintro rfl
    cases hb
  · rintro rfl
    cases hb
  · exact fun _ h => absurd h hc
  · exact fun _ h => absurd h hc

theorem plain_of_isWordChar (h : isWordChar c ∨ c = '.') :
    isBreak c = false ∧ isBlank c = false ∧ c ≠ '/' := by
  have hne : ∀ d : Char, isWordChar d = false → d ≠ '.' → c ≠ d := by
    rintro d hd hdot rfl
    rcases h with h | h
    · rw [hd] at h
      cases h
    · exact hdot h
  refine ⟨?_, ?_, hne '/' rfl (by decide)⟩
  · simp [isBreak, hne '\r' rfl (by decide), hne '\n' rfl (by decide)]
  · simp [isBlank, hne ' ' rfl (by decide), hne '\t' rfl (by decide),
      hne '\x0c' rfl (by decide), hne '\x0b' rfl (by decide)]

theorem runsOn_named (name : String) (d : Char) :
    (named name).runsOn d = (isWordChar d || isQuote d && Lexeme.isEncoding name.toList) := by
  have htext := text_named name
  unfold named at htext ⊢
  split <;> simp_all [Lexeme.runsOn]

theorem isWordChar_of_isWordStart (h : isWordStart c) : isWordChar c := by
  simp only [isWordStart, isWordChar, Char.isAlphanum, Bool.or_eq_true] at h ⊢
  exact h.imp_left .inl

theorem not_digit_of_isWordStart (h : isWordStart c) : c.isDigit = false ∧ c ≠ '.' := by
  constructor
  · cases hd : c.isDigit with
    | false => rfl
    | true =>
      delta isWordStart Char.isAlpha Char.isUpper Char.isLower at h
      simp only [Char.isDigit, Bool.or_eq_true, Bool.and_eq_true, decide_eq_true_eq,
        ge_iff_le] at h hd
      rcases h with (h | h) | rfl
      · have := Nat.le_trans (UInt32.le_iff_toNat_le.mp h.1) (UInt32.le_iff_toNat_le.mp hd.2)
        simp at this
      · have := Nat.le_trans (UInt32.le_iff_toNat_le.mp h.1) (UInt32.le_iff_toNat_le.mp hd.2)
        simp at this
      · simp at hd
  · rintro rfl
    cases h

theorem ends_word (hc : isWordStart c) (hl : literalStart (c :: cs) = none) :
    Ends (word (c :: cs)).1 (word (c :: cs)).2 := by
  have hword := isWordChar_of_isWordStart hc
  have htaken : ∀ d ∈ cs.takeWhile isWordChar, isWordChar d := fun d => List.mem_takeWhile_imp
  have hstop : ∀ d ∈ (cs.dropWhile isWordChar).head?, isWordChar d = false := fun d =>
    stop_of_dropWhile
  have hread : word (c :: cs) =
      (named (String.ofList (c :: cs.takeWhile isWordChar)), cs.dropWhile isWordChar) := by
    simp [word, hword]
  rw [hread]
  constructor
  case stops =>
    intro d hd
    rw [← List.takeWhile_append_dropWhile (p := isWordChar) (l := cs),
      literalStart_word hword htaken hstop] at hl
    cases hq : isQuote d with
    | true => simp [runsOn_named, hstop d hd, hl d hd hq]
    | false => simp [runsOn_named, hstop d hd, hq]
  case reads =>
    intro _ more hm
    have hmore : ∀ d ∈ more.head?, isWordChar d = false := fun d hd => by
      have := hm d hd
      rw [runsOn_named, Bool.or_eq_false_iff] at this
      exact this.1
    refine ⟨c, cs.takeWhile isWordChar, by simp [text_named], ?_⟩
    obtain ⟨hb, hbl, hs⟩ := plain_of_isWordChar (.inl hword)
    obtain ⟨hd, hdot⟩ := not_digit_of_isWordStart hc
    have hliteral : literalStart (c :: (cs.takeWhile isWordChar ++ more)) = none := by
      refine (literalStart_word hword htaken hmore).mpr fun d hd hq => ?_
      simpa [runsOn_named, hmore d hd, hq] using hm d hd
    obtain ⟨htake, hdrop⟩ := takeWhile_append_of_stop htaken hmore
    rw [next_of_plain hb hbl hs]
    simp [code, hliteral, numberStart_of_ne hdot, hd, hc, word, hword, htake, hdrop]

theorem runsOn_number (t : String) (d : Char) : (Lexeme.number t).runsOn d = false ↔
    isWordChar d = false ∧ d ≠ '.' ∧ (t.toList.getLast?.any isExponent → d ≠ '+' ∧ d ≠ '-') := by
  cases h : t.toList.getLast?.any isExponent <;>
    simp [Lexeme.runsOn, h, and_assoc]

theorem EndsNumber.of_append {as : List Char} (h : EndsNumber (as ++ cs) rest) :
    EndsNumber cs rest := by
  induction as with
  | nil => exact h
  | cons a as ih => exact ih h.of_cons

theorem isExponent_of_isDigit (h : c.isDigit) : isExponent c = false := by
  cases he : isExponent c with
  | false => rfl
  | true =>
    simp only [isExponent, Bool.or_eq_true, decide_eq_true_eq] at he
    rcases he with ((rfl | rfl) | rfl) | rfl <;> cases h

-- A number begins with a digit, or with a point and a digit.
theorem of_numberStart {lead : List Char} (h : numberStart cs = some (lead, rest)) :
    ∃ d, d.isDigit ∧ (lead = [d] ∨ lead = ['.', d]) ∧
      ∀ more, numberStart (lead ++ more) = some (lead, more) := by
  unfold numberStart at h
  split at h
  case h_3 => cases h
  case h_1 d ds =>
    split at h <;> cases h
    case isTrue hd =>
      exact ⟨d, hd, .inr rfl, fun more => by simp [numberStart, hd]⟩
  case h_2 d ds hdot =>
    split at h <;> cases h
    case isTrue hd =>
      refine ⟨d, hd, .inl rfl, fun more => ?_⟩
      have hne : d ≠ '.' := by
        rintro rfl
        cases hd
      rw [List.singleton_append, numberStart_of_ne hne, if_pos hd]

theorem ends_number {lead : List Char} (hn : numberStart cs = some (lead, rest)) :
    Ends (number lead rest).1 (number lead rest).2 := by
  obtain ⟨d, hd, hlead, hstart⟩ := of_numberStart hn
  have ⟨hends, hread⟩ : EndsNumber (numberRun rest).1 (numberRun rest).2 ∧ _ :=
    numberRun_of_stop rfl
  constructor
  case stops =>
    intro e he
    rw [number, runsOn_number, String.toList_ofList]
    have hends : EndsNumber (lead ++ (numberRun rest).1) (numberRun rest).2 := by
      have hdigit := hends.cons (c := d) fun _ _ _ he => by
        rw [isExponent_of_isDigit hd] at he
        cases he
      rcases hlead with rfl | rfl
      · exact hdigit
      · exact hdigit.cons fun hnil => absurd hnil (List.cons_ne_nil _ _)
    exact hends e he
  case reads =>
    intro _ more hm
    have hmore : EndsNumber (lead ++ (numberRun rest).1) more := fun e he => by
      have := hm e he
      rwa [number, runsOn_number, String.toList_ofList] at this
    obtain ⟨c, front, hfront, hc⟩ : ∃ c front, lead = c :: front ∧ (isWordChar c ∨ c = '.') := by
      rcases hlead with rfl | rfl
      · exact ⟨d, [], rfl, .inl (by simp [isWordChar, Char.isAlphanum, hd])⟩
      · exact ⟨'.', [d], rfl, .inr rfl⟩
    obtain ⟨hb, hbl, hs⟩ := plain_of_isWordChar hc
    have hliteral : ∀ ds, literalStart (c :: ds) = none := by
      refine literalStart_of_plain ?_ ?_
      · rcases hc with hc | rfl
        · exact not_quote_of_isWordChar hc
        · rfl
      · rcases hlead with rfl | rfl <;> cases hfront
        · refine ⟨?_, ?_, ?_⟩ <;>
          · rintro rfl
            cases hd
        · decide
    refine ⟨c, front ++ (numberRun rest).1, by simp [number, Lexeme.text, hfront], ?_⟩
    have hbegin := hstart ((numberRun rest).1 ++ more)
    rw [next_of_plain hb hbl hs, code, hliteral, List.append_assoc, ← List.cons_append, ← hfront,
      hbegin]
    simp [number, hread more hmore.of_append]

theorem reads_punct {p : Punct} (hs : (Lexeme.punct p).isSteady)
    (hm : ∀ d ∈ more.head?, (Lexeme.punct p).runsOn d = false) : Reads (.punct p) more := by
  obtain ⟨d, ds, hchars, hd, hslash⟩ := exists_isMarkStart p hs
  have hdot : p ≠ .dot := by
    rintro rfl
    cases hs
  have hno : ∀ e ∈ more.head?, p.chars ++ [e] ∉ Punct.all.map Punct.chars := fun e he => by
    have := hm e he
    simp only [Lexeme.runsOn, Bool.or_eq_false_iff] at this
    simpa using this.1
  have hread : mark d (ds ++ more) = (.punct p, more) := by
    rw [mark, ← List.cons_append, ← hchars, Punct.lex?_chars_append hdot hno]
    simp
  have hcomment : ∀ e : Char, e = '/' ∨ e = '*' → ∀ es, d = '/' → ds ++ more = e :: es →
      False := by
    rintro e he es hd' hes
    rcases hslash hd' with ⟨rfl, rfl⟩ | rfl
    · have := hm e (by simpa using congrArg List.head? hes)
      rcases he with rfl | rfl <;> simp [Lexeme.runsOn] at this
    · rcases he with rfl | rfl <;> cases hes
  have hnext : next d (ds ++ more) = code d (ds ++ more) := by
    simp only [isMarkStart, Bool.and_eq_true, Bool.not_eq_true'] at hd
    rw [next_of_ne _ _ (hcomment '/' (.inl rfl)) (hcomment '*' (.inr rfl)), hd.1.2,
      if_neg Bool.false_ne_true]
    · rintro rfl
      cases hd.2
    · rintro rfl
      cases hd.2
  exact ⟨d, ds, by simp [Lexeme.text, Punct.text, hchars],
    by rw [hnext, code_of_isMarkStart hd, hread]⟩

theorem ends_mark (hs : (mark c cs).1.isSteady)
    (hc : ∀ d ∈ cs.head?, c = '/' → d ≠ '/' ∧ d ≠ '*') :
    Ends (mark c cs).1 (mark c cs).2 := by
  unfold mark at hs ⊢
  split at hs
  case h_2 => cases hs
  case h_1 p hp =>
    refine ⟨fun e he => ?_, fun _ more hm => reads_punct hs hm⟩
    have hcut := Punct.chars_append_drop hp
    obtain ⟨es, hes⟩ := List.head?_eq_some_iff.mp he
    dsimp only at hes
    rw [hes] at hcut
    rw [← hcut] at hp
    have hno := Punct.notMem_of_lex? hp
    have hcomment : p = .slash → e ≠ '/' ∧ e ≠ '*' := by
      rintro rfl
      cases hcut
      exact hc e rfl rfl
    cases hq : decide (p = .slash) <;> simp_all [Lexeme.runsOn]

theorem ends_code (hs : (code c cs).1.isSteady)
    (hc : ∀ d ∈ cs.head?, c = '/' → d ≠ '/' ∧ d ≠ '*') : Ends (code c cs).1 (code c cs).2 := by
  unfold code at hs ⊢
  split at hs
  case h_1 =>
    unfold literal at hs
    split at hs <;> cases hs
  case h_2 hl =>
    split at hs
    case h_1 lead rest hn => exact ends_number hn
    case h_2 hn =>
      split at hs
      case isTrue hw =>
        rw [if_pos hw]
        exact ends_word hw hl
      case isFalse hw =>
        rw [if_neg hw]
        exact ends_mark hs hc

theorem ends_next (h : (next c cs).1.isSteady) : Ends (next c cs).1 (next c cs).2 := by
  fun_cases next c cs with
  | case1 cs =>
    refine ⟨fun _ _ => by simp [Lexeme.runsOn], fun _ more _ => ?_⟩
    exact ⟨'\r', ['\n'], by simp [Lexeme.text], rfl⟩
  | case2 cs hn =>
    refine ⟨fun d hd => ?_, fun _ more hm => ⟨'\r', [], by simp [Lexeme.text], ?_⟩⟩
    · obtain ⟨ds, rfl⟩ := List.head?_eq_some_iff.mp hd
      have hd : d ≠ '\n' := fun he => hn ds (he ▸ rfl)
      simp [Lexeme.runsOn, hd]
    · rw [List.nil_append, next]
      rintro es rfl
      have := hm '\n' rfl
      simp [Lexeme.runsOn] at this
  | case3 cs =>
    refine ⟨fun _ _ => by simp [Lexeme.runsOn], fun _ more _ => ?_⟩
    exact ⟨'\n', [], by simp [Lexeme.text], rfl⟩
  | case4 cs =>
    have htaken : ∀ d ∈ (lineComment cs).1, (!isBreak d) := fun d => List.mem_takeWhile_imp
    refine ⟨fun d hd => ?_, fun _ more hm => ⟨'/', '/' :: (lineComment cs).1, ?_, ?_⟩⟩
    · have := stop_of_dropWhile hd
      simp [Lexeme.runsOn, this]
    · simp [Lexeme.text]
    · have hstop : ∀ d ∈ more.head?, (!isBreak d) = false := fun d hd => by
        simpa [Lexeme.runsOn] using hm d hd
      obtain ⟨htake, hdrop⟩ := takeWhile_append_of_stop htaken hstop
      rw [List.cons_append, next, lineComment, htake, hdrop]
  | case5 cs =>
    refine ⟨fun d _ => by simp [Lexeme.runsOn], fun hne more _ => ?_⟩
    refine ⟨'/', '*' :: (blockComment cs).1, by simp [Lexeme.text], ?_⟩
    rw [List.cons_append, next, blockComment_of_ends (hne rfl)]
  | case6 c cs _ hr hn hs hs' hb =>
    have htaken : ∀ d ∈ cs.takeWhile isBlank, isBlank d := fun d => List.mem_takeWhile_imp
    refine ⟨fun d hd => stop_of_dropWhile hd,
      fun _ more hm => ⟨c, cs.takeWhile isBlank, ?_, ?_⟩⟩
    · simp [Lexeme.text]
    · obtain ⟨htake, hdrop⟩ := takeWhile_append_of_stop htaken hm
      have hc : c ≠ '/' := by
        rintro rfl
        cases hb
      rw [next_of_ne hr hn (fun _ h => absurd h hc) (fun _ h => absurd h hc), if_pos hb, htake,
        hdrop]
  | case7 c cs _ hr hn hs hs' hb =>
    rw [next_of_ne hr hn hs hs', if_neg hb] at h
    refine ends_code h fun d hd hc => ?_
    obtain ⟨ds, rfl⟩ := List.head?_eq_some_iff.mp hd
    exact ⟨fun h => hs ds hc (h ▸ rfl), fun h => hs' ds hc (h ▸ rfl)⟩

end Lexer

end CLint
