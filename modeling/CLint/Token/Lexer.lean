import CLint.Cut
import CLint.Token.Lexeme

namespace CLint.Lexer

open Cut

def isBreak (c : Char) : Bool :=
  c = '\r' || c = '\n'

def isBlank (c : Char) : Bool :=
  c = ' ' || c = '\t' || c = '\x0c' || c = '\x0b'

def isQuote (c : Char) : Bool :=
  c = '"' || c = '\''

def isWordStart (c : Char) : Bool :=
  c.isAlpha || c = '_'

def isWordChar (c : Char) : Bool :=
  c.isAlphanum || c = '_'

-- Each reader below cuts its text in two, what it takes and what it leaves.

def lineComment (cs : List Char) : List Char × List Char :=
  (cs.takeWhile (!isBreak ·), cs.dropWhile (!isBreak ·))

theorem lineComment_append (cs : List Char) : (lineComment cs).1 ++ (lineComment cs).2 = cs :=
  List.takeWhile_append_dropWhile

-- The text after `/*`, up to the nearest `*/` or else to the end.
def blockComment : List Char → List Char × List Char
  | [] => ([], [])
  | '*' :: '/' :: cs => (['*', '/'], cs)
  | c :: cs => keep c (blockComment cs)

theorem blockComment_append (cs : List Char) : (blockComment cs).1 ++ (blockComment cs).2 = cs := by
  fun_induction blockComment cs with
  | case1 => rfl
  | case2 => rfl
  | case3 _ _ _ ih => simp [ih]

-- The text after an opening quote up to its closing one. A backslash takes the next character
-- with it, whatever that is; a line break that is not taken in this way ends the search.
def closeQuote (quote : Char) : List Char → Option (List Char × List Char)
  | [] => none
  | c :: cs =>
    if c = quote then some ([c], cs)
    else if isBreak c then none
    else if c = '\\' then
      match cs with
      | [] => none
      | d :: ds => (closeQuote quote ds).map (keep c <| keep d ·)
    else (closeQuote quote cs).map (keep c)

theorem closeQuote_append {quote : Char} {cs taken rest : List Char}
    (h : closeQuote quote cs = some (taken, rest)) : taken ++ rest = cs := by
  fun_induction closeQuote quote cs generalizing taken rest with
  | case1 => simp at h
  | case2 =>
    cases h
    rfl
  | case3 => simp at h
  | case4 => simp at h
  | case5 _ _ _ _ ih =>
    have ⟨_, h₁, h₂⟩ := Option.map_eq_some_iff.mp h
    cases h₂
    simp [ih h₁]
  | case6 _ _ _ _ _ ih =>
    have ⟨_, h₁, h₂⟩ := Option.map_eq_some_iff.mp h
    cases h₂
    simp [ih h₁]

-- What a quote without a closing one takes with it: all up to a quote of either kind or a line
-- break, where a backslash again takes the next character with it.
def openRun : List Char → List Char × List Char
  | [] => ([], [])
  | c :: cs =>
    if isQuote c || isBreak c then ([], c :: cs)
    else if c = '\\' then
      match cs with
      | [] => ([], [c])
      | d :: ds => keep c (keep d (openRun ds))
    else keep c (openRun cs)

theorem openRun_append (cs : List Char) : (openRun cs).1 ++ (openRun cs).2 = cs := by
  fun_induction openRun cs <;> simp_all

-- What follows the first digit of a number. A sign belongs to it directly after an exponent
-- letter.
def numberRun : List Char → List Char × List Char
  | [] => ([], [])
  | [c] => if isWordChar c || c = '.' then ([c], []) else ([], [c])
  | c :: d :: cs =>
    if (c = 'e' || c = 'E' || c = 'p' || c = 'P') && (d = '+' || d = '-') then
      keep c (keep d (numberRun cs))
    else if isWordChar c || c = '.' then keep c (numberRun (d :: cs))
    else ([], c :: d :: cs)

theorem numberRun_append (cs : List Char) : (numberRun cs).1 ++ (numberRun cs).2 = cs := by
  fun_induction numberRun cs <;> simp_all

-- The encoding prefix and the quote that a literal starts with, and the text after them.
def literalStart : List Char → Option (List Char × Char × List Char)
  | 'u' :: '8' :: '"' :: cs => some (['u', '8'], '"', cs)
  | 'u' :: '8' :: '\'' :: cs => some (['u', '8'], '\'', cs)
  | c :: d :: cs =>
    if isQuote c then some ([], c, d :: cs)
    else if (c = 'u' || c = 'U' || c = 'L') && isQuote d then some ([c], d, cs)
    else none
  | [c] => if isQuote c then some ([], c, []) else none
  | [] => none

theorem literalStart_append {cs lead rest : List Char} {quote : Char}
    (h : literalStart cs = some (lead, quote, rest)) : lead ++ quote :: rest = cs := by
  unfold literalStart at h
  split at h
  case h_3 =>
    split at h
    · simp_all
    · split at h <;> cases h
      rfl
  case h_4 =>
    split at h <;> cases h
    rfl
  case h_5 => cases h
  all_goals cases h; rfl

def numberStart : List Char → Option (List Char × List Char)
  | '.' :: c :: cs => if c.isDigit then some (['.', c], cs) else none
  | c :: cs => if c.isDigit then some ([c], cs) else none
  | [] => none

theorem numberStart_append {cs lead rest : List Char}
    (h : numberStart cs = some (lead, rest)) : lead ++ rest = cs := by
  unfold numberStart at h
  split at h
  case h_3 => cases h
  all_goals
    split at h <;> cases h
    rfl

-- A string or character literal, or the open quote that one is without its closing quote.
def literal (lead : List Char) (quote : Char) (cs : List Char) : Lexeme × List Char :=
  match closeQuote quote cs with
  | some (taken, rest) => (.quoted (String.ofList (lead ++ quote :: taken)), rest)
  | none => (.openQuote (String.ofList (lead ++ quote :: (openRun cs).1)), (openRun cs).2)

def number (lead cs : List Char) : Lexeme × List Char :=
  (.number (String.ofList (lead ++ (numberRun cs).1)), (numberRun cs).2)

def named (name : String) : Lexeme :=
  match Keyword.ofText? name with
  | some k => .keyword k
  | none => .identifier name

theorem text_named (name : String) : (named name).text = name := by
  unfold named
  split
  case h_1 h => exact Keyword.text_of_ofText? h
  case h_2 => rfl

def word (cs : List Char) : Lexeme × List Char :=
  (named (String.ofList (cs.takeWhile isWordChar)), cs.dropWhile isWordChar)

def mark (c : Char) (cs : List Char) : Lexeme × List Char :=
  match Punct.lex? (c :: cs) with
  | some p => (.punct p, (c :: cs).drop p.chars.length)
  | none => (.stray c, cs)

-- All that neither a line break, nor a blank, nor a comment begins.
def code (c : Char) (cs : List Char) : Lexeme × List Char :=
  match literalStart (c :: cs) with
  | some (lead, quote, rest) => literal lead quote rest
  | none =>
    match numberStart (c :: cs) with
    | some (lead, rest) => number lead rest
    | none => if isWordStart c then word (c :: cs) else mark c cs

-- The lexeme at the front of a text, and the text after it.
def next : Char → List Char → Lexeme × List Char
  | '\r', '\n' :: cs => (.newline (String.ofList ['\r', '\n']), cs)
  | '\r', cs => (.newline (String.ofList ['\r']), cs)
  | '\n', cs => (.newline (String.ofList ['\n']), cs)
  | '/', '/' :: cs =>
    (.comment (String.ofList ('/' :: '/' :: (lineComment cs).1)), (lineComment cs).2)
  | '/', '*' :: cs =>
    (.comment (String.ofList ('/' :: '*' :: (blockComment cs).1)), (blockComment cs).2)
  | c, cs =>
    if isBlank c then
      (.blank (String.ofList (c :: cs.takeWhile isBlank)), cs.dropWhile isBlank)
    else code c cs

theorem literal_append (lead : List Char) (quote : Char) (cs : List Char) :
    (literal lead quote cs).1.text.toList ++ (literal lead quote cs).2 = lead ++ quote :: cs := by
  unfold literal
  split
  case h_1 h => simp [Lexeme.text, closeQuote_append h]
  case h_2 => simp [Lexeme.text, openRun_append]

theorem number_append (lead cs : List Char) :
    (number lead cs).1.text.toList ++ (number lead cs).2 = lead ++ cs := by
  simp [number, Lexeme.text, numberRun_append]

theorem word_append (cs : List Char) : (word cs).1.text.toList ++ (word cs).2 = cs := by
  simp [word, text_named]

theorem mark_append (c : Char) (cs : List Char) :
    (mark c cs).1.text.toList ++ (mark c cs).2 = c :: cs := by
  unfold mark
  split
  case h_1 h => simpa [Lexeme.text, Punct.text] using Punct.chars_append_drop h
  case h_2 => simp [Lexeme.text]

theorem code_append (c : Char) (cs : List Char) :
    (code c cs).1.text.toList ++ (code c cs).2 = c :: cs := by
  unfold code
  split
  case h_1 h => rw [literal_append, literalStart_append h]
  case h_2 =>
    split
    case h_1 h => rw [number_append, numberStart_append h]
    case h_2 =>
      split
      · exact word_append _
      · exact mark_append _ _

theorem literal_text_ne_nil (lead : List Char) (quote : Char) (cs : List Char) :
    (literal lead quote cs).1.text.toList ≠ [] := by
  unfold literal
  split <;> simp [Lexeme.text]

theorem number_text_ne_nil {cs lead rest : List Char} (h : numberStart cs = some (lead, rest)) :
    (number lead rest).1.text.toList ≠ [] := by
  unfold numberStart at h
  split at h
  case h_3 => cases h
  all_goals
    split at h <;> cases h
    simp [number, Lexeme.text]

theorem word_text_ne_nil {c : Char} (h : isWordStart c) (cs : List Char) :
    (word (c :: cs)).1.text.toList ≠ [] := by
  have hc : isWordChar c := by
    simp only [isWordStart, isWordChar, Char.isAlphanum, Bool.or_eq_true] at h ⊢
    exact h.imp_left .inl
  simp [word, text_named, hc]

theorem mark_text_ne_nil (c : Char) (cs : List Char) : (mark c cs).1.text.toList ≠ [] := by
  unfold mark
  split
  case h_1 p _ => simp [Lexeme.text, Punct.text, p.chars_ne_nil]
  case h_2 => simp [Lexeme.text]

theorem code_text_ne_nil (c : Char) (cs : List Char) : (code c cs).1.text.toList ≠ [] := by
  unfold code
  split
  case h_1 => exact literal_text_ne_nil _ _ _
  case h_2 =>
    split
    case h_1 h => exact number_text_ne_nil h
    case h_2 =>
      split
      case isTrue h => exact word_text_ne_nil h _
      case isFalse => exact mark_text_ne_nil _ _

theorem next_text_ne_nil (c : Char) (cs : List Char) : (next c cs).1.text.toList ≠ [] := by
  unfold next
  split
  case h_6 =>
    split
    · simp [Lexeme.text]
    · exact code_text_ne_nil _ _
  all_goals simp [Lexeme.text]

-- Nothing of the text is lost: a lexeme and what it leaves make up the text again.
theorem next_append (c : Char) (cs : List Char) :
    (next c cs).1.text.toList ++ (next c cs).2 = c :: cs := by
  unfold next
  split
  case h_1 => simp [Lexeme.text]
  case h_2 => simp [Lexeme.text]
  case h_3 => simp [Lexeme.text]
  case h_4 => simp [Lexeme.text, lineComment_append]
  case h_5 => simp [Lexeme.text, blockComment_append]
  case h_6 =>
    split
    · simp [Lexeme.text]
    · exact code_append _ _

theorem next_length (c : Char) (cs : List Char) : (next c cs).2.length ≤ cs.length := by
  have h := congrArg List.length (next_append c cs)
  have hne := next_text_ne_nil c cs
  have := List.length_pos_iff.mpr hne
  simp at h
  omega

-- The lexemes of a text, in order.
def lexemes : List Char → List Lexeme
  | [] => []
  | c :: cs => (next c cs).1 :: lexemes (next c cs).2
termination_by cs => cs.length
decreasing_by
  have := next_length c cs
  simp
  omega

theorem lexemes_nil : lexemes [] = [] := by
  rw [lexemes]

theorem lexemes_cons (c : Char) (cs : List Char) :
    lexemes (c :: cs) = (next c cs).1 :: lexemes (next c cs).2 := by
  rw [lexemes]

theorem flatMap_text_lexemes (cs : List Char) : (lexemes cs).flatMap (·.text.toList) = cs := by
  fun_induction lexemes cs with
  | case1 => rfl
  | case2 c cs ih => simp [ih, next_append]

end CLint.Lexer
