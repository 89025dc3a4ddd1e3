import CLint.Cut
import CLint.Numeral.Basic

namespace CLint.Toml

open Cut

def isSpace (c : Char) : Bool :=
  c = ' ' || c = '\t'

def isGap (c : Char) : Bool :=
  isSpace c || c = '\n'

-- A text can hold every character that is not a control. Tabs are free, and line feeds are where
-- a text may have many lines.
def isFree (multi : Bool) (c : Char) : Bool :=
  (' ' ≤ c && c ≠ '\x7f') || c = '\t' || (multi && c = '\n')

-- The character with the code point that the first `n` characters are the digits of.
def codePoint (n : Nat) (cs : List Char) : Option Char :=
  let digits := cs.take n
  let code := Numeral.ofDigits 16 digits
  if digits.length = n && digits.all Numeral.isHexDigit && code.isValidChar then
    some (Char.ofNat code)
  else none

-- What the text behind a backslash stands for, and how much of it belongs to that.
def escape : List Char → Option (Char × Nat)
  | 'b' :: _ => some ('\x08', 1)
  | 't' :: _ => some ('\t', 1)
  | 'n' :: _ => some ('\n', 1)
  | 'f' :: _ => some ('\x0c', 1)
  | 'r' :: _ => some ('\r', 1)
  | '"' :: _ => some ('"', 1)
  | '\\' :: _ => some ('\\', 1)
  | 'u' :: cs => (codePoint 4 cs).map (·, 5)
  | 'U' :: cs => (codePoint 8 cs).map (·, 9)
  | _ => none

-- A backslash at the end of a line hides all up to the next character that is not a gap.
def hiddenGap (cs : List Char) : Option Nat :=
  if (cs.dropWhile isSpace).head? = some '\n' then some (cs.takeWhile isGap).length else none

-- The text up to the quotation mark that closes it, or up to three of them in a row.
def closeBasic (multi : Bool) : List Char → Option (List Char × List Char)
  | [] => none
  | '"' :: cs =>
    if !multi then some ([], cs)
    else if ['"', '"'].isPrefixOf cs then some ([], cs.drop 2)
    else (closeBasic multi cs).map (keep '"')
  | '\\' :: cs =>
    match if multi then hiddenGap cs else none with
    | some n => closeBasic multi (cs.drop n)
    | none =>
      match escape cs with
      | some (c, n) => (closeBasic multi (cs.drop n)).map (keep c)
      | none => none
  | c :: cs => if isFree multi c then (closeBasic multi cs).map (keep c) else none
termination_by cs => cs.length

theorem length_of_map_keep {c : Char} {cut : Option (List Char × List Char)}
    {text rest : List Char} {n : Nat} (h : cut.map (keep c) = some (text, rest))
    (ih : ∀ {text rest}, cut = some (text, rest) → rest.length < n) : rest.length < n := by
  obtain ⟨r, hr, hk⟩ := Option.map_eq_some_iff.mp h
  have := ih hr
  simp_all [keep]

theorem length_closeBasic {multi : Bool} {cs text rest : List Char}
    (h : closeBasic multi cs = some (text, rest)) : rest.length < cs.length := by
  fun_induction closeBasic multi cs generalizing text rest with
  | case1 => simp at h
  | case2 => cases h; simp
  | case3 =>
    cases h
    simp only [List.length_drop, List.length_cons]
    omega
  | case4 _ _ _ ih => exact Nat.lt_succ_of_lt (length_of_map_keep h ih)
  | case5 _ _ _ ih => exact Nat.lt_of_lt_of_le (ih h) (by simp; omega)
  | case6 _ _ _ _ _ ih =>
    exact Nat.lt_of_lt_of_le (length_of_map_keep h ih) (by simp; omega)
  | case7 => simp at h
  | case8 _ _ _ _ _ ih => exact Nat.lt_succ_of_lt (length_of_map_keep h ih)
  | case9 => simp at h

-- The same between apostrophes, where a backslash is a character like any other.
def closeLiteral (multi : Bool) : List Char → Option (List Char × List Char)
  | [] => none
  | '\'' :: cs =>
    if !multi then some ([], cs)
    else if ['\'', '\''].isPrefixOf cs then some ([], cs.drop 2)
    else (closeLiteral multi cs).map (keep '\'')
  | c :: cs => if isFree multi c then (closeLiteral multi cs).map (keep c) else none

theorem length_closeLiteral {multi : Bool} {cs text rest : List Char}
    (h : closeLiteral multi cs = some (text, rest)) : rest.length < cs.length := by
  fun_induction closeLiteral multi cs generalizing text rest with
  | case1 => simp at h
  | case2 => cases h; simp
  | case3 =>
    cases h
    simp only [List.length_drop, List.length_cons]
    omega
  | case4 _ _ _ ih => exact Nat.lt_succ_of_lt (length_of_map_keep h ih)
  | case5 _ _ _ _ ih => exact Nat.lt_succ_of_lt (length_of_map_keep h ih)
  | case6 => simp at h

-- Up to two more marks behind the ones that close a text of many lines belong to the text.
def withMarks (mark : Char) (cut : List Char × List Char) : List Char × List Char :=
  let n := ((cut.2.take 2).takeWhile (· = mark)).length
  (cut.1 ++ List.replicate n mark, cut.2.drop n)

theorem length_withMarks (mark : Char) (cut : List Char × List Char) :
    (withMarks mark cut).2.length ≤ cut.2.length := by
  simp [withMarks]

-- A line break that comes first in a text of many lines does not count.
def dropBreak : List Char → List Char
  | '\n' :: cs => cs
  | cs => cs

theorem length_dropBreak (cs : List Char) : (dropBreak cs).length ≤ cs.length := by
  unfold dropBreak
  split <;> simp

def quotedLine : List Char → Option (List Char × List Char)
  | '"' :: cs => closeBasic false cs
  | '\'' :: cs => closeLiteral false cs
  | _ => none

-- A text in quotation marks or apostrophes, of which there are three if it has many lines.
def quoted : List Char → Option (List Char × List Char)
  | '"' :: '"' :: '"' :: cs => (closeBasic true (dropBreak cs)).map (withMarks '"')
  | '\'' :: '\'' :: '\'' :: cs => (closeLiteral true (dropBreak cs)).map (withMarks '\'')
  | cs => quotedLine cs

theorem length_quotedLine {cs text rest : List Char} (h : quotedLine cs = some (text, rest)) :
    rest.length < cs.length := by
  unfold quotedLine at h
  split at h
  · exact Nat.lt_succ_of_lt (length_closeBasic h)
  · exact Nat.lt_succ_of_lt (length_closeLiteral h)
  · simp at h

theorem length_of_map_withMarks {mark : Char} {cut : Option (List Char × List Char)}
    {text rest : List Char} {n : Nat} (h : cut.map (withMarks mark) = some (text, rest))
    (shorter : ∀ {text rest}, cut = some (text, rest) → rest.length < n) : rest.length < n := by
  obtain ⟨r, hr, hk⟩ := Option.map_eq_some_iff.mp h
  have hm := length_withMarks mark r
  rw [hk] at hm
  exact Nat.lt_of_le_of_lt hm (shorter hr)

theorem length_quoted {cs text rest : List Char} (h : quoted cs = some (text, rest)) :
    rest.length < cs.length := by
  unfold quoted at h
  split at h
  · next cs =>
    have := length_dropBreak cs
    exact Nat.lt_of_lt_of_le (length_of_map_withMarks h length_closeBasic) (by simp; omega)
  · next cs =>
    have := length_dropBreak cs
    exact Nat.lt_of_lt_of_le (length_of_map_withMarks h length_closeLiteral) (by simp; omega)
  · exact length_quotedLine h

end CLint.Toml
