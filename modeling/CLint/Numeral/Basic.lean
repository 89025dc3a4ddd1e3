import CLint.Numeral.Binary64

namespace CLint

-- The value of a number as it is written in C.
inductive Numeral
  | whole (n : Nat)
  | floating (x : Binary64)
  deriving DecidableEq, Repr

namespace Numeral

def digitValue (c : Char) : Nat :=
  if c.isDigit then c.toNat - '0'.toNat
  else if c.isLower then c.toNat - 'a'.toNat + 10
  else c.toNat - 'A'.toNat + 10

def isHexDigit (c : Char) : Bool :=
  c.isDigit || ('a' ≤ c && c ≤ 'f') || ('A' ≤ c && c ≤ 'F')

def isOctalDigit (c : Char) : Bool :=
  '0' ≤ c && c ≤ '7'

def isBinaryDigit (c : Char) : Bool :=
  c = '0' || c = '1'

def ofDigits (base : Nat) (cs : List Char) : Nat :=
  cs.foldl (fun n c => n * base + digitValue c) 0

-- How many digits a decimal integer may have.
def digitLimit : Nat :=
  4300

def overlongMessage (count : Nat) : String :=
  s!"Exceeds the limit ({digitLimit} digits) for integer string conversion: value has {count} digits; use sys.set_int_max_str_digits() to increase the limit"

-- An integer is only written if it has no more digits than one that is read may have.
def isWritable (n : Int) : Bool :=
  n.natAbs < Nat.pow 10 digitLimit

def unwritableMessage : String :=
  s!"Exceeds the limit ({digitLimit} digits) for integer string conversion; use sys.set_int_max_str_digits() to increase the limit"

def isIntegerSuffix (c : Char) : Bool :=
  c = 'u' || c = 'U' || c = 'l' || c = 'L'

def isFloatSuffix (c : Char) : Bool :=
  c = 'f' || c = 'F' || c = 'l' || c = 'L'

-- A text without the characters at its end that `p` holds of.
def dropEnd (p : Char → Bool) (cs : List Char) : List Char :=
  (cs.reverse.dropWhile p).reverse

-- The base and the digits of an integer without its suffix.
def integerDigits? : List Char → Option (Nat × List Char)
  | '0' :: cs =>
    match cs with
    | [] => some (8, [])
    | c :: ds =>
      if c = 'x' || c = 'X' then
        if ds ≠ [] && ds.all isHexDigit then some (16, ds) else none
      else if c = 'b' || c = 'B' then
        if ds ≠ [] && ds.all isBinaryDigit then some (2, ds) else none
      else if (c :: ds).all isOctalDigit then some (8, c :: ds)
      else none
  | c :: cs => if c.isDigit && cs.all Char.isDigit then some (10, c :: cs) else none
  | [] => none

def integer? (cs : List Char) : Option (Nat × List Char) :=
  integerDigits? (dropEnd isIntegerSuffix cs)

-- The exponent of a decimal fraction, which is zero if none is written.
def exponent? : List Char → Option Int
  | [] => some 0
  | c :: cs =>
    if c = 'e' || c = 'E' then
      match cs with
      | '-' :: ds => (digits? ds).map fun n => -(n : Int)
      | '+' :: ds => (digits? ds).map Int.ofNat
      | ds => (digits? ds).map Int.ofNat
    else none
where
  digits? (ds : List Char) : Option Nat :=
    if ds ≠ [] && ds.all Char.isDigit then some (ofDigits 10 ds) else none

-- A decimal fraction, as its digits and the exponent of the last one. There are digits behind the
-- point, unless the point is the last character.
def fraction? (cs : List Char) : Option (Nat × Int) :=
  let whole := cs.takeWhile Char.isDigit
  match cs.dropWhile Char.isDigit with
  | '.' :: rest =>
    let part := rest.takeWhile Char.isDigit
    if part = [] then
      if whole ≠ [] && rest = [] then some (ofDigits 10 whole, 0) else none
    else
      (exponent? (rest.dropWhile Char.isDigit)).map fun e =>
        (ofDigits 10 (whole ++ part), e - part.length)
  | rest =>
    if whole = [] then none else (exponent? rest).map fun e => (ofDigits 10 whole, e)

-- A floating number has at most one letter as its suffix.
def floating? (cs : List Char) : Option Binary64 :=
  let core := if cs.getLast?.any isFloatSuffix then cs.dropLast else cs
  (fraction? core).map fun (digits, exponent) => Binary64.ofDecimal digits exponent

-- Does a number, or its opposite, have the given value?
def hasValue (negated : Bool) (x : Numeral) (a : Int) : Bool :=
  let opposite : Int := if negated then -a else a
  0 ≤ opposite &&
    match x with
    | whole n => n = opposite.toNat
    | floating x => x.equalsNat opposite.toNat

end Numeral
end CLint
