import CLint.Numeral.Basic

namespace CLint.Toml

mutual

-- The length of the longest run of digits in which single underscores may separate them.
def runLength (p : Char → Bool) : List Char → Nat
  | c :: cs => if p c then 1 + tailLength p cs else 0
  | [] => 0

def tailLength (p : Char → Bool) : List Char → Nat
  | '_' :: c :: cs => if p c then 2 + tailLength p cs else 0
  | c :: cs => if p c then 1 + tailLength p cs else 0
  | [] => 0

end

def signLength : List Char → Nat
  | c :: _ => if c = '+' || c = '-' then 1 else 0
  | [] => 0

-- A decimal integer does not begin with a zero, unless it is zero.
def wholeLength : List Char → Nat
  | '0' :: _ => 1
  | cs => runLength Char.isDigit cs

def fractionPartLength : List Char → Nat
  | '.' :: cs =>
    match runLength Char.isDigit cs with
    | 0 => 0
    | n => n + 1
  | _ => 0

def exponentPartLength : List Char → Nat
  | c :: cs =>
    if c = 'e' || c = 'E' then
      let sign := signLength cs
      match runLength Char.isDigit (cs.drop sign) with
      | 0 => 0
      | n => 1 + sign + n
    else 0
  | [] => 0

inductive Number
  | whole (n : Int)
  | overlong (digitCount : Nat)
  | decimal
  deriving DecidableEq, Repr

def wholeNumber (cs : List Char) : Number :=
  let digits := cs.filter Char.isDigit
  if Numeral.digitLimit < digits.length then .overlong digits.length
  else
    let n := Numeral.ofDigits 10 digits
    .whole (if cs.head? = some '-' then -n else n)

-- A number that begins some text, and how many characters it takes.
def decimal? (cs : List Char) : Option (Number × Nat) :=
  let sign := signLength cs
  match wholeLength (cs.drop sign) with
  | 0 => none
  | n =>
    let fraction := fractionPartLength (cs.drop (sign + n))
    let exponent := exponentPartLength (cs.drop (sign + n + fraction))
    if fraction + exponent = 0 then some (wholeNumber (cs.take (sign + n)), sign + n)
    else some (.decimal, sign + n + fraction + exponent)

def radix? (c : Char) : Option (Nat × (Char → Bool)) :=
  if c = 'x' then some (16, Numeral.isHexDigit)
  else if c = 'o' then some (8, Numeral.isOctalDigit)
  else if c = 'b' then some (2, Numeral.isBinaryDigit)
  else none

-- An integer of another base is not signed.
def based? : List Char → Option (Number × Nat)
  | '0' :: c :: cs =>
    match radix? c with
    | some (base, p) =>
      match runLength p cs with
      | 0 => none
      | n => some (.whole (Numeral.ofDigits base ((cs.take n).filter (· ≠ '_'))), n + 2)
    | none => none
  | _ => none

-- Some numbers are words.
def word? (cs : List Char) : Option (Number × Nat) :=
  let sign := signLength cs
  if ["inf", "nan"].contains (String.ofList ((cs.drop sign).take 3)) then
    some (.decimal, sign + 3)
  else none

def number? (cs : List Char) : Option (Number × Nat) :=
  ((based? cs).orElse fun _ => decimal? cs).orElse fun _ => word? cs

end CLint.Toml
