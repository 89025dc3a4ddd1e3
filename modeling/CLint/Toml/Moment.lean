import CLint.Date
import CLint.Numeral.Basic

namespace CLint.Toml

-- The number that the first `n` characters are the digits of, if it is within the bounds.
def digits? (n low high : Nat) (cs : List Char) : Option Nat :=
  let ds := cs.take n
  let value := Numeral.ofDigits 10 ds
  if ds.length = n && ds.all Char.isDigit && low ≤ value && value ≤ high then some value
  else none

-- A date takes ten characters.
def date? (cs : List Char) : Option Date :=
  match digits? 4 0 9999 cs, cs.drop 4 with
  | some year, '-' :: cs =>
    match digits? 2 1 12 cs, cs.drop 2 with
    | some month, '-' :: cs => (digits? 2 1 31 cs).map (⟨year, month, ·⟩)
    | _, _ => none
  | _, _ => none

-- How many characters a fraction of a second takes.
def fractionLength : List Char → Nat
  | '.' :: cs =>
    match (cs.takeWhile Char.isDigit).length with
    | 0 => 0
    | n => n + 1
  | _ => 0

-- Do an hour and a minute begin some text?
def clock? (cs : List Char) : Bool :=
  match digits? 2 0 23 cs, cs.drop 2 with
  | some _, ':' :: cs => (digits? 2 0 59 cs).isSome
  | _, _ => false

-- How many characters a time takes that begins some text.
def timeLength (cs : List Char) : Option Nat :=
  match clock? cs, cs.drop 5 with
  | true, ':' :: cs => (digits? 2 0 59 cs).map fun _ => 8 + fractionLength (cs.drop 2)
  | _, _ => none

-- How many characters the distance from universal time takes.
def offsetLength : List Char → Nat
  | c :: cs =>
    if c = 'Z' || c = 'z' then 1
    else if (c = '+' || c = '-') && clock? cs then 6
    else 0
  | [] => 0

-- How many characters belong to the time that follows a date, if one follows.
def timeOfDayLength : List Char → Nat
  | c :: cs =>
    if c = 'T' || c = 't' || c = ' ' then
      match timeLength cs with
      | some n => 1 + n + offsetLength (cs.drop n)
      | none => 0
    else 0
  | [] => 0

-- How many characters belong to the point in time that begins some text, and whether there is
-- such a point.
def moment? (cs : List Char) : Option (Nat × Bool) :=
  match date? cs with
  | some d => some (10 + timeOfDayLength (cs.drop 10), d.isReal)
  | none => (timeLength cs).map (·, true)

end CLint.Toml
