import CLint.Numeral.Basic
import CLint.Text.Blank

namespace CLint

-- What is wrong with the words on a command line.
inductive UsageError
  | noCommand
  | unknownCommand (name : String)
  | unknownOption (name : String)
  | missingValue (name : String)
  | unwantedValue (name : String)
  | unwantedWord (word : String)
  | missingPaths
  | notInt (word : String)
  deriving DecidableEq, Repr

namespace UsageError

def message : UsageError → String
  | noCommand => "Missing command."
  | unknownCommand name => s!"No such command '{name}'."
  | unknownOption name => s!"No such option: {name}"
  | missingValue name => s!"Option '{name}' requires an argument."
  | unwantedValue name => s!"Option '{name}' does not take a value."
  | unwantedWord word => s!"Got unexpected extra argument ({word})"
  | missingPaths => "Missing argument 'PATHS...'."
  | notInt word => s!"'{word}' is not a valid integer."

end UsageError

-- The options that a command knows, those that take a value and those that do not.
structure OptionNames where
  valued : List String
  plain : List String := []

-- The words on a command line: options with their values, options without, and the others.
structure Arguments where
  values : List (String × String) := []
  flags : List String := []
  words : List String := []
  deriving DecidableEq, Repr

namespace Arguments

def addValue (name value : String) (a : Arguments) : Arguments :=
  { a with values := (name, value) :: a.values }

def addFlags (names : List String) (a : Arguments) : Arguments :=
  { a with flags := names ++ a.flags }

def addWords (words : List String) (a : Arguments) : Arguments :=
  { a with words := words ++ a.words }

-- The name of an option, and the value behind an equals sign in the same word.
def splitOption (word : String) : String × Option String :=
  let cs := word.toList
  let name := String.ofList (cs.takeWhile (· ≠ '='))
  match cs.dropWhile (· ≠ '=') with
  | [] => (name, none)
  | _ :: value => (name, some (String.ofList value))

-- Several options of one letter may share a dash.
def shortOptions (word : String) : List String :=
  (word.toList.drop 1).map fun c => String.ofList ['-', c]

-- Options and other words may come in any order. Behind two dashes nothing is an option, and a
-- single one is no option either.
def read (names : OptionNames) : List String → Except UsageError Arguments
  | [] => .ok {}
  | word :: rest =>
    if word = "--" then .ok { words := rest }
    else if ['-', '-'].isPrefixOf word.toList then
      let (name, value) := splitOption word
      if names.valued.contains name then
        match value, rest with
        | some value, rest => (read names rest).map (addValue name value)
        | none, value :: rest => (read names rest).map (addValue name value)
        | none, [] => .error (.missingValue name)
      else if names.plain.contains name then
        if value.isSome then .error (.unwantedValue name)
        else (read names rest).map (addFlags [name])
      else .error (.unknownOption name)
    else if ['-'].isPrefixOf word.toList && word ≠ "-" then
      match (shortOptions word).find? (!names.plain.contains ·) with
      | some unknown => .error (.unknownOption unknown)
      | none => (read names rest).map (addFlags (shortOptions word))
    else (read names rest).map (addWords [word])

-- All values of an option, in the order in which they are given.
def all (a : Arguments) (name : String) : List String :=
  (a.values.filter (·.1 = name)).map (·.2)

-- Of several values the last one counts.
def last? (a : Arguments) (name : String) : Option String :=
  (a.all name).getLast?

def noWords (a : Arguments) : Except UsageError Unit :=
  match a.words with
  | [] => .ok ()
  | word :: _ => .error (.unwantedWord word)

-- A fraction that is zero does not keep a number from being an integer.
def dropZeroFraction (cs : List Char) : List Char :=
  match cs.dropWhile (· ≠ '.') with
  | _ :: zeros => if zeros.all (· = '0') then cs.takeWhile (· ≠ '.') else cs
  | [] => cs

-- Single underscores may separate digits.
def digits? (cs : List Char) : Option Nat :=
  let groups := Text.fields (· = '_') cs
  let digits := groups.flatten
  if groups.all (· ≠ []) && digits.all Char.isDigit && digits.length ≤ Numeral.digitLimit then
    some (Numeral.ofDigits 10 digits)
  else none

-- Zeros at the front do not count, nor do underscores among them, but a number does not end with
-- one.
def natural? (cs : List Char) : Option Nat :=
  if cs.head? ≠ some '0' then digits? cs
  else
    match cs.dropWhile fun c => c = '0' || c = '_' with
    | [] => if cs.getLast? = some '0' then some 0 else none
    | ds => digits? ds

def integer? : List Char → Option Int
  | '-' :: cs => (natural? cs).map fun n => -(n : Int)
  | '+' :: cs => (natural? cs).map Int.ofNat
  | cs => (natural? cs).map Int.ofNat

def int (word : String) : Except UsageError Int :=
  match integer? (dropZeroFraction (Text.strip word.toList)) with
  | some n => .ok n
  | none => .error (.notInt word)

end Arguments
end CLint
