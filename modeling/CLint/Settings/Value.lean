import CLint.Json
import CLint.Numeral.Basic

namespace CLint

-- What a document of settings says. Numbers with a fraction and points in time are kept as they
-- are written, since no setting is one.
inductive Value
  | null
  | bool (b : Bool)
  | int (n : Int)
  | decimal (written : String)
  | moment (written : String)
  | text (s : String)
  | list (items : List Value)
  | table (entries : List (String × Value))
  deriving Repr

-- The entries of a table, each under its key.
abbrev Table :=
  List (String × Value)

namespace Value

def texts (ss : List String) : Value :=
  list (ss.map text)

def ints (ns : List Int) : Value :=
  list (ns.map int)

mutual

def toJson : Value → JsonValue
  | null => .null
  | bool b => .bool b
  | int n => .num n
  | decimal written => .str written
  | moment written => .str written
  | text s => .str s
  | list items => .arr (itemsToJson items)
  | table entries => .object (entriesToJson entries)

def itemsToJson : List Value → List JsonValue
  | [] => []
  | v :: vs => toJson v :: itemsToJson vs

def entriesToJson : List (String × Value) → List (String × JsonValue)
  | [] => []
  | (key, v) :: es => (key, toJson v) :: entriesToJson es

end

mutual

-- A value is only written out if that goes for all integers in it.
def isWritable : Value → Bool
  | int n => Numeral.isWritable n
  | list items => itemsWritable items
  | table entries => entriesWritable entries
  | null | bool _ | decimal _ | moment _ | text _ => true

def itemsWritable : List Value → Bool
  | [] => true
  | v :: vs => isWritable v && itemsWritable vs

def entriesWritable : List (String × Value) → Bool
  | [] => true
  | (_, v) :: es => isWritable v && entriesWritable es

end

end Value

namespace Table

-- An entry that is null is as good as none.
def present? (t : Table) (key : String) : Option Value :=
  match t.lookup key with
  | some .null => none
  | v => v

end Table
end CLint
