import CLint.Text.Blank
import CLint.Text.Lowercase

namespace CLint.Name

open Text

-- A word also ends before a capital letter that a small letter or a digit precedes.
def spread : List Char → List Char
  | [] => []
  | [c] => [c]
  | c :: d :: cs =>
    if (c.isLower || c.isDigit) && d.isUpper then c :: ' ' :: spread (d :: cs)
    else c :: spread (d :: cs)

def separates (c : Char) : Bool :=
  c = '_' || c = '-' || isBlank c

def words (name : List Char) : List (List Char) :=
  (fields separates (spread name)).filter (!·.isEmpty)

-- Only identifiers are written with capitals, so that ASCII letters are all that matter.
def capitalize : List Char → List Char
  | [] => []
  | c :: cs => c.toUpper :: cs.map Char.toLower

def snakeCase (name : String) : String :=
  "_".intercalate ((words name.toList).map fun w => String.ofList (lowerChars w))

def upperSnakeCase (name : String) : String :=
  String.ofList ((snakeCase name).toList.map Char.toUpper)

-- A name without any word stays as it is.
def camelCase (name : String) : String :=
  match words name.toList with
  | [] => name
  | w :: ws => String.ofList (lowerChars w ++ ws.flatMap capitalize)

def pascalCase (name : String) : String :=
  String.ofList ((words name.toList).flatMap capitalize)

end CLint.Name
