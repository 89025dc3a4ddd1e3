namespace CLint

inductive NamingStyle
  | camelCase | pascalCase | upperSnake | other
  deriving DecidableEq, Repr

def NamingStyle.name : NamingStyle → String
  | camelCase => "camelCase"
  | pascalCase => "PascalCase"
  | upperSnake => "UPPER_SNAKE"
  | other => "other"

namespace Name

-- A name counts as well formed also when a line feed stands behind it.
def body (cs : List Char) : List Char :=
  if cs.getLast? = some '\n' then cs.dropLast else cs

def isUpperSnake : List Char → Bool
  | [] => false
  | c :: cs => c.isUpper && cs.all fun d => d.isUpper || d.isDigit || d = '_'

-- Does every capital letter have a small one somewhere before the next capital?
def wordsHaveSmall : List Char → Bool
  | [] => true
  | c :: cs =>
    (!c.isUpper || (cs.takeWhile (!·.isUpper)).any Char.isLower) && wordsHaveSmall cs

def isPascal : List Char → Bool
  | [] => false
  | c :: cs => c.isUpper && cs.all Char.isAlphanum && wordsHaveSmall (c :: cs)

def isCamel : List Char → Bool
  | [] => false
  | c :: cs => c.isLower && cs.all Char.isAlphanum

def styleOf (cs : List Char) : NamingStyle :=
  if isUpperSnake cs then .upperSnake
  else if isPascal cs then .pascalCase
  else if isCamel cs then .camelCase
  else .other

def style (name : String) : NamingStyle :=
  styleOf (body name.toList)

-- The first word of a name whose words begin with capitals.
def firstWord (name : String) : String :=
  match name.toList with
  | [] => ""
  | c :: cs =>
    if c.isAlpha then String.ofList (c :: cs.takeWhile fun d => d.isLower || d.isDigit) else ""

-- Names such as `pBuffer`, `ppTable` and `bReady` tell the type of what they name.
def isHungarian (name : String) : Bool :=
  match name.toList with
  | c :: d :: cs =>
    (c.isLower && d.isUpper) ||
      (c = 'p' && ((d :: cs).dropWhile (· = 'p')).head?.any Char.isUpper)
  | _ => false

end Name
end CLint
