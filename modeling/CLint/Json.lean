namespace CLint

-- What a report for programs is made of.
inductive JsonValue
  | null
  | bool (b : Bool)
  | num (n : Int)
  | str (s : String)
  | arr (items : List JsonValue)
  | obj (members : List (String × JsonValue))
  deriving Repr

namespace JsonValue

-- Members are written in the order of their names.
def object (members : List (String × JsonValue)) : JsonValue :=
  obj (members.mergeSort fun a b => a.1 ≤ b.1)

def strings (ss : List String) : JsonValue :=
  arr (ss.map str)

def ofOption {α : Type} (f : α → JsonValue) : Option α → JsonValue
  | some a => f a
  | none => null

def hex (n : Nat) : List Char :=
  ([n / 4096, n / 256 % 16, n / 16 % 16, n % 16]).map Nat.digitChar

def unicodeEscape (n : Nat) : List Char :=
  '\\' :: 'u' :: hex n

-- Only printable characters of ASCII stand for themselves. A character of more than 16 bits is
-- written as two units.
def escapeChar (c : Char) : List Char :=
  if c = '"' then ['\\', '"']
  else if c = '\\' then ['\\', '\\']
  else if c = '\n' then ['\\', 'n']
  else if c = '\r' then ['\\', 'r']
  else if c = '\t' then ['\\', 't']
  else if c = '\x08' then ['\\', 'b']
  else if c = '\x0c' then ['\\', 'f']
  else if ' ' ≤ c && c ≤ '~' then [c]
  else if c.toNat < 0x10000 then unicodeEscape c.toNat
  else
    let n := c.toNat - 0x10000
    unicodeEscape (0xd800 + n / 0x400) ++ unicodeEscape (0xdc00 + n % 0x400)

def quote (s : String) : String :=
  String.ofList ('"' :: s.toList.flatMap escapeChar ++ ['"'])

def enclose (left right : Char) (parts : List String) : String :=
  left.toString ++ ", ".intercalate parts ++ right.toString

mutual

def render : JsonValue → String
  | null => "null"
  | bool true => "true"
  | bool false => "false"
  | num n => toString n
  | str s => quote s
  | arr items => enclose '[' ']' (renderItems items)
  | obj members => enclose '{' '}' (renderMembers members)

def renderItems : List JsonValue → List String
  | [] => []
  | j :: js => render j :: renderItems js

def renderMembers : List (String × JsonValue) → List String
  | [] => []
  | (name, j) :: js => (quote name ++ ": " ++ render j) :: renderMembers js

end

end JsonValue
end CLint
