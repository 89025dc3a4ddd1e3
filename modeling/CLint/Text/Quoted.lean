import CLint.Text.Printable

namespace CLint.Text.Quoted

-- A text is quoted by apostrophes, unless it contains some and no quotation mark.
def markOf (cs : List Char) : Char :=
  if cs.contains '\'' && !cs.contains '"' then '"' else '\''

-- The digits of a code point, of which there are `width`.
def hexDigits (width n : Nat) : List Char :=
  let digits := Nat.toDigits 16 n
  List.replicate (width - digits.length) '0' ++ digits

-- A character that cannot be printed is written as its code point, in as few digits as its block
-- of code points needs.
def escapeCode (n : Nat) : List Char :=
  if n < 0x100 then '\\' :: 'x' :: hexDigits 2 n
  else if n < 0x10000 then '\\' :: 'u' :: hexDigits 4 n
  else '\\' :: 'U' :: hexDigits 8 n

def escapeChar (mark c : Char) : List Char :=
  if c = mark || c = '\\' then ['\\', c]
  else if c = '\n' then ['\\', 'n']
  else if c = '\r' then ['\\', 'r']
  else if c = '\t' then ['\\', 't']
  else if isPrintable c then [c]
  else escapeCode c.toNat

def quote (s : String) : String :=
  let mark := markOf s.toList
  String.ofList (mark :: s.toList.flatMap (escapeChar mark) ++ [mark])

def list (items : List String) : String :=
  "[" ++ ", ".intercalate items ++ "]"

def texts (ss : List String) : String :=
  list (ss.map quote)

end CLint.Text.Quoted
