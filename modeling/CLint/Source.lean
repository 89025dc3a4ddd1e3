import CLint.Token.Lexer
import CLint.Token.Place

namespace CLint

structure Token where
  lexeme : Lexeme
  span : Span
  deriving DecidableEq, Repr

instance : Inhabited Token := ⟨⟨.stray ' ', default⟩⟩

namespace Token

def kind (t : Token) : LexemeKind :=
  t.lexeme.kind

def text (t : Token) : String :=
  t.lexeme.text

def line (t : Token) : Nat :=
  t.span.start.line

def column (t : Token) : Nat :=
  t.span.start.column

def offset (t : Token) : Nat :=
  t.span.start.offset

def endLine (t : Token) : Nat :=
  t.span.stop.line

def endColumn (t : Token) : Nat :=
  t.span.stop.column

def endOffset (t : Token) : Nat :=
  t.span.stop.offset

end Token

-- A file to be checked: where it is, what it says, and what it consists of.
structure Source where
  path : String
  text : String
  tokens : List Token
  lines : List String
  deriving Inhabited

namespace Source

-- Each lexeme at its place, where the first one starts at `p`.
def placed (p : Place) : List Lexeme → List Token
  | [] => []
  | l :: ls =>
    let cs := l.text.toList
    let after := ls.head?.bind (·.text.toList.head?)
    ⟨l, ⟨p, (p.last cs).right⟩⟩ :: placed (p.advance cs after) ls

def splitLines : List Char → List (List Char)
  | [] => [[]]
  | '\r' :: '\n' :: cs => [] :: splitLines cs
  | '\r' :: cs => [] :: splitLines cs
  | '\n' :: cs => [] :: splitLines cs
  | c :: cs =>
    match splitLines cs with
    | [] => [[c]]
    | l :: ls => (c :: l) :: ls

def ofText (path text : String) : Source where
  path := path
  text := text
  tokens := placed .origin (Lexer.lexemes text.toList)
  lines := (splitLines text.toList).map String.ofList

-- The line of the given number, or nothing where the file has no such line.
def lineText (s : Source) : Nat → String
  | 0 => ""
  | n + 1 => (s.lines[n]?).getD ""

def slice (s : Source) (span : Span) : String :=
  String.ofList ((s.text.toList.drop span.start.offset).take
    (span.stop.offset - span.start.offset))

end Source
end CLint
