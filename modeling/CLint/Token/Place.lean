namespace CLint

-- A place in a text. Lines and columns are counted from one, the offset from zero.
structure Place where
  line : Nat
  column : Nat
  offset : Nat
  deriving DecidableEq, Repr

namespace Place

def origin : Place where
  line := 1
  column := 1
  offset := 0

instance : Inhabited Place := ⟨origin⟩

-- A line ends after a line feed and after a carriage return that no line feed follows.
def endsLine (c : Char) (next : Option Char) : Bool :=
  c = '\n' || (c = '\r' && next ≠ some '\n')

def newLine (p : Place) : Place where
  line := p.line + 1
  column := 1
  offset := p.offset + 1

def right (p : Place) : Place where
  line := p.line
  column := p.column + 1
  offset := p.offset + 1

-- The place after a character, for which the character behind that one matters.
def step (p : Place) (c : Char) (next : Option Char) : Place :=
  if endsLine c next then p.newLine else p.right

-- The place after a stretch of text that `after` follows.
def advance (p : Place) : List Char → Option Char → Place
  | [], _ => p
  | [c], after => p.step c after
  | c :: d :: cs, after => (p.step c (some d)).advance (d :: cs) after

-- The place of the last character of a stretch of text.
def last (p : Place) : List Char → Place
  | [] | [_] => p
  | c :: d :: cs => (p.step c (some d)).last (d :: cs)

end Place

-- A span of text begins at `start`. The place `stop` is the one to the right of its last
-- character, on the same line as that character even if it ends the line.
structure Span where
  start : Place
  stop : Place
  deriving DecidableEq, Repr, Inhabited

namespace Span

def cover (a b : Span) : Span where
  start := a.start
  stop := b.stop

end Span
end CLint
