import CLint.Comment
import CLint.Decl.Basic

namespace CLint

-- A line for the preprocessor, such as an inclusion. A backslash at its end continues it.
structure Directive where
  name : String
  span : Span
  deriving DecidableEq, Repr

-- The tokens of a file that are neither blank nor comment, divided into directives and code. The
-- continuation are those tokens at the front that belong to a directive begun before.
structure Divided where
  continuation : List Marked := []
  directives : List (Marked × List Marked) := []
  code : List Marked := []

namespace Divided

-- Is the token still on the line that the directive has reached, or on the next one behind a
-- backslash?
def continues (previous : Option Token) (line : Option Nat) (t : Token) : Bool :=
  match previous, line with
  | some p, some n => t.line = n || (p.text = "\\" && p.line = n)
  | _, _ => false

-- A directive starts with a number sign that is the first token on its line.
def begins (previous : Option Token) (t : Token) : Bool :=
  t.lexeme.isMark .hash && previous.all (·.endLine < t.line)

-- Here `line` is the line that a directive before these tokens has reached, if one is still open.
def ofMarked (previous : Option Token) (line : Option Nat) : List Marked → Divided
  | [] => {}
  | m :: ms =>
    let t := m.token
    if continues previous line t then
      let d := ofMarked (some t) (some t.line) ms
      { d with continuation := m :: d.continuation }
    else if begins previous t then
      let d := ofMarked (some t) (some t.line) ms
      { d with continuation := [], directives := (m, d.continuation) :: d.directives }
    else
      let d := ofMarked (some t) none ms
      { d with code := m :: d.code }

end Divided

namespace Directive

def nameOf (hash : Marked) : List Marked → String
  | [] => ""
  | m :: _ => if m.token.line = hash.token.line then m.token.text else ""

def ofTokens (hash : Marked) (rest : List Marked) : Directive where
  name := nameOf hash rest
  span := hash.token.span.cover (rest.getLast?.getD hash).token.span

-- The definition that a directive makes. It is that of a function if a parenthesis follows the
-- name without a blank.
def definition? (hash : Marked) (rest : List Marked) : Option (Declaration Span) :=
  match rest with
  | _ :: m :: after =>
    if nameOf hash rest = "define" && (m.token.kind = .identifier || m.token.kind = .keyword) then
      some {
        kind := .define
        name := m.token.text
        span := (ofTokens hash rest).span
        scope := .file
        isFunctionLike := after.head?.any fun p =>
          p.token.lexeme.isMark .lparen && p.token.offset = m.token.endOffset
        hasInitializer := !after.isEmpty
        comment := hash.comment }
    else none
  | _ => none

end Directive
end CLint
