import CLint.Stmt.Site
import CLint.Token.Place

namespace CLint

-- What can be wrong with the structure of a file.
inductive Problem
  | strayBrace | openParen | openBlock | openComment
  deriving DecidableEq, Repr

namespace Problem

def message (line : Nat) : Problem → String
  | strayBrace => s!"closing brace at line {line} has no matching opening brace"
  | openParen => s!"parenthesis opened at line {line} is not closed"
  | openBlock => s!"block opened at line {line} is not closed before end of file"
  | openComment => s!"block comment opened at line {line} is not terminated"

end Problem

structure Diagnostic where
  problem : Problem
  span : Span
  deriving DecidableEq, Repr

namespace Diagnostic

def message (d : Diagnostic) : String :=
  d.problem.message d.span.start.line

end Diagnostic

namespace Site

def groupProblem (start : Nat) : Option Group → List (Problem × Nat)
  | some g => if g.isClosed then [] else [(.openParen, start)]
  | none => []

-- What is wrong with a statement by itself, and at which lexeme.
def problems (s : Site) : List (Problem × Nat) :=
  match s.stmt with
  | .stray => [(.strayBrace, s.start)]
  | .control head group _ => groupProblem (s.start + head.lexemes.length) group
  | .doWhile group _ => groupProblem (s.start + 1) group
  | _ => []

def isOpenBlock (s : Site) : Bool :=
  match s.stmt with
  | .block _ closed => !closed
  | _ => false

-- Of the blocks that are not closed only the outermost is a problem of its own.
def problemsOf (sites : List Site) : List (Problem × Nat) :=
  sites.flatMap problems ++ ((sites.find? isOpenBlock).map fun s => (.openBlock, s.start)).toList

end Site
end CLint
