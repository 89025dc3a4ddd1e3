import CLint.Stmt.Read

namespace CLint

-- A statement with the number of its first lexeme.
structure Site where
  start : Nat
  stmt : Stmt

namespace Site

-- The number of the lexeme behind the statement.
def stop (s : Site) : Nat :=
  s.start + s.stmt.size

def run (s : Site) : Run where
  first := s.start
  last := s.stop - 1

-- Statements that follow one another, from a given number on.
def placed (start : Nat) : List Stmt → List Site
  | [] => []
  | s :: ss => ⟨start, s⟩ :: placed (start + s.size) ss

end Site

namespace Stmt

-- Where the parts of a control statement start.
def partsStart (start : Nat) (head : Head) (group : Option Group) : Nat :=
  start + head.lexemes.length + (groupLexemes group).length

mutual

-- A statement and all statements in it, each before what it contains. Only a function definition
-- comes after what it contains.
def sites (start : Nat) : Stmt → List Site
  | function header body =>
    sites (start + header.length) body ++ [⟨start, function header body⟩]
  | block items closed => ⟨start, block items closed⟩ :: listSites (start + 1) items
  | control head group parts =>
    ⟨start, control head group parts⟩ :: listSites (partsStart start head group) parts
  | s => [⟨start, s⟩]

def listSites (start : Nat) : List Stmt → List Site
  | [] => []
  | s :: ss => sites start s ++ listSites (start + s.size) ss

end

end Stmt
end CLint
