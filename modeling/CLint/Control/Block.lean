import CLint.Control.Comparison
import CLint.Stmt.Site

namespace CLint

-- A label of a switch with the statements up to the next label.
structure Section where
  label : Site
  isDefault : Bool
  items : List Site

namespace Section

-- The items before the first label, and the sections from there on.
def split : List Site → List Site × List Section
  | [] => ([], [])
  | s :: ss =>
    let r := split ss
    match s.stmt with
    | .label (.keyword k) _ =>
      if Stmt.isCaseWord k then ([], ⟨s, k = .defaultKw, r.1⟩ :: r.2) else (s :: r.1, r.2)
    | _ => (s :: r.1, r.2)

def stop (s : Section) : Nat :=
  (s.items.getLast?.map Site.stop).getD s.label.stop

def body? (s : Section) : Option Run :=
  s.items.head?.map fun first => ⟨first.start, s.stop - 1⟩

def endsWithJump (s : Section) : Bool :=
  s.items.getLast?.any (·.stmt.jumps)

-- A comment that announces the fall through stands at the end of the clause. It is known by the
-- number of lexemes before it.
def clause (announced : List Nat) (s : Section) : Clause Run where
  isDefault := s.isDefault
  label := s.label.run
  isEmpty := s.items.isEmpty
  endsWithJump := s.endsWithJump
  hasFallthroughComment := !s.items.isEmpty && !s.endsWithJump && announced.contains s.stop

def block (s : Section) : ControlBlock Run where
  kind := if s.isDefault then .defaultBlock else .caseBlock
  span := ⟨s.label.start, s.stop - 1⟩
  keyword := ⟨s.label.start, s.label.start⟩
  hasBraces := s.items.head?.any (·.stmt.isBlock)
  body := s.body?

end Section

namespace Head

def kind : Head → ControlKind
  | ifHead => .ifBlock
  | elseIf => .elseIf
  | elseHead | loneElse => .elseBlock
  | switchHead => .switchBlock
  | forHead => .forLoop
  | whileHead => .whileLoop
  | doHead => .doLoop

end Head

namespace Group

-- The content of a group at its place, where `start` is that of its parenthesis.
def contentAt (start : Nat) (g : Group) : Stretch :=
  ⟨start + 1, g.content⟩

-- The pieces of the header of a `for`, between its semicolons.
def pieces (start : Nat) (g : Group) : List Stretch :=
  (g.contentAt start).cut Lexeme.nestingFlat .semicolon

-- A header with less than two semicolons is taken for a condition as a whole.
def forCondition (start : Nat) (g : Group) : Stretch :=
  match g.pieces start with
  | _ :: condition :: _ :: _ => condition
  | _ => g.contentAt start

def forInit? (start : Nat) (g : Group) : Option Stretch :=
  match g.pieces start with
  | init :: _ :: _ => some init
  | _ => none

end Group

namespace Control

-- The group that holds the condition, with the number of its parenthesis.
def conditionGroup? (start : Nat) (head : Head) (group : Option Group) (parts : List Stmt) :
    Option (Nat × Group) :=
  match head, parts with
  | .doHead, [body, .doWhile (some g) _] => some (start + head.lexemes.length + body.size + 1, g)
  | _, _ => group.map (start + head.lexemes.length, ·)

def condition? (start : Nat) (head : Head) (group : Option Group) (parts : List Stmt) :
    Option Stretch :=
  (conditionGroup? start head group parts).map fun (at', g) =>
    if head = .forHead then g.forCondition at' else g.contentAt at'

-- A `do` reaches to the end of its `while`, all others only to the end of their body.
def stop (start : Nat) (head : Head) (group : Option Group) (parts : List Stmt) : Nat :=
  let owned := if head = .doHead then parts else parts.take 1
  Stmt.partsStart start head group + Stmt.listSize owned

def sections (start : Nat) (head : Head) (group : Option Group) (parts : List Stmt) :
    List Section :=
  match head, parts with
  | .switchHead, .block items _ :: _ =>
    (Section.split (Site.placed (Stmt.partsStart start head group + 1) items)).2
  | _, _ => []

end Control

namespace Site

-- The control blocks that a statement is by itself: one for a control statement, and one more for
-- each clause of a switch.
def controlBlocks (constants : List String) (announced : List Nat) (s : Site) :
    List (ControlBlock Run) :=
  match s.stmt with
  | .control head group parts =>
    let condition := Control.condition? s.start head group parts
    let sections := Control.sections s.start head group parts
    let body := (placed (Stmt.partsStart s.start head group) (parts.take 1)).head?
    { kind := head.kind
      span := ⟨s.start, Control.stop s.start head group parts - 1⟩
      keyword := ⟨s.start, s.start + head.lexemes.length - 1⟩
      hasBraces := body.any (·.stmt.isBlock)
      condition := condition.bind Stretch.run?
      conditionRun := condition.bind Stretch.run?
      comparisons := (condition.map (Comparison.listOf constants)).getD []
      body := body.map run
      clauses := sections.map (·.clause announced) } :: sections.map Section.block
  | _ => []

-- What a statement by itself declares.
def batches (s : Site) : List Batch :=
  match s.stmt with
  | .simple atFile first text _ =>
    Batch.ofDeclaration none (if atFile then .file else .block) ⟨s.start, first :: text⟩
  | .control .forHead (some g) _ =>
    match g.forInit? (s.start + 1) with
    | some init => Batch.ofDeclaration none .block init
    | none => []
  | .function header body =>
    Batch.ofFunction ⟨s.start, header⟩ ⟨s.start + header.length, s.start + header.length + body.size - 1⟩
  | _ => []

end Site
end CLint
