import CLint.Code.Stretch

namespace CLint

inductive ControlKind
  | ifBlock | elseIf | elseBlock | switchBlock | caseBlock | defaultBlock | forLoop | whileLoop
  | doLoop
  deriving DecidableEq, Repr

namespace ControlKind

def name : ControlKind → String
  | ifBlock => "if"
  | elseIf => "else-if"
  | elseBlock => "else"
  | switchBlock => "switch"
  | caseBlock => "case"
  | defaultBlock => "default"
  | forLoop => "for"
  | whileLoop => "while"
  | doLoop => "do"

def isLoop : ControlKind → Bool
  | forLoop | whileLoop | doLoop => true
  | _ => false

end ControlKind

inductive OperandKind
  | literal | constant | variableName | other
  deriving DecidableEq, Repr

def OperandKind.name : OperandKind → String
  | literal => "literal"
  | constant => "constant"
  | variableName => "variable"
  | other => "other"

-- The records below are about code that is located by an `σ`: first by a run of lexemes, in the
-- end by a span of text.

structure Operand (σ : Type) where
  kind : OperandKind
  span : σ
  deriving DecidableEq, Repr

structure Comparison (σ : Type) where
  left : Operand σ
  operator : Punct
  right : Operand σ
  span : σ
  deriving DecidableEq, Repr

-- A clause of a switch is a label with the statements up to the next label.
structure Clause (σ : Type) where
  isDefault : Bool
  label : σ
  isEmpty : Bool
  endsWithJump : Bool
  hasFallthroughComment : Bool
  deriving DecidableEq, Repr

structure ControlBlock (σ : Type) where
  kind : ControlKind
  span : σ
  keyword : σ
  hasBraces : Bool
  condition : Option σ := none
  conditionRun : Option Run := none
  comparisons : List (Comparison σ) := []
  body : Option σ := none
  clauses : List (Clause σ) := []
  deriving DecidableEq, Repr

variable {σ τ : Type}

namespace Operand

def map (f : σ → τ) (o : Operand σ) : Operand τ where
  kind := o.kind
  span := f o.span

end Operand

namespace Comparison

def map (f : σ → τ) (c : Comparison σ) : Comparison τ where
  left := c.left.map f
  operator := c.operator
  right := c.right.map f
  span := f c.span

end Comparison

namespace Clause

def map (f : σ → τ) (c : Clause σ) : Clause τ where
  isDefault := c.isDefault
  label := f c.label
  isEmpty := c.isEmpty
  endsWithJump := c.endsWithJump
  hasFallthroughComment := c.hasFallthroughComment

def kind (c : Clause σ) : ControlKind :=
  if c.isDefault then .defaultBlock else .caseBlock

-- Is it clear that no statement of the clause runs on into the next clause unawares?
def terminated (c : Clause σ) : Bool :=
  c.isEmpty || c.endsWithJump || c.hasFallthroughComment

end Clause

namespace ControlBlock

def map (f : σ → τ) (b : ControlBlock σ) : ControlBlock τ where
  kind := b.kind
  span := f b.span
  keyword := f b.keyword
  hasBraces := b.hasBraces
  condition := b.condition.map f
  conditionRun := b.conditionRun
  comparisons := b.comparisons.map (·.map f)
  body := b.body.map f
  clauses := b.clauses.map (·.map f)

def hasDefault (b : ControlBlock σ) : Bool :=
  b.clauses.any (·.isDefault)

end ControlBlock
end CLint
