import CLint.Rule.Basic

namespace CLint.Rule

def conditionTokens (o : Outline) (b : ControlBlock Span) : List Token :=
  match b.conditionRun with
  | none => []
  | some r => (o.code.extract r.first (r.last + 1)).toList

-- How many parentheses are opened and not closed, less those that are closed and not opened.
def balance (ts : List Token) : Int :=
  ts.countP (·.lexeme.isMark .lparen) - ts.countP (·.lexeme.isMark .rparen)

-- A term of which the parentheses do not match has some that belong to the terms around it.
def dropOpening : List Token → List Token
  | [] => []
  | t :: ts => if t.lexeme.isMark .lparen && 0 < balance (t :: ts) then dropOpening ts else t :: ts

def dropClosing (ts : List Token) : List Token :=
  go ts.reverse
where
  go : List Token → List Token
    | [] => []
    | t :: ts =>
      if t.lexeme.isMark .rparen && balance (t :: ts) < 0 then go ts else (t :: ts).reverse

-- Is the first parenthesis closed by the last one, where `depth` are open?
def wraps (depth : Int) : List Token → Bool
  | [] => true
  | t :: ts =>
    if t.lexeme.isMark .lparen then wraps (depth + 1) ts
    else if t.lexeme.isMark .rparen then
      (depth - 1 ≠ 0 || ts.isEmpty) && wraps (depth - 1) ts
    else wraps depth ts

def isWrapped (ts : List Token) : Bool :=
  match ts with
  | [] => false
  | first :: others =>
    2 < ts.length && first.lexeme.isMark .lparen &&
      others.getLast?.any (·.lexeme.isMark .rparen) && balance others.dropLast = 0 && wraps 0 ts

def unwrap (ts : List Token) : List Token :=
  if isWrapped ts then unwrap (ts.drop 1).dropLast else ts
termination_by ts.length
decreasing_by
  rename_i h
  have : 2 < ts.length := by
    unfold isWrapped at h
    split at h
    · cases h
    · simp at h
      simp
      omega
  simp
  omega

def isLogical (t : Token) : Bool :=
  t.lexeme.isMark .andAnd || t.lexeme.isMark .orOr

-- The parts of a condition between its logical operators.
def logicalParts : List Token → List (List Token)
  | [] => [[]]
  | t :: ts =>
    if isLogical t then [] :: logicalParts ts
    else
      match logicalParts ts with
      | [] => [[t]]
      | p :: ps => (t :: p) :: ps

-- The terms of a condition without the parentheses that only group them.
def terms (ts : List Token) : List (List Token) :=
  ((logicalParts ts).map fun p => unwrap (dropClosing (dropOpening p))).filter (!·.isEmpty)

def isComparisonToken (t : Token) : Bool :=
  match t.lexeme with
  | .punct p => p.isComparison
  | _ => false

def isConstantToken (t : Token) : Bool :=
  t.lexeme.isLiteral || (t.lexeme.isIdentifier && Name.style t.text = .upperSnake)

def termRemark (o : Outline) (term : List Token) : Option Remark :=
  match term with
  | [] => none
  | first :: others =>
    if term.any isComparisonToken then none
    else
      let span := first.span.cover (others.getLast?.getD first).span
      let text := o.slice span
      some (.onSpan span s!"condition '{text}' must be an explicit comparison"
        "Compare against a constant, e.g. 'TRUE == flag'.")

def negationRemark (o : Outline) (c : Comparison Span) (operand : Operand Span) : Option Remark :=
  let text := o.slice operand.span
  if ['!'].isPrefixOf text.toList then
    some (.onSpan c.span s!"negated operand '{text}' in comparison"
      "Compare the value directly instead of negating it.")
  else none

def isTested : ControlKind → Bool
  | .ifBlock | .elseIf | .whileLoop | .doLoop => true
  | _ => false

def booleanRemarks (o : Outline) (b : ControlBlock Span) : List Remark :=
  let ts := conditionTokens o b
  if !isTested b.kind || b.conditionRun.isNone || (ts.length = 1 && ts.all isConstantToken) then []
  else
    (terms ts).filterMap (termRemark o) ++
      b.comparisons.flatMap fun c =>
        (negationRemark o c c.left).toList ++ (negationRemark o c c.right).toList

def explicitBooleanTest : Rule where
  id := "explicit-boolean-test"
  title := "ExplicitBooleanTestRule"
  description :=
    "Conditions compare explicitly, e.g. \x60\x60TRUE == isReady\x60\x60 rather than \x60\x60isReady\x60\x60."
  packs := [.control]
  check _ o := .ok (o.blocks.flatMap (booleanRemarks o))

def changesValue (t : Token) : Bool :=
  match t.lexeme with
  | .punct p => p.isAssignment || p = .inc || p = .dec
  | _ => false

def assignmentRemarks (o : Outline) (b : ControlBlock Span) : List Remark :=
  ((conditionTokens o b).filter changesValue).map fun t =>
    .onSpan t.span s!"'{t.text}' used inside a {b.kind.name} condition"
      "Perform the update in its own statement before the test."

def assignmentInCondition : Rule where
  id := "assignment-in-condition"
  title := "AssignmentInConditionRule"
  description := "Conditions must not assign, increment or decrement."
  strictness := .mustNot
  packs := [.control]
  check _ o := .ok (o.blocks.flatMap (assignmentRemarks o))

end CLint.Rule
