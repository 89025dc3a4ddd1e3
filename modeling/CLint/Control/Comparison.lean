import CLint.Control.Basic
import CLint.Name

namespace CLint

namespace Lexeme

def isComparison : Lexeme → Bool
  | punct p => p.isComparison
  | _ => false

-- No operand of a comparison reaches beyond one of these, unless that is enclosed.
def isOperandBoundary : Lexeme → Bool
  | punct p =>
    p.isComparison || p.isAssignment ||
      p ∈ [Punct.andAnd, .orOr, .comma, .question, .colon, .semicolon, .lbrace, .rbrace]
  | _ => false

end Lexeme

namespace Operand

-- The lexemes at the front that belong to one operand. To find the operand on the left of an
-- operator, the code is read backwards and the brackets change their parts.
def extent (opens closes : Lexeme → Bool) (depth : Nat) : List Lexeme → List Lexeme
  | [] => []
  | l :: ls =>
    if opens l then l :: extent opens closes (depth + 1) ls
    else if closes l then
      match depth with
      | 0 => []
      | depth + 1 => l :: extent opens closes depth ls
    else if depth = 0 && l.isOperandBoundary then []
    else l :: extent opens closes depth ls

def forward : List Lexeme → List Lexeme :=
  extent Lexeme.isOpener Lexeme.isCloser 0

def backward : List Lexeme → List Lexeme :=
  extent Lexeme.isCloser Lexeme.isOpener 0

def hasCall : List Lexeme → Bool
  | .identifier _ :: .punct .lparen :: _ => true
  | _ :: ls => hasCall ls
  | [] => false

def names (ls : List Lexeme) : List String :=
  ls.filterMap fun
    | .identifier name => some name
    | _ => none

-- Names that are constants in every program.
def knownConstants : List String :=
  ["NULL", "TRUE", "FALSE", "true", "false"]

def isConstant (constants : List String) (name : String) : Bool :=
  knownConstants.contains name || constants.contains name || Name.style name = .upperSnake

-- What a list of lexemes is as an operand, where `constants` are the names that the file defines.
def kindOf (constants : List String) (ls : List Lexeme) : OperandKind :=
  if ls.any (·.isWord .sizeofKw) || hasCall ls then .other
  else if (names ls).isEmpty then
    if ls.any Lexeme.isLiteral then .literal else .other
  else if (names ls).all (isConstant constants) then .constant
  else .variableName

end Operand

namespace Comparison

-- The comparison by the operator that has the number `place`, where `before` is what precedes it,
-- read backwards, and `after` what follows.
def of? (constants : List String) (place : Nat) (before : List Lexeme) (operator : Lexeme)
    (after : List Lexeme) : Option (Comparison Run) :=
  match operator with
  | .punct p =>
    let left := Operand.backward before
    let right := Operand.forward after
    if p.isComparison && !left.isEmpty && !right.isEmpty then
      let first := place - left.length
      let last := place + right.length
      some {
        left := ⟨Operand.kindOf constants left.reverse, ⟨first, place - 1⟩⟩
        operator := p
        right := ⟨Operand.kindOf constants right, ⟨place + 1, last⟩⟩
        span := ⟨first, last⟩ }
    else none
  | _ => none

def listFrom (constants : List String) (place : Nat) (before : List Lexeme) :
    List Lexeme → List (Comparison Run)
  | [] => []
  | l :: ls =>
    (of? constants place before l ls).toList ++ listFrom constants (place + 1) (l :: before) ls

-- All comparisons in a condition, in order.
def listOf (constants : List String) (condition : Stretch) : List (Comparison Run) :=
  listFrom constants condition.start [] condition.lexemes

end Comparison
end CLint
