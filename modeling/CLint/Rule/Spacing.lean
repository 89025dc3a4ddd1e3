import CLint.Rule.Basic

namespace CLint.Rule

-- The star is not among the operators, since it may as well belong to a declarator.
def isSpacedOperator : Lexeme → Bool
  | .punct p =>
    p.isAssignment || p.isComparison ||
      p ∈ [Punct.andAnd, .orOr, .plus, .minus, .slash, .percent, .amp, .bar, .caret, .shl, .shr]
  | _ => false

def mayBeUnary (l : Lexeme) : Bool :=
  l = .punct .plus || l = .punct .minus || l = .punct .amp

-- The content of the parentheses that a text closes, which is read backwards from behind the
-- closing one, and the token before the opening one.
def enclosedBefore (depth : Nat) : List Token → Option (List Token × Option Token)
  | [] => none
  | t :: ts =>
    let more (depth : Nat) := (enclosedBefore depth ts).map fun (inner, p) => (t :: inner, p)
    if t.lexeme.isMark .rparen then more (depth + 1)
    else if t.lexeme.isMark .lparen then
      match depth with
      | 0 => some ([], ts.head?)
      | depth + 1 => more depth
    else more depth

def callsOrMeasures (t : Token) : Bool :=
  t.lexeme.isIdentifier || t.lexeme.isMark .rparen || t.lexeme.isWord .sizeofKw

def looksLikeType (ts : List Token) : Bool :=
  (ts.all fun t => t.kind = .identifier || t.kind = .keyword || t.lexeme.isMark .star) &&
    ts.any fun t =>
      match t.lexeme with
      | .keyword k => k.isBasicType
      | .identifier name => ['_', 't'].isSuffixOf name.toList
      | _ => false

-- Is the closing parenthesis, behind which the text is read backwards, the end of a cast?
def closesCast (before : List Token) : Bool :=
  match enclosedBefore 0 before with
  | none => false
  | some (inner, p) => !p.any callsOrMeasures && looksLikeType inner

-- An operator is binary behind an operand, where the tokens before it are listed backwards.
def isBinary (operator : Lexeme) : List Token → Bool
  | [] => false
  | p :: ps =>
    p.kind = .identifier || p.kind = .literal || p.lexeme.isMark .rbracket ||
      (p.lexeme.isMark .rparen && !(mayBeUnary operator && closesCast ps))

def isSpaced (p t n : Token) : Bool :=
  p.endOffset < t.offset && t.endOffset < n.offset

-- The tokens before are listed backwards. Neither the first nor the last token of a file is
-- looked at.
def operatorRemarks (before : List Token) : List Token → List Remark
  | [] => []
  | t :: ts =>
    let found :=
      match before, ts with
      | p :: _, n :: _ =>
        if isSpacedOperator t.lexeme && isBinary t.lexeme before && !isSpaced p t n then
          [Remark.onSpan t.span s!"operator '{t.text}' must be surrounded by spaces"
            s!"Write 'a {t.text} b'."]
        else []
      | _, _ => []
    found ++ operatorRemarks (t :: before) ts

def spaceAroundOperators : Rule where
  id := "space-around-operators"
  title := "SpaceAroundOperatorsRule"
  description := "Binary and assignment operators have a space on both sides."
  packs := [.whitespace]
  check _ o := .ok (operatorRemarks [] o.code.toList)

-- The tokens behind an opening parenthesis up to the one that closes it, and that one. Braces end
-- the search.
def enclosedAfter (depth : Nat) : List Token → Option (List Token × Token)
  | [] => none
  | t :: ts =>
    let more (depth : Nat) := (enclosedAfter depth ts).map fun (inner, c) => (t :: inner, c)
    if t.lexeme.isMark .lparen then more (depth + 1)
    else if t.lexeme.isMark .rparen then
      match depth with
      | 0 => some ([], t)
      | depth + 1 => more depth
    else if t.lexeme.isMark .lbrace || t.lexeme.isMark .rbrace then none
    else more depth

def testsCondition (l : Lexeme) : Bool :=
  l.isWord .ifKw || l.isWord .whileKw || l.isWord .forKw || l.isWord .switchKw

def conditionSpaceRemark (keyword opener : Token) (after : List Token) : Option Remark :=
  match enclosedAfter 0 after with
  | some (first :: others, closer) =>
    let last := others.getLast?.getD first
    if opener.endOffset < first.offset && last.endOffset < closer.offset then none
    else some (.onSpan (opener.span.cover closer.span)
      s!"'{keyword.text}' condition needs a space inside its parentheses"
      s!"Write '{keyword.text}( condition )'.")
  | _ => none

def conditionSpaceRemarks : List Token → List Remark
  | [] => []
  | t :: ts =>
    let found :=
      match ts with
      | opener :: after =>
        if testsCondition t.lexeme && opener.lexeme.isMark .lparen then
          conditionSpaceRemark t opener after
        else none
      | [] => none
    found.toList ++ conditionSpaceRemarks ts

def spaceInsideParentheses : Rule where
  id := "space-inside-parentheses"
  title := "SpaceInsideParenthesesRule"
  description := "Control statement conditions are written as \x60\x60if( condition )\x60\x60."
  packs := [.whitespace]
  check _ o := .ok (conditionSpaceRemarks o.code.toList)

def isEmptyPair (t n : Token) : Bool :=
  (t.lexeme.isMark .lparen && n.lexeme.isMark .rparen) ||
    (t.lexeme.isMark .lbracket && n.lexeme.isMark .rbracket)

def emptyPairRemarks : List Token → List Remark
  | t :: n :: ts =>
    let found :=
      if isEmptyPair t n && n.offset ≠ t.endOffset then
        let pair := t.text ++ n.text
        [Remark.onSpan (t.span.cover n.span) s!"empty '{pair}' must not contain spaces"
          s!"Write '{pair}'."]
      else []
    found ++ emptyPairRemarks (n :: ts)
  | _ => []

def emptyParentheses : Rule where
  id := "empty-parentheses"
  title := "EmptyParenthesesRule"
  description :=
    "Empty parentheses and brackets hold no spaces: \x60\x60()\x60\x60 and \x60\x60[]\x60\x60."
  packs := [.whitespace]
  check _ o := .ok (emptyPairRemarks o.code.toList)

end CLint.Rule
