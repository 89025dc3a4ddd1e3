import CLint.Proofs.Nesting
import CLint.Proofs.Reading

namespace CLint

-- The grammar of statements, without declarations of tagged types and without what is refused by
-- a compiler. It serves as the measure for the reader of code, which accepts anything.

-- An expression, as far as it matters where it ends.
structure Expr where
  lexemes : List Lexeme
  ne_nil : lexemes ≠ []
  nested : Code.isNested lexemes
  flat : ∀ l ∈ lexemes, l.breaksOff = false

namespace Expr

-- May the expression be a statement? It is not if it begins like a statement of another kind, or
-- like a label.
def standsAlone (e : Expr) : Bool :=
  match e.lexemes with
  | .keyword k :: _ => !k.startsStatement
  | .identifier _ :: .punct .colon :: _ => false
  | _ => true

def optional (e : Option Expr) : List Lexeme :=
  (e.map lexemes).getD []

end Expr

inductive CaseLabel
  | caseOf (value : Lexeme) (h : value.isIdentifier || value.isLiteral)
  | default

mutual

inductive Phrase
  | empty
  | expr (e : Expr) (h : e.standsAlone)
  | jump (word : Keyword) (h : word.isJump) (value : Option Expr)
  | block (items : List Phrase)
  | ifThen (condition : Expr) (body : Phrase)
  | ifElse (condition : Expr) (body other : Phrase)
  | whileDo (condition : Expr) (body : Phrase)
  | doWhile (body : Phrase) (condition : Expr)
  | forDo (init condition step : Option Expr) (body : Phrase)
  | switchOn (subject : Expr) (cases : List CaseGroup)

-- A label of a `switch` with the statements up to the next one.
inductive CaseGroup
  | mk (label : CaseLabel) (items : List Phrase)

end

def CaseLabel.word : CaseLabel → Keyword
  | caseOf _ _ => .caseKw
  | default => .defaultKw

-- What stands behind the word of a label.
def CaseLabel.text : CaseLabel → List Lexeme
  | caseOf value _ => [value, .punct .colon]
  | default => [.punct .colon]

def CaseLabel.lexemes (l : CaseLabel) : List Lexeme :=
  .keyword l.word :: l.text

namespace Phrase

def inParens (ls : List Lexeme) : List Lexeme :=
  .punct .lparen :: ls ++ [.punct .rparen]

def forHeader (init condition step : Option Expr) : List Lexeme :=
  Expr.optional init ++ .punct .semicolon :: Expr.optional condition ++
    .punct .semicolon :: Expr.optional step

mutual

-- The code of a phrase.
def lexemes : Phrase → List Lexeme
  | empty => [.punct .semicolon]
  | expr e _ => e.lexemes ++ [.punct .semicolon]
  | jump word _ value => .keyword word :: Expr.optional value ++ [.punct .semicolon]
  | block items => .punct .lbrace :: listLexemes items ++ [.punct .rbrace]
  | ifThen condition body => .keyword .ifKw :: inParens condition.lexemes ++ lexemes body
  | ifElse condition body other =>
    .keyword .ifKw :: inParens condition.lexemes ++ lexemes body ++ .keyword .elseKw :: lexemes other
  | whileDo condition body => .keyword .whileKw :: inParens condition.lexemes ++ lexemes body
  | doWhile body condition =>
    .keyword .doKw :: lexemes body ++ .keyword .whileKw :: inParens condition.lexemes ++
      [.punct .semicolon]
  | forDo init condition step body =>
    .keyword .forKw :: inParens (forHeader init condition step) ++ lexemes body
  | switchOn subject cases =>
    .keyword .switchKw :: inParens subject.lexemes ++ .punct .lbrace :: caseLexemes cases ++
      [.punct .rbrace]

def listLexemes : List Phrase → List Lexeme
  | [] => []
  | p :: ps => lexemes p ++ listLexemes ps

def caseLexemes : List CaseGroup → List Lexeme
  | [] => []
  | ⟨label, items⟩ :: gs => label.lexemes ++ listLexemes items ++ caseLexemes gs

end

def size (p : Phrase) : Nat :=
  p.lexemes.length

def isBlock : Phrase → Bool
  | block _ => true
  | _ => false

def isIf : Phrase → Bool
  | ifThen _ _ | ifElse _ _ _ => true
  | _ => false

-- Does a phrase end in an `if` that an `else` behind it would continue?
def endsOpen : Phrase → Bool
  | ifThen _ _ => true
  | ifElse _ _ other => endsOpen other
  | whileDo _ body | forDo _ _ _ body => endsOpen body
  | _ => false

mutual

-- Does every `else` belong to the `if` that the phrase has it with?
def isProper : Phrase → Bool
  | empty | expr _ _ | jump _ _ _ => true
  | block items => listProper items
  | ifThen _ body | whileDo _ body | doWhile body _ | forDo _ _ _ body => isProper body
  | ifElse _ body other => !endsOpen body && isProper body && isProper other
  | switchOn _ cases => casesProper cases

def listProper : List Phrase → Bool
  | [] => true
  | p :: ps => isProper p && listProper ps

def casesProper : List CaseGroup → Bool
  | [] => true
  | ⟨_, items⟩ :: gs => listProper items && casesProper gs

end

end Phrase

-- What is to be known of a control block: its kind, whether its body is in braces, and the code it
-- takes and that of its condition.
structure Shape where
  kind : ControlKind
  hasBraces : Bool
  span : Run
  condition : Option Run := none
  deriving DecidableEq, Repr

def ControlBlock.shape (b : ControlBlock Run) : Shape :=
  ⟨b.kind, b.hasBraces, b.span, b.conditionRun⟩

def Expr.run (start : Nat) (e : Expr) : Run where
  first := start
  last := start + e.lexemes.length - 1

namespace Phrase

-- A block with a condition in parentheses behind its keyword, and with a body behind that.
def headed (kind : ControlKind) (start : Nat) (condition : Option Run) (header : List Lexeme)
    (body : Phrase) : Shape where
  kind := kind
  hasBraces := body.isBlock
  span := ⟨start, start + header.length + 2 + body.size⟩
  condition := condition

-- The blocks of an `else`, of which `start` is the place, where `ss` are those of what stands
-- behind it. An `if` is merged with the `else` to one block.
def continued (start : Nat) (other : Phrase) (ss : List Shape) : List Shape :=
  match other, ss with
  | ifThen _ _, s :: ss | ifElse _ _ _, s :: ss =>
    { s with kind := .elseIf, span := ⟨start, s.span.last⟩ } :: ss
  | _, ss => ⟨.elseBlock, other.isBlock, ⟨start, start + other.size⟩, none⟩ :: ss

-- One block for each label of a `switch`, up to the last of its statements.
def caseShapes (start : Nat) : List CaseGroup → List Shape
  | [] => []
  | ⟨label, items⟩ :: gs =>
    let stop := start + label.lexemes.length + (listLexemes items).length
    ⟨if label.word = .caseKw then .caseBlock else .defaultBlock, items.head?.any isBlock,
      ⟨start, stop - 1⟩, none⟩ :: caseShapes stop gs

mutual

-- The control blocks in a phrase, of which `start` is the number of the first lexeme.
def shapes (start : Nat) : Phrase → List Shape
  | empty | expr _ _ | jump _ _ _ => []
  | block items => listShapes (start + 1) items
  | ifThen condition body =>
    headed .ifBlock start (condition.run (start + 2)) condition.lexemes body ::
      shapes (start + condition.lexemes.length + 3) body
  | ifElse condition body other =>
    let place := start + condition.lexemes.length + 3
    headed .ifBlock start (condition.run (start + 2)) condition.lexemes body ::
      shapes place body ++
        continued (place + body.size) other (shapes (place + body.size + 1) other)
  | whileDo condition body =>
    headed .whileLoop start (condition.run (start + 2)) condition.lexemes body ::
      shapes (start + condition.lexemes.length + 3) body
  | doWhile body condition =>
    let place := start + 1 + body.size
    ⟨.doLoop, body.isBlock, ⟨start, place + condition.lexemes.length + 3⟩,
      condition.run (place + 2)⟩ :: shapes (start + 1) body
  | forDo init condition step body =>
    headed .forLoop start (condition.map (Expr.run (start + (Expr.optional init).length + 3)))
        (forHeader init condition step) body ::
      shapes (start + (forHeader init condition step).length + 3) body
  | switchOn subject cases =>
    let place := start + subject.lexemes.length + 4
    ⟨.switchBlock, true, ⟨start, place + (caseLexemes cases).length⟩, subject.run (start + 2)⟩ ::
      caseShapes place cases ++ groupShapes place cases

def listShapes (start : Nat) : List Phrase → List Shape
  | [] => []
  | p :: ps => shapes start p ++ listShapes (start + p.size) ps

def groupShapes (start : Nat) : List CaseGroup → List Shape
  | [] => []
  | ⟨label, items⟩ :: gs =>
    let place := start + label.lexemes.length
    listShapes place items ++ groupShapes (place + (listLexemes items).length) gs

end

end Phrase
end CLint
