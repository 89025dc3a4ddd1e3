import CLint.Decl.Specifier

namespace CLint

-- The front of a declarator: its stars, its name with the number of that lexeme, and the code
-- behind it. Parentheses around the name, as in a pointer to a function, are part of the front.
structure DeclaratorHead where
  name : String
  nameAt : Nat
  stars : Nat
  parenthesized : Bool
  rest : Stretch

namespace DeclaratorHead

def isPointerPart (l : Lexeme) : Bool :=
  l.isMark .star || l.isQualifier

def starCount (ls : List Lexeme) : Nat :=
  ls.countP (·.isMark .star)

-- The first identifier of a stretch with its number.
def firstName? (s : Stretch) : Option (String × Nat) :=
  match s.lexemes.dropWhile (!·.isIdentifier) with
  | .identifier name :: _ =>
    some (name, s.start + (s.lexemes.takeWhile (!·.isIdentifier)).length)
  | _ => none

def read? (s : Stretch) : Option DeclaratorHead :=
  let lead := s.lexemes.takeWhile isPointerPart
  let s := s.drop lead.length
  match s.lexemes with
  | .punct .lparen :: ls =>
    let e := Enclosed.inBrackets ls
    (firstName? ⟨s.start + 1, e.inner⟩).map fun (name, nameAt) =>
      ⟨name, nameAt, starCount lead + starCount (e.inner.takeWhile (!·.isIdentifier)), true,
        s.drop e.size⟩
  | .identifier name :: _ => some ⟨name, s.start, starCount lead, false, s.drop 1⟩
  | _ => none

-- The head of the first declarator in a list of declarators.
def first? (s : Stretch) : Option DeclaratorHead :=
  (s.parts .comma).findSome? read?

end DeclaratorHead

namespace Parameter

def read (s : Stretch) : Parameter Run :=
  match (Specifiers.read? s).bind (DeclaratorHead.first? ·.rest) with
  | some head => ⟨head.name, Lexeme.spaced (s.lexemes.take (head.nameAt - s.start)), s.run⟩
  | none => ⟨"", Lexeme.spaced s.lexemes, s.run⟩

def isPlaceholder (s : Stretch) : Bool :=
  s.lexemes = [.keyword .voidKw] || s.lexemes = [.punct .ellipsis]

-- The parameters between two parentheses, where a lone `void` and an ellipsis are none.
def readAll (s : Stretch) : List (Parameter Run) :=
  ((s.parts .comma).filter (!isPlaceholder ·)).map read

end Parameter

-- The parameter list of a declarator, and the number of the lexeme that ends it.
structure ParameterList where
  parameters : List (Parameter Run)
  close : Nat

structure Declarator where
  code : Stretch
  head : DeclaratorHead
  list : Option ParameterList
  isArray : Bool
  hasInitializer : Bool

namespace Declarator

def list? (head : DeclaratorHead) : Option (ParameterList × Stretch) :=
  match head.parenthesized, head.rest.lexemes with
  | false, .punct .lparen :: ls =>
    let e := Enclosed.inBrackets ls
    some (⟨Parameter.readAll ⟨head.rest.start + 1, e.inner⟩, head.rest.start + e.size - 1⟩,
      head.rest.drop e.size)
  | _, _ => none

-- What the code behind a name says of it. Dimensions only count before the initializer.
structure Suffix where
  isArray : Bool := false
  hasInitializer : Bool := false

def suffix (depth : Int) (acc : Suffix) : List Lexeme → Suffix
  | [] => acc
  | .punct .lparen :: ls | .punct .lbrace :: ls => suffix (depth + 1) acc ls
  | .punct .rparen :: ls | .punct .rbrace :: ls => suffix (depth - 1) acc ls
  | .punct .lbracket :: ls =>
    suffix depth
      (if depth = 0 && !acc.hasInitializer then { acc with isArray := true } else acc) ls
  | .punct .assign :: ls =>
    suffix depth (if depth = 0 then { acc with hasInitializer := true } else acc) ls
  | _ :: ls => suffix depth acc ls

def read? (s : Stretch) : Option Declarator :=
  (DeclaratorHead.read? s).map fun head =>
    let found := list? head
    let rest := (found.map (·.2)).getD head.rest
    let suffix := suffix 0 {} rest.lexemes
    ⟨s, head, found.map (·.1), suffix.isArray, suffix.hasInitializer⟩

def readAll (s : Stretch) : List Declarator :=
  (s.parts .comma).filterMap read?

def parameters (d : Declarator) : List (Parameter Run) :=
  (d.list.map ParameterList.parameters).getD []

end Declarator
end CLint
