import CLint.Decl.Declarator

namespace CLint

-- The declarations that one statement makes together. A batch may be empty, and that of an
-- enumeration has the run of its braces as its region.
structure Batch where
  declarations : List (Declaration Run)
  region : Option Run := none

namespace Batch

-- An enumerator is given by its name and what follows up to the next comma.
def enumerator? (s : Stretch) : Option (Declaration Run) :=
  match s.lexemes with
  | .identifier name :: _ =>
    some {
      kind := .field
      name := name
      span := s.run
      scope := .member
      container := some .enumKw
      hasInitializer := s.lexemes.any (·.isMark .assign) }
  | _ => none

def enumerators (b : TagBody) : Batch where
  declarations := (b.inner.parts .comma).filterMap enumerator?
  region := some b.run

def kindOf (scope : Scope) (d : Specifiers) (declarator : Declarator) : DeclKind :=
  if d.isTypedef then .typedef
  else if declarator.list.isSome then .function
  else if scope = .member then .field
  else .var

-- The declaration that a declarator makes, of which `first` is the first lexeme.
def declaration (container : Option Keyword) (scope : Scope) (d : Specifiers) (first : Nat)
    (declarator : Declarator) : Declaration Run where
  kind := kindOf scope d declarator
  name := declarator.head.name
  span := ⟨first, declarator.code.last⟩
  scope := scope
  typeText := d.typeText declarator.head.stars
  parameters := declarator.parameters
  storage := d.storageTexts
  container := container
  isConst := d.isConst
  isPointer := 0 < declarator.head.stars
  isArray := declarator.isArray
  hasInitializer := declarator.hasInitializer

-- The first declarator brings the specifiers with it.
def declared (container : Option Keyword) (scope : Scope) (s : Stretch) (d : Specifiers) :
    Batch where
  declarations :=
    match Declarator.readAll d.rest with
    | [] => []
    | first :: others =>
      declaration container scope d s.start first ::
        others.map fun o => declaration container scope d o.code.start o

-- All that a declaration declares: first what is in the body of its tagged type, then its own
-- names. Code that names no type declares nothing.
def ofDeclaration (container : Option Keyword) (scope : Scope) (s : Stretch) : List Batch :=
  match _h : Specifiers.read? s with
  | none => []
  | some d =>
    let inner :=
      match _hb : d.body with
      | none => []
      | some b =>
        if b.tag = .enumKw then [enumerators b]
        else
          (b.inner.parts .semicolon).attach.flatMap fun ⟨member, _⟩ =>
            ofDeclaration (some b.tag) .member member
    inner ++ [declared container scope s d]
termination_by s.lexemes.length
decreasing_by
  exact Nat.lt_of_le_of_lt (Stretch.length_of_mem_parts (by assumption))
    (Specifiers.length_body_lt _h _hb)

-- A function definition has a parameter list that ends its header.
def definesFunction (header : Stretch) : Bool :=
  match (Specifiers.read? header).bind fun d => (Declarator.readAll d.rest).head? with
  | some first => (first.list.map (·.close)) = some header.last
  | none => false

-- What a function definition declares, of which `body` is the run of its block.
def ofFunction (header : Stretch) (body : Run) : List Batch :=
  match Specifiers.read? header with
  | none => []
  | some d =>
    match Declarator.readAll d.rest with
    | [] => []
    | first :: _ =>
      [{ declarations := [{
          kind := .function
          name := first.head.name
          span := ⟨header.start, body.last⟩
          scope := .file
          typeText := d.typeText first.head.stars
          parameters := first.parameters
          storage := d.storageTexts
          isDefinition := true
          isConst := d.isConst
          isPointer := 0 < first.head.stars
          body := some body
          bodyRun := some body }] }]

end Batch
end CLint
