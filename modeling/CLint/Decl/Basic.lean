import CLint.Code.Stretch
import CLint.Name

namespace CLint

inductive DeclKind
  | var | define | typedef | function | field
  deriving DecidableEq, Repr

def DeclKind.name : DeclKind → String
  | var => "variable"
  | define => "macro"
  | typedef => "typedef"
  | function => "function"
  | field => "field"

-- Where a declaration stands: outside of all functions, in a block, or in a tagged type.
inductive Scope
  | file | block | member
  deriving DecidableEq, Repr

def Scope.name : Scope → String
  | file => "file"
  | block => "local"
  | member => "member"

-- The records of this module are about code that is located by an `σ`: first by a run of
-- lexemes, in the end by a span of text.

-- A parameter that a prototype leaves without a name has the empty one.
structure Parameter (σ : Type) where
  name : String
  typeText : String
  span : σ
  deriving DecidableEq, Repr

namespace Parameter

variable {σ τ : Type}

def naming (p : Parameter σ) : NamingStyle :=
  Name.style p.name

def map (f : σ → τ) (p : Parameter σ) : Parameter τ where
  name := p.name
  typeText := p.typeText
  span := f p.span

end Parameter

structure Declaration (σ : Type) where
  kind : DeclKind
  name : String
  span : σ
  scope : Scope
  typeText : String := ""
  parameters : List (Parameter σ) := []
  storage : List String := []
  container : Option Keyword := none
  isDefinition : Bool := false
  isConst : Bool := false
  isPointer : Bool := false
  isArray : Bool := false
  isFunctionLike : Bool := false
  hasInitializer : Bool := false
  body : Option σ := none
  bodyRun : Option Run := none
  comment : Option Nat := none
  group : Nat := 0
  deriving DecidableEq, Repr

namespace Declaration

variable {σ τ : Type}

def naming (d : Declaration σ) : NamingStyle :=
  Name.style d.name

def map (f : σ → τ) (d : Declaration σ) : Declaration τ where
  kind := d.kind
  name := d.name
  span := f d.span
  scope := d.scope
  typeText := d.typeText
  parameters := d.parameters.map (·.map f)
  storage := d.storage
  container := d.container
  isDefinition := d.isDefinition
  isConst := d.isConst
  isPointer := d.isPointer
  isArray := d.isArray
  isFunctionLike := d.isFunctionLike
  hasInitializer := d.hasInitializer
  body := d.body.map f
  bodyRun := d.bodyRun
  comment := d.comment
  group := d.group

def isEnumerator (d : Declaration σ) : Bool :=
  d.container = some .enumKw

end Declaration
end CLint
