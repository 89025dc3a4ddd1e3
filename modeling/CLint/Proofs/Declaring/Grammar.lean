import CLint.Proofs.Recognition

namespace CLint

-- The grammar of declarations, as far as it matters what they declare. It serves as the measure for
-- the reader of declarations, which tells specifiers from declarators by what stands next to them.

namespace Code

-- The lexemes that are not in brackets, where `depth` brackets are open before the code.
def outer (depth : Nat) : List Lexeme → List Lexeme
  | [] => []
  | l :: ls =>
    if l.closer?.isSome then outer (depth + 1) ls
    else if l.closes then outer (depth - 1) ls
    else if depth = 0 then l :: outer depth ls
    else outer depth ls

-- The lexemes that are not in parentheses or braces, where `depth` of these are open before the
-- code. Square brackets do not count.
def bare (depth : Nat) : List Lexeme → List Lexeme
  | [] => []
  | .punct .lparen :: ls | .punct .lbrace :: ls => bare (depth + 1) ls
  | .punct .rparen :: ls | .punct .rbrace :: ls => bare (depth - 1) ls
  | l :: ls => if depth = 0 then l :: bare depth ls else bare depth ls

end Code

-- Keywords of one kind.
structure Words (p : Keyword → Bool) where
  list : List Keyword
  all : ∀ k ∈ list, p k

def Words.lexemes {p : Keyword → Bool} (w : Words p) : List Lexeme :=
  w.list.map .keyword

-- A name that is not one of the language extensions.
structure PlainName where
  text : String
  plain : Specifier.isAttributeName text = false

-- Code between two brackets.
structure Content where
  lexemes : List Lexeme
  nested : Code.isNested lexemes

-- The size of an array.
structure Dimension extends Content where
  unassigned : .punct .assign ∉ lexemes

def Dimension.code (d : Dimension) : List Lexeme :=
  .punct .lbracket :: d.lexemes ++ [.punct .rbracket]

-- The value of an initializer, or the width of a bit-field.
structure ValuePhrase extends Content where
  whole : ∀ l ∈ Code.outer 0 lexemes, l ≠ .punct .comma ∧ l ≠ .punct .semicolon

-- A value behind the mark that introduces it, if there is one.
def ValuePhrase.optional (mark : Punct) (v : Option ValuePhrase) : List Lexeme :=
  (v.map fun v => .punct mark :: v.lexemes).getD []

-- Is a mark to be seen in some code from the outside?
def ValuePhrase.shows (mark : Punct) (v : ValuePhrase) : Prop :=
  .punct mark ∈ Code.bare 0 v.lexemes

-- Either a name, with stars and qualifiers before it and what belongs to it behind it, or a pointer
-- to a function, of which the name is in parentheses.
inductive DeclaratorPhrase
  | plain (lead : List Lexeme) (h : ∀ l ∈ lead, DeclaratorHead.isPointerPart l) (name : PlainName)
      (dimensions : List Dimension) (width value : Option ValuePhrase)
  | pointer (name : PlainName) (parameters : Content)

namespace DeclaratorPhrase

def name : DeclaratorPhrase → String
  | plain _ _ name _ _ _ | pointer name _ => name.text

def width : DeclaratorPhrase → Option ValuePhrase
  | plain _ _ _ _ width _ => width
  | pointer _ _ => none

def stars : DeclaratorPhrase → Nat
  | plain lead _ _ _ _ _ => DeclaratorHead.starCount lead
  | pointer _ _ => 1

def isArray : DeclaratorPhrase → Bool
  | plain _ _ _ dimensions _ _ => !dimensions.isEmpty
  | pointer _ _ => false

def hasValue : DeclaratorPhrase → Bool
  | plain _ _ _ _ _ value => value.isSome
  | pointer _ _ => false

-- The code of a plain declarator behind its name.
def suffix (dimensions : List Dimension) (width value : Option ValuePhrase) : List Lexeme :=
  dimensions.flatMap Dimension.code ++ ValuePhrase.optional .colon width ++
    ValuePhrase.optional .assign value

def lexemes : DeclaratorPhrase → List Lexeme
  | plain lead _ name dimensions width value =>
    lead ++ .identifier name.text :: suffix dimensions width value
  | pointer name parameters =>
    Phrase.inParens [.punct .star, .identifier name.text] ++ Phrase.inParens parameters.lexemes

end DeclaratorPhrase

inductive Aggregate
  | struct | union
  deriving DecidableEq, Repr

def Aggregate.word : Aggregate → Keyword
  | struct => .structKw
  | union => .unionKw

mutual

-- The type that a declaration begins with. A `struct` or a `union` without its members and without
-- a tag is refused by a compiler, but not here.
inductive TypePhrase
  | basic (words : Words Keyword.isBasicType) (h : words.list ≠ [])
  | named (name : PlainName)
  | tagged (aggregate : Aggregate) (tag : Option String)
  | body (aggregate : Aggregate) (tag : Option String) (members : List DeclPhrase)

-- A declaration without its semicolon.
inductive DeclPhrase
  | mk (storage : Words Keyword.isStorage) (before : Words Keyword.isQualifier)
      (type : TypePhrase) (after : Words Keyword.isQualifier) (first : DeclaratorPhrase)
      (others : List DeclaratorPhrase)

end

def Aggregate.lexemes (aggregate : Aggregate) (tag : Option String) : List Lexeme :=
  .keyword aggregate.word :: (tag.map .identifier).toList

-- Declarators with commas between them.
def DeclaratorPhrase.listLexemes (first : DeclaratorPhrase) (others : List DeclaratorPhrase) :
    List Lexeme :=
  first.lexemes ++ others.flatMap fun o => .punct .comma :: o.lexemes

mutual

def TypePhrase.lexemes : TypePhrase → List Lexeme
  | .basic words _ => words.lexemes
  | .named name => [.identifier name.text]
  | .tagged aggregate tag => aggregate.lexemes tag
  | .body aggregate tag members =>
    aggregate.lexemes tag ++ .punct .lbrace :: DeclPhrase.listLexemes members ++ [.punct .rbrace]

def DeclPhrase.lexemes : DeclPhrase → List Lexeme
  | ⟨storage, before, type, after, first, others⟩ =>
    storage.lexemes ++ before.lexemes ++ type.lexemes ++ after.lexemes ++
      DeclaratorPhrase.listLexemes first others

-- Declarations with a semicolon behind each of them.
def DeclPhrase.listLexemes : List DeclPhrase → List Lexeme
  | [] => []
  | d :: ds => d.lexemes ++ .punct .semicolon :: DeclPhrase.listLexemes ds

end

-- May a type be followed by some code? A name is that of a type only before a name, a star or a
-- qualifier, and a name right behind a `struct` or a `union` is its tag.
def TypePhrase.goesBefore (ls : List Lexeme) : TypePhrase → Bool
  | .named _ => !(ls.head?.any (·.isMark .lparen))
  | .tagged _ none => !(ls.head?.any (·.isIdentifier))
  | _ => true

mutual

def TypePhrase.isProper : TypePhrase → Bool
  | .body _ _ members => DeclPhrase.listProper members
  | _ => true

-- Is it known what the names in a declaration are? Only a member may have a width.
def DeclPhrase.isProper (member : Bool) : DeclPhrase → Bool
  | ⟨_, _, type, after, first, others⟩ =>
    (member || (first :: others).all (·.width.isNone)) &&
      type.goesBefore (after.lexemes ++ first.lexemes) && type.isProper

def DeclPhrase.listProper : List DeclPhrase → Bool
  | [] => true
  | d :: ds => d.isProper true && DeclPhrase.listProper ds

end

-- A name that is to be declared, and what is to be known of it.
structure Entry where
  declarator : DeclaratorPhrase
  storage : List Keyword
  container : Option Keyword
  scope : Scope

namespace Entry

def kind (e : Entry) : DeclKind :=
  if e.storage.contains .typedefKw then .typedef
  else if e.scope = .member then .field
  else .var

-- Is a declaration what an entry asks for? If a width shows a bracket or an equals sign of its own,
-- this passes for one of the declarator.
structure IsRecordedBy (e : Entry) (d : Declaration Run) : Prop where
  name : d.name = e.declarator.name
  kind : d.kind = e.kind
  scope : d.scope = e.scope
  container : d.container = e.container
  storage : ∀ w, w ∈ d.storage ↔ ∃ k ∈ e.storage, k.text = w
  isPointer : d.isPointer = decide (0 < e.declarator.stars)
  isArray : (∀ w ∈ e.declarator.width, ¬w.shows .lbracket) → d.isArray = e.declarator.isArray
  hasInitializer : (∀ w ∈ e.declarator.width, ¬w.shows .assign) →
    d.hasInitializer = e.declarator.hasValue

end Entry

mutual

def TypePhrase.entries : TypePhrase → List Entry
  | .body aggregate _ members => DeclPhrase.listEntries aggregate members
  | _ => []

-- The names that a declaration declares, those of members before its own.
def DeclPhrase.entries (container : Option Keyword) (scope : Scope) : DeclPhrase → List Entry
  | ⟨storage, _, type, _, first, others⟩ =>
    type.entries ++ (first :: others).map fun declarator =>
      ⟨declarator, storage.list, container, scope⟩

def DeclPhrase.listEntries (aggregate : Aggregate) : List DeclPhrase → List Entry
  | [] => []
  | d :: ds =>
    d.entries (some aggregate.word) .member ++ DeclPhrase.listEntries aggregate ds

end

end CLint
