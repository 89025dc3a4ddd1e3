import CLint.Proofs.Declaring.Whole

namespace CLint

open Code Scan

-- A language extension with a name as its only argument.
def Phrase.extension (name : String) : List Lexeme :=
  .identifier "__attribute__" :: inParens (inParens [.identifier name])

def Phrase.extensions (names : List String) : List Lexeme :=
  names.flatMap extension

-- An enumerator, with its value if that is given.
structure Enumerator where
  name : PlainName
  value : Option ValuePhrase

def Enumerator.lexemes (e : Enumerator) : List Lexeme :=
  .identifier e.name.text :: ValuePhrase.optional .assign e.value

-- What stands in the braces of a tagged type. A comma may follow the last enumerator.
inductive TagContent
  | fields (aggregate : Aggregate) (list : List DeclPhrase)
  | enumerators (list : List Enumerator) (last : Option Enumerator)

namespace TagContent

def word : TagContent → Keyword
  | fields aggregate _ => aggregate.word
  | enumerators _ _ => .enumKw

def lexemes : TagContent → List Lexeme
  | fields _ list => DeclPhrase.listLexemes list
  | enumerators list last =>
    list.flatMap (fun e => e.lexemes ++ [.punct .comma]) ++ (last.map Enumerator.lexemes).getD []

def isProper : TagContent → Bool
  | fields _ list => DeclPhrase.listProper list && list.all DeclPhrase.isBraceless
  | enumerators _ _ => true

end TagContent

-- Any number of declarators, with commas between them.
def DeclaratorPhrase.anyLexemes : List DeclaratorPhrase → List Lexeme
  | [] => []
  | first :: others => listLexemes first others

-- A definition of a tagged type, possibly with the declaration of names of it.
structure TagDefinition where
  storage : Words Keyword.isStorage
  tag : Option String
  content : TagContent
  declarators : List DeclaratorPhrase

namespace TagDefinition

def isProper (d : TagDefinition) : Bool :=
  d.content.isProper && d.declarators.all (·.width.isNone)

-- What stands before the braces, with more code before the keyword and right behind it.
def front (d : TagDefinition) (before behind : List Lexeme) : List Lexeme :=
  d.storage.lexemes ++ before ++ .keyword d.content.word :: behind ++
    (d.tag.map .identifier).toList

-- A definition without its semicolon, with more code behind its braces, too.
def lexemes (d : TagDefinition) (before behind after : List Lexeme) : List Lexeme :=
  d.front before behind ++ (.punct .lbrace :: d.content.lexemes ++ [.punct .rbrace]) ++ after ++
    DeclaratorPhrase.anyLexemes d.declarators

end TagDefinition

-- What there is to compare of two declarations in different files.
structure Record where
  kind : DeclKind
  name : String
  scope : Scope
  container : Option Keyword
  deriving DecidableEq, Repr

def Declaration.record {σ : Type} (d : Declaration σ) : Record :=
  ⟨d.kind, d.name, d.scope, d.container⟩

def Entry.record (e : Entry) : Record :=
  ⟨e.kind, e.declarator.name, e.scope, e.container⟩

def Enumerator.record (e : Enumerator) : Record :=
  ⟨.field, e.name.text, .member, some .enumKw⟩

namespace TagContent

-- The members of the type.
def members : TagContent → List Record
  | fields aggregate list => (DeclPhrase.listEntries aggregate list).map Entry.record
  | enumerators list last => (list ++ last.toList).map Enumerator.record

-- What the same code declares as that of a block.
def locals : TagContent → List Record
  | fields _ list => (list.flatMap (·.entries none .block)).map Entry.record
  | enumerators _ _ => []

end TagContent

-- A name that the definition declares besides the members.
def TagDefinition.named (d : TagDefinition) (name : String) : Record :=
  ⟨if d.storage.list.contains .typedefKw then .typedef else .var, name, .file, none⟩

def TagDefinition.names (d : TagDefinition) : List Record :=
  d.declarators.map fun p => d.named p.name


namespace Enumerator

theorem nested_lexemes (e : Enumerator) : Nested Lexeme.IsInner e.lexemes := by
  have hassign : IsSimple (.punct .assign) := ⟨rfl, rfl, nofun, nofun⟩
  exact .plain rfl rfl ⟨nofun, nofun⟩ (ValuePhrase.nested_optional hassign e.value)

theorem crosses_lexemes (e : Enumerator) : Crosses e.lexemes := by
  have hname : Crosses [.identifier e.name.text] := .singleton rfl rfl nofun
  exact hname.append (ValuePhrase.crosses_optional e.value)

end Enumerator

namespace TagContent

theorem isTag_word (c : TagContent) : c.word.isTag := by
  cases c with
  | fields aggregate => exact aggregate.isTag_word
  | enumerators => rfl

theorem enumerators_cons (e : Enumerator) (list : List Enumerator) (last : Option Enumerator) :
    (enumerators (e :: list) last).lexemes =
      e.lexemes ++ .punct .comma :: (enumerators list last).lexemes := by
  simp [lexemes]

theorem nested_enumerators (list : List Enumerator) (last : Option Enumerator) :
    Nested (fun _ => True) (enumerators list last).lexemes := by
  induction list with
  | nil =>
    cases last with
    | none => exact .nil
    | some e => exact e.nested_lexemes.mono fun _ _ => trivial
  | cons e list ih =>
    rw [enumerators_cons]
    exact (e.nested_lexemes.mono fun _ _ => trivial).append (.plain rfl rfl trivial ih)

theorem crosses_enumerators (list : List Enumerator) (last : Option Enumerator) :
    Crosses (enumerators list last).lexemes := by
  induction list with
  | nil =>
    cases last with
    | none => exact .nil
    | some e => exact e.crosses_lexemes
  | cons e list ih =>
    rw [enumerators_cons]
    have hcomma : Crosses [.punct .comma] := .singleton rfl rfl nofun
    exact e.crosses_lexemes.append (hcomma.append ih)

theorem nested_lexemes (c : TagContent) : Nested (fun _ => True) c.lexemes := by
  cases c with
  | fields aggregate list => exact DeclPhrase.nested_listLexemes list
  | enumerators list last => exact nested_enumerators list last

end TagContent

namespace Phrase

theorem crosses_extension (name : String) : Crosses (extension name) := by
  have hword : Crosses [.identifier "__attribute__"] := .singleton rfl rfl nofun
  have hname : Nested Lexeme.IsInner [.identifier name] := .singleton rfl rfl ⟨nofun, nofun⟩
  exact hword.append (crosses_inParens (nested_inParens (q := Lexeme.IsInner) hname))

theorem crosses_extensions (names : List String) : Crosses (extensions names) := by
  induction names with
  | nil => exact .nil
  | cons name names ih => exact (crosses_extension name).append ih

end Phrase

theorem DeclaratorPhrase.crosses_anyLexemes {ps : List DeclaratorPhrase}
    (h : ps.all (·.width.isNone)) : Crosses (anyLexemes ps) := by
  cases ps with
  | nil => exact .nil
  | cons first others =>
    refine crosses_listLexemes (List.all_eq_true.mpr fun p hp => ?_)
    exact isBraceless_of_isNone (List.all_eq_true.mp h p hp)

namespace TagDefinition

variable {d : TagDefinition}

-- A scan gets over a definition with extensions before its keyword and behind its braces.
theorem crosses_lexemes (hd : d.isProper) (before after : List String) :
    Crosses (d.lexemes (Phrase.extensions before) [] (Phrase.extensions after)) := by
  rw [isProper, Bool.and_eq_true] at hd
  have hfront := (crosses_of_isSimple d.storage.isSimple).append (Phrase.crosses_extensions before)
  have hbody := crosses_tagged d.content.isTag_word d.tag d.content.nested_lexemes
  have hafter := Phrase.crosses_extensions after
  have hall := ((hfront.append hbody).append hafter).append
    (DeclaratorPhrase.crosses_anyLexemes hd.2)
  simpa [lexemes, front] using hall

end TagDefinition
end CLint
