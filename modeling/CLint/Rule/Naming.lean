import CLint.Name.Words
import CLint.Path
import CLint.Rule.Basic

namespace CLint.Rule

-- A file name is cut at its last dot, if it has one.
def cutAtLastDot (name : List Char) : Option (List Char × List Char) :=
  match name.reverse.dropWhile (· ≠ '.') with
  | [] => none
  | _ :: stem => some (stem.reverse, (name.reverse.takeWhile (· ≠ '.')).reverse)

-- Small letters and digits in words that single underscores separate. A line feed at the end is
-- passed over.
def isFileStem (stem : List Char) : Bool :=
  (Text.fields (· = '_') (Name.body stem)).all fun w =>
    !w.isEmpty && w.all fun c => c.isLower || c.isDigit

def fileNaming : Rule where
  id := "file-naming"
  title := "FileNamingRule"
  description := "File names are lowercase with underscores separating words."
  packs := [.naming]
  check _ o :=
    let name := (Path.ofText o.source.path).name.toList
    match cutAtLastDot name with
    | none => .ok []
    | some (stem, suffix) =>
      if (suffix = ['c'] || suffix = ['h']) && !isFileStem stem then
        let shown := String.ofList name
        let better := Name.snakeCase (String.ofList stem) ++ "." ++ String.ofList suffix
        .ok [.atPlace 1 1
          s!"file name '{shown}' must be lowercase words separated by underscores"
          s!"Rename to '{better}'."]
      else .ok []

-- Is it a constant that the preprocessor could define as well?
def isConstScalar (d : Declaration Span) : Bool :=
  d.kind = .var && d.isConst && !d.isPointer && !d.isArray && !d.storage.contains "extern"

def constantRemark (d : Declaration Span) : Option Remark :=
  let better := Name.upperSnakeCase d.name
  if d.kind = .define || (d.kind = .field && d.isEnumerator) then
    let label := if d.kind = .define then "macro" else "enumerator"
    if d.naming = .upperSnake then none
    else some (.onSpan d.span s!"{label} '{d.name}' must be UPPER_SNAKE_CASE"
      s!"Rename to '{better}'.")
  else if isConstScalar d then
    some (.onSpan d.span s!"constant '{d.name}' must be defined with #define"
      s!"#define {better} <value> instead of a const variable.")
  else none

def constantNaming : Rule where
  id := "constant-naming"
  title := "ConstantNamingRule"
  description :=
    "Constants are UPPER_SNAKE and defined with #define rather than const variables."
  packs := [.naming]
  check _ o := .ok (o.declarations.filterMap constantRemark)

-- The part of a type name before its ending, which is the whole name if it lacks that.
def typeBase (name : String) : String :=
  if ['_', 't'].isSuffixOf name.toList then String.ofList (name.toList.dropLast.dropLast)
  else name

def isTypeName (name : String) : Bool :=
  let cs := Name.body name.toList
  ['_', 't'].isSuffixOf cs && Name.isCamel cs.dropLast.dropLast

def typeRemark (d : Declaration Span) : Option Remark :=
  if d.kind = .typedef && !isTypeName d.name then
    let better := Name.camelCase (typeBase d.name)
    some (.onSpan d.span s!"type '{d.name}' must be camelCase and end in '_t'"
      s!"Rename to '{better}_t'.")
  else none

def typeNaming : Rule where
  id := "type-naming"
  title := "TypeNamingRule"
  description := "Typedef names start lowercase, use camelCase and end in _t."
  packs := [.naming]
  check _ o := .ok (o.declarations.filterMap typeRemark)

-- The words that integer types are made of. All but `char` leave the size to the compiler.
def integerWord? (t : Token) : Option Keyword :=
  match t.lexeme with
  | .keyword k =>
    if k ∈ [Keyword.intKw, .shortKw, .longKw, .signedKw, .unsignedKw, .charKw] then some k
    else none
  | _ => none

def sizedType (ks : List Keyword) : String :=
  let bits :=
    if ks.contains .charKw then "8"
    else if ks.contains .shortKw then "16"
    else if 2 ≤ ks.count .longKw then "64"
    else "32"
  (if ks.contains .unsignedKw then "uint" else "int") ++ bits ++ "_t"

-- What is to be said about a run of integer words, of which `first` is the first token. The type
-- of the main function may stay.
def integerRemark (first : Token) (ks : List Keyword) (following : Option Token) :
    Option Remark :=
  let isMain := ks = [.intKw] && following.any (·.text = "main")
  if ks.any (· ≠ .charKw) && !isMain then
    let spelled := " ".intercalate (ks.map Keyword.text)
    let better := sizedType ks
    some (.atPlace first.line first.column
      s!"'{spelled}' must be replaced by a <stdint.h> sized type" s!"Use {better}.")
  else none

-- Here `run` is the run of integer words that ends right before the tokens, backwards.
def integerRemarks (run : List (Token × Keyword)) : List Token → List Remark
  | [] => (close none).toList
  | t :: ts =>
    match integerWord? t with
    | some k => integerRemarks ((t, k) :: run) ts
    | none => (close (some t)).toList ++ integerRemarks [] ts
where
  close (following : Option Token) : Option Remark :=
    match run.getLast? with
    | none => none
    | some (first, _) => integerRemark first (run.reverse.map (·.2)) following

def stdintTypes : Rule where
  id := "stdint-types"
  title := "StdintTypesRule"
  description := "Integer types use the sized types from <stdint.h>."
  packs := [.naming]
  check _ o := .ok (integerRemarks [] o.code.toList)

def variableRemark (label name : String) (span : Span) : Option Remark :=
  if Name.style name ≠ .camelCase then
    let better := Name.camelCase name
    some (.onSpan span s!"{label} '{name}' must be camelCase without underscores"
      s!"Rename to '{better}'.")
  else if Name.isHungarian name then
    some (.onSpan span s!"{label} '{name}' must not use a Hungarian notation prefix"
      "Drop the type prefix and describe the value instead.")
  else none

-- A constant that is not defined by the preprocessor may look like one that is, and then neither
-- it nor its parameters are looked at.
def variableRemarks (d : Declaration Span) : List Remark :=
  let isVariable := (d.kind = .var || d.kind = .field) && !d.isEnumerator
  if isVariable && isConstScalar d && d.naming = .upperSnake then []
  else
    let label := if d.kind = .var then "variable" else "field"
    let own := if isVariable then variableRemark label d.name d.span else none
    own.toList ++ (d.parameters.filter (·.name ≠ "")).filterMap fun p =>
      variableRemark "parameter" p.name p.span

def variableNaming : Rule where
  id := "variable-naming"
  title := "VariableNamingRule"
  description :=
    "Variables, parameters and struct fields are camelCase without Hungarian prefixes."
  packs := [.naming]
  check _ o := .ok (o.declarations.flatMap variableRemarks)

-- Any verb will do if none is configured.
def functionRemark (verbs : List String) (d : Declaration Span) : Option Remark :=
  if d.kind ≠ .function || d.name = "main" then none
  else if d.naming ≠ .pascalCase then
    let better := Name.pascalCase d.name
    some (.onSpan d.span s!"function '{d.name}' must be PascalCase" s!"Rename to '{better}'.")
  else
    let verb := Name.firstWord d.name
    if verbs.isEmpty || verbs.contains (Text.lower verb) then none
    else some (.onSpan d.span s!"function '{d.name}' must start with a verb (found '{verb}')"
      "Name functions verb first, e.g. GetValue or SendFrame.")

def functionNaming : Rule where
  id := "function-naming"
  title := "FunctionNamingRule"
  description := "Functions are PascalCase and start with a verb from the configured list."
  packs := [.naming]
  check settings o :=
    .ok (o.declarations.filterMap (functionRemark (settings.verbs.map Text.lower)))

end CLint.Rule
