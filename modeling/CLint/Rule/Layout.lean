import CLint.Rule.Basic

namespace CLint.Rule

-- The blanks and tabs that a line begins with.
def leadingBlanks (line : String) : List Char :=
  line.toList.takeWhile fun c => c = ' ' || c = '\t'

def numberedLines (o : Outline) : List (String × Nat) :=
  o.source.lines.zipIdx 1

def isTabbed (line : String × Nat) : Bool :=
  (leadingBlanks line.1).contains '\t'

def tabRemark (settings : RuleSettings) (line : String × Nat) : Except RuleFailure Remark := do
  let lead := leadingBlanks line.1
  let before := lead.takeWhile (· ≠ '\t')
  let message :=
    if lead.contains ' ' then "indentation mixes tabs and spaces"
    else "tab character used for indentation"
  let width ← writtenInt settings.indentWidth
  return .atPlace line.2 (before.length + 1) message s!"Indent with {width}-space steps."

def tabIndentation : Rule where
  id := "tab-indentation"
  title := "TabIndentationRule"
  description := "Indentation uses spaces only."
  packs := [.formatting]
  check settings o := ((numberedLines o).filter isTabbed).mapM (tabRemark settings)

def takesBraces : ControlKind → Bool
  | .caseBlock | .defaultBlock => false
  | _ => true

def bracesRemark (b : ControlBlock Span) : Option Remark :=
  if takesBraces b.kind && !b.hasBraces then
    let keyword := if b.kind = .elseIf then "else if" else b.kind.name
    some (.onSpan b.keyword s!"'{keyword}' body must be enclosed in braces"
      "Wrap the body in '\x7b' and '\x7d' on their own lines.")
  else none

def bracesRequired : Rule where
  id := "braces-required"
  title := "BracesRequiredRule"
  description :=
    "if, else, for, while, do and switch bodies are always enclosed in braces."
  packs := [.formatting]
  check _ o := .ok (o.blocks.filterMap bracesRemark)

-- Semicolons in parentheses end no statement. Here `line` is the line of the last one that ended
-- a statement, and `reported` says whether that line was reported.
def statementRemarks (depth : Nat) (line : Option Nat) (reported : Bool) :
    List Token → List Remark
  | [] => []
  | t :: ts =>
    match t.lexeme with
    | .punct .lparen => statementRemarks (depth + 1) line reported ts
    | .punct .rparen => statementRemarks (depth - 1) line reported ts
    | .punct .semicolon =>
      if depth ≠ 0 then statementRemarks depth line reported ts
      else if line ≠ some t.line then statementRemarks depth (some t.line) false ts
      else if reported then statementRemarks depth line true ts
      else
        .atPlace t.line t.column "only one statement is allowed per line"
          "Move each statement onto its own line." :: statementRemarks depth line true ts
    | _ => statementRemarks depth line reported ts

def oneStatementPerLine : Rule where
  id := "one-statement-per-line"
  title := "OneStatementPerLineRule"
  description := "At most one statement terminator per source line."
  packs := [.formatting]
  check _ o := .ok (statementRemarks 0 none false o.code.toList)

-- Declarations of one statement that names more than one variable.
def groupRemark (ds : List (Declaration Span)) (group : Nat) : Option Remark :=
  match ds.filter (·.group = group) with
  | first :: second :: others =>
    let names := ", ".intercalate ((first :: second :: others).map (·.name))
    some (.onSpan second.span s!"declare one variable per line ({names})"
      "Split the declaration into one statement per variable.")
  | _ => none

def oneDeclarationPerLine : Rule where
  id := "one-declaration-per-line"
  title := "OneDeclarationPerLineRule"
  description := "Each declaration statement declares a single variable or field."
  packs := [.formatting]
  check _ o :=
    let ds := o.declarations.filter fun d =>
      (d.kind = .var || d.kind = .field) && !d.isEnumerator
    .ok ((ds.map (·.group)).eraseDups.filterMap (groupRemark ds))

def lineRemark (limit : Int) (line : String × Nat) : Option Remark :=
  let length := line.1.length
  if length ≤ limit then none
  else some (.atPlace line.2 (limit + 1)
    s!"line is {length} characters long, maximum is {limit}" "Wrap the line.")

def lineLength : Rule where
  id := "line-length"
  title := "LineLengthRule"
  description := "Lines stay within the configured maximum length."
  strictness := .should
  packs := [.formatting, .doxygen]
  check settings o := .ok ((numberedLines o).filterMap (lineRemark settings.maxLineLength))

end CLint.Rule
