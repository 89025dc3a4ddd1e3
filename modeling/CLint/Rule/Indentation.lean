import CLint.Numeral.Hashed
import CLint.Rule.Layout

namespace CLint.Rule

-- An open brace on the way through a file: how deep its content is indented, whether it is the
-- body of a switch, and if so, how deep its last label was indented.
structure Frame where
  content : Int
  isSwitch : Bool := false
  label : Option Int := none

-- A line that is not indented as it should be.
structure WrongIndent where
  first : Token
  actual : Nat
  expected : Int

namespace WrongIndent

def remark (w : WrongIndent) : Except RuleFailure Remark := do
  let expected ← writtenInt w.expected
  return .atPlace w.first.line w.first.column
    s!"line is indented {w.actual} space(s), expected {expected}"
    s!"Indent with {expected} spaces."

end WrongIndent

-- The file level is below all frames. The indentation of the current line is that which it should
-- have, so that one wrong line does not put its block in the wrong as well.
structure Margin where
  bottom : Frame := { content := 0 }
  frames : List Frame := []
  parens : Nat := 0
  previous : Option Token := none
  labelLine : Option Nat := none
  current : Option (Nat × Int) := none

namespace Margin

def isLabelWord (t : Token) : Bool :=
  t.lexeme.isWord .caseKw || t.lexeme.isWord .defaultKw

def top (m : Margin) : Frame :=
  m.frames.headD m.bottom

def isMarkOf (ps : List Punct) (t : Token) : Bool :=
  ps.any t.lexeme.isMark

-- A line is checked if it starts a statement, as far as the token before it tells. A brace on a
-- line of its own behind the header of a block is checked, too.
def startsStatement (m : Margin) (t : Token) : Bool :=
  match m.previous with
  | none => true
  | some p =>
    (t.lexeme.isMark .lbrace &&
      (p.lexeme.isWord .elseKw || p.lexeme.isWord .doKw || p.lexeme.isMark .rparen)) ||
    isMarkOf [.semicolon, .lbrace, .rbrace] p ||
    (p.lexeme.isMark .colon && m.labelLine = some p.line)

def isChecked (m : Margin) (t : Token) : Bool :=
  m.previous.all (·.endLine < t.line) && m.parens = 0 && m.startsStatement t

-- The indentations that a line may have. Labels of a switch may be aligned with the keyword, and
-- labels to jump to may also stand at the left margin.
def allowed (m : Margin) (width : Int) (t : Token) (following : Option Token) : List Int :=
  let f := m.top
  let out := max 0 (f.content - width)
  if t.lexeme.isMark .rbrace then [out]
  else if f.isSwitch then
    if isLabelWord t then [f.content, out]
    else [(f.label.map (· + width)).getD f.content]
  else if t.lexeme.isIdentifier && following.any (·.text = ":") then [0, f.content, out]
  else [f.content]

-- The first of the nearest values.
def nearest (actual : Int) : Int → List Int → Int
  | best, [] => best
  | best, n :: ns =>
    nearest actual (if (n - actual).natAbs < (best - actual).natAbs then n else best) ns

-- The value that is expected in place of `actual`. Of two that are equally near it is the one that
-- comes first in the set of those allowed.
def closest (actual : Int) (allowed : List Int) : Int :=
  let options := (NumberSet.ofList allowed).toList
  nearest actual (options.headD actual) options

def setLabel (m : Margin) (indent : Int) : Margin :=
  match m.frames with
  | [] => { m with bottom := { m.bottom with label := some indent } }
  | f :: fs => { m with frames := { f with label := some indent } :: fs }

-- Checks the line that `t` starts, of which `lead` are the blanks at the front. Lines with tabs
-- among them are left alone.
def checkLine (m : Margin) (width : Int) (lead : List Char) (t : Token)
    (following : Option Token) : Option WrongIndent × Margin :=
  if lead.contains '\t' then (none, m)
  else
    let actual : Int := lead.length
    let expected := closest actual (m.allowed width t following)
    let m := { m with current := some (t.line, expected) }
    (if actual = expected then none else some ⟨t, lead.length, expected⟩,
      if isLabelWord t && m.top.isSwitch then m.setLabel actual else m)

-- The indentation of the line of `t`, as it should be if it was checked.
def lineIndent (m : Margin) (lead : List Char) (t : Token) : Int :=
  match m.current with
  | some (line, indent) => if line = t.line then indent else lead.length
  | none => lead.length

-- What `t` changes for the tokens after it.
def pass (m : Margin) (width : Int) (switchBodies : List Nat) (lead : List Char) (t : Token) :
    Margin :=
  let m := { m with
    labelLine := if isLabelWord t then some t.line else m.labelLine
    previous := some t }
  match t.lexeme with
  | .punct .lparen | .punct .lbracket => { m with parens := m.parens + 1 }
  | .punct .rparen | .punct .rbracket => { m with parens := m.parens - 1 }
  | .punct .lbrace =>
    { m with frames :=
        { content := m.lineIndent lead t + width
          isSwitch := switchBodies.contains t.offset } :: m.frames }
  | .punct .rbrace => { m with frames := m.frames.tail }
  | _ => m

def wrongIndents (o : Outline) (width : Int) (switchBodies : List Nat) (m : Margin) :
    List Token → List WrongIndent
  | [] => []
  | t :: ts =>
    let lead := leadingBlanks (o.source.lineText t.line)
    let r := if m.isChecked t then m.checkLine width lead t ts.head? else (none, m)
    r.1.toList ++ wrongIndents o width switchBodies (r.2.pass width switchBodies lead t) ts

end Margin

def switchBodies (o : Outline) : List Nat :=
  o.blocks.filterMap fun b =>
    if b.kind = .switchBlock && b.hasBraces then b.body.map (·.start.offset) else none

def indentation : Rule where
  id := "indentation"
  title := "IndentationRule"
  description := "Each statement line is indented one step deeper than its enclosing block."
  packs := [.formatting]
  check settings o :=
    (Margin.wrongIndents o settings.indentWidth (switchBodies o) {} o.code.toList).mapM
      WrongIndent.remark

end CLint.Rule
