import CLint.Proofs.Completing
import CLint.Proofs.Indented.Rows

namespace CLint

namespace Code

-- Is each semicolon of some code in braces, if `depth` braces are open before it?
def enclosesSemicolons (depth : Nat) : List Lexeme → Bool
  | [] => true
  | l :: ls =>
    if l.isMark .semicolon then depth ≠ 0 && enclosesSemicolons depth ls
    else if l.isMark .lbrace then enclosesSemicolons (depth + 1) ls
    else if l.isMark .rbrace then enclosesSemicolons (depth - 1) ls
    else enclosesSemicolons depth ls

-- Does the code begin with a label of a `switch` or one to jump to?
def startsLabel : List Lexeme → Bool
  | .keyword k :: _ => Stmt.isCaseWord k
  | .identifier _ :: l :: _ => l.text = ":"
  | _ => false

end Code

-- A statement on a line of its own: any code that is properly nested and ends with a semicolon.
structure StatementRow extends Row where
  nested : Code.isNested toRow.code := by decide +kernel
  ended : toRow.code.getLast? = some (.punct .semicolon) := by decide +kernel
  unlabelled : Code.startsLabel toRow.code = false := by decide +kernel

-- The line that a control statement with a block begins with. Only the header of a `for` has
-- semicolons that are not in braces.
structure HeaderRow (word : Keyword) extends Row where
  inner : List Lexeme
  spelled : toRow.code = .keyword word :: Phrase.inParens inner := by decide +kernel
  nested : Code.isNested inner := by decide +kernel
  enclosed : word = .forKw || Code.enclosesSemicolons 0 inner := by decide +kernel

-- The line that a function definition begins with.
structure SignatureRow extends Row where
  nested : Code.isNested toRow.code := by decide +kernel
  unlabelled : Code.startsLabel toRow.code = false := by decide +kernel
  flat : toRow.code.all (!·.breaksOff) := by decide +kernel
  plain : toRow.code.head?.all Lexeme.isPlain := by decide +kernel
  unassigned : (toRow.code.foldl Scan.step {}).assigned = false := by decide +kernel
  ended : toRow.code.getLast? = some (.punct .rparen) := by decide +kernel

structure LabelRow extends Row where
  label : SwitchLabel
  spelled : toRow.code = .keyword label.word :: label.text := by decide +kernel

-- The last line of a `do`, with its condition.
structure DoEndRow extends Row where
  inner : List Lexeme
  spelled : toRow.code = .punct .rbrace :: .keyword .whileKw :: Phrase.inParens inner ++
    [.punct .semicolon] := by decide +kernel
  nested : Code.isNested inner := by decide +kernel

namespace Row

def openBrace : Row where
  text := "\x7b"

def closeBrace : Row where
  text := "\x7d"

def elseWord : Row where
  text := "else"

def doWord : Row where
  text := "do"

theorem code_openBrace : openBrace.code = [.punct .lbrace] := by
  decide +kernel

theorem code_closeBrace : closeBrace.code = [.punct .rbrace] := by
  decide +kernel

theorem code_elseWord : elseWord.code = [.keyword .elseKw] := by
  decide +kernel

theorem code_doWord : doWord.code = [.keyword .doKw] := by
  decide +kernel

end Row

-- What a line is for. A statement is nothing but one. A header begins a control statement or a
-- function, of which the brace is on the next line.
inductive LineRole
  | statement | header | opening (isSwitch : Bool) | closing | label (l : SwitchLabel)

-- A line with the number of blanks that it should be indented by.
structure LaidLine where
  indent : Nat
  row : Row
  role : LineRole

-- The words that begin a control statement with a condition and a block, other than a `switch`.
def Keyword.headsBlock (k : Keyword) : Bool :=
  k = .ifKw || k = .whileKw || k = .forKw

mutual

-- A statement as it is laid out: each simple statement is on a line of its own, all others have
-- blocks of which the braces are on lines of their own.
inductive Layout
  | line (s : StatementRow)
  | block (items : List Layout)
  | headed {word : Keyword} (hw : word.headsBlock) (head : HeaderRow word) (items : List Layout)
  | ifElse (head : HeaderRow .ifKw) (items others : List Layout)
  | doWhile (items : List Layout) (stop : DoEndRow)
  | switchOn (head : HeaderRow .switchKw) (sections : List LayoutSection)

-- A label of a `switch` with the statements up to the next one.
inductive LayoutSection
  | mk (label : LabelRow) (items : List Layout)

end

namespace Layout

-- Some lines in braces that are on lines of their own.
def braced (indent : Nat) (isSwitch : Bool) (inner : List LaidLine) : List LaidLine :=
  ⟨indent, .openBrace, .opening isSwitch⟩ :: inner ++ [⟨indent, .closeBrace, .closing⟩]

mutual

-- The lines of a statement that is indented by `indent` blanks, where blocks are indented by
-- `width` more.
def lines (width indent : Nat) : Layout → List LaidLine
  | line s => [⟨indent, s.toRow, .statement⟩]
  | block items => braced indent false (listLines width (indent + width) items)
  | headed _ head items =>
    ⟨indent, head.toRow, .header⟩ ::
      braced indent false (listLines width (indent + width) items)
  | ifElse head items others =>
    ⟨indent, head.toRow, .header⟩ ::
      braced indent false (listLines width (indent + width) items) ++
      ⟨indent, .elseWord, .header⟩ ::
        braced indent false (listLines width (indent + width) others)
  | doWhile items stop =>
    ⟨indent, .doWord, .header⟩ :: ⟨indent, .openBrace, .opening false⟩ ::
      listLines width (indent + width) items ++ [⟨indent, stop.toRow, .closing⟩]
  | switchOn head sections =>
    ⟨indent, head.toRow, .header⟩ ::
      braced indent true (sectionLines width (indent + width) sections)

def listLines (width indent : Nat) : List Layout → List LaidLine
  | [] => []
  | s :: ss => lines width indent s ++ listLines width indent ss

def sectionLines (width indent : Nat) : List LayoutSection → List LaidLine
  | [] => []
  | ⟨label, items⟩ :: ss =>
    ⟨indent, label.toRow, .label label.label⟩ :: listLines width (indent + width) items ++
      sectionLines width indent ss

end

end Layout

-- A function definition as it is laid out.
structure DefinitionLayout where
  signature : SignatureRow
  items : List Layout

def DefinitionLayout.lines (width : Nat) (d : DefinitionLayout) : List LaidLine :=
  ⟨0, d.signature.toRow, .header⟩ :: Layout.braced 0 false (Layout.listLines width width d.items)

-- The lines of a file of function definitions.
def DefinitionLayout.allLines (width : Nat) (ds : List DefinitionLayout) : List LaidLine :=
  ds.flatMap (lines width)

-- A block that is open before a line: how deep its content is indented, whether it is the body of
-- a `switch`, and how deep the label before the line is indented.
structure OpenBlock where
  content : Nat
  isSwitch : Bool := false
  label : Option Nat := none

-- How deep a statement in the block is indented.
def OpenBlock.indent (width : Nat) (b : OpenBlock) : Nat :=
  if b.isSwitch then (b.label.map (· + width)).getD b.content else b.content

-- The block behind a label in it. Only the body of a `switch` is changed by one.
def OpenBlock.labelled (b : OpenBlock) : OpenBlock :=
  if b.isSwitch then { b with label := some b.content } else b

theorem OpenBlock.indent_of_block (width content : Nat) :
    ({ content := content } : OpenBlock).indent width = content :=
  rfl

-- The lines that begin a statement with a block, which are the body of a `switch` or not.
inductive Row.Heads : Row → Bool → Prop
  | group {word : Keyword} (hw : word.headsBlock) (h : HeaderRow word) : Heads h.toRow false
  | switchOn (h : HeaderRow .switchKw) : Heads h.toRow true
  | elseWord : Heads elseWord false
  | doWord : Heads doWord false

-- A line that closes a block, with no more than a statement behind its brace.
structure Row.Closes (r : Row) (isOuter : Bool) (rest : List Lexeme) : Prop where
  code : r.code = .punct .rbrace :: rest
  nested : Code.isNested rest
  ended : ∀ l ∈ rest.getLast?, l = .punct .semicolon
  inner : isOuter → rest = []

-- Lines as they follow one another, if some blocks are open before them, the innermost first. That
-- `heads` holds of a line says that it begins a statement with a block, which counts as the body of
-- a `switch` or not.
inductive Laid (heads : Row → Bool → Prop) (width : Nat) : List OpenBlock → List LaidLine → Prop
  | done : Laid heads width [] []
  | function (s : SignatureRow) {ls : List LaidLine}
      (h : Laid heads width [{ content := width }] ls) :
      Laid heads width [] (⟨0, s.toRow, .header⟩ :: ⟨0, .openBrace, .opening false⟩ :: ls)
  | statement (s : StatementRow) {b : OpenBlock} {bs : List OpenBlock} {ls : List LaidLine}
      (h : Laid heads width (b :: bs) ls) :
      Laid heads width (b :: bs) (⟨b.indent width, s.toRow, .statement⟩ :: ls)
  | block {b : OpenBlock} {bs : List OpenBlock} {ls : List LaidLine}
      (h : Laid heads width ({ content := b.indent width + width } :: b :: bs) ls) :
      Laid heads width (b :: bs) (⟨b.indent width, .openBrace, .opening false⟩ :: ls)
  | headed {r : Row} {isSwitch : Bool} (hr : heads r isSwitch) {b : OpenBlock}
      {bs : List OpenBlock} {ls : List LaidLine}
      (h : Laid heads width
        ({ content := b.indent width + width, isSwitch := isSwitch } :: b :: bs) ls) :
      Laid heads width (b :: bs) (⟨b.indent width, r, .header⟩ ::
        ⟨b.indent width, .openBrace, .opening isSwitch⟩ :: ls)
  | closing {r : Row} {rest : List Lexeme} {b : OpenBlock} {bs : List OpenBlock}
      (hr : r.Closes bs.isEmpty rest) {indent : Nat} (hi : b.content = indent + width)
      {ls : List LaidLine} (h : Laid heads width bs ls) :
      Laid heads width (b :: bs) (⟨indent, r, .closing⟩ :: ls)
  | label (l : LabelRow) {b : OpenBlock} {bs : List OpenBlock} {ls : List LaidLine}
      (h : Laid heads width (b.labelled :: bs) ls) :
      Laid heads width (b :: bs) (⟨b.content, l.toRow, .label l.label⟩ :: ls)

theorem Row.closes_closeBrace (isOuter : Bool) : closeBrace.Closes isOuter [] :=
  ⟨code_closeBrace, rfl, nofun, fun _ => rfl⟩

namespace Code

variable {ls ms : List Lexeme}

theorem isNested_inParens (h : isNested ls) (hm : isNested ms) :
    isNested (Phrase.inParens ls ++ ms) := by
  have hclose : closesAll [.punct .rparen] (.punct .rparen :: ms) := hm
  have hinner := closesAll_append_append h hclose
  rw [Phrase.inParens, List.append_assoc]
  exact hinner

end Code

theorem DoEndRow.closes (r : DoEndRow) : r.toRow.Closes false r.toRow.code.tail := by
  rw [r.spelled]
  refine ⟨r.spelled, ?_, by simp [List.getLast?_cons], nofun⟩
  exact (Code.isNested_cons rfl rfl).trans (Code.isNested_inParens r.nested rfl)

namespace Layout

theorem laid_closeBrace {width indent : Nat} {b : OpenBlock} {bs : List OpenBlock}
    {ls : List LaidLine} (hb : b.content = indent + width) (h : Laid Row.Heads width bs ls) :
    Laid Row.Heads width (b :: bs) (⟨indent, .closeBrace, .closing⟩ :: ls) :=
  .closing (Row.closes_closeBrace _) hb h

mutual

-- By induction on statements: their lines may stand where a statement may.
theorem laid_lines {width indent : Nat} {b : OpenBlock} {bs : List OpenBlock}
    {ls : List LaidLine} (s : Layout) (hb : b.indent width = indent)
    (h : Laid Row.Heads width (b :: bs) ls) :
    Laid Row.Heads width (b :: bs) (s.lines width indent ++ ls) := by
  subst hb
  cases s with
  | line s => exact .statement s h
  | block items =>
    have hitems := laid_listLines (b := { content := b.indent width + width }) items
      (OpenBlock.indent_of_block ..) (laid_closeBrace rfl h)
    simpa [lines, braced] using Laid.block hitems
  | headed hw head items =>
    have hitems := laid_listLines (b := { content := b.indent width + width }) items
      (OpenBlock.indent_of_block ..) (laid_closeBrace rfl h)
    simpa [lines, braced] using Laid.headed (.group hw head) hitems
  | ifElse head items others =>
    have hothers := laid_listLines (b := { content := b.indent width + width }) others
      (OpenBlock.indent_of_block ..) (laid_closeBrace rfl h)
    have hitems := laid_listLines (b := { content := b.indent width + width }) items
      (OpenBlock.indent_of_block ..) (laid_closeBrace rfl (.headed .elseWord hothers))
    simpa [lines, braced] using Laid.headed (.group rfl head) hitems
  | doWhile items stop =>
    have hitems := laid_listLines (b := { content := b.indent width + width }) items
      (OpenBlock.indent_of_block ..) (.closing stop.closes rfl h)
    simpa [lines, braced] using Laid.headed .doWord hitems
  | switchOn head sections =>
    have hsections := laid_sectionLines
      (b := { content := b.indent width + width, isSwitch := true }) sections rfl
      fun _ => laid_closeBrace rfl h
    simpa [lines, braced] using Laid.headed (.switchOn head) hsections

theorem laid_listLines {width indent : Nat} {b : OpenBlock} {bs : List OpenBlock}
    {ls : List LaidLine} (ss : List Layout) (hb : b.indent width = indent)
    (h : Laid Row.Heads width (b :: bs) ls) :
    Laid Row.Heads width (b :: bs) (listLines width indent ss ++ ls) := by
  cases ss with
  | nil => exact h
  | cons s ss =>
    rw [listLines, List.append_assoc]
    exact laid_lines s hb (laid_listLines ss hb h)

theorem laid_sectionLines {width : Nat} {b : OpenBlock} {bs : List OpenBlock}
    {ls : List LaidLine} (ss : List LayoutSection) (hb : b.isSwitch)
    (h : ∀ label, Laid Row.Heads width ({ b with label := label } :: bs) ls) :
    Laid Row.Heads width (b :: bs) (sectionLines width b.content ss ++ ls) := by
  cases ss with
  | nil => exact h b.label
  | cons s ss =>
    obtain ⟨label, items⟩ := s
    have hlabelled : b.labelled = { b with label := some b.content } := if_pos hb
    have hb' : b.labelled.isSwitch := by rw [hlabelled]; exact hb
    have hclosed : ∀ label, Laid Row.Heads width ({ b.labelled with label := label } :: bs) ls :=
      fun label => by rw [hlabelled]; exact h label
    have hrest := laid_sectionLines ss hb' hclosed
    have hindent : b.labelled.indent width = b.content + width := by
      simp [hlabelled, OpenBlock.indent, hb]
    have hitems := laid_listLines items hindent hrest
    simpa [sectionLines, hlabelled] using Laid.label label hitems

end

end Layout

theorem DefinitionLayout.laid_allLines (width : Nat) (ds : List DefinitionLayout) :
    Laid Row.Heads width [] (allLines width ds) := by
  induction ds with
  | nil => exact .done
  | cons d ds ih =>
    have hitems := Layout.laid_listLines (b := { content := width }) d.items
      (OpenBlock.indent_of_block ..) (Layout.laid_closeBrace (Nat.zero_add width).symm ih)
    simpa [allLines, lines, Layout.braced] using Laid.function d.signature hitems

end CLint
