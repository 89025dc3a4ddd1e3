import CLint.Finding
import CLint.Numeral.Basic
import CLint.Outline
import CLint.Settings.Basic

namespace CLint

-- What a rule says about a place or a span of a file.
structure Remark where
  line : Int
  column : Int
  stop : Option (Int × Int)
  message : String
  suggestion : Option String

namespace Remark

def onSpan (s : Span) (message : String) (suggestion : Option String := none) : Remark where
  line := s.start.line
  column := s.start.column
  stop := some (s.stop.line, s.stop.column)
  message := message
  suggestion := suggestion

def atPlace (line column : Int) (message : String) (suggestion : Option String := none) :
    Remark where
  line := line
  column := column
  stop := none
  message := message
  suggestion := suggestion

end Remark

-- How binding a rule is.
inductive Strictness
  | must | mustNot | should | may
  deriving DecidableEq, Repr

namespace Strictness

def name : Strictness → String
  | must => "must"
  | mustNot => "must_not"
  | should => "should"
  | may => "may"

def severity : Strictness → Severity
  | must | mustNot => .error
  | should => .warning
  | may => .info

end Strictness

-- Rules are turned on and off in packs.
inductive Pack
  | structural | naming | formatting | whitespace | control | comments | prohibited | design
  | doxygen
  deriving DecidableEq, Repr

namespace Pack

def name : Pack → String
  | structural => "syntax"
  | naming => "naming"
  | formatting => "formatting"
  | whitespace => "whitespace"
  | control => "control"
  | comments => "comments"
  | prohibited => "prohibited"
  | design => "design"
  | doxygen => "doxygen"

def all : List Pack :=
  [structural, naming, formatting, whitespace, control, comments, prohibited, design, doxygen]

def ofName? (s : String) : Option Pack :=
  all.find? (·.name = s)

-- The packs that are active unless they are turned off.
def defaults : List Pack :=
  [structural, naming, formatting, control, comments, prohibited]

end Pack

-- A rule can fail on a file: decimal numbers are only read and written up to a fixed number of
-- digits.
inductive RuleFailure
  | tooManyDigits (count : Nat)
  | unwritable
  deriving DecidableEq, Repr

namespace RuleFailure

def kind : RuleFailure → String
  | tooManyDigits _ | unwritable => "ValueError"

def message : RuleFailure → String
  | tooManyDigits count => Numeral.overlongMessage count
  | unwritable => Numeral.unwritableMessage

end RuleFailure

-- An integer as it stands in a remark.
def writtenInt (n : Int) : Except RuleFailure String :=
  if Numeral.isWritable n then .ok (toString n) else .error .unwritable

structure Rule where
  id : String
  title : String
  description : String
  strictness : Strictness := .must
  packs : List Pack
  check : RuleSettings → Outline → Except RuleFailure (List Remark)

namespace Rule

def severity (r : Rule) : Severity :=
  r.strictness.severity

def finding (r : Rule) (path : String) (m : Remark) : Finding where
  rule := r.id
  severity := r.severity
  path := path
  line := m.line
  column := m.column
  message := m.message
  suggestion := m.suggestion
  endLine := m.stop.map (·.1)
  endColumn := m.stop.map (·.2)

-- The findings of one rule in one file, in the order of the rule.
def findings (r : Rule) (settings : RuleSettings) (o : Outline) :
    Except RuleFailure (List Finding) :=
  (r.check settings o).map (·.map (r.finding o.source.path))

end Rule
end CLint
