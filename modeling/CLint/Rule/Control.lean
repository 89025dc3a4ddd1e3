import CLint.Rule.Basic

namespace CLint

-- The operator that holds between the operands in the opposite order.
def Punct.flipped : Punct → Punct
  | .lt => .gt
  | .gt => .lt
  | .le => .ge
  | .ge => .le
  | p => p

namespace Rule

def comparisonRemark (o : Outline) (c : Comparison Span) : Option Remark :=
  if c.left.kind = .variableName && c.right.kind = .constant then
    let left := o.slice c.left.span
    let right := o.slice c.right.span
    let operator := c.operator.flipped.text
    some (.onSpan c.span s!"constant {right} must appear on the left of comparison"
      s!"{right} {operator} {left}")
  else none

def comparisonOrder : Rule where
  id := "comparison-order"
  title := "ComparisonOrderRule"
  description := "A defined constant compared with a variable must be the left operand."
  packs := [.control]
  check _ o := .ok ((o.blocks.flatMap (·.comparisons)).filterMap (comparisonRemark o))

def switchDefault : Rule where
  id := "switch-default"
  title := "SwitchDefaultRule"
  description := "Every switch statement has a default case."
  packs := [.control]
  check _ o :=
    .ok ((o.blocks.filter fun b => b.kind = .switchBlock && !b.hasDefault).map fun b =>
      .onSpan b.keyword "switch statement has no default case"
        "Add a 'default:' case that handles unexpected values.")

def clauseRemark (o : Outline) (c : Clause Span) : Option Remark :=
  if c.terminated then none
  else
    let label := o.slice c.label
    some (.onSpan c.label s!"'{label}' does not end with break or a fallthrough comment"
      "End the case with 'break;' or a /* fall through */ comment.")

def switchBreak : Rule where
  id := "switch-break"
  title := "SwitchBreakRule"
  description := "Each non-empty case ends with break or carries a fallthrough comment."
  packs := [.control]
  check _ o :=
    .ok ((o.blocks.filter (·.kind = .switchBlock)).flatMap fun b =>
      b.clauses.filterMap (clauseRemark o))

end Rule
end CLint
