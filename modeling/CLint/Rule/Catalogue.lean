import CLint.Rule.Condition
import CLint.Rule.Control
import CLint.Rule.Documentation
import CLint.Rule.Hazard
import CLint.Rule.Indentation
import CLint.Rule.MagicNumber
import CLint.Rule.Spacing
import CLint.Rule.Structure

namespace CLint.Rule

-- All rules there are, in the order in which they are checked and listed.
def catalogue : List Rule :=
  [unterminatedBlock, fileNaming, constantNaming, typeNaming, stdintTypes, variableNaming,
    functionNaming, indentation, tabIndentation, bracesRequired, oneStatementPerLine,
    oneDeclarationPerLine, lineLength, spaceAroundOperators, spaceInsideParentheses,
    emptyParentheses, comparisonOrder, switchDefault, switchBreak, explicitBooleanTest,
    assignmentInCondition, functionDoc, functionReturnDoc, magicNumber, noGoto, singleReturn,
    dynamicAllocation, sideEffectInCall, noGlobalVariables, fileHeader, typeDoc, fieldDoc,
    doxygenCommentStyle, functionDiagram, doxygenTagOrder]

def find? (id : String) : Option Rule :=
  catalogue.find? (·.id = id)

end CLint.Rule
