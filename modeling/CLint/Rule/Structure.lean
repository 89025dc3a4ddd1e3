import CLint.Rule.Basic

namespace CLint.Rule

-- Of two problems at the same place the one with the smaller message comes first.
def precedes (a b : Diagnostic) : Bool :=
  a.span.start.offset < b.span.start.offset ||
    (a.span.start.offset = b.span.start.offset && a.message < b.message)

def earliest : List Diagnostic → Option Diagnostic
  | [] => none
  | d :: ds =>
    match earliest ds with
    | none => some d
    | some e => if precedes e d then some e else some d

def structuralRemarks (o : Outline) : List Remark :=
  match earliest o.diagnostics with
  | none => []
  | some first =>
    let others := o.diagnostics.length - 1
    let message :=
      if others = 0 then first.message
      else s!"{first.message} ({others} more structural problem(s) in file)"
    [.onSpan first.span message
      "Close the block or comment so the rest of the file parses as intended."]

def unterminatedBlock : Rule where
  id := "unterminated-block"
  title := "UnterminatedBlockRule"
  description :=
    "Reports unterminated comments, unclosed braces or parentheses and stray braces."
  packs := [.structural]
  check _ o := .ok (structuralRemarks o)

end CLint.Rule
