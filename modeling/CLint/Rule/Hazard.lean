import CLint.Rule.Basic

namespace CLint.Rule

def noGoto : Rule where
  id := "no-goto"
  title := "NoGotoRule"
  description := "goto is discouraged and needs a documented justification."
  strictness := .should
  packs := [.prohibited]
  check _ o :=
    .ok ((o.code.toList.filter (·.lexeme.isWord .gotoKw)).map fun t =>
      .onSpan t.span "goto should not be used"
        "Restructure with loops, flags or a single cleanup path.")

def returnRemark (o : Outline) (d : Declaration Span) : Option Remark :=
  match d.bodyRun with
  | none => none
  | some r =>
    let body := (o.code.extract r.first (r.last + 1)).toList
    match body.filter (·.lexeme.isWord .returnKw) with
    | _ :: extra :: others =>
      let count := others.length + 2
      some (.onSpan extra.span s!"function '{d.name}' has {count} return statements"
        "Store the result in a local and return it once at the end.")
    | _ => none

def singleReturn : Rule where
  id := "single-return"
  title := "SingleReturnRule"
  description := "Functions have a single exit point."
  packs := [.prohibited]
  check _ o := .ok (o.functions.filterMap (returnRemark o))

def isCall (t : Token) (after : List Token) : Bool :=
  t.lexeme.isIdentifier && after.head?.any (·.lexeme.isMark .lparen)

def allocationRemarks : List Token → List Remark
  | [] => []
  | t :: ts =>
    let found :=
      if isCall t ts && t.text ∈ ["malloc", "calloc", "realloc", "free"] then
        [Remark.onSpan t.span s!"dynamic memory function '{t.text}' should be avoided"
          "Use statically allocated buffers or a fixed-size pool."]
      else []
    found ++ allocationRemarks ts

def dynamicAllocation : Rule where
  id := "dynamic-allocation"
  title := "DynamicAllocationRule"
  description := "Heap allocation is discouraged in embedded code."
  strictness := .should
  packs := [.prohibited]
  check _ o := .ok (allocationRemarks o.code.toList)

-- The arguments of a call, from behind its opening parenthesis. They end at the latest with a
-- semicolon or a brace.
def argumentTokens (depth : Nat) : List Token → List Token
  | [] => []
  | t :: ts =>
    if t.lexeme.isMark .lparen then t :: argumentTokens (depth + 1) ts
    else if t.lexeme.isMark .rparen then
      match depth with
      | 0 => []
      | depth + 1 => t :: argumentTokens depth ts
    else if t.lexeme.isMark .semicolon || t.lexeme.isMark .lbrace || t.lexeme.isMark .rbrace then []
    else t :: argumentTokens depth ts

def isStep (t : Token) : Bool :=
  t.lexeme.isMark .inc || t.lexeme.isMark .dec

-- A step in nested calls is only reported for the outermost one.
def sideEffectRemarks (reported : List Nat) : List Token → List Remark
  | [] => []
  | t :: ts =>
    if isCall t ts then
      let steps := (argumentTokens 0 (ts.drop 1)).filter fun s =>
        isStep s && !reported.contains s.offset
      steps.map (fun s => .onSpan s.span s!"'{s.text}' inside the arguments of '{t.text}'"
        "Update the variable in a separate statement.") ++
      sideEffectRemarks (reported ++ steps.map (·.offset)) ts
    else sideEffectRemarks reported ts

def sideEffectInCall : Rule where
  id := "side-effect-in-call"
  title := "SideEffectInCallRule"
  description := "Call arguments must not increment or decrement."
  strictness := .mustNot
  packs := [.prohibited]
  check _ o := .ok (sideEffectRemarks [] o.code.toList)

def noGlobalVariables : Rule where
  id := "no-global-variables"
  title := "NoGlobalVariablesRule"
  description :=
    "Modules keep no mutable file-scope variables; state is injected through a context."
  packs := [.design]
  check _ o :=
    .ok ((o.declarations.filter fun d =>
        d.kind = .var && d.scope = .file && !(d.isConst && !d.isPointer)).map fun d =>
      .onSpan d.span s!"file-scope variable '{d.name}' is mutable global state"
        "Pass it in through a module context instead.")

end CLint.Rule
