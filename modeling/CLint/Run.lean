import CLint.Rule.Selection

namespace CLint

-- What came out of checking some files.
structure RunResult where
  findings : List Finding := []
  filesAnalyzed : Nat := 0
  cancelled : Bool := false
  deriving Repr

namespace Run

-- A rule that fails is itself reported, at the beginning of the file.
def failureFinding (r : Rule) (path : String) (f : RuleFailure) : Finding where
  rule := "rule-internal-error"
  severity := .error
  path := path
  line := 1
  column := 1
  message := s!"rule {r.id} failed: {f.kind}: {f.message}"

def ruleFindings (settings : RuleSettings) (o : Outline) (r : Rule) : List Finding :=
  match r.findings settings o with
  | .ok fs => fs
  | .error f => [failureFinding r o.source.path f]

def checkFile (rules : List Rule) (settings : RuleSettings) (path text : String) :
    List Finding :=
  let o := Outline.ofSource (.ofText path text)
  Finding.aggregate (rules.flatMap (ruleFindings settings o))

-- Checks a file by the rules that the settings ask for.
def analyzeFile (settings : RuleSettings) (path text : String) :
    Except SelectionError (List Finding) := do
  return checkFile (← Selection.select settings) settings path text

-- The files that are checked if the run is cancelled before the one of the given number is read.
def dispatched (cancelAt : Option Nat) (sources : List (String × String)) :
    List (String × String) :=
  match cancelAt with
  | none => sources
  | some n => sources.take n

-- Checks files one after another. How many of them are checked at the same time has no influence
-- on the result.
def analyzeSources (settings : RuleSettings) (sources : List (String × String))
    (cancelAt : Option Nat := none) : Except SelectionError RunResult := do
  let rules ← Selection.select settings
  let files := dispatched cancelAt sources
  return {
    findings := Finding.aggregate (files.flatMap fun (path, text) =>
      checkFile rules settings path text)
    filesAnalyzed := files.length
    cancelled := cancelAt.any (· < sources.length) }

end Run
end CLint
