import CLint.Command.Basic
import CLint.Command.Outcome
import CLint.Files.Selection
import CLint.Report.Human
import CLint.Report.Machine

namespace CLint

namespace Threshold

-- How severe a finding has to be, if any can be severe enough.
def rank? : Threshold → Option Nat
  | error => Severity.error.rank?
  | warning => Severity.warning.rank?
  | info => Severity.info.rank?
  | never => none

def isReached (t : Threshold) (fs : List Finding) : Bool :=
  t.rank?.any fun least => fs.any fun f => f.severity.rank?.any (least ≤ ·)

end Threshold

-- The files that were to be checked, what came out, and which of them could not be read.
structure CheckReport where
  files : List Path
  result : RunResult
  unreadable : List (Path × FileFault)

namespace CheckReport

def complaint (u : Path × FileFault) : String :=
  s!"error: cannot read {u.1.text}: {u.2.reason}"

-- Files that could not be read are worse than all findings.
def exitCode (r : CheckReport) (t : Threshold) : Nat :=
  if r.unreadable ≠ [] then 2 else if t.isReached r.result.findings then 1 else 0

def output (r : CheckReport) (time : String) : OutputFormat → String
  | .human => Report.human r.result
  | .json => Report.machine r.result (r.files.map Path.text) time

end CheckReport

namespace Command

-- A file of source code as a text. Bytes that are no text are marked.
def sourceText (bytes : List UInt8) : String :=
  String.ofList (Text.unifyBreaks (Utf8.decodeAnyway bytes))

def source? (t : Files) (p : Path) : Option (String × String) :=
  match t.read p with
  | .ok bytes => some (p.text, sourceText bytes)
  | .error _ => none

def fault? (t : Files) (p : Path) : Option (Path × FileFault) :=
  match t.read p with
  | .ok _ => none
  | .error fault => some (p, fault)

def filterOf (o : CheckOptions) (s : Settings) : PathFilter where
  includes := o.includes.getD s.includes
  excludes := o.excludes.getD s.excludes

-- The rules are selected before any file is read, so that unknown ones are told of first.
def checkFiles (t : Files) (s : Settings) (files : List Path) : Attempt CheckReport := do
  let result ← selected (Run.analyzeSources s.rules (files.filterMap (source? t)))
  if let some p := files.find? (!·.isNameable) then .error (.access p .unnameable)
  return { files, result, unreadable := files.filterMap (fault? t) }

def runCheck (t : Files) (time : String) (o : CheckOptions) : Attempt Outcome := do
  let s ← loadSettings t o.place.root o.place.file
  let form ← format ((given o.format).getD s.format.name)
  let least ← threshold ((given o.failOn).getD s.failOn.name)
  if o.jobs.getD s.jobs ≤ 0 then .error .jobs
  let r ← checkFiles t s (t.discover (filterOf o s) o.paths)
  return {
    output := r.output time form ++ "\n"
    complaints := r.unreadable.map CheckReport.complaint
    exitCode := r.exitCode least }

end Command
end CLint
