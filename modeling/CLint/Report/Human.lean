import CLint.Report.Summary
import CLint.Text.Styled

namespace CLint.Report

-- What a line of a report is about.
inductive Line
  | heading (path : String)
  | finding (f : Finding)
  | fix (suggestion : String)
  | blank
  | summary (s : Summary)
  | cancelled
  deriving DecidableEq, Repr

-- A finding, and how to mend it if that is known.
def findingLines (f : Finding) : List Line :=
  match f.suggestion with
  | some s => if s = "" then [.finding f] else [.finding f, .fix s]
  | none => [.finding f]

-- Findings in a row that are in one file come under one heading.
def groupedLines (current : Option String) : List Finding → List Line
  | [] => []
  | f :: fs =>
    (if current = some f.path then [] else [.heading f.path]) ++ findingLines f ++
      groupedLines (some f.path) fs

def lines (r : RunResult) : List Line :=
  let grouped := groupedLines none r.findings
  grouped ++ (if grouped = [] then [] else [.blank]) ++ [.summary (.ofResult r)] ++
    if r.cancelled then [.cancelled] else []

def severityColour : Severity → Text.Colour
  | .error => .red
  | .warning => .yellow
  | .info => .cyan
  | .other _ => .white

-- The colour of a summary is that of the worst that it tells of.
def summaryColour (s : Summary) : Text.Colour :=
  if 0 < s.errors then .red else if 0 < s.warnings then .yellow else .green

def padded (width : Nat) (s : String) : String :=
  s ++ String.ofList (List.replicate (width - s.length) ' ')

namespace Line

def text : Line → String
  | heading path => Text.styled none true path
  | finding f =>
    let severity := Text.styled (severityColour f.severity) false (padded 7 f.severity.name)
    s!"  {f.line}:{f.column}  {severity} {f.message}  [{f.rule}]"
  | fix suggestion => s!"      fix: {suggestion}"
  | blank => ""
  | summary s =>
    Text.styled (summaryColour s) true <|
      s!"{s.total} finding(s) in {s.filesAnalyzed} file(s): {s.errors} error(s), " ++
        s!"{s.warnings} warning(s), {s.infos} info"
  | cancelled => Text.styled (some .yellow) false "Run cancelled before all files were analyzed."

end Line

-- The report for people.
def human (r : RunResult) : String :=
  "\n".intercalate ((lines r).map Line.text)

end CLint.Report
