import CLint.Json
import CLint.Run

namespace CLint

namespace Report

def version : String :=
  "0.1.0"

-- How many findings there are, in all and of each severity.
structure Summary where
  total : Nat
  errors : Nat
  warnings : Nat
  infos : Nat
  filesAnalyzed : Nat
  cancelled : Bool
  deriving DecidableEq, Repr

namespace Summary

def count (severity : Severity) (fs : List Finding) : Nat :=
  fs.countP (·.severity = severity)

def ofResult (r : RunResult) : Summary where
  total := r.findings.length
  errors := count .error r.findings
  warnings := count .warning r.findings
  infos := count .info r.findings
  filesAnalyzed := r.filesAnalyzed
  cancelled := r.cancelled

def toJson (s : Summary) : JsonValue :=
  .object [("total", .num s.total), ("error", .num s.errors), ("warning", .num s.warnings),
    ("info", .num s.infos), ("files_analyzed", .num s.filesAnalyzed),
    ("cancelled", .bool s.cancelled)]

end Summary
end Report
end CLint
