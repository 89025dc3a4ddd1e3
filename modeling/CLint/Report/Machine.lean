import CLint.Report.Summary

namespace CLint

def Finding.toJson (f : Finding) : JsonValue :=
  .object [("rule_id", .str f.rule), ("severity", .str f.severity.name), ("file_path", .str f.path),
    ("line", .num f.line), ("column", .num f.column), ("message", .str f.message),
    ("suggested_fix", .ofOption .str f.suggestion), ("end_line", .ofOption .num f.endLine),
    ("end_column", .ofOption .num f.endColumn)]

namespace Report

-- The report for programs, made at the given time.
def payload (r : RunResult) (paths : List String) (time : String) : JsonValue :=
  .object [("findings", .arr (r.findings.map Finding.toJson)),
    ("summary", (Summary.ofResult r).toJson),
    ("meta", .object [("generated_at", .str time), ("paths", .strings paths),
      ("version", .str version)])]

def machine (r : RunResult) (paths : List String) (time : String) : String :=
  (payload r paths time).render

end Report
end CLint
