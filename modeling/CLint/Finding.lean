namespace CLint

-- How much a finding matters. A finding from elsewhere may use a word of its own.
inductive Severity
  | error | warning | info | other (word : String)
  deriving DecidableEq, Repr

namespace Severity

def name : Severity → String
  | error => "error"
  | warning => "warning"
  | info => "info"
  | other word => word

def ofName (s : String) : Severity :=
  if s = "error" then error
  else if s = "warning" then warning
  else if s = "info" then info
  else other s

-- Only the known severities have a rank.
def rank? : Severity → Option Nat
  | info => some 0
  | warning => some 1
  | error => some 2
  | other _ => none

end Severity

structure Finding where
  rule : String
  severity : Severity
  path : String
  line : Int
  column : Int
  message : String
  suggestion : Option String := none
  endLine : Option Int := none
  endColumn : Option Int := none
  deriving DecidableEq, Repr

namespace Finding

-- Findings are ordered by where they are, then by what they are about. Two findings that neither
-- precedes the other are duplicates.
def order (a b : Finding) : Ordering :=
  (compare a.path b.path).then <| (compare a.line b.line).then <|
    (compare a.column b.column).then <| (compare a.rule b.rule).then <|
      compare a.message b.message

def le (a b : Finding) : Bool :=
  order a b != .gt

def same (a b : Finding) : Bool :=
  order a b == .eq

-- Of each run of duplicates only the first one is kept.
def dropRepeats : List Finding → List Finding
  | [] => []
  | f :: fs =>
    match dropRepeats fs with
    | [] => [f]
    | g :: gs => if same f g then f :: gs else f :: g :: gs

-- All findings once and in order. Of duplicates the one that was submitted first is kept, since
-- the sorting is stable.
def aggregate (fs : List Finding) : List Finding :=
  dropRepeats (fs.mergeSort le)

end Finding

-- The findings submitted so far, batch by batch.
structure FindingStore where
  submitted : List Finding := []

namespace FindingStore

def submit (s : FindingStore) (batch : List Finding) : FindingStore where
  submitted := s.submitted ++ batch

-- The number of findings submitted, duplicates included.
def size (s : FindingStore) : Nat :=
  s.submitted.length

def findings (s : FindingStore) : List Finding :=
  Finding.aggregate s.submitted

end FindingStore
end CLint
