import CLint.Rule.Selection
import CLint.Settings.Loading
import CLint.Text.Styled

namespace CLint

-- What a command did: what it says, what it complains of, what it wrote, and how it ends.
structure Outcome where
  output : String
  complaints : List String := []
  written : Option (Path × String) := none
  exitCode : Nat := 0
  deriving DecidableEq, Repr

-- Why a command was not carried out.
inductive CommandError
  | load (e : LoadError)
  | format
  | failOn
  | jobs
  | selection (e : SelectionError)
  | unwritable
  | inTheWay (path : Path)
  | access (path : Path) (fault : FileFault)
  deriving DecidableEq, Repr

namespace CommandError

def message : CommandError → String
  | load e => e.message
  | format => "format must be one of: human, json"
  | failOn => "fail-on must be one of: error, info, never, warning"
  | jobs => "jobs must be > 0"
  | selection e => e.message
  | unwritable => Numeral.unwritableMessage
  | inTheWay path =>
    s!"Refusing to overwrite existing file: {path.text}. Use --force to overwrite."
  | access path fault => fault.message path

-- What kept a file from being read or written, if that is the reason.
def fault? : CommandError → Option FileFault
  | load (.unreadable _ fault) => some fault
  | access _ fault => some fault
  | _ => none

end CommandError

namespace Outcome

-- What a reader other than a terminal gets.
def plainOutput (o : Outcome) : String :=
  String.ofList (Text.plain o.output.toList)

def plainComplaints (o : Outcome) : List String :=
  o.complaints.map fun s => String.ofList (Text.plain s.toList)

end Outcome

namespace Command

abbrev Attempt := Except CommandError

def format (s : String) : Attempt OutputFormat :=
  match Reading.choice? OutputFormat.name OutputFormat.all s with
  | some f => .ok f
  | none => .error .format

def threshold (s : String) : Attempt Threshold :=
  match Reading.choice? Threshold.name Threshold.all s with
  | some t => .ok t
  | none => .error .failOn

-- An option that is empty is as good as none.
def given (s : Option String) : Option String :=
  s.filter (· ≠ "")

def loadSettings (t : Files) (root : Path) (file : Option Path) : Attempt Settings :=
  match Settings.load t root file with
  | .ok s => .ok s
  | .error e => .error (.load e)

def selected {α : Type} : Except SelectionError α → Attempt α
  | .ok a => .ok a
  | .error e => .error (.selection e)

end Command
end CLint
