import CLint.Files.Basic
import CLint.Settings.Reading
import CLint.Toml.Statement

namespace CLint

-- Why there are no settings.
inductive LoadError
  | missing (path : Path)
  | malformed (path : Path)
  | overlong (digitCount : Nat)
  | encoding (e : Utf8.Error)
  | invalid (e : SettingsError)
  | unreadable (path : Path) (fault : FileFault)
  | unnameable (path : Path)
  deriving DecidableEq, Repr

namespace LoadError

def message : LoadError → String
  | missing path => s!"Config file does not exist: {path.text}"
  | malformed path => s!"Invalid TOML in {path.text}"
  | overlong digitCount => Numeral.overlongMessage digitCount
  | encoding e => e.message
  | invalid e => e.message
  | unreadable path fault => fault.message path
  | unnameable path => FileFault.unnameable.message path

end LoadError

namespace Settings

-- The names under which settings are looked for, besides the shared file.
def ownFileNames : List String :=
  [".c-conform.toml", "c-conform.toml"]

def decode (path : Path) (bytes : List UInt8) : Except LoadError Table :=
  match Utf8.decode bytes with
  | .error e => .error (.encoding e)
  | .ok cs =>
    match Toml.read cs with
    | .ok document => .ok document
    | .error .malformed => .error (.malformed path)
    | .error (.overlong digitCount) => .error (.overlong digitCount)

-- What the file says about this program.
def readTable (t : Files) (path : Path) : Except LoadError Table :=
  match t.read path with
  | .error fault => .error (.unreadable path fault)
  | .ok bytes => (decode path bytes).map (relevantTable path.name)

def describedBy (path : Path) (table : Table) : Except LoadError Settings :=
  match ofTable path.text table with
  | .ok s => .ok s
  | .error e => .error (.invalid e)

def readFile (t : Files) (path : Path) : Except LoadError Settings := do
  describedBy path (← readTable t path)

-- The settings in a directory. Without any, all is as usual, also if the shared file does not
-- mention this program.
def readDirectory (t : Files) (directory : Path) : Except LoadError Settings := do
  match ownFileNames.map (directory.extend [·]) |>.find? t.contains with
  | some path => readFile t path
  | none =>
    let path := directory.extend [sharedFileName]
    if !t.contains path then return {}
    else
      match ← readTable t path with
      | [] => return {}
      | table => describedBy path table

-- The settings for a directory: those in the given file, seen from there, or those in one of the
-- usual files.
def load (t : Files) (root : Path) (file : Option Path) : Except LoadError Settings :=
  if !root.isNameable then .error (.unnameable root)
  else
    let directory := t.absolute root
    match file with
    | none => readDirectory t directory
    | some file =>
      let path := directory.join file
      if t.contains path then readFile t path else .error (.missing path)

-- Settings to start from.
def template : String :=
  "\n".intercalate ["format = \"human\"", "fail_on = \"error\"", "jobs = 4",
    "include = [\"src/**\", \"include/**\"]", "exclude = [\"third_party/**\"]", "", "[rules]",
    "# enable = [\"comparison-order\", \"switch-default\"]", "disable = []", "", "[rules.packs]",
    "# opt-in packs: doxygen, whitespace, design", "enable = [\"doxygen\"]", "disable = []", "",
    "[options]", "indent_width = 2", "max_line_length = 80",
    "verbs = [\"get\", \"set\", \"init\", \"read\", \"write\", \"update\", \"check\", \"is\"]",
    "allowed_magic_numbers = [0, 1, -1]", ""]

end Settings
end CLint
