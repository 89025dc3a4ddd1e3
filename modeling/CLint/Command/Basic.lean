import CLint.Command.Arguments
import CLint.Path

namespace CLint

-- Where a command finds its settings: in a file, as seen from a directory, or in the directory.
structure SettingsPlace where
  root : Path := {}
  file : Option Path := none
  deriving DecidableEq, Repr

structure CheckOptions where
  paths : List Path
  place : SettingsPlace := {}
  format : Option String := none
  failOn : Option String := none
  jobs : Option Int := none
  includes : Option (List String) := none
  excludes : Option (List String) := none
  deriving DecidableEq, Repr

-- What to show, and how.
structure ShowOptions where
  place : SettingsPlace := {}
  format : String := "human"
  deriving DecidableEq, Repr

-- What the program can be asked to do.
inductive Command
  | version
  | check (o : CheckOptions)
  | listRules (o : ShowOptions)
  | showSettings (o : ShowOptions)
  | validate (o : ShowOptions)
  | start (out : Path) (force : Bool)
  deriving DecidableEq, Repr

namespace Command

def placeOf (a : Arguments) : SettingsPlace where
  root := ((a.last? "--root").map Path.ofText).getD {}
  file := (a.last? "--config").map Path.ofText

-- No value at all is different from none in the list.
def listOf (a : Arguments) (name : String) : Option (List String) :=
  match a.all name with
  | [] => none
  | values => some values

def readCheck (words : List String) : Except UsageError Command := do
  let a ← Arguments.read
    ⟨["--root", "--format", "--fail-on", "--jobs", "--include", "--exclude", "--config"],
      ["--verbose", "-v"]⟩ words
  if a.words = [] then .error .missingPaths
  return check {
    paths := a.words.map Path.ofText
    place := placeOf a
    format := a.last? "--format"
    failOn := a.last? "--fail-on"
    jobs := ← (a.last? "--jobs").mapM Arguments.int
    includes := listOf a "--include"
    excludes := listOf a "--exclude" }

def readShow (words : List String) : Except UsageError ShowOptions := do
  let a ← Arguments.read ⟨["--root", "--format", "--config"], []⟩ words
  a.noWords
  return { place := placeOf a, format := (a.last? "--format").getD "human" }

-- Settings that are validated are in a file of their own.
def withFile (o : ShowOptions) : ShowOptions :=
  { o with place.file := some (o.place.file.getD (.ofText ".c-conform.toml")) }

def readStart (words : List String) : Except UsageError Command := do
  let a ← Arguments.read ⟨["--out"], ["--force"]⟩ words
  a.noWords
  return start (.ofText ((a.last? "--out").getD ".c-conform.toml")) (a.flags.contains "--force")

-- The command that a word names, with the words behind it.
def readNamed : List String → Except UsageError Command
  | [] => .error .noCommand
  | "check" :: words => readCheck words
  | "rules" :: words => (readShow words).map listRules
  | "config" :: words => (readShow words).map showSettings
  | "config-validate" :: words => (readShow words).map fun o => validate (withFile o)
  | "config-init" :: words => readStart words
  | word :: _ => .error (.unknownCommand word)

-- The command that some words give. Behind two dashes the next word is its name in any case.
def read : List String → Except UsageError Command
  | "--version" :: _ => .ok version
  | "--" :: words => readNamed words
  | word :: words =>
    if ['-'].isPrefixOf word.toList then .error (.unknownOption word)
    else readNamed (word :: words)
  | [] => .error .noCommand

end Command
end CLint
