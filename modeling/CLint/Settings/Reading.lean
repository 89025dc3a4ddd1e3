import CLint.Settings.Basic
import CLint.Settings.Value
import CLint.Text.Lowercase

namespace CLint

-- What is wrong with an entry of a document of settings.
inductive SettingsError
  | notTable (field : String)
  | notTexts (field : String)
  | notInts (field : String)
  | notInt (field : String)
  | notPositive (field : String)
  | notOneOf (field : String) (choices : List String)
  | unwritable
  deriving DecidableEq, Repr

namespace SettingsError

def message : SettingsError → String
  | notTable field => s!"{field} must be a table/object"
  | notTexts field => s!"{field} must be a list of strings"
  | notInts field => s!"{field} must be a list of integers"
  | notInt field => s!"{field} must be an integer"
  | notPositive field => s!"{field} must be > 0"
  | notOneOf field choices => s!"{field} must be one of: " ++ ", ".intercalate choices
  | unwritable => Numeral.unwritableMessage

end SettingsError

abbrev Reading := Except SettingsError

namespace Reading

variable {α : Type}

-- The entries of a table that may be missing.
def table (field : String) : Option Value → Reading Table
  | none => .ok []
  | some (.table entries) => .ok entries
  | some _ => .error (.notTable field)

def textItem (field : String) : Value → Reading String
  | .text s => .ok s
  | _ => .error (.notTexts field)

def int (field : String) : Value → Reading Int
  | .int n => .ok n
  | _ => .error (.notInt field)

def texts (field : String) : Value → Reading (List String)
  | .list items => items.mapM (textItem field)
  | _ => .error (.notTexts field)

def textsOrNone (field : String) : Option Value → Reading (List String)
  | none => .ok []
  | some v => texts field v

def ints (field : String) : Value → Reading (List Int)
  | .list items => items.mapM (int field)
  | _ => .error (.notInts field)

def positive (field : String) (fallback : Int) (v : Option Value) : Reading Int := do
  let n ← int field (v.getD (.int fallback))
  if n ≤ 0 then .error (.notPositive field) else .ok n

-- The one of some choices that has the given name, in small letters.
def choice? (name : α → String) (all : List α) (s : String) : Option α :=
  all.find? fun a => name a = Text.lower s

-- Any value is written out to be compared with the choices, but only a text can be one of them.
def choice (field : String) (name : α → String) (all : List α) (fallback : α) :
    Option Value → Reading α
  | none => .ok fallback
  | some (.text s) =>
    match choice? name all s with
    | some a => .ok a
    | none => .error (.notOneOf field (all.map name))
  | some v => .error (if v.isWritable then .notOneOf field (all.map name) else .unwritable)

end Reading

namespace RuleSettings

open Reading

-- Verbs are compared in small letters.
def verbsOf (v : Value) : Reading (List String) :=
  (texts "options.verbs" v).map (·.map Text.lower)

def ofTables (rules options : Table) : Reading RuleSettings := do
  let base : RuleSettings := {}
  let packs ← table "rules.packs" (rules.present? "packs")
  return {
    indentWidth := ←
      positive "options.indent_width" base.indentWidth (options.lookup "indent_width")
    maxLineLength := ←
      positive "options.max_line_length" base.maxLineLength (options.lookup "max_line_length")
    verbs := ← (options.present? "verbs").elim (.ok base.verbs) verbsOf
    allowedNumbers := ← (options.present? "allowed_magic_numbers").elim (.ok base.allowedNumbers)
      (ints "options.allowed_magic_numbers")
    enabledRules := ← (rules.present? "enable").mapM (texts "rules.enable")
    disabledRules := ← textsOrNone "rules.disable" (rules.present? "disable")
    enabledPacks := ← textsOrNone "rules.packs.enable" (packs.present? "enable")
    disabledPacks := ← textsOrNone "rules.packs.disable" (packs.present? "disable") }

end RuleSettings

namespace Settings

open Reading

-- The settings that a table describes. What it does not mention is as usual, and what it mentions
-- beyond the settings does not matter.
def ofTable (source : String) (t : Table) : Reading Settings := do
  let base : Settings := {}
  let rules ← table "rules" (t.present? "rules")
  let options ← table "options" (t.present? "options")
  let jobs ← positive "jobs" base.jobs (t.lookup "jobs")
  return {
    jobs
    format := ← choice "format" OutputFormat.name OutputFormat.all base.format (t.lookup "format")
    failOn := ← choice "fail_on" Threshold.name Threshold.all base.failOn (t.lookup "fail_on")
    includes := ← textsOrNone "include" (t.present? "include")
    excludes := ← textsOrNone "exclude" (t.present? "exclude")
    rules := ← RuleSettings.ofTables rules options
    source := some source }

-- A file for many tools has a section of its own for each of them.
def section? (document : Table) : Option Table :=
  match document.lookup "tool" with
  | some (.table tools) =>
    ["c_conform", "c-conform"].findSome? fun key =>
      match tools.lookup key with
      | some (.table entries) => some entries
      | _ => none
  | _ => none

def sharedFileName : String :=
  "pyproject.toml"

-- The part of a document that is about this program. A document that is not shared may be about
-- it as a whole.
def relevantTable (fileName : String) (document : Table) : Table :=
  (section? document).getD (if fileName = sharedFileName then [] else document)

-- The description that is read as these settings.
def toTable (s : Settings) : Table :=
  [("format", .text s.format.name), ("fail_on", .text s.failOn.name), ("jobs", .int s.jobs),
    ("include", .texts s.includes), ("exclude", .texts s.excludes),
    ("rules", .table [("enable", s.rules.enabledRules.elim .null .texts),
      ("disable", .texts s.rules.disabledRules),
      ("packs", .table [("enable", .texts s.rules.enabledPacks),
        ("disable", .texts s.rules.disabledPacks)])]),
    ("options", .table [("indent_width", .int s.rules.indentWidth),
      ("max_line_length", .int s.rules.maxLineLength), ("verbs", .texts s.rules.verbs),
      ("allowed_magic_numbers", .ints s.rules.allowedNumbers)]),
    ("source", s.source.elim .null .text)]

def isWritable (s : Settings) : Bool :=
  (Value.table s.toTable).isWritable

end Settings
end CLint
