import CLint.Command.Check

namespace CLint

namespace Command

open Text

-- The settings that are in force, and the rules that they ask for.
def loadSelected (t : Files) (o : ShowOptions) : Attempt (OutputFormat × Settings × List Rule) := do
  let form ← format o.format
  let s ← loadSettings t o.place.root o.place.file
  return (form, s, ← selected (Selection.select s.rules))

def ids (rules : List Rule) : List String :=
  rules.map (·.id)

def paragraph (lines : List String) : String :=
  "\n".intercalate lines ++ "\n"

def ruleToJson (active : List String) (r : Rule × Bool) : JsonValue :=
  .object [("rule_id", .str r.1.id), ("name", .str r.1.title),
    ("description", .str r.1.description), ("strictness", .str r.1.strictness.name),
    ("severity", .str r.1.severity.name), ("packs", .strings (r.1.packs.map Pack.name)),
    ("default_enabled", .bool r.2), ("enabled", .bool (active.contains r.1.id))]

def ruleLine (active : List String) (r : Rule) : String :=
  let state := if active.contains r.id then "enabled" else "disabled"
  s!"- {r.id} [{state}] ({r.strictness.name}) - {r.description}"

def runListRules (t : Files) (o : ShowOptions) : Attempt Outcome := do
  let (form, s, rules) ← loadSelected t o
  let all ← selected (Selection.overview [] [])
  match form with
  | .json =>
    let payload := JsonValue.object [("rules", .arr (all.map (ruleToJson (ids rules)))),
      ("meta", .object [("config_source", .ofOption .str s.source)])]
    return { output := payload.render ++ "\n" }
  | .human =>
    return {
      output := paragraph ("Available rules:" :: all.map fun r => ruleLine (ids rules) r.1) }

def packsText (s : RuleSettings) : String :=
  "\x7b'enable': " ++ Quoted.texts s.enabledPacks ++ ", 'disable': " ++
    Quoted.texts s.disabledPacks ++ "\x7d"

-- Settings as a list of items, each with its name.
def settingsItems (s : Settings) : List (String × String) :=
  [("source", s.source.getD "defaults"), ("format", s.format.name), ("fail_on", s.failOn.name),
    ("jobs", toString s.jobs), ("include", Quoted.texts s.includes),
    ("exclude", Quoted.texts s.excludes),
    ("rules.enable", s.rules.enabledRules.elim "None" Quoted.texts),
    ("rules.disable", Quoted.texts s.rules.disabledRules), ("rules.packs", packsText s.rules),
    ("options.indent_width", toString s.rules.indentWidth),
    ("options.max_line_length", toString s.rules.maxLineLength),
    ("options.verbs", Quoted.texts s.rules.verbs),
    ("options.allowed_magic_numbers", Quoted.list (s.rules.allowedNumbers.map toString))]

def itemLine (item : String × String) : String :=
  s!"- {item.1}: {item.2}"

def runShowSettings (t : Files) (o : ShowOptions) : Attempt Outcome := do
  let (form, s, rules) ← loadSelected t o
  if !s.isWritable then .error .unwritable
  match form with
  | .json =>
    let payload := Value.table (s.toTable ++ [("active_rule_ids", .texts (ids rules))])
    return { output := payload.toJson.render ++ "\n" }
  | .human =>
    let items := settingsItems s ++ [("active_rule_ids", Quoted.texts (ids rules))]
    return { output := paragraph ("Resolved configuration:" :: items.map itemLine) }

def runValidate (t : Files) (o : ShowOptions) : Attempt Outcome := do
  let (form, s, rules) ← loadSelected t o
  match form with
  | .json =>
    let payload := JsonValue.object [("ok", .bool true), ("source", .ofOption .str s.source),
      ("active_rule_ids", .strings (ids rules))]
    return { output := payload.render ++ "\n" }
  | .human =>
    let items := [("source", s.source.getD "None"), ("active_rule_ids", Quoted.texts (ids rules))]
    return { output := paragraph ("Config is valid." :: items.map itemLine) }

-- Writes settings to start from, but not over a file unless that is wanted.
def runStart (t : Files) (out : Path) (force : Bool) : Attempt Outcome :=
  let path := t.absolute out
  if !out.isNameable then .error (.access out .unnameable)
  else if t.contains path && !force then .error (.inTheWay path)
  else
    match t.writeFault? path with
    | some (p, fault) => .error (.access p fault)
    | none => .ok {
        output := s!"Wrote starter config: {path.text}\n"
        written := some (path, Settings.template) }

-- Where the settings may be.
def settingsPaths (place : SettingsPlace) : List Path :=
  match place.file with
  | some file => [place.root.join file]
  | none => (Settings.ownFileNames ++ [Settings.sharedFileName]).map (place.root.extend [·])

-- The paths that a command looks at.
def lookedAt : Command → List Path
  | version => []
  | check o => settingsPaths o.place ++ o.paths
  | listRules o | showSettings o | validate o => settingsPaths o.place
  | start out _ => [out]

-- Carries out a command in a tree of files at the given time.
def run (t : Files) (time : String) : Command → Attempt Outcome
  | version => .ok { output := Report.version ++ "\n" }
  | check o => runCheck t time o
  | listRules o => runListRules t o
  | showSettings o => runShowSettings t o
  | validate o => runValidate t o
  | start out force => runStart t out force

end Command
end CLint
