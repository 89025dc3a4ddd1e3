import CLint.Rule.Catalogue

namespace CLint

-- Names in the settings that nothing is known by.
inductive SelectionError
  | unknownRules (ids : List String)
  | unknownPacks (names : List String)
  deriving DecidableEq, Repr

namespace SelectionError

def message : SelectionError → String
  | unknownRules ids => "Unknown rule ids: " ++ ", ".intercalate ids
  | unknownPacks names => "Unknown rule packs: " ++ ", ".intercalate names

end SelectionError

namespace Selection

def sorted (names : List String) : List String :=
  names.eraseDups.mergeSort (· ≤ ·)

def checkPacks (names : List String) : Except SelectionError Unit :=
  match names.filter fun n => (Pack.ofName? n).isNone with
  | [] => .ok ()
  | unknown => .error (.unknownPacks (sorted unknown))

def checkRules (ids : List String) : Except SelectionError Unit :=
  match ids.filter fun id => (Rule.find? id).isNone with
  | [] => .ok ()
  | unknown => .error (.unknownRules (sorted unknown))

-- The packs that are active if some are turned on and some off. To turn off wins.
def activePacks (enabled disabled : List String) : Except SelectionError (List Pack) := do
  checkPacks enabled
  checkPacks disabled
  return Pack.all.filter fun p =>
    (Pack.defaults.contains p || enabled.contains p.name) && !disabled.contains p.name

def activePackNames (enabled disabled : List String) : Except SelectionError (List String) :=
  (activePacks enabled disabled).map fun ps => sorted (ps.map Pack.name)

-- A rule without any force is never active by its pack.
def isActive (packs : List Pack) (r : Rule) : Bool :=
  r.packs.any packs.contains && r.strictness ≠ .may

-- The rules that the settings ask for. A list of enabled rules stands for itself, in its own
-- order, and then the packs do not matter.
def select (s : RuleSettings) : Except SelectionError (List Rule) := do
  checkRules (s.enabledRules.getD [] ++ s.disabledRules)
  match s.enabledRules with
  | none =>
    let packs ← activePacks s.enabledPacks s.disabledPacks
    return Rule.catalogue.filter fun r => isActive packs r && !s.disabledRules.contains r.id
  | some ids =>
    return (ids.eraseDups.filter fun id => !s.disabledRules.contains id).filterMap Rule.find?

-- All rules, each with whether the packs make it active.
def overview (enabled disabled : List String) : Except SelectionError (List (Rule × Bool)) := do
  let packs ← activePacks enabled disabled
  return Rule.catalogue.map fun r => (r, isActive packs r)

end Selection
end CLint
