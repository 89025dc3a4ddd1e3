namespace CLint

-- What decides which rules are checked and how. Without a list of enabled rules the packs decide.
structure RuleSettings where
  indentWidth : Int := 2
  maxLineLength : Int := 80
  verbs : List String :=
    ["add", "calculate", "check", "clear", "close", "compute", "configure", "convert", "copy",
      "create", "decode", "delete", "deinit", "disable", "enable", "encode", "find", "flush",
      "format", "free", "get", "handle", "init", "initialize", "is", "load", "lock", "open",
      "parse", "poll", "process", "read", "receive", "register", "remove", "reset", "run", "save",
      "send", "set", "start", "stop", "toggle", "unlock", "update", "validate", "wait", "write"]
  allowedNumbers : List Int := [0, 1, -1]
  enabledRules : Option (List String) := none
  disabledRules : List String := []
  enabledPacks : List String := []
  disabledPacks : List String := []
  deriving DecidableEq, Repr

inductive OutputFormat
  | human | json
  deriving DecidableEq, Repr

namespace OutputFormat

def name : OutputFormat → String
  | human => "human"
  | json => "json"

def all : List OutputFormat :=
  [human, json]

end OutputFormat

-- The least severity of a finding that makes a run fail, if any does.
inductive Threshold
  | error | warning | info | never
  deriving DecidableEq, Repr

namespace Threshold

def name : Threshold → String
  | error => "error"
  | warning => "warning"
  | info => "info"
  | never => "never"

-- In the order of their names.
def all : List Threshold :=
  [error, info, never, warning]

end Threshold

-- The settings of a run, and the file that they come from.
structure Settings where
  format : OutputFormat := .human
  failOn : Threshold := .error
  jobs : Int := 1
  includes : List String := []
  excludes : List String := []
  rules : RuleSettings := {}
  source : Option String := none
  deriving DecidableEq, Repr

end CLint
