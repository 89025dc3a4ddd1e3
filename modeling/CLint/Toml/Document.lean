import CLint.Settings.Value

namespace CLint

namespace Table

def replace (t : Table) (key : String) (v : Value) : Table :=
  t.map fun e => if e.1 = key then (key, v) else e

-- Changes the table at the end of a path of keys. Tables that are missing on the way are added.
-- A list of tables leads to its last one, if lists may be entered at all.
def update (enterLists : Bool) (f : Table → Option Table) : List String → Table → Option Table
  | [], t => f t
  | key :: keys, t =>
    match t.lookup key with
    | none => (update enterLists f keys []).map fun new => t ++ [(key, .table new)]
    | some (.table old) => (update enterLists f keys old).map fun new => t.replace key (.table new)
    | some (.list items) =>
      match enterLists, items.getLast? with
      | true, some (.table old) =>
        (update enterLists f keys old).map fun new =>
          t.replace key (.list (items.dropLast ++ [.table new]))
      | _, _ => none
    | some _ => none

-- A key can be given a value only once.
def addEntry (key : String) (v : Value) (t : Table) : Option Table :=
  if (t.lookup key).isSome then none else some (t ++ [(key, v)])

-- An empty table at the end of a list of tables.
def addItem (key : String) (t : Table) : Option Table :=
  match t.lookup key with
  | none => some (t ++ [(key, .list [.table []])])
  | some (.list items) => some (t.replace key (.list (items ++ [.table []])))
  | some _ => none

end Table

namespace Toml

-- A path of keys.
abbrev Key := List String

-- What was written so far, and where nothing more may be written: a table has one header, and
-- what is written as a value is complete.
structure Document where
  root : Table := []
  declared : List Key := []
  pending : List Key := []
  complete : List Key := []

namespace Document

def isComplete (d : Document) (key : Key) : Bool :=
  d.complete.any fun k => k.isPrefixOf key

-- Tables that dotted keys have opened are closed when the next header comes.
def closePending (d : Document) : Document :=
  { d with declared := d.pending ++ d.declared, pending := [] }

def addTable (d : Document) (key : Key) : Option Document :=
  if d.declared.contains key || d.isComplete key then none
  else
    (d.root.update true some key).map fun root =>
      { d with root, declared := key :: d.declared }

-- A table at the end of a list is a new one, in which nothing is written yet.
def addListTable (d : Document) (key : Key) : Option Document :=
  if d.isComplete key then none
  else
    (d.root.update true (Table.addItem (key.getLast?.getD "")) key.dropLast).map fun root =>
      { d with
        root
        declared := key :: d.declared.filter (!key.isPrefixOf ·)
        complete := d.complete.filter (!key.isPrefixOf ·) }

-- The tables that a dotted key leads through, below the table of the last header.
def innerTables (header key : Key) : List Key :=
  (List.range key.length).tail.map fun n => header ++ key.take n

def isNested : Value → Bool
  | .list _ | .table _ => true
  | _ => false

def addValue (d : Document) (header key : Key) (v : Value) : Option Document :=
  let inner := innerTables header key
  let place := header ++ key
  if inner.any d.declared.contains || d.isComplete place.dropLast then none
  else
    (d.root.update true (Table.addEntry (key.getLast?.getD "") v) place.dropLast).map fun root =>
      { d with
        root
        pending := inner ++ d.pending
        complete := if isNested v then place :: d.complete else d.complete }

end Document
end Toml
end CLint
