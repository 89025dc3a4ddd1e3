import CLint.Toml.Key
import CLint.Toml.Moment
import CLint.Toml.Number

namespace CLint.Toml

theorem length_drop_lt {cs : List Char} {n : Nat} (h : 0 < n ∧ 0 < cs.length) :
    (cs.drop n).length < cs.length := by
  rw [List.length_drop]
  exact Nat.sub_lt h.2 h.1

-- A word that takes at least one character.
def takeWord (cs : List Char) (v : Value) (n : Nat) : Outcome Value cs :=
  if h : 0 < n ∧ 0 < cs.length then .ok ⟨v, cs.drop n, length_drop_lt h⟩ else .error .malformed

def readWord (cs : List Char) : Outcome Value cs :=
  if ['t', 'r', 'u', 'e'].isPrefixOf cs then takeWord cs (.bool true) 4
  else if ['f', 'a', 'l', 's', 'e'].isPrefixOf cs then takeWord cs (.bool false) 5
  else
    match moment? cs with
    | some (n, true) => takeWord cs (.moment (String.ofList (cs.take n))) n
    | some (_, false) => .error .malformed
    | none =>
      match number? cs with
      | some (.whole k, n) => takeWord cs (.int k) n
      | some (.decimal, n) => takeWord cs (.decimal (String.ofList (cs.take n))) n
      | some (.overlong count, _) => .error (.overlong count)
      | none => .error .malformed

-- The mark that begins a value tells what it is.
def readPlain (cs : List Char) : Outcome Value cs :=
  if cs.head?.any fun c => c = '"' || c = '\'' then
    (readQuoted quoted length_quoted cs).map (·.map .text)
  else readWord cs

-- One more entry of a table that is written as a value.
def addInner (d : Document) (key : Key) (v : Value) : Option Document :=
  if d.isComplete key then none
  else
    (d.root.update false (Table.addEntry (key.getLast?.getD "") v) key.dropLast).map fun root =>
      { d with
        root
        complete := if Document.isNested v then key :: d.complete else d.complete }

mutual

def readValue (cs : List Char) : Outcome Value cs :=
  match cs with
  | '[' :: cs => do
    let items ← readItems cs
    return (items.map .list).weaken (length_le_succ cs)
  | '{' :: cs =>
    have shorter := length_skipSpace cs
    match h : skipSpace cs with
    | '}' :: rest => .ok ⟨.table [], rest, Nat.lt_succ_of_lt (length_behind_space h)⟩
    | rest => do
      let entries ← readEntries {} rest
      return (entries.map .table).weaken (Nat.le_succ_of_le (h ▸ shorter))
  | cs => readPlain cs
termination_by 2 * cs.length
decreasing_by
  · rw [List.length_cons]
    omega
  · rw [List.length_cons]
    rw [h] at shorter
    omega

-- The items of a list from behind its opening bracket or from behind a comma.
def readItems (cs : List Char) : Outcome (List Value) cs := do
  match h : skipGaps false cs with
  | .error e => .error e
  | .ok (']' :: rest) => return ⟨[], rest, length_behind_gaps h⟩
  | .ok item =>
    have shorter := length_skipGaps h
    let v ← readValue item
    have behind := Nat.lt_of_lt_of_le v.shorter shorter
    match h : skipGaps false v.rest with
    | .error e => .error e
    | .ok (']' :: rest) => return ⟨[v.value], rest, Nat.lt_trans (length_behind_gaps h) behind⟩
    | .ok (',' :: rest) =>
      have behind := Nat.lt_trans (length_behind_gaps h) behind
      return ((← readItems rest).map (v.value :: ·)).weaken (Nat.le_of_lt behind)
    | .ok _ => .error .malformed
termination_by 2 * cs.length + 1
decreasing_by
  · omega
  · omega

-- The entries of a table from the next one on. There is no comma behind the last one.
def readEntries (d : Document) (cs : List Char) : Outcome Table cs := do
  let name ← readName cs
  have shorter := name.shorter
  let v ← readValue name.rest
  have behind := Nat.lt_trans v.shorter shorter
  match addInner d name.value v.value with
  | none => .error .malformed
  | some d =>
    match h : skipSpace v.rest with
    | '}' :: rest => return ⟨d.root, rest, Nat.lt_trans (length_behind_space h) behind⟩
    | ',' :: rest =>
      have behind := length_behind_part behind h
      return (← readEntries d (skipSpace rest)).weaken (Nat.le_of_lt behind)
    | _ => .error .malformed
termination_by 2 * cs.length + 1
decreasing_by
  · omega
  · omega

end

end CLint.Toml
