import CLint.Toml.Value

namespace CLint.Toml

inductive Statement
  | entry (key : Key) (v : Value)
  | table (key : Key)
  | listTable (key : Key)

theorem length_behind_header {cs rest : List Char} (n : Nat)
    (shorter : rest.length < (skipSpace cs).length) : (rest.drop n).length < cs.length :=
  Nat.lt_of_le_of_lt (List.drop_sublist n rest).length_le
    (Nat.lt_of_lt_of_le shorter (length_skipSpace cs))

-- A header is a key in one or two pairs of brackets.
def readHeader (close : List Char) (cs : List Char) : Outcome Key cs := do
  let key ← readKey (skipSpace cs)
  if close.isPrefixOf key.rest then
    return ⟨key.value, key.rest.drop close.length, length_behind_header _ key.shorter⟩
  else .error .malformed

def readStatement (cs : List Char) : Outcome Statement cs :=
  match cs with
  | '[' :: '[' :: cs => do
    let key ← readHeader [']', ']'] cs
    return (key.map .listTable).weaken (Nat.le_succ_of_le (length_le_succ cs))
  | '[' :: cs => do
    let key ← readHeader [']'] cs
    return (key.map .table).weaken (length_le_succ cs)
  | cs => do
    let name ← readName cs
    let v ← readValue name.rest
    return (v.map (.entry name.value)).weaken (Nat.le_of_lt name.shorter)

-- A document, and the key of the header that entries are under.
structure Place where
  document : Document := {}
  header : Key := []

def Place.write (p : Place) : Statement → Option Place
  | .entry key v => (p.document.addValue p.header key v).map ({ p with document := · })
  | .table key => (p.document.closePending.addTable key).map (⟨·, key⟩)
  | .listTable key => (p.document.closePending.addListTable key).map (⟨·, key⟩)

def endComment : List Char → Except Error (List Char)
  | [] => .ok []
  | c :: cs =>
    if c = '\n' then .ok cs else if isFree false c then endComment cs else .error .malformed

theorem length_endComment {cs rest : List Char} (h : endComment cs = .ok rest) :
    rest.length ≤ cs.length := by
  fun_induction endComment cs with
  | case1 => exact Nat.le_of_eq (congrArg List.length (Except.ok.inj h).symm)
  | case2 => exact Except.ok.inj h ▸ Nat.le_succ _
  | case3 _ _ _ _ ih => exact Nat.le_succ_of_le (ih h)
  | case4 => cases h

-- What comes after the line whose end is next, apart from spaces and a comment.
def endLine (cs : List Char) : Except Error (List Char) :=
  match skipSpace cs with
  | [] => .ok []
  | '\n' :: cs => .ok cs
  | '#' :: cs => endComment cs
  | _ => .error .malformed

theorem length_endLine {cs rest : List Char} (h : endLine cs = .ok rest) :
    rest.length ≤ cs.length - 1 := by
  have hs := length_skipSpace cs
  unfold endLine at h
  split at h <;> simp_all
  · omega
  · have := length_endComment h
    omega

def readStatement? (p : Place) (cs : List Char) :
    Except Error (Place × { rest : List Char // rest.length ≤ cs.length }) := do
  if cs.head?.any fun c => c = '\n' || c = '#' then return (p, ⟨cs, Nat.le_refl _⟩)
  else
    let s ← readStatement cs
    match p.write s.value with
    | some p => return (p, ⟨s.rest, Nat.le_of_lt s.shorter⟩)
    | none => .error .malformed

theorem length_behind_line {cs rest after next : List Char} {c : Char}
    (h : skipSpace cs = c :: rest) (hl : endLine after = .ok next)
    (shorter : after.length ≤ (c :: rest).length) : next.length < cs.length := by
  have := length_behind_space h
  have := length_endLine hl
  rw [List.length_cons] at shorter
  omega

-- Statements are written one after another, each on a line of its own.
def readLines (p : Place) (cs : List Char) : Except Error Table :=
  match h : skipSpace cs with
  | [] => .ok p.document.root
  | c :: rest =>
    match readStatement? p (c :: rest) with
    | .error e => .error e
    | .ok (p, after) =>
      match hl : endLine after.val with
      | .error e => .error e
      | .ok next =>
        have := length_behind_line h hl after.property
        readLines p next
termination_by cs.length

def joinBreaks : List Char → List Char
  | '\r' :: '\n' :: cs => '\n' :: joinBreaks cs
  | c :: cs => c :: joinBreaks cs
  | [] => []

def read (cs : List Char) : Except Error Table :=
  readLines {} (joinBreaks cs)

end CLint.Toml
