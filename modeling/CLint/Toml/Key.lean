import CLint.Toml.Front
import CLint.Toml.Document

namespace CLint.Toml

def isKeyChar (c : Char) : Bool :=
  c.isAlphanum || c = '-' || c = '_'

def readQuoted (read : List Char → Option (List Char × List Char))
    (length_read : ∀ {cs text rest}, read cs = some (text, rest) → rest.length < cs.length)
    (cs : List Char) : Outcome String cs :=
  match h : read cs with
  | some (text, rest) => .ok ⟨String.ofList text, rest, length_read h⟩
  | none => .error .malformed

def readBareKey (cs : List Char) : Outcome String cs :=
  if h : (cs.dropWhile isKeyChar).length < cs.length then
    .ok ⟨String.ofList (cs.takeWhile isKeyChar), cs.dropWhile isKeyChar, h⟩
  else .error .malformed

def readKeyPart (cs : List Char) : Outcome String cs :=
  if cs.head?.any isKeyChar then readBareKey cs else readQuoted quotedLine length_quotedLine cs

theorem length_behind_part {cs behind rest : List Char} {c : Char}
    (shorter : behind.length < cs.length) (h : skipSpace behind = c :: rest) :
    (skipSpace rest).length < cs.length :=
  Nat.lt_of_le_of_lt (length_skipSpace rest) (Nat.lt_trans (length_behind_space h) shorter)

theorem length_behind_char {cs behind rest : List Char} {c : Char}
    (shorter : behind.length < cs.length) (h : behind = c :: rest) :
    (skipSpace rest).length < cs.length := by
  rw [h, List.length_cons] at shorter
  exact Nat.lt_of_le_of_lt (length_skipSpace rest) (Nat.lt_of_succ_lt shorter)

-- The parts of a key, with dots between them.
def readKey (cs : List Char) : Outcome Key cs := do
  let part ← readKeyPart cs
  match h : skipSpace part.rest with
  | '.' :: rest =>
    have shorter := length_behind_part part.shorter h
    let keys ← readKey (skipSpace rest)
    return (keys.weaken (Nat.le_of_lt shorter)).map (part.value :: ·)
  | rest => return ⟨[part.value], rest, h ▸ Nat.lt_of_le_of_lt (length_skipSpace _) part.shorter⟩
termination_by cs.length

-- A key and the equals sign behind it.
def readName (cs : List Char) : Outcome Key cs := do
  let key ← readKey cs
  match h : key.rest with
  | '=' :: rest =>
    return ⟨key.value, skipSpace rest, length_behind_char key.shorter h⟩
  | _ => .error .malformed

end CLint.Toml
