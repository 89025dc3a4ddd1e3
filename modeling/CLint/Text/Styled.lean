namespace CLint.Text

inductive Colour
  | red | green | yellow | cyan | white
  deriving DecidableEq, Repr

def Colour.code : Colour → Nat
  | red => 31
  | green => 32
  | yellow => 33
  | cyan => 36
  | white => 37

-- What a terminal takes as an instruction and does not show.
def control (code : Nat) : String :=
  s!"\x1b[{code}m"

def styled (colour : Option Colour) (bold : Bool) (s : String) : String :=
  colour.elim "" (control ·.code) ++ (if bold then control 1 else "") ++ s ++ control 0

def isParameter (c : Char) : Bool :=
  c = ';' || c = '?' || c.isDigit

-- What follows an instruction, if its beginning is what comes before the text.
def behindControl (cs : List Char) : Option (List Char) :=
  match cs.dropWhile isParameter with
  | c :: rest => if c.isAlpha then some rest else none
  | [] => none

theorem length_behindControl {cs rest : List Char} (h : behindControl cs = some rest) :
    rest.length < cs.length := by
  have := (List.dropWhile_sublist (l := cs) isParameter).length_le
  unfold behindControl at h
  split at h
  · next c behind hb =>
    rw [hb, List.length_cons] at this
    split at h
    · cases h
      omega
    · cases h
  · cases h

-- The text that a terminal shows.
def plain : List Char → List Char
  | '\x1b' :: '[' :: cs =>
    match h : behindControl cs with
    | some rest =>
      have := length_behindControl h
      plain rest
    | none => '\x1b' :: '[' :: plain cs
  | c :: cs => c :: plain cs
  | [] => []
termination_by cs => cs.length

end CLint.Text
