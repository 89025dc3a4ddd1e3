import CLint.Cut

namespace CLint

-- What a pattern for whole paths consists of. Slashes are characters like any other.
inductive Glob.Part
  | star
  | any
  | literal (c : Char)
  | oneOf (negated : Bool) (pieces : List (List Char))
  deriving DecidableEq, Repr

structure Glob where
  parts : List Glob.Part
  deriving DecidableEq, Repr

namespace Glob

theorem length_behind {p : Char → Bool} {c : Char} {cs rest : List Char} {n : Nat}
    (h : (cs.drop n).dropWhile p = c :: rest) : rest.length < cs.length := by
  have := (List.dropWhile_sublist (l := cs.drop n) p).length_le
  rw [h] at this
  simp at this
  omega

-- The pieces of a set are what stands between the dashes that form ranges. A dash that is among
-- the first `skip` characters of a piece does not end it.
def pieces (skip : Nat) (cs : List Char) : List (List Char) :=
  match h : (cs.drop skip).dropWhile (· ≠ '-') with
  | [] => [cs]
  | _ :: rest =>
    have := length_behind h
    (cs.take skip ++ (cs.drop skip).takeWhile (· ≠ '-')) :: pieces 2 rest
termination_by cs.length

-- The dash before the end of a set is part of the last piece.
def closeLast : List (List Char) → List (List Char)
  | [p, []] => [p ++ ['-']]
  | p :: ps => p :: closeLast ps
  | [] => []

-- The ends of a range that holds nothing are dropped, and the pieces on its sides become one.
def dropEmptyRanges : List (List Char) → List (List Char)
  | [] => []
  | p :: ps =>
    match dropEmptyRanges ps with
    | [] => [p]
    | q :: qs =>
      match p.getLast?, q with
      | some low, high :: q =>
        if high < low then (p.dropLast ++ q) :: qs else p :: (high :: q) :: qs
      | _, q => p :: q :: qs

-- A set from what its brackets enclose. An exclamation mark in front turns it around.
def setOf (cs : List Char) : Part :=
  let skip := if cs.head? = some '!' then 2 else 1
  match dropEmptyRanges (closeLast (pieces skip cs)) with
  | ('!' :: p) :: ps => .oneOf true (p :: ps)
  | ps => .oneOf false ps

-- What belongs to a set even if it is a closing bracket, and the rest.
def setFront : List Char → List Char × List Char
  | '!' :: ']' :: cs => (['!', ']'], cs)
  | '!' :: cs => (['!'], cs)
  | ']' :: cs => ([']'], cs)
  | cs => ([], cs)

-- What is between an opening bracket and the one that closes it, and what comes after that.
def readSet (cs : List Char) : Option (List Char × List Char) :=
  let (front, cs) := setFront cs
  match cs.dropWhile (· ≠ ']') with
  | [] => none
  | _ :: rest => some (front ++ cs.takeWhile (· ≠ ']'), rest)

theorem length_setFront (cs : List Char) : (setFront cs).2.length ≤ cs.length := by
  unfold setFront
  split <;> simp only [List.length_cons] <;> omega

theorem length_readSet {cs set rest : List Char} (h : readSet cs = some (set, rest)) :
    rest.length < cs.length := by
  unfold readSet at h
  simp only at h
  split at h
  · simp at h
  · rename_i behind
    have := length_behind (n := 0) behind
    have := length_setFront cs
    simp_all
    omega

-- Several stars in a row are as good as one. A bracket that nothing closes stands for itself.
def readParts : List Char → List Part
  | [] => []
  | '*' :: cs =>
    match readParts cs with
    | .star :: ps => .star :: ps
    | ps => .star :: ps
  | '?' :: cs => .any :: readParts cs
  | '[' :: cs =>
    match h : readSet cs with
    | some (set, rest) =>
      have := length_readSet h
      setOf set :: readParts rest
    | none => .literal '[' :: readParts cs
  | c :: cs => .literal c :: readParts cs
termination_by cs => cs.length

def ofText (s : String) : Glob where
  parts := readParts s.toList

-- Is a character in one of the pieces of a set or in a range between two of them? A dash in front
-- stands for itself.
def inPieces (c : Char) : List (List Char) → Bool
  | [] => false
  | [p] => p.contains c
  | p :: q :: ps =>
    p.contains c || inPieces c (q :: ps) ||
      match p.getLast?, q.head? with
      | some low, some high => low ≤ c && c ≤ high
      | _, _ => c = '-'

def Part.accepts (c : Char) : Part → Bool
  | star => false
  | any => true
  | literal d => c = d
  | oneOf negated ps => inPieces c ps != negated

def ends : List Char → List (List Char)
  | [] => [[]]
  | c :: cs => (c :: cs) :: ends cs

-- What a part can leave of texts of which each one ends the one before.
def Part.rests (p : Part) (texts : List (List Char)) : List (List Char) :=
  match p with
  | star => texts.head?.elim [] ends
  | p => texts.filterMap fun
    | [] => none
    | c :: cs => if p.accepts c then some cs else none

-- Does the whole text have the form of the pattern?
def matchesText (g : Glob) (s : String) : Bool :=
  (g.parts.foldl (fun texts p => p.rests texts) [s.toList]).contains []

end Glob
end CLint
