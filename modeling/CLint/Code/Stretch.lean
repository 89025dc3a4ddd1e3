import CLint.Token.Lexeme

namespace CLint

-- The code of a file is its lexemes without blanks, line breaks, comments and directives. They
-- are numbered from zero, and a run is given by the numbers of its first and last lexeme.
structure Run where
  first : Nat
  last : Nat
  deriving DecidableEq, Repr, Inhabited

-- A stretch of code: the number of its first lexeme, and all its lexemes.
structure Stretch where
  start : Nat
  lexemes : List Lexeme
  deriving Repr

namespace Stretch

def length (s : Stretch) : Nat :=
  s.lexemes.length

def isEmpty (s : Stretch) : Bool :=
  s.lexemes.isEmpty

-- The number of the last lexeme, if there is one.
def last (s : Stretch) : Nat :=
  s.start + s.length - 1

def run (s : Stretch) : Run where
  first := s.start
  last := s.last

def run? (s : Stretch) : Option Run :=
  if s.isEmpty then none else some s.run

def drop (s : Stretch) (n : Nat) : Stretch where
  start := s.start + n
  lexemes := s.lexemes.drop n

end Stretch

namespace Lexeme

-- By how much a lexeme changes the depth to which the code is nested.
def nesting : Lexeme → Int
  | punct .lparen | punct .lbracket | punct .lbrace => 1
  | punct .rparen | punct .rbracket | punct .rbrace => -1
  | _ => 0

-- The same if braces do not count.
def nestingFlat (l : Lexeme) : Int :=
  if l.isOpener then 1 else if l.isCloser then -1 else 0

-- The spelling of some code with single blanks.
def spaced (ls : List Lexeme) : String :=
  " ".intercalate (ls.map text)

end Lexeme

namespace Code

-- Code is cut at every `mark` that is not nested. There is one more piece than there are cuts.
def cut (nest : Lexeme → Int) (mark : Punct) (depth : Int) : List Lexeme → List (List Lexeme)
  | [] => [[]]
  | l :: ls =>
    if l.isMark mark && depth = 0 then [] :: cut nest mark depth ls
    else
      match cut nest mark (depth + nest l) ls with
      | [] => [[l]]
      | piece :: pieces => (l :: piece) :: pieces

theorem length_of_mem_cut {nest : Lexeme → Int} {mark : Punct} {depth : Int}
    {ls piece : List Lexeme} (h : piece ∈ cut nest mark depth ls) : piece.length ≤ ls.length := by
  fun_induction cut nest mark depth ls generalizing piece with
  | case1 =>
    cases List.mem_singleton.mp h
    exact Nat.le_refl _
  | case2 _ _ _ _ ih =>
    cases List.mem_cons.mp h
    case inl h => exact h ▸ Nat.zero_le _
    case inr h => exact Nat.le_succ_of_le (ih h)
  | case3 =>
    cases List.mem_singleton.mp h
    exact Nat.succ_le_succ (Nat.zero_le _)
  | case4 _ _ _ _ _ _ hc ih =>
    cases List.mem_cons.mp h
    case inl h => exact h ▸ Nat.succ_le_succ (ih (hc ▸ List.mem_cons_self))
    case inr h => exact Nat.le_succ_of_le (ih (hc ▸ List.mem_cons_of_mem _ h))

-- The pieces at their places, where one lexeme was cut out between neighbours.
def laidOut (start : Nat) : List (List Lexeme) → List Stretch
  | [] => []
  | piece :: pieces => ⟨start, piece⟩ :: laidOut (start + piece.length + 1) pieces

theorem lexemes_of_mem_laidOut {start : Nat} {pieces : List (List Lexeme)} {s : Stretch}
    (h : s ∈ laidOut start pieces) : s.lexemes ∈ pieces := by
  fun_induction laidOut start pieces with
  | case1 => cases h
  | case2 _ _ _ ih =>
    cases List.mem_cons.mp h
    case inl h => exact h ▸ List.mem_cons_self
    case inr h => exact List.mem_cons_of_mem _ (ih h)

end Code

namespace Stretch

def cut (nest : Lexeme → Int) (mark : Punct) (s : Stretch) : List Stretch :=
  Code.laidOut s.start (Code.cut nest mark 0 s.lexemes)

-- The parts of a stretch between the marks that are not nested, without empty ones.
def parts (mark : Punct) (s : Stretch) : List Stretch :=
  (s.cut Lexeme.nesting mark).filter (!·.isEmpty)

-- All parts of a stretch lie within it.
theorem length_of_mem_parts {mark : Punct} {s t : Stretch} (h : t ∈ s.parts mark) :
    t.lexemes.length ≤ s.lexemes.length :=
  Code.length_of_mem_cut (Code.lexemes_of_mem_laidOut (List.mem_filter.mp h).1)

end Stretch

-- What an opening bracket encloses. Where the closing one is missing, the last lexeme at hand is
-- taken in its place.
structure Enclosed where
  inner : List Lexeme
  close : Option Lexeme
  deriving DecidableEq, Repr

namespace Enclosed

-- The number of lexemes, the opening bracket included.
def size (e : Enclosed) : Nat :=
  1 + e.inner.length + e.close.toList.length

-- The code from behind an opening bracket up to the bracket that closes it.
def find? (opens closes : Lexeme → Bool) (depth : Nat) :
    List Lexeme → Option (List Lexeme × Lexeme)
  | [] => none
  | l :: ls =>
    if closes l then
      match depth with
      | 0 => some ([], l)
      | depth + 1 => (find? opens closes depth ls).map fun (inner, close) => (l :: inner, close)
    else
      (find? opens closes (if opens l then depth + 1 else depth) ls).map
        fun (inner, close) => (l :: inner, close)

theorem length_find? {opens closes : Lexeme → Bool} {depth : Nat} {ls inner : List Lexeme}
    {close : Lexeme} (h : find? opens closes depth ls = some (inner, close)) :
    inner.length < ls.length := by
  fun_induction find? opens closes depth ls generalizing inner with
  | case1 => cases h
  | case2 =>
    cases h
    exact Nat.succ_pos _
  | case3 _ _ _ _ ih =>
    obtain ⟨_, hf, hk⟩ := Option.map_eq_some_iff.mp h
    cases hk
    exact Nat.succ_lt_succ (ih hf)
  | case4 _ _ _ _ ih =>
    obtain ⟨_, hf, hk⟩ := Option.map_eq_some_iff.mp h
    cases hk
    exact Nat.succ_lt_succ (ih hf)

def read (opens closes : Lexeme → Bool) (after : List Lexeme) : Enclosed :=
  match find? opens closes 0 after with
  | some (inner, close) => ⟨inner, some close⟩
  | none => ⟨after.dropLast, after.getLast?⟩

theorem length_inner_read (opens closes : Lexeme → Bool) (after : List Lexeme) :
    (read opens closes after).inner.length ≤ after.length := by
  unfold read
  split
  case h_1 h => exact Nat.le_of_lt (length_find? h)
  case h_2 => exact (List.dropLast_sublist after).length_le

def inBrackets : List Lexeme → Enclosed :=
  read Lexeme.isOpener Lexeme.isCloser

def inBraces : List Lexeme → Enclosed :=
  read (·.isMark .lbrace) (·.isMark .rbrace)

end Enclosed
end CLint
