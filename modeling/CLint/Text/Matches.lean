namespace CLint.Text

variable {α : Type}

-- A pattern looks at the front of a text. If it matches, it yields a value and the number of
-- characters that it takes.
abbrev Pattern (α : Type) :=
  List Char → Option (α × Nat)

-- All matches of a pattern from left to right, of which none overlaps the one before. The first
-- `skip` characters belong to the last match.
def matchesFrom (p : Pattern α) (skip : Nat) : List Char → List α
  | [] => []
  | c :: cs =>
    match skip with
    | skip + 1 => matchesFrom p skip cs
    | 0 =>
      match p (c :: cs) with
      | some (a, n) => a :: matchesFrom p (n - 1) cs
      | none => matchesFrom p 0 cs

def allMatches (p : Pattern α) (cs : List Char) : List α :=
  matchesFrom p 0 cs

-- Does the pattern match somewhere in the text?
def occurs (p : List Char → Bool) : List Char → Bool
  | [] => p []
  | c :: cs => p (c :: cs) || occurs p cs

def isInfix (part cs : List Char) : Bool :=
  occurs part.isPrefixOf cs

end CLint.Text
