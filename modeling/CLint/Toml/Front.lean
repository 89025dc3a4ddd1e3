import CLint.Toml.Quoted

namespace CLint.Toml

-- Why a text is no document.
inductive Error
  | malformed
  | overlong (digitCount : Nat)
  deriving DecidableEq, Repr

-- What was read from the front of a text of `n` characters, and the rest, which is shorter.
structure Front (α : Type) (n : Nat) where
  value : α
  rest : List Char
  shorter : rest.length < n

namespace Front

variable {α β : Type} {m n : Nat}

def weaken (f : Front α m) (h : m ≤ n) : Front α n where
  value := f.value
  rest := f.rest
  shorter := Nat.lt_of_lt_of_le f.shorter h

def map (g : α → β) (f : Front α n) : Front β n where
  value := g f.value
  rest := f.rest
  shorter := f.shorter

end Front

abbrev Outcome (α : Type) (cs : List Char) :=
  Except Error (Front α cs.length)

theorem length_le_succ (cs : List Char) : cs.length ≤ cs.length + 1 :=
  Nat.le_succ _

def skipSpace (cs : List Char) : List Char :=
  cs.dropWhile isSpace

theorem length_skipSpace (cs : List Char) : (skipSpace cs).length ≤ cs.length :=
  (List.dropWhile_sublist _).length_le

theorem length_behind_space {cs rest : List Char} {c : Char} (h : skipSpace cs = c :: rest) :
    rest.length < cs.length := by
  have shrinks := length_skipSpace cs
  rw [h] at shrinks
  exact shrinks

-- The next thing in a list. Line breaks and comments may stand before it.
def skipGaps (inComment : Bool) : List Char → Except Error (List Char)
  | [] => .ok []
  | c :: cs =>
    if c = '\n' then skipGaps false cs
    else if inComment then if isFree false c then skipGaps true cs else .error .malformed
    else if isSpace c then skipGaps false cs
    else if c = '#' then skipGaps true cs
    else .ok (c :: cs)

theorem length_skipGaps {inComment : Bool} {cs rest : List Char}
    (h : skipGaps inComment cs = .ok rest) : rest.length ≤ cs.length := by
  fun_induction skipGaps inComment cs with
  | case1 => exact Nat.le_of_eq (congrArg List.length (Except.ok.inj h).symm)
  | case2 _ _ ih => exact Nat.le_succ_of_le (ih h)
  | case3 _ _ _ _ ih => exact Nat.le_succ_of_le (ih h)
  | case4 => cases h
  | case5 _ _ _ _ _ _ ih => exact Nat.le_succ_of_le (ih h)
  | case6 _ _ _ _ _ ih => exact Nat.le_succ_of_le (ih h)
  | case7 => exact Nat.le_of_eq (congrArg List.length (Except.ok.inj h).symm)

theorem length_behind_gaps {inComment : Bool} {cs rest : List Char} {c : Char}
    (h : skipGaps inComment cs = .ok (c :: rest)) : rest.length < cs.length :=
  Nat.lt_of_succ_le (length_skipGaps h)

end CLint.Toml
