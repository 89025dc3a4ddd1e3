import CLint.Stmt.Scan
import CLint.Decl.Batch

namespace CLint

-- What a reader made of the front of some code, and the rest, which is no longer than `n`.
structure Parsed (α : Type) (n : Nat) where
  value : α
  rest : List Lexeme
  bound : rest.length ≤ n

namespace Parsed

variable {α β : Type} {m n : Nat}

def weaken (p : Parsed α m) (h : m ≤ n) : Parsed α n where
  value := p.value
  rest := p.rest
  bound := Nat.le_trans p.bound h

def map (f : α → β) (p : Parsed α n) : Parsed β n where
  value := f p.value
  rest := p.rest
  bound := p.bound

end Parsed

namespace Stmt

-- A simple statement, or at file level possibly the header of a function definition, for which
-- the text has to stop before a brace.
def startsFunction (atFile : Bool) (l : Lexeme) (text : List Lexeme) (ended : Bool)
    (rest : List Lexeme) : Bool :=
  atFile && !ended && (rest.head?.any (·.isMark .lbrace)) &&
    Batch.definesFunction ⟨0, l :: text⟩

def isCaseWord (k : Keyword) : Bool :=
  k = .caseKw || k = .defaultKw

-- Does `l`, which may be a name, begin a label together with what follows it?
def startsLabel (l : Lexeme) (ls : List Lexeme) : Bool :=
  l.isIdentifier && (ls.head?.any (·.isMark .colon))

mutual

-- The statement that begins with `l`. Names are labels, and functions are not defined, anywhere
-- but at file level.
def read (atFile : Bool) (l : Lexeme) (ls : List Lexeme) : Parsed Stmt ls.length :=
  match l with
  | .punct .lbrace => (readItems ls).map fun r => block r.1 r.2
  | .punct .rbrace => ⟨stray, ls, Nat.le_refl _⟩
  | .punct .semicolon => ⟨empty, ls, Nat.le_refl _⟩
  | .keyword .ifKw => readBranch .ifHead ls
  | .keyword .elseKw => (readBody ls).map (control .loneElse none)
  | .keyword .switchKw => readHeaded .switchHead ls
  | .keyword .forKw => readHeaded .forHead ls
  | .keyword .whileKw => readHeaded .whileHead ls
  | .keyword .doKw =>
    let body := readBody ls
    let tail := readDoWhile body.rest
    ⟨control .doHead none (body.value ++ tail.1), tail.2,
      Nat.le_trans (readDoWhile_length _) body.bound⟩
  | .keyword k =>
    if isCaseWord k then
      let r := readLabel 0 0 ls
      ⟨label l r.1, r.2, readLabel_length ..⟩
    else if k.isJump then
      let r := readText l ls
      ⟨jump k r.1 r.2.1, r.2.2, readText_length ..⟩
    else readSimple atFile l ls
  | l =>
    if !atFile && startsLabel l ls then
      ⟨label l (ls.take 1), ls.drop 1, by simp⟩
    else readSimple atFile l ls
termination_by 4 * ls.length + 4

def readSimple (atFile : Bool) (l : Lexeme) (ls : List Lexeme) : Parsed Stmt ls.length :=
  let r := readText l ls
  if startsFunction atFile l r.1 r.2.1 r.2.2 then
    have : r.2.2.length ≤ ls.length := readText_length l ls
    let body := readItems (r.2.2.drop 1)
    (body.weaken (by simp; omega)).map fun b => function (l :: r.1) (block b.1 b.2)
  else ⟨simple atFile l r.1 r.2.1, r.2.2, readText_length ..⟩
termination_by 4 * ls.length + 3
decreasing_by
  have := readText_length l ls
  simp
  omega

-- The statements up to the brace that closes their block, and whether it is there.
def readItems (ls : List Lexeme) : Parsed (List Stmt × Bool) ls.length :=
  match ls with
  | [] => ⟨([], false), [], Nat.le_refl _⟩
  | l :: ls =>
    if l.isMark .rbrace then ⟨([], true), ls, by simp⟩
    else
      let s := read false l ls
      ((readItems s.rest).weaken (Nat.le_succ_of_le s.bound)).map fun r => (s.value :: r.1, r.2)
termination_by 4 * ls.length + 1
decreasing_by
  · simp
    omega
  · have := Nat.mul_le_mul_left 4 (Nat.succ_le_succ (Parsed.bound s))
    exact Nat.succ_lt_succ (Nat.lt_of_lt_of_le (Nat.lt_add_of_pos_right (by decide)) this)

-- The body of a control statement. There is none at the end of the code, nor before a brace that
-- closes a block around the statement.
def readBody (ls : List Lexeme) : Parsed (List Stmt) ls.length :=
  match ls with
  | [] => ⟨[], [], Nat.le_refl _⟩
  | l :: ls =>
    if l.isMark .rbrace then ⟨[], l :: ls, Nat.le_refl _⟩
    else ((read false l ls).weaken (by simp)).map ([·])
termination_by 4 * ls.length + 1

-- A control statement from behind its keyword.
def readHeaded (head : Head) (ls : List Lexeme) : Parsed Stmt ls.length :=
  let g := readGroup (head = .forHead) ls
  ((readBody g.2).weaken (readGroup_length ..)).map (control head g.1)
termination_by 4 * ls.length + 2
decreasing_by
  have := readGroup_length (head = .forHead) ls
  omega

-- An `if` from behind its keyword, with all that continues it.
def readBranch (head : Head) (ls : List Lexeme) : Parsed Stmt ls.length :=
  let g := readGroup false ls
  let body := readBody g.2
  let tail := readTail body.rest
  have hg : g.2.length ≤ ls.length := readGroup_length false ls
  (tail.weaken (Nat.le_trans body.bound hg)).map fun t => control head g.1 (body.value ++ t)
termination_by 4 * ls.length + 3
decreasing_by
  · have := readGroup_length false ls
    omega
  · have := Nat.mul_le_mul_left 4 (Nat.le_trans (Parsed.bound body) (readGroup_length false ls))
    exact Nat.lt_succ_of_le (Nat.add_le_add_right this 2)

-- The `else` that continues an `if`, if there is one.
def readTail (ls : List Lexeme) : Parsed (List Stmt) ls.length :=
  match ls with
  | .keyword .elseKw :: .keyword .ifKw :: ls =>
    ((readBranch .elseIf ls).weaken (by simp; omega)).map ([·])
  | .keyword .elseKw :: ls =>
    ((readBody ls).weaken (by simp)).map ([control .elseHead none ·])
  | ls => ⟨[], ls, Nat.le_refl _⟩
termination_by 4 * ls.length + 2

end

-- The statements of a whole file. At file level a closing brace is a statement of its own.
def readFile (ls : List Lexeme) : List Stmt :=
  match ls with
  | [] => []
  | l :: ls =>
    let s := read true l ls
    s.value :: readFile s.rest
termination_by ls.length
decreasing_by
  exact Nat.lt_succ_of_le (Parsed.bound _)

end Stmt
end CLint
