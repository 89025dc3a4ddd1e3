import CLint.Cut
import CLint.Stmt.Basic

namespace CLint

open Cut

-- The readers of this module cut code in two, what belongs to a part of a statement and what
-- follows.

namespace Group

def push (l : Lexeme) (r : Group × List Lexeme) : Group × List Lexeme :=
  (⟨l :: r.1.inner, r.1.close⟩, r.2)

-- The code behind an opening parenthesis. A group ends before a brace that closes a block around
-- it, and before a semicolon if semicolons have no place in it, unless that is in braces.
def read (semicolons : Bool) (depth braces : Nat) : List Lexeme → Group × List Lexeme
  | [] => (⟨[], none⟩, [])
  | l :: ls =>
    if l.isOpener then push l (read semicolons (depth + 1) braces ls)
    else if l.isCloser then
      match depth with
      | 0 => (⟨[], some l⟩, ls)
      | depth + 1 => push l (read semicolons depth braces ls)
    else if l.isMark .lbrace then push l (read semicolons depth (braces + 1) ls)
    else if l.isMark .rbrace then
      match braces with
      | 0 => (⟨[], none⟩, l :: ls)
      | braces + 1 => push l (read semicolons depth braces ls)
    else if l.isMark .semicolon && braces = 0 && !semicolons then (⟨[], none⟩, l :: ls)
    else push l (read semicolons depth braces ls)

theorem read_append (semicolons : Bool) (depth braces : Nat) (ls : List Lexeme) :
    let r := read semicolons depth braces ls
    r.1.inner ++ r.1.close.toList ++ r.2 = ls := by
  fun_induction read semicolons depth braces ls <;> simp_all [push]

end Group

-- What a scan of a simple statement remembers: the open brackets of each kind, whether an equals
-- sign was met outside of all of them, and whether a brace here would open the body of a tagged
-- type.
inductive TagState
  | none | tag | tagName
  deriving DecidableEq, Repr

structure Scan where
  parens : Nat := 0
  brackets : Nat := 0
  braces : Nat := 0
  assigned : Bool := false
  tag : TagState := .none
  deriving DecidableEq, Repr

namespace Scan

def isTop (s : Scan) : Bool :=
  s.parens = 0 && s.brackets = 0 && s.braces = 0

def tagStep (t : TagState) (l : Lexeme) : TagState :=
  if l.isTag then .tag
  else if l.isIdentifier && t = .tag then .tagName
  else .none

-- A simple statement ends with a semicolon outside of all brackets. It ends already before a brace
-- that closes a block around it and before one that opens a block, which is any that opens
-- outside of all brackets, neither in an initializer nor for a tagged type.
def stopsAt (s : Scan) : Lexeme → Bool
  | .punct .lbrace => s.isTop && !s.assigned && s.tag = .none
  | .punct .rbrace => s.braces = 0
  | .punct .semicolon => s.isTop
  | _ => false

-- Brackets that close nothing are not counted.
def step (s : Scan) (l : Lexeme) : Scan :=
  let s : Scan := { s with tag := tagStep s.tag l }
  match l with
  | .punct .lparen => { s with parens := s.parens + 1 }
  | .punct .rparen => { s with parens := s.parens - 1 }
  | .punct .lbracket => { s with brackets := s.brackets + 1 }
  | .punct .rbracket => { s with brackets := s.brackets - 1 }
  | .punct .lbrace => { s with braces := s.braces + 1 }
  | .punct .rbrace => { s with braces := s.braces - 1 }
  | .punct .assign => { s with assigned := s.assigned || s.isTop }
  | _ => s

def read (s : Scan) : List Lexeme → List Lexeme × List Lexeme
  | [] => ([], [])
  | l :: ls =>
    if s.stopsAt l then ([], l :: ls)
    else keep l ((s.step l).read ls)

theorem read_append (s : Scan) (ls : List Lexeme) : (s.read ls).1 ++ (s.read ls).2 = ls := by
  fun_induction read s ls <;> simp_all

end Scan

namespace Stmt

-- A semicolon at the front of some code, if there is one.
def semicolon : List Lexeme → Bool × List Lexeme
  | .punct .semicolon :: ls => (true, ls)
  | ls => (false, ls)

theorem semicolon_append (ls : List Lexeme) :
    semicolonIf (semicolon ls).1 ++ (semicolon ls).2 = ls := by
  unfold semicolon
  split <;> rfl

-- The rest of a statement that begins with `l`.
def readText (l : Lexeme) (ls : List Lexeme) : List Lexeme × Bool × List Lexeme :=
  let r := (Scan.step {} l).read ls
  (r.1, semicolon r.2)

theorem readText_append (l : Lexeme) (ls : List Lexeme) :
    let r := readText l ls
    r.1 ++ semicolonIf r.2.1 ++ r.2.2 = ls := by
  simp only [readText, List.append_assoc, semicolon_append, Scan.read_append]

-- The text of a case label ends with a colon that belongs to no question mark and is not
-- enclosed, and in any case before a semicolon or a brace.
def readLabel (depth : Int) (pending : Nat) : List Lexeme → List Lexeme × List Lexeme
  | [] => ([], [])
  | l :: ls =>
    if l.isOpener then keep l (readLabel (depth + 1) pending ls)
    else if l.isCloser then keep l (readLabel (depth - 1) pending ls)
    else if l.isMark .question then keep l (readLabel depth (pending + 1) ls)
    else if l.isMark .colon && depth ≤ 0 then
      match pending with
      | 0 => ([l], ls)
      | pending + 1 => keep l (readLabel depth pending ls)
    else if l.isMark .semicolon || l.isMark .lbrace || l.isMark .rbrace then ([], l :: ls)
    else keep l (readLabel depth pending ls)

theorem readLabel_append (depth : Int) (pending : Nat) (ls : List Lexeme) :
    (readLabel depth pending ls).1 ++ (readLabel depth pending ls).2 = ls := by
  fun_induction readLabel depth pending ls with
  | case1 => rfl
  | case5 => rfl
  | _ => simp_all

-- The parenthesized group at the front of some code, if there is one.
def readGroup (semicolons : Bool) : List Lexeme → Option Group × List Lexeme
  | .punct .lparen :: ls =>
    let r := Group.read semicolons 0 0 ls
    (some r.1, r.2)
  | ls => (none, ls)

theorem readGroup_append (semicolons : Bool) (ls : List Lexeme) :
    groupLexemes (readGroup semicolons ls).1 ++ (readGroup semicolons ls).2 = ls := by
  unfold readGroup
  split
  case h_1 ls => simpa [groupLexemes, Group.lexemes] using Group.read_append semicolons 0 0 ls
  case h_2 => rfl

-- The `while` that ends a `do`, if it is there.
def readDoWhile : List Lexeme → List Stmt × List Lexeme
  | .keyword .whileKw :: ls =>
    let g := readGroup false ls
    let e := semicolon g.2
    ([doWhile g.1 e.1], e.2)
  | ls => ([], ls)

theorem readDoWhile_append (ls : List Lexeme) :
    listLexemes (readDoWhile ls).1 ++ (readDoWhile ls).2 = ls := by
  unfold readDoWhile
  split
  case h_1 ls => simp [listLexemes, lexemes, semicolon_append, readGroup_append]
  case h_2 => rfl

theorem length_le_of_append {as bs ls : List Lexeme} (h : as ++ bs = ls) :
    bs.length ≤ ls.length := by
  simp [← h]

theorem readText_length (l : Lexeme) (ls : List Lexeme) :
    (readText l ls).2.2.length ≤ ls.length :=
  length_le_of_append (readText_append l ls)

theorem readLabel_length (depth : Int) (pending : Nat) (ls : List Lexeme) :
    (readLabel depth pending ls).2.length ≤ ls.length :=
  length_le_of_append (readLabel_append depth pending ls)

theorem readGroup_length (semicolons : Bool) (ls : List Lexeme) :
    (readGroup semicolons ls).2.length ≤ ls.length :=
  length_le_of_append (readGroup_append semicolons ls)

theorem readDoWhile_length (ls : List Lexeme) : (readDoWhile ls).2.length ≤ ls.length :=
  length_le_of_append (readDoWhile_append ls)

end Stmt
end CLint
