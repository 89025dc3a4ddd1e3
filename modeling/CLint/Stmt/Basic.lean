import CLint.Token.Lexeme

namespace CLint

-- A parenthesized group behind a keyword. The closing lexeme, which need not be a parenthesis, is
-- missing if the group is not closed.
structure Group where
  inner : List Lexeme
  close : Option Lexeme
  deriving DecidableEq, Repr

namespace Group

def lexemes (g : Group) : List Lexeme :=
  .punct .lparen :: g.inner ++ g.close.toList

def isClosed (g : Group) : Bool :=
  g.close.isSome

-- What the group is about. In a group that is not closed the last lexeme stands in for the
-- closing one.
def content (g : Group) : List Lexeme :=
  if g.isClosed then g.inner else g.inner.dropLast

end Group

-- The heads of the control statements. An `else` that continues an `if` is told apart from one
-- that stands alone, and an `else` with an `if` directly behind it counts as one head.
inductive Head
  | ifHead | elseIf | elseHead | loneElse | switchHead | forHead | whileHead | doHead
  deriving DecidableEq, Repr

namespace Head

def lexemes : Head → List Lexeme
  | ifHead => [.keyword .ifKw]
  | elseIf => [.keyword .elseKw, .keyword .ifKw]
  | elseHead | loneElse => [.keyword .elseKw]
  | switchHead => [.keyword .switchKw]
  | forHead => [.keyword .forKw]
  | whileHead => [.keyword .whileKw]
  | doHead => [.keyword .doKw]

end Head

-- A statement, as far as its braces, parentheses and keywords tell. Nothing of the code is left
-- out, and nothing of it is refused: what is missing at the end of the code is marked as such.
--
-- The parts of a control statement are its body, if it has one, and then the part that continues
-- it: an `else` for an `if`, and the `doWhile` for a `do`. A `stray` is a closing brace that closes
-- nothing. What is marked as `ended` ends in a semicolon, which is not part of its text.
inductive Stmt
  | empty
  | stray
  | label (word : Lexeme) (text : List Lexeme)
  | jump (word : Keyword) (text : List Lexeme) (ended : Bool)
  | simple (atFile : Bool) (first : Lexeme) (text : List Lexeme) (ended : Bool)
  | block (items : List Stmt) (closed : Bool)
  | function (header : List Lexeme) (body : Stmt)
  | control (head : Head) (group : Option Group) (parts : List Stmt)
  | doWhile (group : Option Group) (ended : Bool)

namespace Stmt

def semicolonIf (ended : Bool) : List Lexeme :=
  if ended then [.punct .semicolon] else []

def groupLexemes (g : Option Group) : List Lexeme :=
  (g.map Group.lexemes).getD []

mutual

-- The code that a statement stands for.
def lexemes : Stmt → List Lexeme
  | empty => [.punct .semicolon]
  | stray => [.punct .rbrace]
  | label word text => word :: text
  | jump word text ended => .keyword word :: text ++ semicolonIf ended
  | simple _ first text ended => first :: text ++ semicolonIf ended
  | block items closed =>
    .punct .lbrace :: listLexemes items ++ if closed then [.punct .rbrace] else []
  | function header body => header ++ lexemes body
  | control head group parts => head.lexemes ++ groupLexemes group ++ listLexemes parts
  | doWhile group ended => .keyword .whileKw :: groupLexemes group ++ semicolonIf ended

def listLexemes : List Stmt → List Lexeme
  | [] => []
  | s :: ss => lexemes s ++ listLexemes ss

end

mutual

-- The number of lexemes that a statement takes.
def size : Stmt → Nat
  | empty | stray => 1
  | label _ text => text.length + 1
  | jump _ text ended => text.length + 1 + ended.toNat
  | simple _ _ text ended => text.length + 1 + ended.toNat
  | block items closed => listSize items + 1 + closed.toNat
  | function header body => header.length + size body
  | control head group parts =>
    head.lexemes.length + (groupLexemes group).length + listSize parts
  | doWhile group ended => (groupLexemes group).length + 1 + ended.toNat

def listSize : List Stmt → Nat
  | [] => 0
  | s :: ss => size s + listSize ss

end

theorem length_semicolonIf (ended : Bool) : (semicolonIf ended).length = ended.toNat := by
  cases ended <;> rfl

mutual

theorem length_lexemes (s : Stmt) : s.lexemes.length = s.size := by
  cases s with
  | empty => rfl
  | stray => rfl
  | label => rfl
  | jump =>
    simp only [lexemes, size, List.length_cons, List.length_append, length_semicolonIf]
  | simple =>
    simp only [lexemes, size, List.length_cons, List.length_append, length_semicolonIf]
  | block items closed =>
    simp only [lexemes, size, List.length_cons, List.length_append, length_listLexemes items]
    cases closed <;> rfl
  | function _ body => simp only [lexemes, size, List.length_append, length_lexemes body]
  | control _ _ parts =>
    simp only [lexemes, size, List.length_append, length_listLexemes parts]
  | doWhile =>
    simp only [lexemes, size, List.length_cons, List.length_append, length_semicolonIf]

theorem length_listLexemes (ss : List Stmt) : (listLexemes ss).length = listSize ss := by
  cases ss with
  | nil => rfl
  | cons s ss =>
    simp only [listLexemes, listSize, List.length_append, length_lexemes s, length_listLexemes ss]

end

def isBlock : Stmt → Bool
  | block _ _ => true
  | _ => false

mutual

-- Does a statement end by a jump? A branch does if all its alternatives do, a loop never does.
def jumps : Stmt → Bool
  | jump _ _ _ => true
  | block items _ => lastJumps items
  | control head _ parts =>
    match head with
    | .ifHead | .elseIf => bothJump parts
    | .elseHead => lastJumps parts
    | _ => false
  | _ => false

def lastJumps : List Stmt → Bool
  | [] => false
  | [s] => jumps s
  | _ :: s :: ss => lastJumps (s :: ss)

def bothJump : List Stmt → Bool
  | [body, tail] => jumps body && jumps tail
  | _ => false

end

end Stmt
end CLint
