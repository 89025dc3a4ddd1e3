import CLint.Source
import CLint.Text.Blank
import CLint.Text.Matches
import CLint.Text.WordChar

namespace CLint

-- A comment, or a run of comments on consecutive lines, with the tags for the documentation that
-- are in it. A trailing comment stands behind code on the same line.
structure Comment where
  text : String
  span : Span
  tags : List String
  params : List String
  isDoxygen : Bool
  isTrailing : Bool
  terminated : Bool
  attachedTo : Option String := none
  deriving DecidableEq, Repr, Inhabited

namespace Comment

open Text

def isTagSign (c : Char) : Bool :=
  c = '@' || c = '\\'

-- A tag is a sign with a word of small letters behind it, which no other letter extends.
def tag : Pattern String
  | [] => none
  | c :: cs =>
    let name := cs.takeWhile Char.isLower
    if isTagSign c && !name.isEmpty && !((cs.dropWhile Char.isLower).head?.any Text.isWordChar)
    then some (String.ofList name, name.length + 1)
    else none

def dropPrefix? (lead cs : List Char) : Option (List Char) :=
  if lead.isPrefixOf cs then some (cs.drop lead.length) else none

-- The direction of a parameter, in square brackets with blanks before them.
def skipDirection (cs : List Char) : Option (List Char) :=
  match cs.dropWhile isBlank with
  | '[' :: rest =>
    match rest.dropWhile (· ≠ ']') with
    | _ :: behind => some behind
    | [] => none
  | _ => some cs

-- The tag for a parameter, of which the value is the name of the parameter.
def param : Pattern String
  | [] => none
  | c :: cs => do
    guard (isTagSign c)
    let cs₁ ← dropPrefix? "param".toList cs
    let cs₂ ← skipDirection cs₁
    let cs₃ := cs₂.dropWhile isBlank
    let name := cs₃.takeWhile Text.isWordChar
    guard (cs₃.length < cs₂.length && !name.isEmpty)
    some (String.ofList name, (c :: cs).length - cs₃.length + name.length)

def dashOrBlank (c : Char) : Bool :=
  c = '-' || isBlank c

-- Letters as they occur in a text in which case does not matter. Three letters outside of ASCII
-- have an ASCII letter as their counterpart.
def foldCase (c : Char) : Char :=
  if c = 'ſ' then 's' else if c = 'ı' || c = 'İ' then 'i' else c.toLower

-- Words such as `fallthrough`, `falls through` and `falling-thru`.
def announcesHere (cs : List Char) : Bool :=
  match dropPrefix? "fall".toList cs with
  | none => false
  | some cs =>
    let cs := ((dropPrefix? "ing".toList cs).or (dropPrefix? "s".toList cs)).getD cs
    match dropPrefix? "thr".toList (cs.dropWhile dashOrBlank) with
    | none => false
    | some cs => "ough".toList.isPrefixOf cs || "u".toList.isPrefixOf cs

def announcesFallthrough (c : Comment) : Bool :=
  occurs announcesHere (c.text.toList.map foldCase)

def isLine (t : Token) : Bool :=
  "//".toList.isPrefixOf t.text.toList

def startsDoxygen (cs : List Char) : Bool :=
  ["/**", "/*!", "///", "//!"].any (·.toList.isPrefixOf cs) && !("/**/".toList.isPrefixOf cs)

def ofTokens (first : Token) (others : List Token) (isTrailing : Bool) : Comment :=
  let tokens := first :: others
  let text := "\n".intercalate (tokens.map Token.text)
  { text := text
    span := first.span.cover (tokens.getLast?.getD first).span
    tags := allMatches tag text.toList
    params := allMatches param text.toList
    isDoxygen := startsDoxygen text.toList
    isTrailing := isTrailing
    terminated := tokens.all (·.lexeme.terminated) }

def hasTag (c : Comment) (names : List String) : Bool :=
  names.any c.tags.contains

def isDangling (c : Comment) : Bool :=
  c.attachedTo.isNone

-- A fence of three grave accents starts a diagram.
def hasDiagram (c : Comment) : Bool :=
  isInfix ['\x60', '\x60', '\x60'] c.text.toList

end Comment

-- A token of the code or of a directive. The comment that stands before it, with nothing but
-- comments and blanks in between, is given by its number.
structure Marked where
  token : Token
  comment : Option Nat

-- How far the tokens of a file were divided into comments and all else. Everything is listed
-- backwards, the last comment and its last token first.
structure Gathering where
  comments : List (Token × List Token × Bool) := []
  pending : Option Nat := none
  line : Option Nat := none
  marked : List Marked := []

namespace Gathering

-- A comment continues the one before it if both are line comments, on consecutive lines, and the
-- one before is still waiting for what it is about.
def continues? (g : Gathering) (t : Token) : Option (Token × List Token × Bool) :=
  match g.comments with
  | [] => none
  | (last, earlier, trailing) :: _ =>
    if g.line ≠ some t.line && g.pending = some (g.comments.length - 1) && Comment.isLine t &&
      Comment.isLine last && last.endLine + 1 = t.line
    then some (last, earlier, trailing)
    else none

def comment (g : Gathering) (t : Token) : Gathering :=
  match g.continues? t with
  | some (last, earlier, trailing) =>
    { g with comments := (t, last :: earlier, trailing) :: g.comments.tail }
  | none =>
    let trailing := g.line = some t.line
    { g with
      comments := (t, [], trailing) :: g.comments
      pending := if trailing then g.pending else some g.comments.length }

def step (g : Gathering) (t : Token) : Gathering :=
  if t.lexeme.isComment then g.comment t
  else if t.lexeme.isTrivia then g
  else
    { g with
      pending := none
      line := some t.endLine
      marked := ⟨t, g.pending⟩ :: g.marked }

def ofTokens (tokens : List Token) : Gathering :=
  tokens.foldl step {}

def commentList (g : Gathering) : List Comment :=
  g.comments.reverse.map fun (last, earlier, trailing) =>
    match earlier.reverse with
    | [] => Comment.ofTokens last [] trailing
    | first :: others => Comment.ofTokens first (others ++ [last]) trailing

def markedList (g : Gathering) : List Marked :=
  g.marked.reverse

end Gathering
end CLint
