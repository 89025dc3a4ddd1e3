import CLint.Token.Keyword
import CLint.Token.Punct

namespace CLint

-- What a reader of C tells apart about a piece of text.
inductive LexemeKind
  | identifier | keyword | punctuator | literal | comment | whitespace | newline | unknown
  deriving DecidableEq, Repr

def LexemeKind.name : LexemeKind → String
  | identifier => "identifier"
  | keyword => "keyword"
  | punctuator => "punctuator"
  | literal => "literal"
  | comment => "comment"
  | whitespace => "whitespace"
  | newline => "newline"
  | unknown => "unknown"

-- A lexeme is one of the smallest pieces that a C text is made of. `quoted` is a string or a
-- character literal, `openQuote` one whose closing quote is missing, and `stray` a character that
-- begins nothing.
inductive Lexeme
  | newline (text : String)
  | blank (text : String)
  | comment (text : String)
  | quoted (text : String)
  | openQuote (text : String)
  | number (text : String)
  | identifier (name : String)
  | keyword (word : Keyword)
  | punct (mark : Punct)
  | stray (char : Char)
  deriving DecidableEq, Repr

namespace Lexeme

def kind : Lexeme → LexemeKind
  | newline _ => .newline
  | blank _ => .whitespace
  | comment _ => .comment
  | quoted _ | number _ => .literal
  | openQuote _ | stray _ => .unknown
  | identifier _ => .identifier
  | keyword _ => .keyword
  | punct _ => .punctuator

def text : Lexeme → String
  | newline t | blank t | comment t | quoted t | openQuote t | number t | identifier t => t
  | keyword k => k.text
  | punct p => p.text
  | stray c => String.singleton c

def isTrivia : Lexeme → Bool
  | newline _ | blank _ => true
  | _ => false

def isComment : Lexeme → Bool
  | comment _ => true
  | _ => false

def isNumber : Lexeme → Bool
  | number _ => true
  | _ => false

def isIdentifier : Lexeme → Bool
  | identifier _ => true
  | _ => false

def isLiteral (l : Lexeme) : Bool :=
  l.kind = .literal

def isWord (k : Keyword) (l : Lexeme) : Bool :=
  l = keyword k

def isMark (p : Punct) (l : Lexeme) : Bool :=
  l = punct p

def isQualifier : Lexeme → Bool
  | keyword k => k.isQualifier
  | _ => false

def isTag : Lexeme → Bool
  | keyword k => k.isTag
  | _ => false

-- Parentheses and square brackets are counted alike wherever only their nesting matters.
def isOpener : Lexeme → Bool
  | punct .lparen | punct .lbracket => true
  | _ => false

def isCloser : Lexeme → Bool
  | punct .rparen | punct .rbracket => true
  | _ => false

-- Only a block comment that runs into the end of the text is not terminated. The shortest
-- terminated one has four characters, as the star of its opening does not count for its end.
def terminated : Lexeme → Bool
  | comment t =>
    let cs := t.toList
    !(['/', '*'].isPrefixOf cs) || (4 ≤ cs.length && ['*', '/'].isSuffixOf cs)
  | _ => true

end Lexeme
end CLint
