namespace CLint

-- The punctuators of C, longer spellings before the shorter ones they begin with.
inductive Punct
  | ellipsis | shlAssign | shrAssign
  | arrow | inc | dec | shl | shr | le | ge | eqEq | notEq | andAnd | orOr
  | mulAssign | divAssign | modAssign | addAssign | subAssign | andAssign | xorAssign | orAssign
  | paste
  | lbracket | rbracket | lparen | rparen | lbrace | rbrace
  | dot | amp | star | plus | minus | tilde | bang | slash | percent | lt | gt | caret | bar
  | question | colon | semicolon | assign | comma | hash
  deriving DecidableEq, Repr

namespace Punct

def chars : Punct → List Char
  | ellipsis => ['.', '.', '.']
  | shlAssign => ['<', '<', '=']
  | shrAssign => ['>', '>', '=']
  | arrow => ['-', '>']
  | inc => ['+', '+']
  | dec => ['-', '-']
  | shl => ['<', '<']
  | shr => ['>', '>']
  | le => ['<', '=']
  | ge => ['>', '=']
  | eqEq => ['=', '=']
  | notEq => ['!', '=']
  | andAnd => ['&', '&']
  | orOr => ['|', '|']
  | mulAssign => ['*', '=']
  | divAssign => ['/', '=']
  | modAssign => ['%', '=']
  | addAssign => ['+', '=']
  | subAssign => ['-', '=']
  | andAssign => ['&', '=']
  | xorAssign => ['^', '=']
  | orAssign => ['|', '=']
  | paste => ['#', '#']
  | lbracket => ['[']
  | rbracket => [']']
  | lparen => ['(']
  | rparen => [')']
  | lbrace => ['{']
  | rbrace => ['}']
  | dot => ['.']
  | amp => ['&']
  | star => ['*']
  | plus => ['+']
  | minus => ['-']
  | tilde => ['~']
  | bang => ['!']
  | slash => ['/']
  | percent => ['%']
  | lt => ['<']
  | gt => ['>']
  | caret => ['^']
  | bar => ['|']
  | question => ['?']
  | colon => [':']
  | semicolon => [';']
  | assign => ['=']
  | comma => [',']
  | hash => ['#']

def text (p : Punct) : String :=
  String.ofList p.chars

def all : List Punct :=
  [ellipsis, shlAssign, shrAssign, arrow, inc, dec, shl, shr, le, ge, eqEq, notEq, andAnd, orOr,
    mulAssign, divAssign, modAssign, addAssign, subAssign, andAssign, xorAssign, orAssign, paste,
    lbracket, rbracket, lparen, rparen, lbrace, rbrace, dot, amp, star, plus, minus, tilde, bang,
    slash, percent, lt, gt, caret, bar, question, colon, semicolon, assign, comma, hash]

theorem mem_all (p : Punct) : p ∈ all := by
  cases p <;> decide

theorem chars_ne_nil (p : Punct) : p.chars ≠ [] := by
  cases p <;> decide

-- The first punctuator of the list that the text begins with, which is the longest one.
def lex? (cs : List Char) : Option Punct :=
  all.find? (·.chars.isPrefixOf cs)

theorem chars_append_drop {cs : List Char} {p : Punct} (h : lex? cs = some p) :
    p.chars ++ cs.drop p.chars.length = cs := by
  have h := List.find?_some h
  have ⟨rest, hr⟩ := List.isPrefixOf_iff_prefix.mp h
  rw [← hr, List.drop_left]

def isComparison : Punct → Bool
  | eqEq | notEq | lt | gt | le | ge => true
  | _ => false

def isAssignment : Punct → Bool
  | assign | addAssign | subAssign | mulAssign | divAssign | modAssign | andAssign | orAssign
  | xorAssign | shlAssign | shrAssign => true
  | _ => false

end Punct
end CLint
