import CLint.Decl.Basic

namespace CLint

-- What a declaration begins with. A tagged type may have a tag name and a body in braces; an
-- attribute, which is a language extension, may have arguments.
inductive Specifier
  | storage (word : Keyword)
  | qualifier (word : Keyword)
  | basic (word : Keyword)
  | named (name : String)
  | tagged (tag : Keyword) (hasName : Bool) (body : Option Enclosed)
  | extension (arguments : Option Enclosed)
  deriving DecidableEq, Repr

namespace Specifier

def isType : Specifier → Bool
  | basic _ | named _ | tagged _ _ _ => true
  | _ => false

-- How many lexemes follow the first one of the specifier.
def tailSize : Specifier → Nat
  | tagged _ hasName body => (if hasName then 1 else 0) + (body.map Enclosed.size).getD 0
  | extension arguments => (arguments.map Enclosed.size).getD 0
  | _ => 0

def size (s : Specifier) : Nat :=
  s.tailSize + 1

def totalSize : List Specifier → Nat
  | [] => 0
  | s :: ss => s.size + totalSize ss

def isAttributeName (name : String) : Bool :=
  name = "__attribute__" || name = "__declspec"

def body? : List Lexeme → Option Enclosed
  | .punct .lbrace :: ls => some (.inBraces ls)
  | _ => none

theorem length_body? {ls : List Lexeme} {e : Enclosed} (h : body? ls = some e) :
    e.inner.length < ls.length := by
  unfold body? at h
  split at h
  case h_1 =>
    cases h
    exact Nat.lt_succ_of_le (Enclosed.length_inner_read ..)
  case h_2 => cases h

def ofTag (tag : Keyword) : List Lexeme → Specifier
  | .identifier _ :: ls => tagged tag true (body? ls)
  | ls => tagged tag false (body? ls)

theorem length_body_ofTag {word tag : Keyword} {hasName : Bool} {ls : List Lexeme} {e : Enclosed}
    (h : ofTag word ls = tagged tag hasName (some e)) : e.inner.length < ls.length := by
  unfold ofTag at h
  split at h <;> injection h with _ _ h
  case h_1 => exact Nat.lt_succ_of_lt (length_body? h)
  case h_2 => exact length_body? h

-- An identifier is a type name if another identifier follows it, and also, as long as no type
-- has been named, if a star or a qualifier does.
def isTypeName (typed : Bool) : List Lexeme → Bool
  | [] => false
  | l :: _ => l.isIdentifier || (!typed && (l.isMark .star || l.isQualifier))

def read? (typed : Bool) : Lexeme → List Lexeme → Option Specifier
  | .keyword k, ls =>
    if k.isStorage then some (storage k)
    else if k.isQualifier then some (qualifier k)
    else if k.isBasicType then some (basic k)
    else if k.isTag then some (ofTag k ls)
    else none
  | .identifier name, ls =>
    if isAttributeName name then
      match ls with
      | .punct .lparen :: rest => some (extension (some (.inBrackets rest)))
      | _ => some (extension none)
    else if isTypeName typed ls then some (named name)
    else none
  | _, _ => none

theorem length_body_read? {typed : Bool} {l : Lexeme} {ls : List Lexeme} {tag : Keyword}
    {hasName : Bool} {e : Enclosed} (h : read? typed l ls = some (tagged tag hasName (some e))) :
    e.inner.length < ls.length := by
  unfold read? at h
  split at h
  case h_1 =>
    split at h <;> try cases h
    split at h <;> try cases h
    split at h <;> try cases h
    split at h <;> try cases h
    exact length_body_ofTag (Option.some.inj h)
  case h_2 =>
    split at h
    · split at h <;> cases h
    · split at h <;> cases h
  case h_3 => cases h

-- All specifiers at the front of some code, where `typed` says that a type was named before.
def readAll (typed : Bool) : List Lexeme → List Specifier
  | [] => []
  | l :: ls =>
    match read? typed l ls with
    | none => []
    | some s => s :: readAll (typed || s.isType) (ls.drop s.tailSize)
termination_by ls => ls.length
decreasing_by
  simp only [List.length_drop, List.length_cons]
  omega

end Specifier

-- The body of a tagged type: the code between its braces, and the run from brace to brace.
structure TagBody where
  tag : Keyword
  inner : Stretch
  run : Run

-- The specifiers at the front of a declaration, and the code behind them.
structure Specifiers where
  list : List Specifier
  text : List Lexeme
  rest : Stretch
  body : Option TagBody

namespace Specifiers

-- The body of the last specifier that has one.
def bodyFrom (start : Nat) : List Specifier → Option TagBody
  | [] => none
  | s :: ss =>
    (bodyFrom (start + s.size) ss).or <|
      match s with
      | .tagged tag hasName (some e) =>
        let brace := start + 1 + if hasName then 1 else 0
        some ⟨tag, ⟨brace + 1, e.inner⟩, ⟨brace, brace + e.size - 1⟩⟩
      | _ => none

theorem length_bodyFrom {typed : Bool} {ls : List Lexeme} {start : Nat} {b : TagBody}
    (h : bodyFrom start (Specifier.readAll typed ls) = some b) :
    b.inner.lexemes.length < ls.length := by
  fun_induction Specifier.readAll typed ls generalizing start with
  | case1 => cases h
  | case2 => cases h
  | case3 typed l ls s hs ih =>
    cases Option.or_eq_some_iff.mp h
    case inl h =>
      have := ih h
      rw [List.length_drop] at this
      rw [List.length_cons]
      omega
    case inr h =>
      obtain ⟨_, h⟩ := h
      split at h
      case h_1 =>
        cases h
        exact Nat.lt_succ_of_lt (Specifier.length_body_read? hs)
      case h_2 => cases h

def read? (s : Stretch) : Option Specifiers :=
  let list := Specifier.readAll false s.lexemes
  let size := Specifier.totalSize list
  if list.any Specifier.isType then
    some ⟨list, s.lexemes.take size, s.drop size, bodyFrom s.start list⟩
  else none

-- The body of a tagged type is shorter than the declaration it is in.
theorem length_body_lt {s : Stretch} {d : Specifiers} {b : TagBody} (h : read? s = some d)
    (hb : d.body = some b) : b.inner.lexemes.length < s.lexemes.length := by
  unfold read? at h
  simp only at h
  split at h
  · cases h
    exact length_bodyFrom hb
  · cases h

def storage (s : Specifiers) : List Keyword :=
  s.list.filterMap fun
    | .storage k => some k
    | _ => none

def isTypedef (s : Specifiers) : Bool :=
  s.storage.contains .typedefKw

def isConst (s : Specifiers) : Bool :=
  s.list.contains (.qualifier .constKw)

-- The storage words that occur, each once, in the order of the alphabet.
def storageTexts (s : Specifiers) : List String :=
  (s.storage.map Keyword.text).eraseDups.mergeSort (· ≤ ·)

def typeText (s : Specifiers) (stars : Nat) : String :=
  let base := Lexeme.spaced s.text
  if stars = 0 then base else base ++ " " ++ "".pushn '*' stars

end Specifiers
end CLint
