namespace CLint

-- The reserved words of C.
inductive Keyword
  | autoKw | breakKw | caseKw | charKw | constKw | continueKw | defaultKw | doKw | doubleKw
  | elseKw | enumKw | externKw | floatKw | forKw | gotoKw | ifKw | inlineKw | intKw | longKw
  | registerKw | restrictKw | returnKw | shortKw | signedKw | sizeofKw | staticKw | structKw
  | switchKw | typedefKw | unionKw | unsignedKw | voidKw | volatileKw | whileKw | alignasKw
  | alignofKw | atomicKw | boolKw | complexKw | genericKw | imaginaryKw | noreturnKw
  | staticAssertKw | threadLocalKw
  deriving DecidableEq, Repr

namespace Keyword

def text : Keyword → String
  | autoKw => "auto"
  | breakKw => "break"
  | caseKw => "case"
  | charKw => "char"
  | constKw => "const"
  | continueKw => "continue"
  | defaultKw => "default"
  | doKw => "do"
  | doubleKw => "double"
  | elseKw => "else"
  | enumKw => "enum"
  | externKw => "extern"
  | floatKw => "float"
  | forKw => "for"
  | gotoKw => "goto"
  | ifKw => "if"
  | inlineKw => "inline"
  | intKw => "int"
  | longKw => "long"
  | registerKw => "register"
  | restrictKw => "restrict"
  | returnKw => "return"
  | shortKw => "short"
  | signedKw => "signed"
  | sizeofKw => "sizeof"
  | staticKw => "static"
  | structKw => "struct"
  | switchKw => "switch"
  | typedefKw => "typedef"
  | unionKw => "union"
  | unsignedKw => "unsigned"
  | voidKw => "void"
  | volatileKw => "volatile"
  | whileKw => "while"
  | alignasKw => "_Alignas"
  | alignofKw => "_Alignof"
  | atomicKw => "_Atomic"
  | boolKw => "_Bool"
  | complexKw => "_Complex"
  | genericKw => "_Generic"
  | imaginaryKw => "_Imaginary"
  | noreturnKw => "_Noreturn"
  | staticAssertKw => "_Static_assert"
  | threadLocalKw => "_Thread_local"

def all : List Keyword :=
  [autoKw, breakKw, caseKw, charKw, constKw, continueKw, defaultKw, doKw, doubleKw, elseKw,
    enumKw, externKw, floatKw, forKw, gotoKw, ifKw, inlineKw, intKw, longKw, registerKw,
    restrictKw, returnKw, shortKw, signedKw, sizeofKw, staticKw, structKw, switchKw, typedefKw,
    unionKw, unsignedKw, voidKw, volatileKw, whileKw, alignasKw, alignofKw, atomicKw, boolKw,
    complexKw, genericKw, imaginaryKw, noreturnKw, staticAssertKw, threadLocalKw]

def ofText? (s : String) : Option Keyword :=
  all.find? (·.text = s)

theorem text_of_ofText? {s : String} {k : Keyword} (h : ofText? s = some k) : k.text = s := by
  simpa using List.find?_some h

-- The words that leave the statement they stand in.
def isJump : Keyword → Bool
  | breakKw | returnKw | gotoKw | continueKw => true
  | _ => false

def isStorage : Keyword → Bool
  | typedefKw | externKw | staticKw | autoKw | registerKw | inlineKw
  | threadLocalKw | noreturnKw => true
  | _ => false

def isQualifier : Keyword → Bool
  | constKw | volatileKw | restrictKw | atomicKw => true
  | _ => false

def isBasicType : Keyword → Bool
  | voidKw | charKw | shortKw | intKw | longKw | floatKw | doubleKw | signedKw
  | unsignedKw | boolKw | complexKw => true
  | _ => false

-- The words that introduce a tagged type.
def isTag : Keyword → Bool
  | structKw | unionKw | enumKw => true
  | _ => false

end Keyword
end CLint
