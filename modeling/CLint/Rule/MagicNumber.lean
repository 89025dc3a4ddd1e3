import CLint.Numeral.Basic
import CLint.Rule.Basic

namespace CLint.Rule

-- The value of a number, if it is one at all.
def numeral? (text : String) : Except RuleFailure (Option Numeral) :=
  let cs := text.toList
  match Numeral.integer? cs with
  | some (base, digits) =>
    if base = 10 && Numeral.digitLimit < digits.length then .error (.tooManyDigits digits.length)
    else .ok (some (.whole (Numeral.ofDigits base digits)))
  | none => .ok ((Numeral.floating? cs).map .floating)

-- Behind one of these a minus is a sign and not an operator.
def precedesSign : Lexeme → Bool
  | .keyword k => k = .returnKw || k = .caseKw
  | .punct p =>
    p ∈ [Punct.lparen, .lbracket, .lbrace, .comma, .assign, .question, .colon, .eqEq, .notEq, .lt,
      .gt, .le, .ge, .andAnd, .orOr, .plus, .minus, .star, .slash]
  | _ => false

-- The sign at the end of some tokens, which are listed backwards.
def sign? : List Token → Option Token
  | [] => none
  | t :: ts =>
    if t.lexeme.isMark .minus && ts.head?.all (precedesSign ·.lexeme) then some t else none

def numberRemark (settings : RuleSettings) (o : Outline) (before : List Token) (t : Token) :
    Except RuleFailure (Option Remark) := do
  if !t.lexeme.isNumber || o.inConstantRegion t.offset then return none
  let value ← numeral? t.text
  let sign := sign? before
  if value.any fun x => settings.allowedNumbers.any (x.hasValue sign.isSome) then return none
  let span := (sign.getD t).span.cover t.span
  let spelled := o.slice span
  return some (.onSpan span s!"magic number {spelled} must be replaced by a #define constant"
    s!"#define A_DESCRIPTIVE_NAME ({spelled})")

-- The tokens before are listed backwards.
def numberRemarks (settings : RuleSettings) (o : Outline) (before : List Token) :
    List Token → Except RuleFailure (List Remark)
  | [] => .ok []
  | t :: ts => do
    let found ← numberRemark settings o before t
    let others ← numberRemarks settings o (t :: before) ts
    return found.toList ++ others

def magicNumber : Rule where
  id := "magic-number"
  title := "MagicNumberRule"
  description := "Numeric literals outside #define and enum bodies must be in the allowed set."
  packs := [.prohibited]
  check settings o := numberRemarks settings o [] o.code.toList

end CLint.Rule
