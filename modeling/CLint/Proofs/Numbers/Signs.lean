import CLint.Proofs.Numbers.Check

namespace CLint

namespace Punct

-- The operators between two operands that neither assign nor select a member.
def isBinary (p : Punct) : Bool :=
  p.isComparison ||
    p ∈ [star, slash, percent, plus, minus, shl, shr, amp, caret, bar, andAnd, orOr]

-- The other punctuators behind which an operand begins.
def isOpening (p : Punct) : Bool :=
  p ∈ [bang, lparen, lbracket, comma, question, colon, semicolon]

end Punct

namespace Lexeme

-- An operand begins behind it, so that a minus there is a sign.
def precedesOperand : Lexeme → Bool
  | keyword k => k = .returnKw || k = .caseKw
  | punct p => p.isBinary || p.isAssignment || p.isOpening
  | _ => false

-- Those that the rule does not know: a minus behind one of them is taken for an operator.
def isOverlooked : Lexeme → Bool
  | punct p =>
    p ∈ [Punct.percent, .shl, .shr, .amp, .caret, .bar, .bang, .semicolon] ||
      p.isAssignment && p ≠ .assign
  | _ => false

theorem precedesSign_eq {l : Lexeme} (h : l.precedesOperand) :
    Rule.precedesSign l = !l.isOverlooked := by
  cases l with
  | keyword k => simpa [precedesOperand, Rule.precedesSign, isOverlooked] using h
  | punct p => cases p <;> first | rfl | cases h
  | _ => cases h

end Lexeme

namespace Outline

open Rule

variable {path text : String} {settings : RuleSettings} {ms : List Remark} {front : List Token}
  {b m t : Token} {n : Nat}

theorem sign?_behind (hm : m.lexeme = .punct .minus) (hb : b.lexeme.precedesOperand) :
    sign? (front ++ [b, m]).reverse = if b.lexeme.isOverlooked then none else some m := by
  simp only [List.reverse_append, List.reverse_cons, List.reverse_nil, List.nil_append,
    List.cons_append, sign?, hm, Lexeme.isMark, List.head?_cons, Option.all_some,
    Lexeme.precedesSign_eq hb]
  cases b.lexeme.isOverlooked <;> rfl

theorem spells_two : Numeral.Spells "2" 2 :=
  ⟨10, [2], ⟨['2'], [], .decimal (by decide) (.cons ⟨by decide, .inl rfl⟩ .nil), nofun, rfl⟩,
    by decide, rfl⟩

-- What is said of an integer that a minus stands in front of, where that is a sign. Behind most of
-- what an operand may begin behind, the opposite of its number is judged, from the sign on. Behind
-- the rest, the minus is left out and the number itself is judged.
structure ReadsSigns (o : Outline) (settings : RuleSettings) : Prop where
  succeeds : (∃ ms, magicNumber.check settings o = .ok ms) ↔ ¬o.HasOverlong
  negated : ∀ ms, magicNumber.check settings o = .ok ms → ∀ front b m t n,
    o.HasInteger (front ++ [b, m]) t n → m.lexeme = .punct .minus → b.lexeme.precedesOperand →
    b.lexeme.isOverlooked = false → Judges settings.allowedNumbers ms m t (-n)
  overlooked : ∀ ms, magicNumber.check settings o = .ok ms → ∀ front b m t n,
    o.HasInteger (front ++ [b, m]) t n → m.lexeme = .punct .minus → b.lexeme.precedesOperand →
    b.lexeme.isOverlooked → Judges settings.allowedNumbers ms t t n

theorem readsSigns_ofSource (path text : String) (settings : RuleSettings) :
    (ofSource (.ofText path text)).ReadsSigns settings where
  succeeds := exists_ok_magicNumber
  negated ms hms front b m t n h hm hb hseen := by
    have hjudges := judges_of_hasInteger h hms
    rw [sign?_behind hm hb, hseen] at hjudges
    exact hjudges
  overlooked ms hms front b m t n h hm hb hseen := by
    have hjudges := judges_of_hasInteger h hms
    rw [sign?_behind hm hb, hseen] at hjudges
    exact hjudges

-- A minus behind an equality sign counts, and one behind a compound assignment does not.
theorem readsSigns_assignments :
    let o := ofSource (.ofText "a.c" "x = -2; x += -2;\n")
    let b : Token := ⟨.punct .assign, ⟨⟨1, 3, 2⟩, ⟨1, 4, 3⟩⟩⟩
    let m : Token := ⟨.punct .minus, ⟨⟨1, 5, 4⟩, ⟨1, 6, 5⟩⟩⟩
    let t : Token := ⟨.number "2", ⟨⟨1, 6, 5⟩, ⟨1, 7, 6⟩⟩⟩
    let b' : Token := ⟨.punct .addAssign, ⟨⟨1, 11, 10⟩, ⟨1, 13, 12⟩⟩⟩
    let m' : Token := ⟨.punct .minus, ⟨⟨1, 14, 13⟩, ⟨1, 15, 14⟩⟩⟩
    let t' : Token := ⟨.number "2", ⟨⟨1, 15, 14⟩, ⟨1, 16, 15⟩⟩⟩
    o.HasInteger (o.code.toList.take 1 ++ [b, m]) t 2 ∧
      o.HasInteger (o.code.toList.take 6 ++ [b', m']) t' 2 ∧
      ∃ ms, magicNumber.check { allowedNumbers := [2] } o = .ok ms ∧
        Judges [2] ms m t (-2) ∧ Judges [2] ms t' t' 2 := by
  intro o b m t b' m' t'
  have ht : o.HasInteger (o.code.toList.take 1 ++ [b, m]) t 2 :=
    ⟨by decide +kernel, rfl, spells_two, Code.not_endsInEnumeration (by decide +kernel)⟩
  have ht' : o.HasInteger (o.code.toList.take 6 ++ [b', m']) t' 2 :=
    ⟨by decide +kernel, rfl, spells_two, Code.not_endsInEnumeration (by decide +kernel)⟩
  have hreads := readsSigns_ofSource "a.c" "x = -2; x += -2;\n" { allowedNumbers := [2] }
  obtain ⟨ms, hms⟩ := exists_of_isOk
    (x := magicNumber.check { allowedNumbers := [2] } o) (by decide +kernel)
  refine ⟨ht, ht', ms, hms, ?_, ?_⟩
  · exact hreads.negated ms hms _ b m t 2 ht rfl rfl rfl
  · exact hreads.overlooked ms hms _ b' m' t' 2 ht' rfl rfl rfl

-- The two behind the compound assignment is reported although its opposite is allowed.
theorem sign_overlooked :
    let o := ofSource (.ofText "a.c" "x += -2;\n")
    let b : Token := ⟨.punct .addAssign, ⟨⟨1, 3, 2⟩, ⟨1, 5, 4⟩⟩⟩
    let m : Token := ⟨.punct .minus, ⟨⟨1, 6, 5⟩, ⟨1, 7, 6⟩⟩⟩
    let t : Token := ⟨.number "2", ⟨⟨1, 7, 6⟩, ⟨1, 8, 7⟩⟩⟩
    o.HasInteger (o.code.toList.take 1 ++ [b, m]) t 2 ∧ b.lexeme.precedesOperand ∧
      ∃ ms, magicNumber.check { allowedNumbers := [-2] } o = .ok ms ∧ ¬Judges [-2] ms m t (-2) := by
  intro o b m t
  have ht : o.HasInteger (o.code.toList.take 1 ++ [b, m]) t 2 :=
    ⟨by decide +kernel, rfl, spells_two, Code.not_endsInEnumeration (by decide +kernel)⟩
  obtain ⟨ms, hms⟩ := exists_of_isOk
    (x := magicNumber.check { allowedNumbers := [-2] } o) (by decide +kernel)
  have hjudges := judges_of_hasInteger ht hms
  rw [sign?_behind rfl rfl] at hjudges
  refine ⟨ht, rfl, ms, hms, fun h => ?_⟩
  exact h.reported.mp (hjudges.reported.mpr (by decide)) List.mem_cons_self

end Outline
end CLint
