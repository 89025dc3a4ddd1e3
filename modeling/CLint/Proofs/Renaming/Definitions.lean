import CLint.Proofs.Identifiers
import CLint.Proofs.Renaming.Check

namespace CLint

namespace Name

variable {c : Char} {cs sep w : List Char} {ws : List (List Char)} {base name : String}

theorem forall_mem_intercalate {p : Char → Prop} (hsep : ∀ c ∈ sep, p c)
    (hws : ∀ w ∈ ws, ∀ c ∈ w, p c) : ∀ c ∈ sep.intercalate ws, p c := by
  induction ws with
  | nil => simp
  | cons w ws ih =>
    obtain ⟨hw, hws⟩ := List.forall_mem_cons.mp hws
    cases ws with
    | nil => simpa using hw
    | cons v ws =>
      simp only [List.intercalate_cons_cons, List.forall_mem_append]
      exact ⟨⟨hw, hsep⟩, ih hws⟩

section UpperSnakeCase

-- What the capital words are joined of.
def isConstantChar (c : Char) : Bool :=
  c.isUpper || c.isDigit || c = '_'

theorem isConstantChar_toUpper (h : c.isAlphanum) : isConstantChar c.toUpper := by
  by_cases hc : c.isAlpha
  · simp [isConstantChar, hc]
  · have hdigit : c.isDigit := by simpa [Char.isAlphanum, hc] using h
    have hlower : ¬ c.isLower := fun hlower => hc (by simp [Char.isAlpha, hlower])
    simp [isConstantChar, Char.toUpper_eq_of_not_isLower hlower, hdigit]

theorem styleOf_of_isUpper (hc : c.isUpper) (hcs : ∀ d ∈ cs, isConstantChar d) :
    styleOf (c :: cs) = .upperSnake :=
  if_pos (by simpa [isUpperSnake, hc, isConstantChar] using hcs)

theorem toList_snakeCase (hi : isIdentifier name.toList) :
    (snakeCase name).toList =
      ['_'].intercalate ((words name.toList).map fun w => w.map Char.toLower) := by
  rw [snakeCase, String.toList_intercalate, List.map_map]
  refine congrArg _ (List.map_congr_left fun w hw => ?_)
  have hascii : ∀ c ∈ w, c.toNat < 128 := fun c hc =>
    toNat_lt_of_isAlphanum (isAlphanum_of_mem_words hi hw c hc)
  rw [Function.comp_apply, String.toList_ofList, Text.lowerChars_of_ascii hascii]

theorem isConstantChar_of_mem_snakeCase (hi : isIdentifier name.toList) :
    ∀ c ∈ (snakeCase name).toList, isConstantChar c.toUpper := by
  rw [toList_snakeCase hi]
  refine forall_mem_intercalate (by simp [isConstantChar]) (List.forall_mem_map.mpr fun w hw => ?_)
  refine List.forall_mem_map.mpr fun c hc => ?_
  rw [Char.toUpper_toLower_eq_toUpper]
  exact isConstantChar_toUpper (isAlphanum_of_mem_words hi hw c hc)

theorem style_upperSnakeCase (hi : isIdentifier name.toList)
    (hl : startsWithLetter name.toList) : style (upperSnakeCase name) = .upperSnake := by
  obtain ⟨c, w, ws, hc, hwords⟩ := exists_words_of_startsWithLetter hl
  have hall : ∀ d ∈ (snakeCase name).toList.map Char.toUpper, isConstantChar d :=
    List.forall_mem_map.mpr (isConstantChar_of_mem_snakeCase hi)
  have hbreak : '\n' ∉ (snakeCase name).toList.map Char.toUpper :=
    fun h => absurd (hall _ h) (by decide)
  rw [style, upperSnakeCase, String.toList_ofList, body_eq_self hbreak]
  -- The first letter of the first word comes first.
  rw [toList_snakeCase hi, hwords, List.map_cons, List.map_cons,
    List.intercalate_cons_cons_left, List.map_cons] at hall ⊢
  exact styleOf_of_isUpper (by simpa using hc) (List.forall_mem_cons.mp hall).2

end UpperSnakeCase

section TypeName

-- The part of a name before its ending, or all of a name without one.
def IsBaseOf (base name : String) : Prop :=
  name = base ++ "_t" ∨ name = base ∧ ¬ ['_', 't'] <:+ name.toList

theorem dropLast_dropLast_ending (cs : List Char) : (cs ++ ['_', 't']).dropLast.dropLast = cs := by
  simp

theorem typeBase_of_isBaseOf (h : IsBaseOf base name) : Rule.typeBase name = base := by
  cases h
  case inl h =>
    subst h
    have hending : ['_', 't'].isSuffixOf (base ++ "_t").toList :=
      List.isSuffixOf_iff_suffix.mpr ⟨base.toList, by simp⟩
    rw [Rule.typeBase, if_pos hending, String.toList_append]
    rw [show "_t".toList = ['_', 't'] from rfl, dropLast_dropLast_ending, String.ofList_toList]
  case inr h =>
    obtain ⟨rfl, hending⟩ := h
    exact if_neg (hending ∘ List.isSuffixOf_iff_suffix.mp)

theorem isIdentifier_of_append (h : isIdentifier (cs ++ w)) (hne : cs ≠ []) :
    isIdentifier cs := by
  obtain ⟨c, cs, rfl⟩ := List.exists_cons_of_ne_nil hne
  simp only [List.cons_append, isIdentifier, List.all_append, Bool.and_eq_true] at h ⊢
  exact ⟨h.1, h.2.1⟩

theorem isIdentifier_of_isBaseOf (h : IsBaseOf base name) (hi : isIdentifier name.toList)
    (hl : startsWithLetter base.toList) : isIdentifier base.toList := by
  cases h
  case inl h =>
    subst h
    rw [String.toList_append] at hi
    refine isIdentifier_of_append hi fun hnil => ?_
    rw [hnil] at hl
    cases hl
  case inr h => exact h.1 ▸ hi

theorem isTypeName_camelCase (hi : isIdentifier name.toList)
    (hl : startsWithLetter name.toList) : Rule.isTypeName (camelCase name ++ "_t") := by
  obtain ⟨c, cs, hc, hall, hname⟩ := exists_camelCase_eq hi hl
  have hlist : (camelCase name ++ "_t").toList = c :: cs ++ ['_', 't'] := by simp [hname]
  have hbreak : '\n' ∉ c :: cs ++ ['_', 't'] :=
    List.not_mem_append (lineFeed_notMem hall) (by decide)
  have hending : ['_', 't'].isSuffixOf (c :: cs ++ ['_', 't']) :=
    List.isSuffixOf_iff_suffix.mpr (List.suffix_append ..)
  have hcamel : isCamel (c :: cs) := by
    simp [isCamel, hc, List.all_eq_true.mpr (List.forall_mem_cons.mp hall).2]
  rw [Rule.isTypeName, hlist, body_eq_self hbreak, dropLast_dropLast_ending, hending, hcamel]
  rfl

end TypeName

end Name

namespace Rule

open Name

variable {a b base label name other : String} {d : Declaration Span} {m : Remark}

-- Their first letters tell macros and enumerators apart.
theorem head?_labelled (h : label ∈ ["macro", "enumerator"]) (name : String) :
    (s!"{label} '{name}' must be UPPER_SNAKE_CASE").toList.head? = label.toList.head? := by
  show (label ++ " '" ++ name ++ "' must be UPPER_SNAKE_CASE").toList.head? = _
  simp only [List.mem_cons, List.not_mem_nil, or_false] at h
  rcases h with rfl | rfl <;> simp

theorem eq_of_labelled (ha : label ∈ ["macro", "enumerator"])
    (hb : other ∈ ["macro", "enumerator"])
    (h : s!"{label} '{a}' must be UPPER_SNAKE_CASE" = s!"{other} '{b}' must be UPPER_SNAKE_CASE") :
    a = b := by
  have hlabel : label = other := by
    have hfirst := head?_labelled ha a
    rw [h, head?_labelled hb b] at hfirst
    simp only [List.mem_cons, List.not_mem_nil, or_false] at ha hb
    rcases ha with rfl | rfl <;> rcases hb with rfl | rfl <;> simp at hfirst ⊢
  subst hlabel
  have h : label ++ " '" ++ a ++ "' must be UPPER_SNAKE_CASE" =
    label ++ " '" ++ b ++ "' must be UPPER_SNAKE_CASE" := h
  exact (String.append_right_inj _).mp ((String.append_left_inj _).mp h)

theorem suggestion_of_constantRemark (h : constantRemark d = some m)
    (hlabel : label ∈ ["macro", "enumerator"])
    (hm : m.message = s!"{label} '{name}' must be UPPER_SNAKE_CASE") :
    d.name = name ∧ m.suggestion = some s!"Rename to '{upperSnakeCase name}'." := by
  unfold constantRemark at h
  dsimp only at h
  split at h
  case isTrue =>
    split at h <;> cases h
    have hname : d.name = name := eq_of_labelled (by split <;> simp) hlabel hm
    exact ⟨hname, hname ▸ rfl⟩
  case isFalse =>
    split at h <;> cases h
    have hfirst := head?_labelled hlabel name
    rw [← hm] at hfirst
    replace hfirst : ("constant '" ++ d.name ++ "' must be defined with #define").toList.head? =
      label.toList.head? := hfirst
    simp only [List.mem_cons, List.not_mem_nil, or_false] at hlabel
    rcases hlabel with rfl | rfl <;> simp at hfirst

theorem suggestion_of_typeRemark (h : typeRemark d = some m)
    (hm : m.message = s!"type '{name}' must be camelCase and end in '_t'") :
    d.name = name ∧
      ∃ x, x = camelCase (typeBase name) ++ "_t" ∧ m.suggestion = some s!"Rename to '{x}'." := by
  unfold typeRemark at h
  split at h <;> cases h
  have hm : "type '" ++ d.name ++ "' must be camelCase and end in '_t'" =
    "type '" ++ name ++ "' must be camelCase and end in '_t'" := hm
  have hname := (String.append_right_inj _).mp ((String.append_left_inj _).mp hm)
  subst hname
  refine ⟨rfl, _, rfl, congrArg some ?_⟩
  show "Rename to '" ++ camelCase (typeBase d.name) ++ "_t'." =
    "Rename to '" ++ (camelCase (typeBase d.name) ++ "_t") ++ "'."
  simp only [String.append_assoc]
  rfl

-- The names that are suggested are accepted. That of a macro or an enumerator is in capitals, and
-- that of a type is what a type is to be called, if a letter is the first character of the name,
-- or of its part before the ending, that is no underscore.
theorem isAccepted_suggested (settings : RuleSettings) (path text : String) :
    let o := Outline.ofSource (.ofText path text)
    (∃ ms, constantNaming.check settings o = .ok ms ∧
      ∀ m ∈ ms, ∀ label ∈ ["macro", "enumerator"], ∀ name : String,
        m.message = s!"{label} '{name}' must be UPPER_SNAKE_CASE" →
          startsWithLetter name.toList →
            ∃ x, m.suggestion = some s!"Rename to '{x}'." ∧ style x = .upperSnake) ∧
    ∃ ms, typeNaming.check settings o = .ok ms ∧
      ∀ m ∈ ms, ∀ name base : String,
        m.message = s!"type '{name}' must be camelCase and end in '_t'" →
          IsBaseOf base name → startsWithLetter base.toList →
            ∃ x, m.suggestion = some s!"Rename to '{x}'." ∧
              ∀ d : Declaration Span, d.name = x → typeRemark d = none := by
  intro o
  constructor
  case left =>
    refine ⟨_, rfl, fun m hm label hlabel name hmessage hl => ?_⟩
    obtain ⟨d, hd, hremark⟩ := List.mem_filterMap.mp hm
    obtain ⟨rfl, hsuggestion⟩ := suggestion_of_constantRemark hremark hlabel hmessage
    exact ⟨_, hsuggestion, style_upperSnakeCase (Outline.isIdentifier_name hd) hl⟩
  case right =>
    refine ⟨_, rfl, fun m hm name base hmessage hbase hl => ?_⟩
    obtain ⟨d, hd, hremark⟩ := List.mem_filterMap.mp hm
    obtain ⟨rfl, x, hx, hsuggestion⟩ := suggestion_of_typeRemark hremark hmessage
    have hi := isIdentifier_of_isBaseOf hbase (Outline.isIdentifier_name hd) hl
    rw [typeBase_of_isBaseOf hbase] at hx
    refine ⟨x, hsuggestion, fun e he => ?_⟩
    rw [typeRemark, he, hx, isTypeName_camelCase hi hl]
    simp

-- A name of each kind, with an underscore, a digit or a capital in it.
theorem isAccepted_suggested_words :
    let outline (text : String) := Outline.ofSource (.ofText "a.h" text)
    (∃ ms, constantNaming.check {} (outline "#define _maxCount9 1\n") = .ok ms ∧
      ∃ m ∈ ms, m.message = "macro '_maxCount9' must be UPPER_SNAKE_CASE" ∧
        ∃ x, m.suggestion = some s!"Rename to '{x}'." ∧ style x = .upperSnake) ∧
    (∃ ms, constantNaming.check {} (outline "enum e \x7b modeA \x7d;\n") = .ok ms ∧
      ∃ m ∈ ms, m.message = "enumerator 'modeA' must be UPPER_SNAKE_CASE" ∧
        ∃ x, m.suggestion = some s!"Rename to '{x}'." ∧ style x = .upperSnake) ∧
    ∃ ms, typeNaming.check {} (outline "typedef int Sensor_Id_t;\n") = .ok ms ∧
      ∃ m ∈ ms, m.message = "type 'Sensor_Id_t' must be camelCase and end in '_t'" ∧
        ∃ x, m.suggestion = some s!"Rename to '{x}'." ∧
          ∀ d : Declaration Span, d.name = x → typeRemark d = none := by
  intro outline
  refine ⟨?_, ?_, ?_⟩
  case refine_1 =>
    obtain ⟨⟨ms, hms, hall⟩, -⟩ := isAccepted_suggested {} "a.h" "#define _maxCount9 1\n"
    obtain ⟨m, hm, hmessage⟩ :
        ∃ m ∈ ms, m.message = "macro '_maxCount9' must be UPPER_SNAKE_CASE" := by
      cases hms
      decide +kernel
    exact ⟨ms, hms, m, hm, hmessage,
      hall m hm "macro" (by decide) "_maxCount9" hmessage (by decide)⟩
  case refine_2 =>
    obtain ⟨⟨ms, hms, hall⟩, -⟩ := isAccepted_suggested {} "a.h" "enum e \x7b modeA \x7d;\n"
    obtain ⟨m, hm, hmessage⟩ :
        ∃ m ∈ ms, m.message = "enumerator 'modeA' must be UPPER_SNAKE_CASE" := by
      cases hms
      decide +kernel
    exact ⟨ms, hms, m, hm, hmessage,
      hall m hm "enumerator" (by decide) "modeA" hmessage (by decide)⟩
  case refine_3 =>
    obtain ⟨-, ms, hms, hall⟩ := isAccepted_suggested {} "a.h" "typedef int Sensor_Id_t;\n"
    obtain ⟨m, hm, hmessage⟩ :
        ∃ m ∈ ms, m.message = "type 'Sensor_Id_t' must be camelCase and end in '_t'" := by
      cases hms
      decide +kernel
    exact ⟨ms, hms, m, hm, hmessage,
      hall m hm "Sensor_Id_t" "Sensor_Id" hmessage (.inl (by decide)) (by decide)⟩

end Rule

end CLint
