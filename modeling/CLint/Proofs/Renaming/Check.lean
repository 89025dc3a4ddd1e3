import CLint.Proofs.Renaming.Words
import CLint.Rule.Naming

namespace CLint

namespace Name

variable {c : Char} {cs ds w : List Char} {ws : List (List Char)} {name : String}

-- A name looks as if it began with the type of what it names if its first word is one letter, or a
-- run of the letter that stands for pointers, and a letter begins its second one.
def hasShortPrefix : List (List Char) → Bool
  | w :: v :: _ => v.head?.any Char.isAlpha && (w.length = 1 || w.all (·.toLower = 'p'))
  | _ => false

-- Each word that a letter begins has one more letter, in itself or in the words right behind it
-- that digits begin.
def wordsGoOn : List (List Char) → Bool
  | [] => true
  | w :: ws =>
    (!w.head?.any Char.isAlpha ||
      (w.tail ++ (ws.takeWhile (!·.head?.any Char.isAlpha)).flatten).any Char.isAlpha) &&
        wordsGoOn ws

-- Words of letters and digits, as those of an identifier are.
def AreWords (ws : List (List Char)) : Prop :=
  ∀ w ∈ ws, w ≠ [] ∧ ∀ c ∈ w, c.isAlphanum

theorem areWords_words (h : isIdentifier cs) : AreWords (words cs) := fun _ hw =>
  ⟨(of_mem_words hw).1, isAlphanum_of_mem_words h hw⟩

theorem isAlphanum_toLower (h : c.isAlphanum) : c.toLower.isAlphanum := by
  by_cases hc : c.isUpper
  · simp [Char.isAlphanum, Char.isAlpha, hc]
  · rwa [Char.toLower_eq_of_not_isUpper hc]

theorem isAlphanum_toUpper (h : c.isAlphanum) : c.toUpper.isAlphanum := by
  by_cases hc : c.isLower
  · simp [Char.isAlphanum, Char.isAlpha, hc]
  · rwa [Char.toUpper_eq_of_not_isLower hc]

theorem isAlphanum_of_mem_capitalize (h : ∀ c ∈ w, c.isAlphanum) :
    ∀ c ∈ capitalize w, c.isAlphanum := by
  cases w with
  | nil => exact h
  | cons d w =>
    obtain ⟨hd, hw⟩ := List.forall_mem_cons.mp h
    exact List.forall_mem_cons.mpr
      ⟨isAlphanum_toUpper hd, List.forall_mem_map.mpr fun c hc => isAlphanum_toLower (hw c hc)⟩

theorem isAlphanum_of_mem_flatMap (h : AreWords ws) :
    ∀ c ∈ ws.flatMap capitalize, c.isAlphanum := by
  intro c hc
  obtain ⟨w, hw, hc⟩ := List.mem_flatMap.mp hc
  exact isAlphanum_of_mem_capitalize (h w hw).2 c hc

-- A name without a line feed is looked at as it is.
theorem body_eq_self (h : '\n' ∉ cs) : body cs = cs :=
  if_neg fun hlast => h (List.mem_of_getLast? hlast)

theorem lineFeed_notMem (h : ∀ c ∈ cs, c.isAlphanum) : '\n' ∉ cs :=
  fun hc => absurd (h _ hc) (by decide)

theorem style_ofList (h : ∀ c ∈ cs, c.isAlphanum) : style (String.ofList cs) = styleOf cs := by
  rw [style, String.toList_ofList, body_eq_self (lineFeed_notMem h)]

section CamelCase

theorem styleOf_of_isLower (hc : c.isLower) (hcs : ∀ d ∈ cs, d.isAlphanum) :
    styleOf (c :: cs) = .camelCase := by
  have hupper : c.isUpper = false := by simpa using Char.not_isUpper_of_isLower hc
  simp [styleOf, isUpperSnake, isPascal, isCamel, hupper, hc, List.all_eq_true.mpr hcs]

theorem camelCase_of_words (hi : isIdentifier name.toList) (h : words name.toList = w :: ws) :
    camelCase name = String.ofList (w.map Char.toLower ++ ws.flatMap capitalize) := by
  have hw := (areWords_words hi w (h ▸ List.mem_cons_self)).2
  rw [camelCase, h]
  dsimp only
  rw [Text.lowerChars_of_ascii fun c hc => toNat_lt_of_isAlphanum (hw c hc)]

-- A small letter comes first, and there are but letters and digits.
theorem exists_camelCase_eq (hi : isIdentifier name.toList) (hl : startsWithLetter name.toList) :
    ∃ c cs, c.isLower ∧ (∀ d ∈ c :: cs, d.isAlphanum) ∧
      camelCase name = String.ofList (c :: cs) := by
  obtain ⟨c, w, ws, hc, hwords⟩ := exists_words_of_startsWithLetter hl
  obtain ⟨⟨-, hw⟩, hws⟩ := List.forall_mem_cons.mp (hwords ▸ areWords_words hi)
  have hall : ∀ d ∈ (c :: w).map Char.toLower ++ ws.flatMap capitalize, d.isAlphanum :=
    List.forall_mem_append.mpr ⟨List.forall_mem_map.mpr fun d hd => isAlphanum_toLower (hw d hd),
      isAlphanum_of_mem_flatMap hws⟩
  exact ⟨c.toLower, _, by simpa using hc, hall, camelCase_of_words hi hwords⟩

theorem style_camelCase (hi : isIdentifier name.toList) (hl : startsWithLetter name.toList) :
    style (camelCase name) = .camelCase := by
  obtain ⟨c, cs, hc, hall, hname⟩ := exists_camelCase_eq hi hl
  rw [hname, style_ofList hall]
  exact styleOf_of_isLower hc (List.forall_mem_cons.mp hall).2

theorem isHungarian_cons (c : Char) (cs : List Char) :
    isHungarian (String.ofList (c :: cs)) =
      (c.isLower && cs.head?.any Char.isUpper ||
        (c = 'p' && (cs.dropWhile (· = 'p')).head?.any Char.isUpper)) := by
  cases cs with
  | nil => simp [isHungarian]
  | cons d cs => simp [isHungarian]

-- The first character of a capitalized word is a capital just if it is a letter, and no `p`.
theorem head?_flatMap_capitalize (h : AreWords ws) :
    (ws.flatMap capitalize).head?.any Char.isUpper =
        ws.head?.any (·.head?.any Char.isAlpha) ∧
      (ws.flatMap capitalize).dropWhile (· = 'p') = ws.flatMap capitalize := by
  cases ws with
  | nil => exact ⟨rfl, rfl⟩
  | cons w ws =>
    obtain ⟨c, w, rfl⟩ := List.exists_cons_of_ne_nil (h w List.mem_cons_self).1
    have hp : c.toUpper ≠ 'p' := fun hc => by
      have hlower := Char.isLower_toUpper_eq_false c
      rw [hc] at hlower
      cases hlower
    simp [capitalize, hp]

-- Behind small letters, the first capital comes after a run of one letter just if they are one.
theorem any_dropWhile_map (hds : ds.dropWhile (· = 'p') = ds) :
    ((w.map Char.toLower ++ ds).dropWhile (· = 'p')).head?.any Char.isUpper =
      (w.all (·.toLower = 'p') && ds.head?.any Char.isUpper) := by
  induction w with
  | nil => simp [hds]
  | cons d w ih =>
    by_cases hd : d.toLower = 'p'
    · simpa [hd] using ih
    · simp [hd]

theorem isHungarian_of_words (h : AreWords (w :: ws)) (hw : w.head?.any Char.isAlpha) :
    isHungarian (String.ofList (w.map Char.toLower ++ ws.flatMap capitalize)) =
      hasShortPrefix (w :: ws) := by
  obtain ⟨-, hws⟩ := List.forall_mem_cons.mp h
  obtain ⟨hhead, hdrop⟩ := head?_flatMap_capitalize hws
  obtain ⟨c, w, rfl⟩ := List.exists_cons_of_ne_nil (h w List.mem_cons_self).1
  have hc : c.toLower.isLower := by simpa using hw
  -- The rest of the first word has no capitals.
  have hfirst : (w.map Char.toLower ++ ws.flatMap capitalize).head?.any Char.isUpper =
      (w.isEmpty && ws.head?.any (·.head?.any Char.isAlpha)) := by
    cases w <;> simp [hhead]
  rw [List.map_cons, List.cons_append, isHungarian_cons, hfirst, any_dropWhile_map hdrop, hhead, hc]
  cases ws with
  | nil => simp [hasShortPrefix]
  | cons v ws =>
    cases w with
    | nil => simp [hasShortPrefix]
    | cons d w => simp [hasShortPrefix, Bool.and_comm, Bool.and_left_comm]

end CamelCase

section PascalCase

theorem isLower_eq_false_of_isUpper (h : c.isUpper) : c.isLower = false := by
  simpa using Char.not_isLower_of_isUpper h

theorem isDigit_eq_false_of_isLower (h : c.isLower) : c.isDigit = false := by
  simp only [Char.isLower, Bool.and_eq_true, decide_eq_true_eq, ge_iff_le,
    UInt32.le_iff_toNat_le, Char.toNat_val] at h
  rw [← Bool.not_eq_true, Char.isDigit_iff_toNat]
  simp at h ⊢
  omega

-- What has a small letter behind its capitals is not all capitals.
theorem styleOf_eq_pascalCase_iff (hc : c.isUpper) (hcs : ∀ d ∈ cs, d.isAlphanum) :
    styleOf (c :: cs) = .pascalCase ↔ wordsHaveSmall (c :: cs) := by
  have hpascal : isPascal (c :: cs) = wordsHaveSmall (c :: cs) := by
    simp [isPascal, hc, List.all_eq_true.mpr hcs]
  have hlower : isCamel (c :: cs) = false := by
    simp [isCamel, isLower_eq_false_of_isUpper hc]
  cases hsmall : wordsHaveSmall (c :: cs) with
  | false =>
    simp only [styleOf, hpascal, hsmall, hlower]
    split <;> simp
  | true =>
    obtain ⟨d, hd, hsmaller⟩ : ∃ d ∈ cs, d.isLower := by
      simp only [wordsHaveSmall, hc, Bool.not_true, Bool.false_or, Bool.and_eq_true,
        List.any_eq_true] at hsmall
      obtain ⟨⟨d, hd, hsmaller⟩, -⟩ := hsmall
      exact ⟨d, (List.takeWhile_prefix _).mem hd, hsmaller⟩
    have hsnake : isUpperSnake (c :: cs) = false := by
      refine Bool.eq_false_iff.mpr fun hsnake => ?_
      simp only [isUpperSnake, Bool.and_eq_true, List.all_eq_true] at hsnake
      have hd := hsnake.2 d hd
      have hupper : d.isUpper = false := by simpa using Char.not_isUpper_of_isLower hsmaller
      have hdigit : d.isDigit = false := isDigit_eq_false_of_isLower hsmaller
      have hne : d ≠ '_' := by
        rintro rfl
        cases hsmaller
      simp [hupper, hdigit, hne] at hd
    simp [styleOf, hsnake, hpascal, hsmall]

theorem wordsHaveSmall_append (h : ∀ c ∈ cs, c.isUpper = false) (ds : List Char) :
    wordsHaveSmall (cs ++ ds) = wordsHaveSmall ds := by
  induction cs with
  | nil => rfl
  | cons c cs ih =>
    obtain ⟨hc, hcs⟩ := List.forall_mem_cons.mp h
    rw [List.cons_append, wordsHaveSmall, hc, ih hcs]
    rfl

-- Up to the next capital are the words that digits begin.
theorem any_takeWhile_flatMap (h : AreWords ws) :
    ((ws.flatMap capitalize).takeWhile (!·.isUpper)).any Char.isLower =
      (ws.takeWhile (!·.head?.any Char.isAlpha)).flatten.any Char.isAlpha := by
  induction ws with
  | nil => rfl
  | cons w ws ih =>
    obtain ⟨⟨hne, -⟩, hws⟩ := List.forall_mem_cons.mp h
    obtain ⟨c, w, rfl⟩ := List.exists_cons_of_ne_nil hne
    cases hc : c.isAlpha with
    | true => simp [capitalize, hc]
    | false =>
      have htail : ∀ d ∈ w.map Char.toLower, (!d.isUpper) = true :=
        List.forall_mem_map.mpr fun d _ => by simp
      have hmap : (w.map Char.toLower).any Char.isLower = w.any Char.isAlpha := by
        simp [List.any_map, Function.comp_def]
      rw [List.flatMap_cons, capitalize, List.cons_append,
        List.takeWhile_cons_of_pos (by simp [hc]),
        List.takeWhile_append_of_pos htail, List.takeWhile_cons_of_pos (by simp [hc])]
      simp [hc, hmap, ih hws]

theorem wordsHaveSmall_flatMap (h : AreWords ws) :
    wordsHaveSmall (ws.flatMap capitalize) = wordsGoOn ws := by
  induction ws with
  | nil => rfl
  | cons w ws ih =>
    obtain ⟨⟨hne, -⟩, hws⟩ := List.forall_mem_cons.mp h
    obtain ⟨c, w, rfl⟩ := List.exists_cons_of_ne_nil hne
    have htail : ∀ d ∈ w.map Char.toLower, d.isUpper = false :=
      List.forall_mem_map.mpr fun d _ => by simp
    have hmap : (w.map Char.toLower).any Char.isLower = w.any Char.isAlpha := by
      simp [List.any_map, Function.comp_def]
    rw [List.flatMap_cons, capitalize, List.cons_append, wordsHaveSmall,
      wordsHaveSmall_append htail, ih hws,
      List.takeWhile_append_of_pos fun d hd => by simp [htail d hd], List.any_append, hmap,
      any_takeWhile_flatMap hws, wordsGoOn]
    simp

theorem style_pascalCase_iff (hi : isIdentifier name.toList) (hl : startsWithLetter name.toList) :
    style (pascalCase name) = .pascalCase ↔ wordsGoOn (words name.toList) := by
  obtain ⟨c, w, ws, hc, hwords⟩ := exists_words_of_startsWithLetter hl
  have hare := areWords_words hi
  have hall := isAlphanum_of_mem_flatMap hare
  rw [pascalCase, style_ofList hall, ← wordsHaveSmall_flatMap hare]
  rw [hwords, List.flatMap_cons, capitalize, List.cons_append] at hall ⊢
  exact styleOf_eq_pascalCase_iff (by simpa using hc) (List.forall_mem_cons.mp hall).2

end PascalCase

end Name

namespace Rule

open Name

variable {a b label name x : String} {span : Span} {d : Declaration Span} {m : Remark}
  {verbs : List String}

theorem eq_of_renamed (h : s!"Rename to '{a}'." = s!"Rename to '{b}'.") : a = b := by
  have h : "Rename to '" ++ a ++ "'." = "Rename to '" ++ b ++ "'." := h
  exact (String.append_right_inj _).mp ((String.append_left_inj _).mp h)

theorem head?_renamed (x : String) : (s!"Rename to '{x}'.").toList.head? = some 'R' := by
  show ("Rename to '" ++ x ++ "'.").toList.head? = some 'R'
  simp

-- The names that a declaration brings along.
def namesOf (d : Declaration Span) : List String :=
  d.name :: d.parameters.map (·.name)

-- All that is said of variables is said of single names.
theorem exists_variableRemark (h : m ∈ variableRemarks d) :
    ∃ label, ∃ name ∈ namesOf d, ∃ span, variableRemark label name span = some m := by
  unfold variableRemarks at h
  dsimp only at h
  split at h
  case isTrue => cases h
  case isFalse =>
    cases List.mem_append.mp h
    case inl h =>
      rw [Option.mem_toList] at h
      split at h
      · exact ⟨_, d.name, List.mem_cons_self, _, h⟩
      · cases h
    case inr h =>
      obtain ⟨p, hp, h⟩ := List.mem_filterMap.mp h
      have hp := List.mem_map_of_mem (f := Parameter.name) (List.mem_filter.mp hp).1
      exact ⟨_, p.name, List.mem_cons_of_mem _ hp, _, h⟩

theorem camelCase_of_variableRemark (h : variableRemark label name span = some m)
    (hx : m.suggestion = some s!"Rename to '{x}'.") : x = camelCase name := by
  unfold variableRemark at h
  split at h
  case isTrue =>
    cases h
    exact (eq_of_renamed (Option.some.inj hx)).symm
  case isFalse =>
    split at h <;> cases h
    have hfirst := head?_renamed x
    rw [← Option.some.inj hx] at hfirst
    cases hfirst

theorem pascalCase_of_functionRemark (h : functionRemark verbs d = some m)
    (hx : m.suggestion = some s!"Rename to '{x}'.") : x = pascalCase d.name := by
  unfold functionRemark at h
  split at h
  case isTrue => cases h
  case isFalse =>
    split at h
    case isTrue =>
      cases h
      exact (eq_of_renamed (Option.some.inj hx)).symm
    case isFalse =>
      dsimp only at h
      split at h <;> cases h
      have hfirst := head?_renamed x
      rw [← Option.some.inj hx] at hfirst
      cases hfirst

theorem variableRemark_camelCase_eq_none_iff (hi : isIdentifier name.toList)
    (hl : startsWithLetter name.toList) :
    variableRemark label (camelCase name) span = none ↔
      hasShortPrefix (words name.toList) = false := by
  obtain ⟨c, w, ws, hc, hwords⟩ := exists_words_of_startsWithLetter hl
  have hprefix := isHungarian_of_words (hwords ▸ areWords_words hi) (by simpa using hc)
  rw [← camelCase_of_words hi hwords, ← hwords] at hprefix
  rw [variableRemark, style_camelCase hi hl, hprefix]
  simp

-- The names that are suggested in place of identifiers which begin with a letter. That of a
-- variable is in camel case, and accepted just if it does not begin with a short word. That of a
-- function is in Pascal case just if each of its words goes on with a letter, where words that
-- begin with a digit count for the one before.
theorem isAccepted_renamed_iff (settings : RuleSettings) (o : Outline) :
    (∃ ms, variableNaming.check settings o = .ok ms ∧ ∀ m ∈ ms, ∀ x : String,
      m.suggestion = some s!"Rename to '{x}'." →
        ∃ d ∈ o.declarations, ∃ label, ∃ name ∈ namesOf d, ∃ span,
          variableRemark label name span = some m ∧
            (isIdentifier name.toList → startsWithLetter name.toList → style x = .camelCase ∧
              (variableRemark label x span = none ↔
                hasShortPrefix (words name.toList) = false))) ∧
    ∃ ms, functionNaming.check settings o = .ok ms ∧ ∀ m ∈ ms, ∀ x : String,
      m.suggestion = some s!"Rename to '{x}'." →
        ∃ d ∈ o.declarations,
          functionRemark (settings.verbs.map Text.lower) d = some m ∧
            (isIdentifier d.name.toList → startsWithLetter d.name.toList →
              (style x = .pascalCase ↔ wordsGoOn (words d.name.toList))) := by
  constructor
  case left =>
    refine ⟨_, rfl, fun m hm x hx => ?_⟩
    obtain ⟨d, hd, hm⟩ := List.mem_flatMap.mp hm
    obtain ⟨label, name, hname, span, hremark⟩ := exists_variableRemark hm
    refine ⟨d, hd, label, name, hname, span, hremark, fun hi hl => ?_⟩
    rw [camelCase_of_variableRemark hremark hx]
    exact ⟨style_camelCase hi hl, variableRemark_camelCase_eq_none_iff hi hl⟩
  case right =>
    refine ⟨_, rfl, fun m hm x hx => ?_⟩
    obtain ⟨d, hd, hremark⟩ := List.mem_filterMap.mp hm
    refine ⟨d, hd, hremark, fun hi hl => ?_⟩
    rw [pascalCase_of_functionRemark hremark hx]
    exact style_pascalCase_iff hi hl

-- Short words, with digits behind them.
theorem isAccepted_renamed_iff_digits :
    (let o := Outline.ofSource (.ofText "a.c" "int P_9x_Count;\n")
      ∃ ms, variableNaming.check {} o = .ok ms ∧
        ∃ m ∈ ms, m.suggestion = some "Rename to 'p9xCount'." ∧
          ∃ label span, variableRemark label "P_9x_Count" span = some m ∧
            style "p9xCount" = .camelCase ∧ variableRemark label "p9xCount" span = none) ∧
    let o := Outline.ofSource (.ofText "a.c" "void set_x_2d();\n")
    ∃ ms, functionNaming.check {} o = .ok ms ∧
      ∃ m ∈ ms, m.suggestion = some "Rename to 'SetX2d'." ∧ style "SetX2d" = .pascalCase := by
  constructor
  case left =>
    intro o
    have hnames : ∀ d ∈ o.declarations, ∀ name ∈ namesOf d, name = "P_9x_Count" := by
      decide +kernel
    obtain ⟨⟨ms, hms, hall⟩, -⟩ := isAccepted_renamed_iff {} o
    obtain ⟨m, hm, hx⟩ : ∃ m ∈ ms, m.suggestion = some "Rename to 'p9xCount'." := by
      cases hms
      decide +kernel
    obtain ⟨d, hd, label, name, hname, span, hremark, haccepted⟩ := hall m hm "p9xCount" hx
    cases hnames d hd name hname
    obtain ⟨hstyle, hnone⟩ := haccepted (by decide +kernel) (by decide +kernel)
    exact ⟨ms, hms, m, hm, hx, label, span, hremark, hstyle, hnone.mpr (by decide +kernel)⟩
  case right =>
    intro o
    have hnames : ∀ d ∈ o.declarations, d.name = "set_x_2d" := by decide +kernel
    obtain ⟨-, ms, hms, hall⟩ := isAccepted_renamed_iff {} o
    obtain ⟨m, hm, hx⟩ : ∃ m ∈ ms, m.suggestion = some "Rename to 'SetX2d'." := by
      cases hms
      decide +kernel
    obtain ⟨d, hd, -, hstyle⟩ := hall m hm "SetX2d" hx
    rw [hnames d hd] at hstyle
    exact ⟨ms, hms, m, hm, hx,
      (hstyle (by decide +kernel) (by decide +kernel)).mpr (by decide +kernel)⟩

-- What is suggested for a variable may be reported for its first word, and what is suggested for a
-- function for its last one.
theorem rejects_renamed :
    let suggestions (r : Rule) (text : String) : Option (List (Option String)) :=
      (r.check {} (.ofSource (.ofText "a.c" text))).toOption.map (·.map (·.suggestion))
    suggestions variableNaming "int a_b;\n" = some [some "Rename to 'aB'."] ∧
      suggestions variableNaming "int aB;\n" =
        some [some "Drop the type prefix and describe the value instead."] ∧
      suggestions functionNaming "void get_x();\n" = some [some "Rename to 'GetX'."] ∧
      suggestions functionNaming "void GetX();\n" = some [some "Rename to 'GetX'."] := by
  decide +kernel

end Rule

end CLint
