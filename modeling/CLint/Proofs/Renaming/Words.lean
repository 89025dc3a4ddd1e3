import CLint.Name
import CLint.Name.Words
import CLint.Token.Lexer
import Mathlib

namespace CLint

namespace Text

variable {c : Char} {cs w : List Char} {p : Char → Bool}

theorem mem_fields (h : w ∈ fields p cs) : ∀ c ∈ w, c ∈ cs ∧ p c = false := by
  fun_induction fields p cs generalizing w with
  | case1 => simp_all
  | case2 c cs hc ih =>
    rcases List.mem_cons.mp h with rfl | h
    · exact List.forall_mem_nil _
    · exact fun d hd => (ih h d hd).imp_left (List.mem_cons_of_mem c)
  | case3 c cs hc hf ih =>
    cases List.mem_singleton.mp h
    simpa using hc
  | case4 c cs hc f fs hf ih =>
    rw [hf] at ih
    rcases List.mem_cons.mp h with rfl | h
    · refine List.forall_mem_cons.mpr ⟨⟨List.mem_cons_self, by simpa using hc⟩, fun d hd => ?_⟩
      exact (ih List.mem_cons_self d hd).imp_left (List.mem_cons_of_mem c)
    · exact fun d hd =>
        (ih (List.mem_cons_of_mem f h) d hd).imp_left (List.mem_cons_of_mem c)

theorem exists_fields_cons (hc : p c = false) (cs : List Char) :
    ∃ f fs, fields p (c :: cs) = (c :: f) :: fs := by
  rw [fields, if_neg (by simp [hc])]
  split
  · exact ⟨[], [], rfl⟩
  · exact ⟨_, _, rfl⟩

-- Letters of ASCII have their small forms one by one.
theorem lowerBehind_of_ascii (h : ∀ c ∈ cs, c.toNat < 128) (before : List Char) :
    lowerBehind before cs = cs.map Char.toLower := by
  induction cs generalizing before with
  | nil => rfl
  | cons c cs ih =>
    obtain ⟨hc, hcs⟩ := List.forall_mem_cons.mp h
    have hsigma : c ≠ 'Σ' := by
      rintro rfl
      revert hc
      decide
    have hdotted : c ≠ '\u0130' := by
      rintro rfl
      revert hc
      decide
    rw [lowerBehind, ih hcs]
    simp [lowerChar, smallLetter, hsigma, hdotted, hc]

theorem lowerChars_of_ascii (h : ∀ c ∈ cs, c.toNat < 128) : lowerChars cs = cs.map Char.toLower :=
  lowerBehind_of_ascii h []

end Text

namespace Name

variable {c : Char} {cs w : List Char}

-- The identifiers of C.
def isIdentifier : List Char → Bool
  | [] => false
  | c :: cs => Lexer.isWordStart c && cs.all Lexer.isWordChar

-- Is the first character that is no underscore a letter?
def startsWithLetter (cs : List Char) : Bool :=
  (cs.dropWhile (· = '_')).head?.any Char.isAlpha

theorem toNat_lt_of_isAlphanum (h : c.isAlphanum) : c.toNat < 128 := by
  simp only [Char.isAlphanum, Char.isAlpha, Char.isUpper, Char.isLower, Char.isDigit,
    Bool.or_eq_true, Bool.and_eq_true, decide_eq_true_eq, ge_iff_le, UInt32.le_iff_toNat_le,
    Char.toNat_val] at h
  simp at h
  omega

theorem separates_of_isAlpha (h : c.isAlpha) : separates c = false := by
  simp only [Char.isAlpha, Char.isUpper, Char.isLower, Bool.or_eq_true, Bool.and_eq_true,
    decide_eq_true_eq, ge_iff_le, UInt32.le_iff_toNat_le, Char.toNat_val] at h
  simp at h
  have hne : ∀ d : Char, d.toNat < 65 ∨ 90 < d.toNat ∧ d.toNat < 97 → c ≠ d := by
    rintro d hd rfl
    omega
  simp only [separates, Text.isBlank, hne '_' (by decide), hne '-' (by decide)]
  simp
  omega

theorem isAlphanum_of_isIdentifier (h : isIdentifier cs) (hc : c ∈ cs) (hne : c ≠ '_') :
    c.isAlphanum := by
  have hword : ∀ c ∈ cs, Lexer.isWordChar c := by
    cases cs with
    | nil => cases hc
    | cons d ds =>
      simp only [isIdentifier, Lexer.isWordStart, Bool.and_eq_true, Bool.or_eq_true,
        List.all_eq_true] at h
      refine List.forall_mem_cons.mpr ⟨?_, h.2⟩
      rw [Lexer.isWordChar, Char.isAlphanum, Bool.or_eq_true, Bool.or_eq_true]
      exact h.1.imp_left .inl
  simpa [Lexer.isWordChar, hne] using hword c hc

theorem mem_spread (h : c ∈ spread cs) : c ∈ cs ∨ c = ' ' := by
  fun_induction spread cs with
  | case1 => cases h
  | case2 => exact .inl h
  | case3 d e cs _ ih =>
    rcases List.mem_cons.mp h with rfl | h
    · exact .inl List.mem_cons_self
    · rcases List.mem_cons.mp h with rfl | h
      · exact .inr rfl
      · exact (ih h).imp_left (List.mem_cons_of_mem d)
  | case4 d e cs _ ih =>
    rcases List.mem_cons.mp h with rfl | h
    · exact .inl List.mem_cons_self
    · exact (ih h).imp_left (List.mem_cons_of_mem d)

theorem exists_spread_cons (c : Char) (cs : List Char) : ∃ ds, spread (c :: cs) = c :: ds := by
  unfold spread
  split
  case h_1 => contradiction
  case h_2 h =>
    cases h
    exact ⟨[], rfl⟩
  case h_3 h =>
    cases h
    split <;> exact ⟨_, rfl⟩

-- A word has some characters of the name, and none that separates words.
theorem of_mem_words (h : w ∈ words cs) : w ≠ [] ∧ ∀ c ∈ w, c ∈ cs ∧ c ≠ '_' := by
  obtain ⟨hw, hne⟩ := List.mem_filter.mp h
  refine ⟨by simpa using hne, fun c hc => ?_⟩
  obtain ⟨hmem, hsep⟩ := Text.mem_fields hw c hc
  refine ⟨(mem_spread hmem).resolve_right ?_, ?_⟩
  all_goals
    rintro rfl
    cases hsep

theorem isAlphanum_of_mem_words (h : isIdentifier cs) (hw : w ∈ words cs) :
    ∀ c ∈ w, c.isAlphanum := fun _ hc =>
  have hmem := (of_mem_words hw).2 _ hc
  isAlphanum_of_isIdentifier h hmem.1 hmem.2

theorem words_underscore (cs : List Char) : words ('_' :: cs) = words cs := by
  cases cs with
  | nil => rfl
  | cons c cs => simp [words, spread, Text.fields, separates]

theorem exists_words_cons (h : separates c = false) (cs : List Char) :
    ∃ w ws, words (c :: cs) = (c :: w) :: ws := by
  obtain ⟨ds, hspread⟩ := exists_spread_cons c cs
  obtain ⟨f, fs, hfields⟩ := Text.exists_fields_cons h ds
  exact ⟨f, _, by rw [words, hspread, hfields, List.filter_cons_of_pos rfl]⟩

-- The first word of a name starts as the name does, underscores aside.
theorem exists_words_of_startsWithLetter (h : startsWithLetter cs) :
    ∃ c w ws, c.isAlpha ∧ words cs = (c :: w) :: ws := by
  induction cs with
  | nil => cases h
  | cons c cs ih =>
    by_cases hc : c = '_'
    case pos =>
      subst hc
      rw [words_underscore]
      exact ih (by simpa [startsWithLetter] using h)
    case neg =>
      have hletter : c.isAlpha := by simpa [startsWithLetter, hc] using h
      obtain ⟨w, ws, hwords⟩ := exists_words_cons (separates_of_isAlpha hletter) cs
      exact ⟨c, w, ws, hletter, hwords⟩

end Name

end CLint
