import CLint.Proofs.Flipped.Ending
import CLint.Proofs.Located.Code
import CLint.Proofs.Numbers.Enumerations
import CLint.Proofs.Numbers.Spelling

namespace CLint

namespace Remark

def BeginsAt (m : Remark) (t : Token) : Prop :=
  m.line = t.line ∧ m.column = t.column

def EndsAt (m : Remark) (t : Token) : Prop :=
  m.stop = some ((t.span.stop.line : Int), (t.span.stop.column : Int))

end Remark

namespace Source

variable {cs : List Char} {m n : Nat} {path text : String} {t u : Token}

-- The later one of two offsets on a line is further right.
theorem column_placeAt_lt (h : m < n) (hline : (placeAt cs m).line = (placeAt cs n).line) :
    (placeAt cs m).column < (placeAt cs n).column := by
  have heq := (sublist_breaksUpTo cs (Nat.le_of_lt h)).eq_of_length (Nat.succ.inj hline)
  have hlast : (breaksUpTo cs m).getLast?.getD 0 ≤ m := by
    cases hl : (breaksUpTo cs m).getLast? with
    | none => exact Nat.zero_le _
    | some b => exact of_decide_eq_true (List.mem_filter.mp (List.mem_of_getLast? hl)).2
  rw [placeAt, placeAt, ← heq]
  dsimp only
  omega

theorem eq_of_placeAt (hline : (placeAt cs m).line = (placeAt cs n).line)
    (hcolumn : (placeAt cs m).column = (placeAt cs n).column) : m = n := by
  rcases Nat.lt_trichotomy m n with h | h | h
  · exact absurd hcolumn (Nat.ne_of_lt (column_placeAt_lt h hline))
  · exact h
  · exact absurd hcolumn.symm (Nat.ne_of_lt (column_placeAt_lt h hline.symm))

-- No two tokens end at the same place.
theorem eq_of_stop_eq (ht : t ∈ (ofText path text).tokens) (hu : u ∈ (ofText path text).tokens)
    (hline : t.span.stop.line = u.span.stop.line)
    (hcolumn : t.span.stop.column = u.span.stop.column) : t = u := by
  have ho := ordered_tokens path text
  have htpos := ho.nonempty t ht
  have hupos := ho.nonempty u hu
  have hdiffer : (ofText path text).tokens.Pairwise (·.endOffset ≠ ·.endOffset) :=
    ho.apart.imp_of_mem fun _ hb hab =>
      Nat.ne_of_lt (Nat.lt_of_le_of_lt hab (ho.nonempty _ hb))
  rw [stop_eq_placeAt ht, stop_eq_placeAt hu] at hline hcolumn
  have hend := eq_of_placeAt hline (Nat.succ.inj hcolumn)
  have : Std.Symm fun a b : Token => a.endOffset ≠ b.endOffset := ⟨fun _ _ => Ne.symm⟩
  by_contra hne
  exact hdiffer.forall ht hu hne (by omega)

end Source

namespace Lexer

variable {c : Char} {ds more : List Char}

theorem ne_of_isDigit (h : c.isDigit) {d : Char} (hd : d.isDigit = false) : c ≠ d := by
  rintro rfl
  rw [hd] at h
  cases h

theorem isWordChar_of_isDigit (h : c.isDigit) : isWordChar c := by
  simp [isWordChar, Char.isAlphanum, h]

-- A number that only digits are taken for goes on to the last one of them.
theorem numberRun_digits (hds : ∀ d ∈ ds, d.isDigit) (hm : EndsNumber [] more) :
    numberRun (ds ++ more) = (ds, more) := by
  induction ds with
  | nil => exact numberRun_stop hm
  | cons d ds ih =>
    obtain ⟨hd, hds⟩ := List.forall_mem_cons.mp hds
    have hexp : isExponent d = false := by simp [isExponent, ne_of_isDigit hd]
    rw [List.cons_append, numberRun_cons (.inl (isWordChar_of_isDigit hd)) (by simp [hexp]), ih hds]
    rfl

theorem lexemes_digits (hc : c.isDigit) (hds : ∀ d ∈ ds, d.isDigit) (hm : EndsNumber [] more) :
    lexemes (c :: (ds ++ more)) = .number (String.ofList (c :: ds)) :: lexemes more := by
  have hword := isWordChar_of_isDigit hc
  obtain ⟨hbreak, hblank, hslash⟩ := plain_of_isWordChar (.inl hword)
  have hcode : code c (ds ++ more) = number [c] (ds ++ more) := by
    simp [code, literalStart_of_plain (not_quote_of_isWordChar hword), ne_of_isDigit hc,
      numberStart_of_ne, hc]
  rw [lexemes_cons, next_of_plain hbreak hblank hslash, hcode, number, numberRun_digits hds hm]
  rfl

end Lexer

namespace Rule

open Numeral Remark

variable {settings : RuleSettings} {o : Outline} {before ts : List Token} {t : Token} {m : Remark}
  {ms : List Remark} {n : Nat}

theorem endsAt_of_numberRemark (h : numberRemark settings o before t = .ok (some m)) :
    m.EndsAt t := by
  unfold numberRemark at h
  split at h
  case isTrue => cases h
  case isFalse =>
    obtain ⟨value, _, h⟩ := exists_of_bind_eq_ok h
    dsimp only at h
    split at h <;> cases h
    rfl

-- A number is not judged if it is a constant, and only one that is too long cannot be.
theorem exists_error_numberRemark : (∃ e, numberRemark settings o before t = .error e) ↔
    t.lexeme.isNumber ∧ o.inConstantRegion t.offset = false ∧ IsOverlong t.text := by
  unfold numberRemark
  split
  case isTrue hskip =>
    simp only [Bool.or_eq_true, Bool.not_eq_true'] at hskip
    refine iff_of_false nofun fun ⟨hnumber, hregion, _⟩ => ?_
    simp [hnumber, hregion] at hskip
  case isFalse hskip =>
    simp only [Bool.or_eq_true, Bool.not_eq_true', not_or, Bool.not_eq_false] at hskip
    simp only [hskip, isOverlong_iff, true_and]
    cases numeral? t.text with
    | error e => exact iff_of_true ⟨e, rfl⟩ ⟨e, rfl⟩
    | ok value =>
      refine iff_of_false (fun ⟨e, he⟩ => ?_) nofun
      dsimp only [bind, Except.bind] at he
      split at he <;> cases he

-- A number that is read is reported if its value, with its sign, is none of those allowed, and
-- then from the sign on.
theorem numberRemark_of_spells (settings : RuleSettings) (before : List Token)
    (ht : t.lexeme.isNumber)
    (hregion : o.inConstantRegion t.offset = false) (hn : Spells t.text n) :
    ∃ found, numberRemark settings o before t = .ok found ∧
      (found.isSome ↔
        (if (sign? before).isSome then -(n : Int) else n) ∉ settings.allowedNumbers) ∧
      ∀ m ∈ found, m.BeginsAt ((sign? before).getD t) := by
  have hallowed : ((some (whole n)).any fun x =>
      settings.allowedNumbers.any (x.hasValue (sign? before).isSome)) ↔
      (if (sign? before).isSome then -(n : Int) else n) ∈ settings.allowedNumbers := by
    simp [Option.any, List.any_eq_true, hasValue_whole]
  unfold numberRemark
  simp only [ht, hregion, Bool.not_true, Bool.or_self, Bool.false_eq_true, if_false,
    numeral?_of_spells hn]
  dsimp only [bind, Except.bind]
  split
  case isTrue h => exact ⟨none, rfl, by simp [← hallowed, h], nofun⟩
  case isFalse h =>
    refine ⟨some _, rfl, by simp [← hallowed, h], fun m hm => ?_⟩
    cases hm
    exact ⟨rfl, rfl⟩

theorem exists_of_isOk {ε α : Type} {x : Except ε α} (h : x.isOk) : ∃ a, x = .ok a := by
  cases x with
  | error e => cases h
  | ok a => exact ⟨a, rfl⟩

theorem exists_error_bind {ε α β : Type} {x : Except ε α} {f : α → Except ε β} :
    (∃ e, x >>= f = .error e) ↔ (∃ e, x = .error e) ∨ ∃ a, x = .ok a ∧ ∃ e, f a = .error e := by
  cases x with
  | error e => exact iff_of_true ⟨e, rfl⟩ (.inl ⟨e, rfl⟩)
  | ok a => exact ⟨fun h => .inr ⟨a, rfl, h⟩, by rintro (⟨_, h⟩ | ⟨_, h, he⟩) <;> cases h; exact he⟩

theorem exists_prefix_cons {α : Type} {a : α} {as : List α} {P : List α → α → Prop} :
    (∃ front b, front ++ [b] <+: a :: as ∧ P front b) ↔
      P [] a ∨ ∃ front b, front ++ [b] <+: as ∧ P (a :: front) b := by
  constructor
  · rintro ⟨_ | ⟨c, front⟩, b, hb, h⟩
    · obtain ⟨rfl, -⟩ := List.cons_prefix_cons.mp hb
      exact .inl h
    · obtain ⟨rfl, hfront⟩ := List.cons_prefix_cons.mp hb
      exact .inr ⟨front, b, hfront, h⟩
  · rintro (h | ⟨front, b, hb, h⟩)
    · exact ⟨[], a, by simp, h⟩
    · exact ⟨a :: front, b, List.cons_prefix_cons.mpr ⟨rfl, hb⟩, h⟩

-- The remarks are those on the numbers, each of which is judged by what stands in front of it.
theorem mem_numberRemarks (h : numberRemarks settings o before ts = .ok ms) : m ∈ ms ↔
    ∃ front t, front ++ [t] <+: ts ∧
      numberRemark settings o (front.reverse ++ before) t = .ok (some m) := by
  induction ts generalizing before ms with
  | nil =>
    cases h
    simp
  | cons t ts ih =>
    unfold numberRemarks at h
    obtain ⟨found, hfound, h⟩ := exists_of_bind_eq_ok h
    obtain ⟨others, hothers, h⟩ := exists_of_bind_eq_ok h
    cases h
    rw [List.mem_append, ih hothers, exists_prefix_cons]
    simp [hfound]

-- All of them fail if one does.
theorem exists_error_numberRemarks : (∃ e, numberRemarks settings o before ts = .error e) ↔
    ∃ front t, front ++ [t] <+: ts ∧
      ∃ e, numberRemark settings o (front.reverse ++ before) t = .error e := by
  induction ts generalizing before with
  | nil => simp [numberRemarks]
  | cons t ts ih =>
    rw [exists_prefix_cons]
    simp only [List.reverse_nil, List.nil_append, List.reverse_cons, List.append_assoc,
      List.singleton_append, ← @ih (t :: before)]
    rw [numberRemarks, exists_error_bind]
    cases numberRemark settings o before t with
    | error e => simp
    | ok found => cases numberRemarks settings o (t :: before) ts <;> simp

-- What is said of a number whose value is taken to be the given one: it is reported just if that
-- is not allowed, by a remark that begins at the first of its tokens.
structure Judges (allowed : List Int) (ms : List Remark) (first t : Token) (value : Int) :
    Prop where
  reported : (∃ m ∈ ms, m.EndsAt t) ↔ value ∉ allowed
  begins : ∀ m ∈ ms, m.EndsAt t → m.BeginsAt first

end Rule

namespace Outline

open Rule

-- An integer of the code with the tokens in front of it and the number that it denotes. It is not
-- in the body of an enumeration.
structure HasInteger (o : Outline) (front : List Token) (t : Token) (n : Nat) : Prop where
  code : front ++ [t] <+: o.code.toList
  isNumber : t.lexeme.isNumber
  spells : Numeral.Spells t.text n
  outside : ¬Code.EndsInEnumeration (front.map (·.lexeme))

-- A number that is not left out as a constant but is too long to be judged.
def HasOverlong (o : Outline) : Prop :=
  ∃ t ∈ o.code, t.lexeme.isNumber ∧ o.inConstantRegion t.offset = false ∧
    Numeral.IsOverlong t.text

variable {path text : String} {settings : RuleSettings} {ms : List Remark}
  {front front' : List Token} {t u : Token} {n : Nat}

theorem mem_tokens_of_mem_code (h : t ∈ (ofSource (.ofText path text)).code.toList) :
    t ∈ (Source.ofText path text).tokens := by
  refine (Parts.sublist_code _).mem ?_
  simpa [ofSource, Parts.tokens] using h

-- A token has only one place in the code.
theorem eq_of_prefix_code (h : front ++ [t] <+: (ofSource (.ofText path text)).code.toList)
    (h' : front' ++ [t] <+: (ofSource (.ofText path text)).code.toList) : front = front' := by
  have hnodup := (ordered_code path text).nodup
  obtain ⟨back, hback⟩ := h
  obtain ⟨back', hback'⟩ := h'
  rw [List.append_assoc, List.singleton_append] at hback hback'
  rw [← hback] at hnodup
  obtain ⟨-, htail, hapart⟩ := List.nodup_append.mp hnodup
  have hfront : t ∉ front := fun h => hapart t h t List.mem_cons_self rfl
  have hbehind : t ∉ back := (List.nodup_cons.mp htail).1
  exact ((List.append_cons_inj_of_notMem hfront hbehind).mp (hback.trans hback'.symm)).1

theorem eq_of_endsAt {m : Remark} (ht : t ∈ (Source.ofText path text).tokens)
    (hu : u ∈ (Source.ofText path text).tokens) (hmt : m.EndsAt t) (hmu : m.EndsAt u) : t = u := by
  have hstop := hmt.symm.trans hmu
  simp only [Option.some.injEq, Prod.mk.injEq, Int.natCast_inj] at hstop
  exact Source.eq_of_stop_eq ht hu hstop.1 hstop.2

-- No two tokens end at one place, so that the remarks that end where a number does are its own.
theorem mem_and_endsAt_iff {m : Remark} {found : Option Remark}
    (hcode : front ++ [t] <+: (ofSource (.ofText path text)).code.toList)
    (hms : magicNumber.check settings (ofSource (.ofText path text)) = .ok ms)
    (hfound : numberRemark settings (ofSource (.ofText path text)) front.reverse t = .ok found) :
    m ∈ ms ∧ m.EndsAt t ↔ m ∈ found := by
  have mem_tokens {front u} (h : front ++ [u] <+: (ofSource (.ofText path text)).code.toList) :
      u ∈ (Source.ofText path text).tokens :=
    mem_tokens_of_mem_code (h.mem (List.mem_append_right _ List.mem_cons_self))
  constructor
  case mp =>
    intro ⟨hm, hend⟩
    obtain ⟨front', u, hcode', hu⟩ := (mem_numberRemarks hms).mp hm
    rw [List.append_nil] at hu
    obtain rfl := eq_of_endsAt (mem_tokens hcode') (mem_tokens hcode)
      (endsAt_of_numberRemark hu) hend
    rw [← eq_of_prefix_code hcode hcode'] at hu
    exact Except.ok.inj (hfound.symm.trans hu)
  case mpr =>
    intro hm
    have hu : numberRemark settings _ front.reverse t = .ok (some m) := hm ▸ hfound
    refine ⟨(mem_numberRemarks hms).mpr ⟨front, t, hcode, ?_⟩, endsAt_of_numberRemark hu⟩
    rwa [List.append_nil]

theorem judges_of_hasInteger (h : (ofSource (.ofText path text)).HasInteger front t n)
    (hms : magicNumber.check settings (ofSource (.ofText path text)) = .ok ms) :
    Judges settings.allowedNumbers ms ((sign? front.reverse).getD t) t
      (if (sign? front.reverse).isSome then -(n : Int) else n) := by
  have hregion : (ofSource (.ofText path text)).inConstantRegion t.offset = false := by
    obtain ⟨back, hcode⟩ := h.code
    refine Bool.not_eq_true _ ▸ fun hregion => h.outside ?_
    exact endsInEnumeration_of_inConstantRegion (by simpa using hcode.symm) h.isNumber hregion
  obtain ⟨found, hfound, hsome, hbegins⟩ :=
    numberRemark_of_spells settings front.reverse h.isNumber hregion h.spells
  constructor
  case reported =>
    rw [← hsome, Option.isSome_iff_exists]
    exact exists_congr fun m => mem_and_endsAt_iff h.code hms hfound
  case begins =>
    exact fun m hm ht => hbegins m ((mem_and_endsAt_iff h.code hms hfound).mp ⟨hm, ht⟩)

theorem exists_error_magicNumber (settings : RuleSettings) (o : Outline) :
    (∃ e, magicNumber.check settings o = .error e) ↔ o.HasOverlong := by
  refine exists_error_numberRemarks.trans ?_
  simp only [exists_error_numberRemark, HasOverlong, ← Array.mem_toList_iff]
  constructor
  · rintro ⟨front, t, hcode, h⟩
    exact ⟨t, hcode.mem (List.mem_append_right _ List.mem_cons_self), h⟩
  · rintro ⟨t, ht, h⟩
    obtain ⟨front, back, hcode⟩ := List.append_of_mem ht
    exact ⟨front, t, ⟨back, by rw [hcode, List.append_assoc]; rfl⟩, h⟩

theorem exists_ok_magicNumber {o : Outline} :
    (∃ ms, magicNumber.check settings o = .ok ms) ↔ ¬o.HasOverlong := by
  rw [← exists_error_magicNumber settings o]
  cases magicNumber.check settings o <;> simp

-- Integers are judged by what they denote: each is reported just if its number, or the opposite
-- if a sign is seen, is not allowed, so that it does not matter how the number is spelled. Nothing
-- is judged at all if one of the numbers is too long.
structure JudgesByValue (o : Outline) (settings : RuleSettings) : Prop where
  succeeds : (∃ ms, magicNumber.check settings o = .ok ms) ↔ ¬o.HasOverlong
  reported : ∀ ms, magicNumber.check settings o = .ok ms → ∀ front t n, o.HasInteger front t n →
    ((∃ m ∈ ms, m.EndsAt t) ↔
      (if (sign? front.reverse).isSome then -(n : Int) else n) ∉ settings.allowedNumbers)
  alike : ∀ ms, magicNumber.check settings o = .ok ms → ∀ front t front' t' n,
    o.HasInteger front t n → o.HasInteger front' t' n →
    (sign? front.reverse).isSome = (sign? front'.reverse).isSome →
    ((∃ m ∈ ms, m.EndsAt t) ↔ ∃ m ∈ ms, m.EndsAt t')

theorem judgesByValue_ofSource :
    (∀ s n, Numeral.Spells s n → numeral? s = .ok (some (.whole n))) ∧
      ∀ path text settings, (ofSource (.ofText path text)).JudgesByValue settings := by
  refine ⟨fun s n => numeral?_of_spells, fun path text settings => ?_⟩
  have hreported : ∀ ms, magicNumber.check settings (ofSource (.ofText path text)) = .ok ms →
      ∀ front t n, (ofSource (.ofText path text)).HasInteger front t n →
      ((∃ m ∈ ms, m.EndsAt t) ↔
        (if (sign? front.reverse).isSome then -(n : Int) else n) ∉ settings.allowedNumbers) :=
    fun ms hms front t n h => (judges_of_hasInteger h hms).reported
  constructor
  case succeeds => exact exists_ok_magicNumber
  case reported => exact hreported
  case alike =>
    intro ms hms front t front' t' n h h' hsign
    rw [hreported ms hms front t n h, hreported ms hms front' t' n h', hsign]

-- One number in base sixteen and behind a sign, and again in base eight and without one.
theorem judgesByValue_spellings :
    let o := ofSource (.ofText "a.c" "x = -0x2AuL; y = 052;\n")
    let t : Token := ⟨.number "0x2AuL", ⟨⟨1, 6, 5⟩, ⟨1, 12, 11⟩⟩⟩
    let u : Token := ⟨.number "052", ⟨⟨1, 18, 17⟩, ⟨1, 21, 20⟩⟩⟩
    o.HasInteger (o.code.toList.take 3) t 42 ∧ o.HasInteger (o.code.toList.take 7) u 42 ∧
      numeral? "0x2AuL" = .ok (some (.whole 42)) ∧
      ∃ ms, magicNumber.check { allowedNumbers := [-42] } o = .ok ms ∧
        (¬∃ m ∈ ms, m.EndsAt t) ∧ ∃ m ∈ ms, m.EndsAt u := by
  intro o t u
  have hhex : Numeral.Spells "0x2AuL" 42 := by
    refine ⟨16, [2, 10], ⟨['0', 'x', '2', 'A'], ['u', 'L'], ?_, by simp, rfl⟩, nofun, rfl⟩
    exact .hexadecimal (.inl rfl) nofun
      (.cons ⟨by decide, .inl rfl⟩ (.cons ⟨by decide, .inr rfl⟩ .nil))
  have hoctal : Numeral.Spells "052" 42 := by
    refine ⟨8, [5, 2], ⟨['0', '5', '2'], [], ?_, nofun, rfl⟩, nofun, rfl⟩
    exact .octal (.cons ⟨by decide, .inl rfl⟩ (.cons ⟨by decide, .inl rfl⟩ .nil))
  have ht : o.HasInteger (o.code.toList.take 3) t 42 :=
    ⟨by decide +kernel, rfl, hhex, Code.not_endsInEnumeration (by decide +kernel)⟩
  have hu : o.HasInteger (o.code.toList.take 7) u 42 :=
    ⟨by decide +kernel, rfl, hoctal, Code.not_endsInEnumeration (by decide +kernel)⟩
  obtain ⟨hvalue, hjudges⟩ := judgesByValue_ofSource
  have hjudges := hjudges "a.c" "x = -0x2AuL; y = 052;\n" { allowedNumbers := [-42] }
  obtain ⟨ms, hms⟩ := exists_of_isOk
    (x := magicNumber.check { allowedNumbers := [-42] } o) (by decide +kernel)
  refine ⟨ht, hu, hvalue _ _ hhex, ms, hms, ?_, ?_⟩
  · rw [hjudges.reported ms hms _ t 42 ht]
    decide +kernel
  · rw [hjudges.reported ms hms _ u 42 hu]
    decide +kernel

-- A decimal integer in which each digit is a one.
theorem isInteger_ones (n : Nat) : Numeral.IsInteger 10 (1 :: List.replicate n 1)
    (String.ofList ('1' :: List.replicate n '1')) := by
  refine ⟨'1' :: List.replicate n '1', [], .decimal (by decide) ?_, nofun, by simp⟩
  have hone : Numeral.IsDigit 10 1 '1' := ⟨by decide, .inl rfl⟩
  refine .cons hone ?_
  induction n with
  | zero => exact .nil
  | succ n ih => exact .cons hone ih

theorem code_of_two_numbers (path : String) {a b c : String}
    (h : Lexer.lexemes text.toList = [.number a, .blank b, .number c]) :
    ∃ t u, (ofSource (.ofText path text)).code.toList = [t, u] ∧ t.lexeme = .number a ∧
      u.lexeme = .number c := by
  change ∃ t u, (Parts.ofTokens (Source.placed .origin (Lexer.lexemes _))).tokens.toList = _ ∧ _
  rw [h]
  exact ⟨_, _, rfl, rfl, rfl⟩

-- The five is not reported although it is not allowed, as a number that is too long is behind it.
theorem not_reported_beside_overlong :
    let text := String.ofList ('5' :: ' ' :: '1' :: List.replicate 4300 '1')
    let o := ofSource (.ofText "a.c" text)
    ∃ t, o.HasInteger [] t 5 ∧ (sign? []).isSome = false ∧
      (5 : Int) ∉ ({} : RuleSettings).allowedNumbers ∧
      ¬∃ ms, magicNumber.check {} o = .ok ms ∧ ∃ m ∈ ms, m.EndsAt t := by
  intro text o
  have hlexemes : Lexer.lexemes ('5' :: ' ' :: '1' :: List.replicate 4300 '1') =
      [.number "5", .blank " ", .number (String.ofList ('1' :: List.replicate 4300 '1'))] := by
    have hones : ∀ d ∈ List.replicate 4300 '1', d.isDigit := fun d hd =>
      (List.eq_of_mem_replicate hd).symm ▸ rfl
    generalize List.replicate 4300 '1' = ones at hones
    have hblank : Lexer.next ' ' ('1' :: ones) = (.blank " ", '1' :: ones) := rfl
    have hlast := Lexer.lexemes_digits (c := '1') rfl hones (Lexer.EndsNumber.nil [])
    rw [List.append_nil, Lexer.lexemes_nil] at hlast
    have hfirst : Lexer.lexemes ('5' :: ([] ++ ' ' :: '1' :: ones)) = .number "5" :: _ :=
      Lexer.lexemes_digits rfl (List.forall_mem_nil _) (by simp [Lexer.EndsNumber, Lexer.isWordChar])
    rw [List.nil_append] at hfirst
    rw [hfirst, Lexer.lexemes_cons, hblank, hlast]
  obtain ⟨t, u, hcode, ht, hu⟩ := code_of_two_numbers "a.c"
    ((congrArg Lexer.lexemes String.toList_ofList).trans hlexemes)
  have hmem : u ∈ o.code := Array.mem_toList_iff.mp (by
    rw [show o.code.toList = [t, u] from hcode]
    exact List.mem_cons_of_mem t List.mem_cons_self)
  have hint : o.HasInteger [] t 5 := by
    refine ⟨⟨[u], hcode.symm⟩, by rw [ht]; rfl, ⟨10, [5], ?_, by decide, rfl⟩,
      Code.not_endsInEnumeration List.not_mem_nil⟩
    rw [Token.text, ht]
    exact ⟨['5'], [], .decimal (by decide) (.cons ⟨by decide, .inl rfl⟩ .nil),
      List.forall_mem_nil _, rfl⟩
  have hoverlong : o.HasOverlong := by
    have hnumber : u.lexeme.isNumber := by rw [hu]; rfl
    refine ⟨u, hmem, hnumber, ?_, ?_⟩
    · refine Bool.not_eq_true _ ▸ fun hregion => ?_
      have hends : Code.EndsInEnumeration ([t].map (·.lexeme)) :=
        endsInEnumeration_of_inConstantRegion hcode hnumber hregion
      exact Code.not_endsInEnumeration (by simp [ht]) hends
    · rw [Token.text, hu]
      refine ⟨_, isInteger_ones 4300, ?_⟩
      rw [List.length_cons, List.length_replicate]
      exact Nat.lt_succ_self _
  refine ⟨t, hint, rfl, by decide, ?_⟩
  rintro ⟨ms, hms, -⟩
  exact exists_ok_magicNumber.mp ⟨ms, hms⟩ hoverlong

end Outline
end CLint
