import CLint.Proofs.Declaring.Specifiers
import Mathlib.Data.List.Forall2

namespace CLint

open Code

namespace Declarator

variable {p : Lexeme → Prop} {l o c : Lexeme} {ls rest : List Lexeme} {acc : Suffix}

-- Behind an equals sign nothing more is learnt.
theorem suffix_of_hasInitializer (h : acc.hasInitializer) (depth : Int) (ls : List Lexeme) :
    suffix depth acc ls = acc := by
  have hset : { acc with hasInitializer := true } = acc := by rw [← h]
  induction ls generalizing depth with
  | nil => rfl
  | cons l ls ih =>
    unfold suffix
    split
    case h_1 => rfl
    case h_6 ls' heq =>
      cases heq
      simp only [h, Bool.not_true, Bool.and_false, Bool.false_eq_true, if_false, ih]
    case h_7 ls' heq =>
      cases heq
      simp only [hset, ite_self, ih]
    all_goals
      rename_i heq
      cases heq
      exact ih _

-- What is no bracket says nothing, unless it is an equals sign.
theorem suffix_plain (hc : l.closer? = none) (hl : l.closes = false) {depth : Int}
    (h : depth ≠ 0 ∨ l ≠ .punct .assign) (acc : Suffix) (ls : List Lexeme) :
    suffix depth acc (l :: ls) = suffix depth acc ls := by
  cases l with
  | punct mark =>
    cases mark
    case assign =>
      have hdepth := h.resolve_right fun hne => hne rfl
      simp only [suffix, hdepth, if_false]
    all_goals first | rfl | exact absurd hc (by decide) | exact absurd hl (by decide)
  | _ => rfl

-- An opening bracket and the one that closes it, around what is passed over in between.
theorem suffix_group (hc : o.closer? = some c) {depth : Nat} (h : depth ≠ 0 ∨ acc.isArray)
    {inner : List Lexeme}
    (hi : ∀ n : Nat, (n ≠ 0 ∨ n = depth) → ∀ rest, suffix n acc (inner ++ rest) = suffix n acc rest)
    (rest : List Lexeme) : suffix depth acc (o :: inner ++ c :: rest) = suffix depth acc rest := by
  have hnested : ∀ ms, suffix (depth + 1) acc (inner ++ ms) = suffix (depth + 1) acc ms := fun ms =>
    hi (depth + 1) (.inl (Nat.succ_ne_zero depth)) ms
  have hset : acc.isArray → { acc with isArray := true } = acc := fun h => by rw [← h]
  unfold Lexeme.closer? at hc
  split at hc <;> cases hc
  case h_1 | h_3 => simp [suffix, hnested]
  case h_2 =>
    have hacc : (if (depth : Int) = 0 && !acc.hasInitializer then { acc with isArray := true }
        else acc) = acc := by
      rcases h with h | h
      · simp [h]
      · simp [hset h]
    simp only [List.cons_append, suffix, hacc, hi depth (.inr rfl)]

-- Nested code is passed over within parentheses, and where it is already known to be an array.
theorem suffix_append (h : Nested p ls) (depth : Nat)
    (hd : depth ≠ 0 ∨ acc.isArray ∧ .punct .assign ∉ ls) (rest : List Lexeme) :
    suffix depth acc (ls ++ rest) = suffix depth acc rest := by
  induction h generalizing depth rest with
  | nil => rfl
  | @plain p l ls hc hl _ _ ih =>
    have hrest : depth ≠ 0 ∨ acc.isArray ∧ .punct .assign ∉ ls :=
      hd.imp_right fun h => ⟨h.1, fun hm => h.2 (List.mem_cons_of_mem l hm)⟩
    have hl' : (depth : Int) ≠ 0 ∨ l ≠ .punct .assign :=
      hd.imp Int.natCast_ne_zero.mpr fun h hm => h.2 (hm ▸ List.mem_cons_self)
    exact (suffix_plain hc hl hl' acc _).trans (ih depth hrest rest)
  | @group p o c inner ls hc _ _ ihi ih =>
    have hmem : .punct .assign ∉ o :: inner ++ c :: ls →
        .punct .assign ∉ inner ∧ .punct .assign ∉ ls := fun h =>
      ⟨fun hm => h (by simp [hm]), fun hm => h (by simp [hm])⟩
    rw [List.append_assoc, List.cons_append (a := c)]
    refine (suffix_group hc (hd.imp_right And.left) (fun n hn ms => ?_) _).trans ?_
    · refine ihi n ?_ ms
      rcases hn with hn | rfl
      · exact .inl hn
      · exact hd.imp_right fun h => ⟨h.1, (hmem h.2).1⟩
    · exact ih depth (hd.imp_right fun h => ⟨h.1, (hmem h.2).2⟩) rest

theorem suffix_dimension (d : Dimension) (h : acc.hasInitializer = false) (rest : List Lexeme) :
    suffix 0 acc (d.code ++ rest) = suffix 0 { acc with isArray := true } rest := by
  have hinner : suffix 0 { acc with isArray := true } (d.lexemes ++ .punct .rbracket :: rest) =
      suffix 0 { acc with isArray := true } rest :=
    suffix_append d.nested_lexemes 0 (.inr ⟨rfl, d.unassigned⟩) _
  have hopen : ∀ ls, suffix 0 acc (.punct .lbracket :: ls) =
      suffix 0 { acc with isArray := true } ls := fun ls => by simp [suffix, h]
  rw [Dimension.code, List.cons_append, List.cons_append, hopen, List.append_assoc]
  exact hinner

theorem suffix_dimensions (ds : List Dimension) (h : acc.hasInitializer = false)
    (rest : List Lexeme) : suffix 0 acc (ds.flatMap Dimension.code ++ rest) =
      suffix 0 { acc with isArray := acc.isArray || !ds.isEmpty } rest := by
  induction ds generalizing acc with
  | nil => simp
  | cons d ds ih =>
    have hds := @ih { acc with isArray := true } h
    rw [List.flatMap_cons, List.append_assoc, suffix_dimension d h, hds]
    simp

-- What some code in the middle of a suffix says: it makes `acc'` of `acc`, and changes only what
-- bare marks in it may change.
structure Suffix.Becomes (acc : Suffix) (ls : List Lexeme) (acc' : Suffix) : Prop where
  suffix : ∀ rest, Declarator.suffix 0 acc (ls ++ rest) = Declarator.suffix 0 acc' rest
  isArray : .punct .lbracket ∉ bare 0 ls → acc'.isArray = acc.isArray
  hasInitializer : .punct .assign ∉ bare 0 ls → acc'.hasInitializer = acc.hasInitializer

namespace Suffix.Becomes

variable {acc₁ acc₂ acc₃ : Suffix} {ms : List Lexeme}

theorem nil (acc : Suffix) : acc.Becomes [] acc :=
  ⟨fun _ => rfl, fun _ => rfl, fun _ => rfl⟩

theorem append (h : acc₁.Becomes ls acc₂) (h' : acc₂.Becomes ms acc₃)
    (hb : bare 0 (ls ++ ms) = bare 0 ls ++ bare 0 ms) : acc₁.Becomes (ls ++ ms) acc₃ where
  suffix rest := by rw [List.append_assoc, h.suffix, h'.suffix]
  isArray hm := by
    rw [hb, List.mem_append, not_or] at hm
    rw [h'.isArray hm.2, h.isArray hm.1]
  hasInitializer hm := by
    rw [hb, List.mem_append, not_or] at hm
    rw [h'.hasInitializer hm.2, h.hasInitializer hm.1]

theorem lbracket (acc : Suffix) : ∃ acc', acc.Becomes [.punct .lbracket] acc' := by
  refine ⟨if !acc.hasInitializer then { acc with isArray := true } else acc,
    fun _ => by simp [Declarator.suffix], fun h => absurd (by simp [bare]) h, fun _ => ?_⟩
  split <;> rfl

theorem rbracket (acc : Suffix) : acc.Becomes [.punct .rbracket] acc :=
  ⟨fun _ => rfl, fun _ => rfl, fun _ => rfl⟩

theorem plain (hc : l.closer? = none) (hl : l.closes = false) (acc : Suffix) :
    ∃ acc', acc.Becomes [l] acc' := by
  by_cases h : l = .punct .assign
  · subst h
    exact ⟨{ acc with hasInitializer := true }, fun _ => by simp [Declarator.suffix], fun _ => rfl,
      fun h => absurd (by simp [bare]) h⟩
  · exact ⟨acc, fun rest => suffix_plain hc hl (.inr h) acc rest, fun _ => rfl, fun _ => rfl⟩

-- Parentheses and braces hide what is between them.
theorem hidden (hc : o.closer? = some c) (ho : o ≠ .punct .lbracket) (h : Nested p ls)
    (acc : Suffix) : acc.Becomes (o :: ls ++ [c]) acc := by
  refine ⟨fun rest => ?_, fun _ => rfl, fun _ => rfl⟩
  have hinner : ∀ ms, Declarator.suffix 1 acc (ls ++ ms) = Declarator.suffix 1 acc ms := fun ms =>
    suffix_append h 1 (.inl nofun) ms
  unfold Lexeme.closer? at hc
  split at hc <;> cases hc
  case h_1 | h_3 => simp [Declarator.suffix, hinner]
  case h_2 => exact absurd rfl ho

-- By induction on nested code: all that matters in it are its bare marks.
theorem exists_of_nested (h : Nested p ls) (acc : Suffix) : ∃ acc', acc.Becomes ls acc' := by
  induction h generalizing acc with
  | nil => exact ⟨acc, .nil acc⟩
  | plain hc hl _ _ ih =>
    obtain ⟨acc₁, h₁⟩ := plain hc hl acc
    obtain ⟨acc₂, h₂⟩ := ih acc₁
    have hbare := (Nested.singleton (p := fun _ => True) hc hl trivial).bare_append 0
    exact ⟨acc₂, h₁.append h₂ (hbare _)⟩
  | @group p o c inner ls hc hi _ ihi ih =>
    have hgroup : ∃ acc', acc.Becomes (o :: inner ++ [c]) acc' := by
      by_cases ho : o = .punct .lbracket
      · subst ho
        cases hc
        obtain ⟨acc₁, h₁⟩ := lbracket acc
        obtain ⟨acc₂, h₂⟩ := ihi acc₁
        exact ⟨acc₂, h₁.append (h₂.append (rbracket acc₂) (hi.bare_append 0 _)) rfl⟩
      · exact ⟨acc, hidden hc ho hi acc⟩
    obtain ⟨acc₁, h₁⟩ := hgroup
    obtain ⟨acc₂, h₂⟩ := ih acc₁
    have hbare := (Nested.enclosed (p := fun _ => True) hc hi).bare_append 0 ls
    exact ⟨acc₂, by simpa using h₁.append h₂ hbare⟩

end Suffix.Becomes

theorem suffix_value (v : Option ValuePhrase) (acc : Suffix) :
    suffix 0 acc (ValuePhrase.optional .assign v) =
      ⟨acc.isArray, acc.hasInitializer || v.isSome⟩ := by
  cases v with
  | none => simp [ValuePhrase.optional, suffix]
  | some v =>
    have hrest : suffix 0 { acc with hasInitializer := true } v.lexemes = _ :=
      suffix_of_hasInitializer rfl 0 v.lexemes
    simpa [ValuePhrase.optional, suffix] using hrest

theorem mem_bare_width {mark : Punct} (hm : mark ≠ .colon) (width : Option ValuePhrase) :
    .punct mark ∈ bare 0 (ValuePhrase.optional .colon width) ↔ ∃ w ∈ width, w.shows mark := by
  cases width <;> simp [ValuePhrase.optional, ValuePhrase.shows, bare, hm]

-- What is behind the name of a declarator. Its width does not matter, but for what it shows.
theorem suffix_phrase (dimensions : List Dimension) (width value : Option ValuePhrase) :
    let acc := suffix 0 {} (DeclaratorPhrase.suffix dimensions width value)
    ((∀ w ∈ width, ¬w.shows .lbracket) → acc.isArray = !dimensions.isEmpty) ∧
      ((∀ w ∈ width, ¬w.shows .assign) → acc.hasInitializer = value.isSome) := by
  have hnested : Nested (fun _ => True) (ValuePhrase.optional .colon width) := by
    cases width with
    | none => exact .nil
    | some w => exact .plain rfl rfl trivial (w.nested_lexemes.mono fun _ _ => trivial)
  obtain ⟨acc, hacc⟩ := Suffix.Becomes.exists_of_nested hnested ⟨!dimensions.isEmpty, false⟩
  have hsuffix : suffix 0 {} (DeclaratorPhrase.suffix dimensions width value) =
      ⟨acc.isArray, acc.hasInitializer || value.isSome⟩ := by
    rw [DeclaratorPhrase.suffix, List.append_assoc, suffix_dimensions dimensions rfl]
    exact (hacc.suffix _).trans (suffix_value value acc)
  have hbare : ∀ mark : Punct, mark ≠ .colon → (∀ w ∈ width, ¬w.shows mark) →
      .punct mark ∉ bare 0 (ValuePhrase.optional .colon width) := fun mark hm hw => by
    rw [mem_bare_width hm]
    exact fun ⟨w, hmem, hs⟩ => hw w hmem hs
  intro acc'
  rw [show acc' = _ from hsuffix]
  refine ⟨fun hw => hacc.isArray (hbare _ (by decide) hw), fun hw => ?_⟩
  have hassign := hacc.hasInitializer (hbare _ (by decide) hw)
  simp [hassign]

theorem suffix_inParens (c : Content) : suffix 0 {} (Phrase.inParens c.lexemes) = {} := by
  have hinner : suffix 1 {} (c.lexemes ++ [.punct .rparen]) = suffix 1 {} [.punct .rparen] :=
    suffix_append c.nested_lexemes 1 (.inl nofun) _
  simpa [Phrase.inParens, suffix] using hinner

end Declarator

namespace DeclaratorPhrase

-- What is to be read of a declarator.
structure IsReadAs (p : DeclaratorPhrase) (d : Declarator) : Prop where
  name : d.head.name = p.name
  stars : d.head.stars = p.stars
  list : d.list = none
  isArray : (∀ w ∈ p.width, ¬w.shows .lbracket) → d.isArray = p.isArray
  hasInitializer : (∀ w ∈ p.width, ¬w.shows .assign) → d.hasInitializer = p.hasValue

theorem read?_plain {lead : List Lexeme} (h : ∀ l ∈ lead, DeclaratorHead.isPointerPart l)
    (name : String) (tail : List Lexeme) {s : Stretch}
    (hs : s.lexemes = lead ++ .identifier name :: tail) :
    DeclaratorHead.read? s = some ⟨name, s.start + lead.length, DeclaratorHead.starCount lead,
      false, (s.drop lead.length).drop 1⟩ := by
  have hlead : s.lexemes.takeWhile DeclaratorHead.isPointerPart = lead := by
    rw [hs, List.takeWhile_append_of_pos h]
    simp [DeclaratorHead.isPointerPart, Lexeme.isMark, Lexeme.isQualifier]
  have hdrop : (s.drop lead.length).lexemes = .identifier name :: tail := by
    rw [Stretch.drop, hs, List.drop_left]
  simp only [DeclaratorHead.read?, hlead, hdrop]
  rfl

-- Where a declarator begins with a parenthesis, its name is in there.
theorem read?_inParens {p : Lexeme → Prop} {inner : List Lexeme} (h : Nested p inner)
    (tail : List Lexeme) {s : Stretch} (hs : s.lexemes = Phrase.inParens inner ++ tail) :
    DeclaratorHead.read? s =
      (DeclaratorHead.firstName? ⟨s.start + 1, inner⟩).map fun (name, nameAt) =>
        ⟨name, nameAt, DeclaratorHead.starCount (inner.takeWhile (!·.isIdentifier)), true,
          s.drop (1 + inner.length + 1)⟩ := by
  have hlead : s.lexemes.takeWhile DeclaratorHead.isPointerPart = [] := by
    rw [hs]
    simp [Phrase.inParens, DeclaratorHead.isPointerPart, Lexeme.isMark, Lexeme.isQualifier]
  have hdrop : s.drop 0 = s := by simp [Stretch.drop]
  have hlexemes : s.lexemes = .punct .lparen :: (inner ++ .punct .rparen :: tail) := by
    rw [hs]
    simp [Phrase.inParens]
  have hinner : Enclosed.inBrackets (inner ++ .punct .rparen :: tail) =
      ⟨inner, some (.punct .rparen)⟩ :=
    Enclosed.inBrackets_append h rfl tail
  simp only [DeclaratorHead.read?, hlead, List.length_nil, hdrop]
  rw [hlexemes]
  simp only [hinner, DeclaratorHead.starCount, List.countP_nil, Nat.zero_add]
  rfl

theorem read?_pointer (name : String) (tail : List Lexeme) {s : Stretch}
    (hs : s.lexemes = Phrase.inParens [.punct .star, .identifier name] ++ tail) :
    DeclaratorHead.read? s = some ⟨name, s.start + 2, 1, true, s.drop 4⟩ :=
  read?_inParens (nested_starred name) tail hs

theorem read?_of_head {s : Stretch} {head : DeclaratorHead}
    (hh : DeclaratorHead.read? s = some head) (hl : Declarator.list? head = none) :
    let suffix := Declarator.suffix 0 {} head.rest.lexemes
    Declarator.read? s = some ⟨s, head, none, suffix.isArray, suffix.hasInitializer⟩ := by
  rw [Declarator.read?, hh, Option.map_some, hl]
  rfl

-- A declarator is read as what it is.
theorem exists_read? (p : DeclaratorPhrase) {s : Stretch} (hs : s.lexemes = p.lexemes) :
    ∃ d, Declarator.read? s = some d ∧ p.IsReadAs d := by
  cases p with
  | plain lead h name dimensions width value =>
    have hhead := read?_plain h name.text _ hs
    have hrest : ((s.drop lead.length).drop 1).lexemes = suffix dimensions width value := by
      rw [Stretch.drop, Stretch.drop, hs, lexemes]
      simp
    have hlist : Declarator.list? ⟨name.text, s.start + lead.length,
        DeclaratorHead.starCount lead, false, (s.drop lead.length).drop 1⟩ = none := by
      simp only [Declarator.list?, hrest]
      split
      case h_1 ls _ hls => cases dimensions <;> cases width <;> cases value <;> cases hls
      case h_2 => rfl
    have hsuffix := Declarator.suffix_phrase dimensions width value
    rw [← hrest] at hsuffix
    exact ⟨_, read?_of_head hhead hlist, rfl, rfl, rfl, hsuffix.1, hsuffix.2⟩
  | pointer name parameters =>
    have hhead := read?_pointer name.text _ hs
    have hrest : (s.drop 4).lexemes = Phrase.inParens parameters.lexemes := by
      rw [Stretch.drop, hs]
      rfl
    have hsuffix : Declarator.suffix 0 {} (s.drop 4).lexemes = {} := by
      rw [hrest, Declarator.suffix_inParens]
    refine ⟨_, read?_of_head hhead rfl, rfl, rfl, rfl, fun _ => ?_, fun _ => ?_⟩
    · exact congrArg Declarator.Suffix.isArray hsuffix
    · exact congrArg Declarator.Suffix.hasInitializer hsuffix

end DeclaratorPhrase
end CLint
