import CLint.Proofs.Within.Basic

namespace CLint

namespace Enclosed

variable {opens closes : Lexeme → Bool} {depth : Nat} {ls inner : List Lexeme} {close : Lexeme}

theorem append_of_find? (h : find? opens closes depth ls = some (inner, close)) :
    ∃ rest, inner ++ close :: rest = ls := by
  fun_induction find? opens closes depth ls generalizing inner with
  | case1 => cases h
  | case2 l ls =>
    cases h
    exact ⟨ls, rfl⟩
  | case3 _ _ _ _ ih | case4 _ _ _ _ ih =>
    obtain ⟨⟨inner', close'⟩, hf, hk⟩ := Option.map_eq_some_iff.mp h
    cases hk
    obtain ⟨rest, hr⟩ := ih hf
    exact ⟨rest, by rw [List.cons_append, hr]⟩

-- What is enclosed comes first in the code behind the opening bracket.
theorem append_read (opens closes : Lexeme → Bool) (after : List Lexeme) :
    ∃ rest, (read opens closes after).inner ++ (read opens closes after).close.toList ++ rest
      = after := by
  unfold read
  split
  case h_1 h =>
    obtain ⟨rest, hr⟩ := append_of_find? h
    exact ⟨rest, by simpa using hr⟩
  case h_2 =>
    refine ⟨[], ?_⟩
    cases h : after.getLast? with
    | none => simp [List.getLast?_eq_none_iff.mp h]
    | some l =>
      obtain ⟨ls, rfl⟩ := List.getLast?_eq_some_iff.mp h
      simp

theorem size_read_le (opens closes : Lexeme → Bool) (after : List Lexeme) :
    (read opens closes after).size ≤ 1 + after.length := by
  obtain ⟨rest, hr⟩ := append_read opens closes after
  have := congrArg List.length hr
  simp only [List.length_append] at this
  simp only [size]
  omega

theorem isPart_inner_read (start : Nat) (bracket : Lexeme) (after : List Lexeme) :
    Stretch.IsPart ⟨start + 1, (read opens closes after).inner⟩ ⟨start, bracket :: after⟩ := by
  obtain ⟨rest, hr⟩ := append_read opens closes after
  refine ⟨[bracket], (read opens closes after).close.toList ++ rest, ?_, rfl⟩
  simpa using hr.symm

-- So do the brackets themselves, with what stands in for the closing one.
theorem covers_read (start : Nat) (bracket : Lexeme) (after : List Lexeme) :
    Stretch.Covers ⟨start, bracket :: after⟩
      ⟨start, start + (read opens closes after).size - 1⟩ := by
  have := size_read_le opens closes after
  have : 0 < (read opens closes after).size := by simp only [size]; omega
  constructor <;> simp only [Stretch.length, List.length_cons] <;> omega

end Enclosed

namespace Specifier

variable {typed : Bool} {l : Lexeme} {ls : List Lexeme} {s : Specifier}

theorem of_ofTag {word tag : Keyword} {hasName : Bool} {e : Enclosed}
    (h : ofTag word ls = tagged tag hasName (some e)) :
    ∃ name rest, ls = name ++ .punct .lbrace :: rest ∧ name.length = (if hasName then 1 else 0) ∧
      e = .inBraces rest := by
  unfold ofTag body? at h
  split at h <;> injection h with _ hn hb <;> split at hb <;> cases hb <;> cases hn
  · exact ⟨[_], _, rfl, rfl, rfl⟩
  · exact ⟨[], _, rfl, rfl, rfl⟩

theorem of_read?_tagged {tag : Keyword} {hasName : Bool} {e : Enclosed}
    (h : read? typed l ls = some (tagged tag hasName (some e))) :
    ∃ name rest, ls = name ++ .punct .lbrace :: rest ∧ name.length = (if hasName then 1 else 0) ∧
      e = .inBraces rest := by
  unfold read? at h
  split at h
  case h_1 =>
    split at h <;> try cases h
    split at h <;> try cases h
    split at h <;> try cases h
    split at h <;> try cases h
    exact of_ofTag (Option.some.inj h)
  case h_2 =>
    split at h
    · split at h <;> cases h
    · split at h <;> cases h
  case h_3 => cases h

theorem tailSize_ofTag_le (tag : Keyword) (ls : List Lexeme) :
    (ofTag tag ls).tailSize ≤ ls.length := by
  have hb : ∀ ls, ((body? ls).map Enclosed.size).getD 0 ≤ ls.length := by
    intro ls
    unfold body?
    split
    case h_1 rest =>
      have := Enclosed.size_read_le (·.isMark .lbrace) (·.isMark .rbrace) rest
      simp only [Option.map_some, Option.getD_some, List.length_cons, Enclosed.inBraces]
      omega
    case h_2 => exact Nat.zero_le _
  unfold ofTag
  split
  case h_1 name rest =>
    have := hb rest
    simp only [tailSize, if_true, List.length_cons]
    omega
  case h_2 =>
    have := hb ls
    simp only [tailSize, Bool.false_eq_true, if_false]
    omega

theorem tailSize_le (h : read? typed l ls = some s) : s.tailSize ≤ ls.length := by
  unfold read? at h
  split at h
  case h_1 k _ =>
    split at h <;> try (cases h; exact Nat.zero_le _)
    split at h <;> try (cases h; exact Nat.zero_le _)
    split at h <;> try (cases h; exact Nat.zero_le _)
    split at h <;> cases h
    exact tailSize_ofTag_le ..
  case h_2 =>
    split at h
    · split at h <;> cases h
      · have := Enclosed.size_read_le Lexeme.isOpener Lexeme.isCloser ‹List Lexeme›
        simp only [tailSize, Option.map_some, Option.getD_some, List.length_cons,
          Enclosed.inBrackets]
        omega
      · exact Nat.zero_le _
    · split at h <;> cases h
      exact Nat.zero_le _
  case h_3 => cases h

theorem totalSize_readAll_le (typed : Bool) (ls : List Lexeme) :
    totalSize (readAll typed ls) ≤ ls.length := by
  fun_induction readAll typed ls with
  | case1 => exact Nat.le_refl _
  | case2 => exact Nat.zero_le _
  | case3 typed l ls s hs ih =>
    have := tailSize_le hs
    rw [List.length_drop] at ih
    simp only [totalSize, size, List.length_cons]
    omega

end Specifier

namespace Specifiers

open Specifier

theorem isPart_body (start : Nat) (l : Lexeme) {name : List Lexeme} (rest : List Lexeme) {n : Nat}
    (hn : name.length = n) :
    Stretch.IsPart ⟨start + 1 + n + 1, (Enclosed.inBraces rest).inner⟩
        ⟨start, l :: (name ++ .punct .lbrace :: rest)⟩ ∧
      Stretch.Covers ⟨start, l :: (name ++ .punct .lbrace :: rest)⟩
        ⟨start + 1 + n, start + 1 + n + (Enclosed.inBraces rest).size - 1⟩ := by
  have hpart : Stretch.IsPart ⟨start + 1 + n, .punct .lbrace :: rest⟩
      ⟨start, l :: (name ++ .punct .lbrace :: rest)⟩ :=
    ⟨l :: name, [], by simp, by simp only [List.length_cons, hn]; omega⟩
  exact ⟨(Enclosed.isPart_inner_read ..).trans hpart, hpart.covers (Enclosed.covers_read ..)⟩

-- The body of a tagged type lies in the code that names the type.
theorem isPart_of_bodyFrom {typed : Bool} {ls : List Lexeme} {start : Nat} {b : TagBody}
    (h : bodyFrom start (readAll typed ls) = some b) :
    b.inner.IsPart ⟨start, ls⟩ ∧ b.run.Within start (start + ls.length) := by
  fun_induction readAll typed ls generalizing start with
  | case1 | case2 => cases h
  | case3 typed l ls s hs ih =>
    have hsize : s.size ≤ (l :: ls).length := Nat.succ_le_succ (tailSize_le hs)
    cases Option.or_eq_some_iff.mp h
    case inl h =>
      obtain ⟨hpart, hrun⟩ := ih h
      have hdrop := Stretch.isPart_drop (s := ⟨start, l :: ls⟩) hsize
      rw [List.length_drop] at hrun
      refine ⟨hpart.trans hdrop, hrun.mono (Nat.le_add_right ..) ?_⟩
      simp only [size, List.length_cons] at hsize ⊢
      omega
    case inr h =>
      obtain ⟨_, h⟩ := h
      split at h
      case h_1 tag hasName e =>
        cases h
        obtain ⟨name, rest, rfl, hname, rfl⟩ := of_read?_tagged hs
        exact isPart_body start l rest hname
      case h_2 => cases h

variable {s : Stretch} {d : Specifiers}

theorem isPart_rest (h : read? s = some d) : d.rest.IsPart s := by
  unfold read? at h
  simp only at h
  split at h <;> cases h
  exact Stretch.isPart_drop (Specifier.totalSize_readAll_le false s.lexemes)

theorem isPart_body_of_read? {b : TagBody} (h : read? s = some d) (hb : d.body = some b) :
    b.inner.IsPart s ∧ s.Covers b.run := by
  unfold read? at h
  simp only at h
  split at h <;> cases h
  exact isPart_of_bodyFrom hb

end Specifiers

theorem DeclaratorHead.isPart_rest {s : Stretch} {head : DeclaratorHead}
    (h : read? s = some head) : head.rest.IsPart s := by
  unfold read? at h
  simp only at h
  have hlead : (s.lexemes.takeWhile isPointerPart).length ≤ s.length :=
    (List.takeWhile_sublist _).length_le
  have hpart := Stretch.isPart_drop hlead
  split at h
  case h_1 ls hls =>
    obtain ⟨_, _, rfl⟩ := Option.map_eq_some_iff.mp h
    refine (Stretch.isPart_drop ?_).trans hpart
    have := Enclosed.size_read_le Lexeme.isOpener Lexeme.isCloser ls
    simp only [Stretch.length, hls, List.length_cons, Enclosed.inBrackets]
    omega
  case h_2 name ls hls =>
    cases h
    refine (Stretch.isPart_drop ?_).trans hpart
    simp [Stretch.length, hls]
  case h_3 => cases h

theorem Parameter.covers_of_mem_readAll {s : Stretch} {p : Parameter Run} (h : p ∈ readAll s) :
    s.Covers p.span := by
  obtain ⟨t, ht, rfl⟩ := List.mem_map.mp h
  have ht := (List.mem_filter.mp ht).1
  have hspan : (read t).span = t.run := by
    unfold read
    split <;> rfl
  rw [hspan]
  exact (Stretch.isPart_of_mem_parts ht).covers
    (Stretch.covers_run (Stretch.ne_nil_of_mem_parts ht))

namespace Declarator

variable {s : Stretch} {d : Declarator}

theorem covers_parameter {p : Parameter Run} (h : read? s = some d) (hp : p ∈ d.parameters) :
    s.Covers p.span := by
  obtain ⟨head, hh, rfl⟩ := Option.map_eq_some_iff.mp h
  simp only [parameters, list?] at hp
  split at hp
  case h_1 ls _ hls =>
    have hrest := DeclaratorHead.isPart_rest hh
    have hinner : Stretch.IsPart ⟨head.rest.start + 1, (Enclosed.inBrackets ls).inner⟩
        ⟨head.rest.start, .punct .lparen :: ls⟩ := Enclosed.isPart_inner_read ..
    rw [← hls] at hinner
    exact (hinner.trans hrest).covers (Parameter.covers_of_mem_readAll hp)
  case h_2 => simp at hp

theorem code_of_read? (h : read? s = some d) : d.code = s := by
  obtain ⟨_, _, rfl⟩ := Option.map_eq_some_iff.mp h
  rfl

-- Each declarator has a part of the code for itself.
theorem of_mem_readAll (h : d ∈ readAll s) :
    d.code.IsPart s ∧ d.code.lexemes ≠ [] ∧ ∀ p ∈ d.parameters, s.Covers p.span := by
  obtain ⟨t, ht, hd⟩ := List.mem_filterMap.mp h
  have hpart := Stretch.isPart_of_mem_parts ht
  rw [code_of_read? hd]
  exact ⟨hpart, Stretch.ne_nil_of_mem_parts ht, fun p hp =>
    hpart.covers (covers_parameter hd hp)⟩

end Declarator

-- All that a declaration locates.
def Declaration.spans {σ : Type} (d : Declaration σ) : List σ :=
  d.span :: d.parameters.map (·.span) ++ d.body.toList

namespace Batch

-- All that a batch locates lies between two numbers, and a body is located by its own run.
structure Within (low high : Nat) (b : Batch) : Prop where
  declarations : ∀ d ∈ b.declarations, ∀ r ∈ d.spans, r.Within low high
  bodies : ∀ d ∈ b.declarations, d.bodyRun = d.body
  region : ∀ r ∈ b.region, r.Within low high

variable {s t : Stretch} {b : Batch} {container : Option Keyword} {scope : Scope}

theorem Within.mono {low high low' high' : Nat} (h : b.Within low high) (hl : low' ≤ low)
    (hh : high ≤ high') : b.Within low' high' where
  declarations d hd r hr := (h.declarations d hd r hr).mono hl hh
  bodies := h.bodies
  region r hr := (h.region r hr).mono hl hh

def CoveredBy (b : Batch) (s : Stretch) : Prop :=
  b.Within s.start (s.start + s.length)

theorem CoveredBy.of_isPart (h : b.CoveredBy t) (ht : t.IsPart s) : b.CoveredBy s :=
  h.mono ht.start_le ht.stop_le

theorem coveredBy_enumerators {body : TagBody} (hi : body.inner.IsPart s) (hr : s.Covers body.run) :
    (enumerators body).CoveredBy s := by
  refine ⟨fun d hd r hrd => ?_, fun d hd => ?_, fun r hrr => ?_⟩
  · obtain ⟨t, ht, he⟩ := List.mem_filterMap.mp hd
    have hrun : r = t.run := by
      unfold enumerator? at he
      split at he <;> cases he
      simpa [Declaration.spans] using hrd
    subst hrun
    exact ((Stretch.isPart_of_mem_parts ht).trans hi).covers
      (Stretch.covers_run (Stretch.ne_nil_of_mem_parts ht))
  · obtain ⟨t, ht, he⟩ := List.mem_filterMap.mp hd
    unfold enumerator? at he
    split at he <;> cases he
    rfl
  · cases Option.mem_def.mp hrr
    exact hr

theorem coveredBy_declared {d : Specifiers} (h : Specifiers.read? s = some d) :
    (declared container scope s d).CoveredBy s := by
  have hrest := Specifiers.isPart_rest h
  have hs : s.lexemes ≠ [] := by
    intro hs
    simp [Specifiers.read?, Specifier.readAll, hs] at h
  have covers : ∀ o ∈ Declarator.readAll d.rest, ∀ first, s.start ≤ first → first ≤ o.code.last →
      ∀ r ∈ (declaration container scope d first o).spans, s.Covers r := by
    intro o ho first hlow hfirst r hr
    obtain ⟨hcode, hne, hparams⟩ := Declarator.of_mem_readAll ho
    have hrun := (hcode.trans hrest).covers (Stretch.covers_run hne)
    simp only [Declaration.spans, declaration, List.cons_append, List.mem_cons, List.mem_append,
      List.mem_map, Option.toList_none, List.not_mem_nil, or_false] at hr
    rcases hr with rfl | ⟨p, hp, rfl⟩
    · exact ⟨hlow, hfirst, hrun.last_lt⟩
    · exact hrest.covers (hparams p hp)
  suffices ∀ d' ∈ (declared container scope s d).declarations,
      (∀ r ∈ d'.spans, s.Covers r) ∧ d'.bodyRun = d'.body from
    ⟨fun d' hd => (this d' hd).1, fun d' hd => (this d' hd).2,
      fun r hr => absurd hr (Option.not_mem_none r)⟩
  intro d' hd
  simp only [declared] at hd
  split at hd
  case h_1 => cases hd
  case h_2 first others hall =>
    rw [hall] at covers
    cases List.mem_cons.mp hd
    case inl hd =>
      subst hd
      have hfirst := List.mem_cons_self (a := first) (l := others)
      obtain ⟨hcode, hne, _⟩ := Declarator.of_mem_readAll (hall ▸ hfirst)
      have hrun := (hcode.trans hrest).covers (Stretch.covers_run hne)
      exact ⟨covers first hfirst s.start (Nat.le_refl _)
        (Nat.le_trans hrun.low_le hrun.first_le), rfl⟩
    case inr hd =>
      obtain ⟨o, ho, rfl⟩ := List.mem_map.mp hd
      have ho := List.mem_cons_of_mem first ho
      obtain ⟨hcode, hne, _⟩ := Declarator.of_mem_readAll (hall ▸ ho)
      have hrun := (hcode.trans hrest).covers (Stretch.covers_run hne)
      exact ⟨covers o ho o.code.start hrun.low_le hrun.first_le, rfl⟩

-- What is declared in the body of a tagged type.
def members (d : Specifiers) : List Batch :=
  match d.body with
  | none => []
  | some b =>
    if b.tag = .enumKw then [enumerators b]
    else (b.inner.parts .semicolon).flatMap (ofDeclaration (some b.tag) .member)

theorem ofDeclaration_of_none (h : Specifiers.read? s = none) :
    ofDeclaration container scope s = [] := by
  rw [ofDeclaration]
  split
  case h_1 => rfl
  case h_2 hs => rw [h] at hs; cases hs

theorem ofDeclaration_of_some {d : Specifiers} (h : Specifiers.read? s = some d) :
    ofDeclaration container scope s = members d ++ [declared container scope s d] := by
  rw [ofDeclaration]
  split
  case h_1 hs => rw [h] at hs; cases hs
  case h_2 d' hs =>
    rw [h] at hs
    cases hs
    unfold members
    split
    · simp [*]
    · simp [*]

theorem coveredBy_of_mem_ofDeclaration (h : b ∈ ofDeclaration container scope s) :
    b.CoveredBy s := by
  induction container, scope, s using ofDeclaration.induct generalizing b with
  | case1 container scope s hs =>
    rw [ofDeclaration_of_none hs] at h
    cases h
  | case2 container scope s d hd ih =>
    rw [ofDeclaration_of_some hd] at h
    cases List.mem_append.mp h
    case inr h => exact List.mem_singleton.mp h ▸ coveredBy_declared hd
    case inl h =>
      unfold members at h
      split at h
      case h_1 => cases h
      case h_2 body hb =>
        obtain ⟨hinner, hrun⟩ := Specifiers.isPart_body_of_read? hd hb
        split at h
        · exact List.mem_singleton.mp h ▸ coveredBy_enumerators hinner hrun
        · obtain ⟨member, hm, h⟩ := List.mem_flatMap.mp h
          exact (ih body hb member hm h).of_isPart
            ((Stretch.isPart_of_mem_parts hm).trans hinner)

end Batch
end CLint
