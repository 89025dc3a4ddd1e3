import CLint.Proofs.Conditions
import CLint.Proofs.WellFormed

namespace CLint

namespace Code

-- Some code that closes no brace which was opened in front of it.
def StaysOpen (ls : List Lexeme) : Prop :=
  ∀ before, before <+: ls → before.count (.punct .rbrace) ≤ before.count (.punct .lbrace)

-- Some code in front of a place in the body of an enumeration: the word for it, perhaps a name,
-- the opening brace and what stands between that and the place.
def EndsInEnumeration (ls : List Lexeme) : Prop :=
  ∃ front name body, ls = front ++ .keyword .enumKw :: (name ++ .punct .lbrace :: body) ∧
    (name = [] ∨ ∃ n, name = [.identifier n]) ∧ StaysOpen body

theorem StaysOpen.of_prefix {ls before : List Lexeme} (h : StaysOpen ls) (hb : before <+: ls) :
    StaysOpen before :=
  fun _ hp => h _ (hp.trans hb)

theorem not_endsInEnumeration {ls : List Lexeme} (h : .keyword .enumKw ∉ ls) :
    ¬EndsInEnumeration ls := by
  rintro ⟨front, name, body, rfl, -⟩
  exact h (List.mem_append_right _ List.mem_cons_self)

end Code

open Code

namespace Enclosed

variable {depth : Nat} {ls before : List Lexeme}

-- Up to the brace that closes it, or else to the end, more braces are not closed than are opened
-- and the depth says.
theorem count_le_of_find? (h : before <+:
    ((find? (·.isMark .lbrace) (·.isMark .rbrace) depth ls).map (·.1)).getD ls) :
    before.count (.punct .rbrace) ≤ before.count (.punct .lbrace) + depth := by
  have map_cons {l : Lexeme} {ls : List Lexeme} {found : Option (List Lexeme × Lexeme)}
      {f : List Lexeme × Lexeme → List Lexeme × Lexeme} (hf : ∀ p, (f p).1 = l :: p.1) :
      ((found.map f).map (·.1)).getD (l :: ls) = l :: (found.map (·.1)).getD ls := by
    cases found <;> simp [hf]
  fun_induction find? (·.isMark .lbrace) (·.isMark .rbrace) depth ls generalizing before with
  | case1 | case2 => simp [List.prefix_nil.mp h]
  | case3 l ls hclose depth ih =>
    obtain rfl : l = .punct .rbrace := of_decide_eq_true hclose
    cases before with
    | nil => exact Nat.zero_le _
    | cons m before =>
      rw [map_cons fun p => rfl, List.cons_prefix_cons] at h
      obtain ⟨rfl, h⟩ := h
      have := ih h
      rw [List.count_cons_self, List.count_cons_of_ne (by decide)]
      omega
  | case4 depth l ls hclose ih =>
    have hne : l ≠ .punct .rbrace := fun hl => hclose (decide_eq_true hl)
    cases before with
    | nil => exact Nat.zero_le _
    | cons m before =>
      rw [map_cons fun p => rfl, List.cons_prefix_cons] at h
      obtain ⟨rfl, h⟩ := h
      have := ih h
      rw [List.count_cons_of_ne hne, List.count_cons]
      simp only [Lexeme.isMark, beq_iff_eq, decide_eq_true_eq] at this ⊢
      split at this <;> simp only [*, if_true, if_false] <;> omega

theorem staysOpen_inBraces (ls : List Lexeme) : StaysOpen (inBraces ls).inner := by
  intro before h
  suffices h : before <+:
      ((find? (·.isMark .lbrace) (·.isMark .rbrace) 0 ls).map (·.1)).getD ls from
    count_le_of_find? h
  unfold inBraces read at h
  split at h
  case h_1 hf => simpa [hf] using h
  case h_2 hf => simpa [hf] using h.trans ls.dropLast_prefix

end Enclosed

namespace Stretch

variable {s t : Stretch} {r : Run}

-- A run in a stretch that starts at the brace of an enumeration and does not go on behind the
-- closing one.
def HasEnumeration (s : Stretch) (r : Run) : Prop :=
  ∃ front name body after,
    s.lexemes = front ++ .keyword .enumKw :: (name ++ .punct .lbrace :: (body ++ after)) ∧
    (name = [] ∨ ∃ n, name = [.identifier n]) ∧ StaysOpen body ∧
    r.first = s.start + front.length + 1 + name.length ∧ r.last ≤ r.first + body.length + 1

theorem HasEnumeration.of_isPart (h : t.HasEnumeration r) (ht : t.IsPart s) :
    s.HasEnumeration r := by
  obtain ⟨front, name, body, after, hls, hname, hopen, hfirst, hlast⟩ := h
  obtain ⟨before, behind, hs, hstart⟩ := ht
  refine ⟨before ++ front, name, body, after ++ behind, ?_, hname, hopen, ?_, hlast⟩
  · simp [hs, hls]
  · rw [hfirst, hstart, List.length_append]
    omega

theorem HasEnumeration.endsInEnumeration {front back : List Lexeme} {l : Lexeme}
    (h : s.HasEnumeration r) (hs : s.lexemes = front ++ l :: back)
    (hfirst : r.first ≤ s.start + front.length) (hlast : s.start + front.length ≤ r.last)
    (hl : l ≠ .punct .lbrace) : EndsInEnumeration front := by
  obtain ⟨before, name, body, after, hls, hname, hopen, hf, hle⟩ := h
  have hsplit : front ++ l :: back =
      (before ++ .keyword .enumKw :: name ++ [.punct .lbrace]) ++ (body ++ after) := by
    simp [← hs, hls]
  obtain ⟨cut, hcut, hrest⟩ | ⟨cut, rfl, hrest⟩ := List.append_eq_append_iff.mp hsplit
  case inl =>
    -- The place is not that of the brace, so that nothing is left of what comes before the body.
    obtain rfl | ⟨cut, m, rfl⟩ := List.eq_nil_or_concat' cut
    · refine ⟨before, name, [], ?_, hname, hopen.of_prefix List.nil_prefix⟩
      simpa using hcut.symm
    · have hlength := congrArg List.length hcut
      simp at hlength
      obtain rfl : cut = [] := List.length_eq_zero_iff.mp (by omega)
      rw [List.nil_append] at hcut hrest
      obtain ⟨-, hm⟩ := List.append_inj' hcut rfl
      cases hm
      cases hrest
      contradiction
  case inr =>
    have hprefix : cut <+: body := by
      refine List.prefix_of_prefix_length_le ⟨_, hrest.symm⟩ (List.prefix_append body after) ?_
      simp at hlast
      omega
    exact ⟨before, name, cut, by simp, hname, hopen.of_prefix hprefix⟩

end Stretch

theorem Specifier.of_read?_tag {typed hasName : Bool} {l : Lexeme} {ls : List Lexeme}
    {tag : Keyword} {e : Option Enclosed} (h : read? typed l ls = some (tagged tag hasName e)) :
    l = .keyword tag ∧ ofTag tag ls = tagged tag hasName e := by
  have tag_ofTag {k ls} (h : ofTag k ls = tagged tag hasName e) : k = tag := by
    unfold ofTag at h
    split at h <;> exact (Specifier.tagged.inj h).1
  unfold read? at h
  split at h
  case h_1 =>
    split at h <;> try cases h
    split at h <;> try cases h
    split at h <;> try cases h
    split at h <;> try cases h
    have h := Option.some.inj h
    exact ⟨congrArg Lexeme.keyword (tag_ofTag h), tag_ofTag h ▸ h⟩
  case h_2 =>
    split at h
    · split at h <;> cases h
    · split at h <;> cases h
  case h_3 => cases h

theorem Specifier.of_ofTag_body {tag : Keyword} {hasName : Bool} {ls : List Lexeme} {e : Enclosed}
    (h : ofTag tag ls = tagged tag hasName (some e)) :
    ∃ name rest, ls = name ++ .punct .lbrace :: rest ∧ (name = [] ∨ ∃ n, name = [.identifier n]) ∧
      name.length = (if hasName then 1 else 0) ∧ e = .inBraces rest := by
  unfold ofTag body? at h
  split at h <;> injection h with _ hn hb <;> split at hb <;> cases hb <;> cases hn
  · exact ⟨[_], _, rfl, .inr ⟨_, rfl⟩, rfl, rfl⟩
  · exact ⟨[], _, rfl, .inl rfl, rfl, rfl⟩

namespace Specifiers

variable {s : Stretch} {d : Specifiers} {b : TagBody}

theorem hasEnumeration_of_bodyFrom {typed : Bool} {ls : List Lexeme} {start : Nat}
    (h : bodyFrom start (Specifier.readAll typed ls) = some b) (hb : b.tag = .enumKw) :
    Stretch.HasEnumeration ⟨start, ls⟩ b.run := by
  fun_induction Specifier.readAll typed ls generalizing start with
  | case1 | case2 => cases h
  | case3 typed l ls s hs ih =>
    cases Option.or_eq_some_iff.mp h
    case inl h =>
      have hsize : s.size ≤ (l :: ls).length := Nat.succ_le_succ (Specifier.tailSize_le hs)
      exact (ih h).of_isPart (Stretch.isPart_drop (s := ⟨start, l :: ls⟩) hsize)
    case inr h =>
      obtain ⟨_, h⟩ := h
      split at h
      case h_1 tag hasName e =>
        cases h
        obtain ⟨rfl, htag⟩ := Specifier.of_read?_tag hs
        obtain ⟨name, rest, rfl, hname, hlength, rfl⟩ := Specifier.of_ofTag_body htag
        obtain ⟨behind, hbehind⟩ :=
          Enclosed.append_read (·.isMark .lbrace) (·.isMark .rbrace) rest
        refine ⟨[], name, (Enclosed.inBraces rest).inner,
          (Enclosed.inBraces rest).close.toList ++ behind, ?_, hname,
          Enclosed.staysOpen_inBraces rest, ?_, ?_⟩
        · rw [← List.append_assoc, Enclosed.inBraces, hbehind]
          exact congrArg (Lexeme.keyword · :: _) hb
        · simp [hlength]
        · have := Option.length_toList_le (o := (Enclosed.inBraces rest).close)
          simp only [Enclosed.size]
          omega
      case h_2 => cases h

theorem hasEnumeration_of_read? (h : read? s = some d) (hb : d.body = some b)
    (ht : b.tag = .enumKw) : s.HasEnumeration b.run := by
  unfold read? at h
  simp only at h
  split at h <;> cases h
  exact hasEnumeration_of_bodyFrom hb ht

end Specifiers

namespace Batch

variable {container : Option Keyword} {scope : Scope} {s : Stretch} {b : Batch} {r : Run}

-- Only an enumeration has a region.
theorem hasEnumeration_of_mem_ofDeclaration (h : b ∈ ofDeclaration container scope s)
    (hr : b.region = some r) : s.HasEnumeration r := by
  induction container, scope, s using ofDeclaration.induct generalizing b with
  | case1 container scope s hs =>
    rw [ofDeclaration_of_none hs] at h
    cases h
  | case2 container scope s d hd ih =>
    rw [ofDeclaration_of_some hd] at h
    cases List.mem_append.mp h
    case inr h =>
      cases List.mem_singleton.mp h
      cases hr
    case inl h =>
      unfold members at h
      split at h
      case h_1 => cases h
      case h_2 body hb =>
        split at h
        case isTrue ht =>
          cases List.mem_singleton.mp h
          cases hr
          exact Specifiers.hasEnumeration_of_read? hd hb ht
        case isFalse =>
          obtain ⟨member, hm, h⟩ := List.mem_flatMap.mp h
          exact (ih body hb member hm h hr).of_isPart
            ((Stretch.isPart_of_mem_parts hm).trans (Specifiers.isPart_body_of_read? hd hb).1)

theorem region_of_mem_ofFunction {body : Run} (h : b ∈ ofFunction s body) : b.region = none := by
  unfold ofFunction at h
  split at h
  case h_1 => cases h
  case h_2 =>
    split at h
    case h_1 => cases h
    case h_2 => cases List.mem_singleton.mp h; rfl

end Batch

theorem Site.hasEnumeration_of_mem_batches {s : Site} {b : Batch} {r : Run} (h : b ∈ s.batches)
    (hr : b.region = some r) : Stretch.HasEnumeration ⟨s.start, s.stmt.lexemes⟩ r := by
  unfold batches at h
  split at h
  case h_1 atFile first text ended hs =>
    refine (Batch.hasEnumeration_of_mem_ofDeclaration h hr).of_isPart
      ⟨[], Stmt.semicolonIf ended, ?_, rfl⟩
    simp [hs, Stmt.lexemes]
  case h_2 g parts hs =>
    split at h
    case h_1 init hi =>
      refine (Batch.hasEnumeration_of_mem_ofDeclaration h hr).of_isPart
        ((Group.isPart_forInit? hi).trans ⟨[.keyword .forKw], Stmt.listLexemes parts, ?_, rfl⟩)
      simp [hs, Stmt.lexemes, Stmt.groupLexemes, Head.lexemes]
    case h_2 => cases h
  case h_3 =>
    rw [Batch.region_of_mem_ofFunction h] at hr
    cases hr
  case h_4 => cases h

theorem Parts.hasEnumeration_of_mem_regions {p : Parts} {r : Run} (h : r ∈ p.regions) :
    Stretch.HasEnumeration ⟨0, p.lexemes⟩ r := by
  obtain ⟨b, hb, hr⟩ := List.mem_filterMap.mp h
  obtain ⟨t, ht, hb⟩ := List.mem_flatMap.mp hb
  have hpart := Stmt.isPart_of_mem_listSites _ ht
  rw [Stmt.listLexemes_readFile] at hpart
  exact (Site.hasEnumeration_of_mem_batches hb hr).of_isPart hpart

namespace Outline

variable {code : Array Token} {r : Run} {path text : String} {front back : List Token} {t : Token}

-- A token that starts between the ends of a run is one of the run.
theorem first_le_and_le_last {i : Nat} (ho : Token.Ordered code.toList)
    (hr : r.Within 0 code.size) (hi : i < code.size)
    (hlow : (locate code r).start.offset ≤ code[i].offset)
    (hhigh : code[i].offset < (locate code r).stop.offset) : r.first ≤ i ∧ i ≤ r.last := by
  have hlast := hr.last_lt
  have hfirst := Nat.lt_of_le_of_lt hr.first_le hlast
  simp only [locate, Span.cover, tokenAt, Array.getD_eq_getD_getElem?, hfirst, hlast,
    Array.getElem?_eq_getElem, Option.getD_some] at hlow hhigh
  constructor
  case left =>
    refine Nat.le_of_not_lt fun hlt => Nat.not_lt.mpr hlow ?_
    exact List.pairwise_iff_getElem.mp ho.pairwise_lt i r.first hi hfirst hlt
  case right =>
    refine Nat.le_of_not_lt fun hlt => Nat.not_lt.mpr ?_ hhigh
    exact List.pairwise_iff_getElem.mp ho.apart r.last i hlast hi hlt

theorem ordered_code (path text : String) :
    Token.Ordered (ofSource (.ofText path text)).code.toList := by
  simpa [ofSource, Parts.tokens] using
    (Source.ordered_tokens path text).sublist (Parts.sublist_code _)

-- The numbers that are left out as constants stand in the bodies of enumerations.
theorem endsInEnumeration_of_inConstantRegion
    (hcode : (ofSource (.ofText path text)).code.toList = front ++ t :: back)
    (ht : t.lexeme.isNumber)
    (h : (ofSource (.ofText path text)).inConstantRegion t.offset) :
    EndsInEnumeration (front.map (·.lexeme)) := by
  have ho := ordered_code path text
  obtain ⟨_, hmem, hbounds⟩ := List.any_eq_true.mp h
  obtain ⟨r, hr, rfl⟩ := List.mem_map.mp hmem
  simp only [Bool.and_eq_true, decide_eq_true_eq] at hbounds
  obtain ⟨b, hb, hregion⟩ := List.mem_filterMap.mp hr
  have hwithin := ((Parts.inRange _).batches b hb).region r hregion
  change (Parts.tokens _).toList = _ at hcode
  have hget : (Parts.tokens (Parts.ofTokens (Source.ofText path text).tokens))[front.length]? =
      some t := by simp [← Array.getElem?_toList, hcode]
  obtain ⟨hi, hget⟩ := Array.getElem?_eq_some_iff.mp hget
  have ⟨hfirst, hlast⟩ := first_le_and_le_last ho hwithin hi (hget ▸ hbounds.1) (hget ▸ hbounds.2)
  have hlexemes : (Parts.ofTokens (Source.ofText path text).tokens).lexemes =
      front.map (·.lexeme) ++ t.lexeme :: back.map (·.lexeme) := by
    have := congrArg (List.map (·.lexeme)) hcode
    simpa [Parts.tokens, Parts.lexemes, Function.comp_def] using this
  refine (Parts.hasEnumeration_of_mem_regions hr).endsInEnumeration hlexemes ?_ ?_ ?_
  · simpa using hfirst
  · simpa using hlast
  · intro hl
    rw [hl] at ht
    cases ht

end Outline
end CLint
