import CLint.Proofs.Conditions
import CLint.Proofs.Flipped.Respelled
import CLint.Proofs.Renaming.Words
import CLint.Proofs.WellFormed

namespace CLint

theorem Lexer.isIdentifier_of_mem_lexemes {cs : List Char} {name : String}
    (h : .identifier name ∈ lexemes cs) : Name.isIdentifier name.toList := by
  obtain ⟨c, ds, hnext⟩ := exists_next_of_mem_lexemes h
  obtain ⟨hc, hname⟩ := takeWhile_of_next hnext
  rw [← hname, List.takeWhile_cons_of_pos (isWordChar_of_isWordStart hc), Name.isIdentifier,
    Bool.and_eq_true, List.all_eq_true]
  exact ⟨hc, fun d hd => List.mem_takeWhile_imp hd⟩

theorem Keyword.isIdentifier_text (k : Keyword) : Name.isIdentifier k.text.toList := by
  cases k <;> decide

theorem Stretch.IsPart.subset {s t : Stretch} (h : t.IsPart s) : t.lexemes ⊆ s.lexemes := by
  obtain ⟨before, after, hs, -⟩ := h
  rw [hs]
  exact List.subset_append_of_subset_left after (List.subset_append_right before t.lexemes)

namespace DeclaratorHead

variable {s : Stretch} {head : DeclaratorHead} {name : String} {n : Nat}

theorem mem_of_firstName? (h : firstName? s = some (name, n)) : .identifier name ∈ s.lexemes := by
  unfold firstName? at h
  split at h
  case h_1 hls =>
    cases h
    exact (List.dropWhile_suffix _).mem (hls ▸ List.mem_cons_self)
  case h_2 => cases h

-- The lexeme that a declarator has its name from.
theorem name_mem (h : read? s = some head) : .identifier head.name ∈ s.lexemes := by
  unfold read? at h
  dsimp only at h
  split at h
  case h_1 ls hls =>
    obtain ⟨⟨name, place⟩, hname, rfl⟩ := Option.map_eq_some_iff.mp h
    have hinner : (Enclosed.inBrackets ls).inner ⊆ .punct .lparen :: ls :=
      (Enclosed.isPart_inner_read s.start (.punct .lparen) ls).subset
    have hmem : .identifier name ∈ (s.drop _).lexemes := hls ▸ hinner (mem_of_firstName? hname)
    exact List.mem_of_mem_drop hmem
  case h_2 name ls hls =>
    cases h
    have hmem : .identifier name ∈ (s.drop _).lexemes := hls ▸ List.mem_cons_self
    exact List.mem_of_mem_drop hmem
  case h_3 => cases h

end DeclaratorHead

theorem Declarator.name_mem {s : Stretch} {d : Declarator} (h : d ∈ readAll s) :
    .identifier d.head.name ∈ s.lexemes := by
  obtain ⟨t, ht, hd⟩ := List.mem_filterMap.mp h
  obtain ⟨head, hhead, rfl⟩ := Option.map_eq_some_iff.mp hd
  exact (Stretch.isPart_of_mem_parts ht).subset (DeclaratorHead.name_mem hhead)

namespace Batch

variable {s : Stretch} {b : Batch} {container : Option Keyword} {scope : Scope}
  {d : Declaration Run}

-- What a batch declares is named by identifiers of some code.
def IsNamedIn (ls : List Lexeme) (b : Batch) : Prop :=
  ∀ d ∈ b.declarations, .identifier d.name ∈ ls

theorem IsNamedIn.mono {ls ms : List Lexeme} (h : b.IsNamedIn ls) (hs : ls ⊆ ms) :
    b.IsNamedIn ms :=
  fun d hd => hs (h d hd)

theorem isNamedIn_enumerators (body : TagBody) :
    (enumerators body).IsNamedIn body.inner.lexemes := by
  intro d hd
  obtain ⟨t, ht, he⟩ := List.mem_filterMap.mp hd
  refine (Stretch.isPart_of_mem_parts ht).subset ?_
  unfold enumerator? at he
  split at he <;> cases he
  case h_1.refl hls => exact hls ▸ List.mem_cons_self

theorem isNamedIn_declared {specifiers : Specifiers} (h : Specifiers.read? s = some specifiers) :
    (declared container scope s specifiers).IsNamedIn s.lexemes := by
  intro d hd
  refine (Specifiers.isPart_rest h).subset ?_
  simp only [declared] at hd
  split at hd
  case h_1 => cases hd
  case h_2 first others hall =>
    cases List.mem_cons.mp hd
    case inl hd =>
      subst hd
      exact Declarator.name_mem (hall ▸ List.mem_cons_self)
    case inr hd =>
      obtain ⟨o, ho, rfl⟩ := List.mem_map.mp hd
      exact Declarator.name_mem (hall ▸ List.mem_cons_of_mem first ho)

-- By induction on how a declaration contains others.
theorem isNamedIn_of_mem_ofDeclaration (h : b ∈ ofDeclaration container scope s) :
    b.IsNamedIn s.lexemes := by
  induction container, scope, s using ofDeclaration.induct generalizing b with
  | case1 container scope s hs =>
    rw [ofDeclaration_of_none hs] at h
    cases h
  | case2 container scope s specifiers hs ih =>
    rw [ofDeclaration_of_some hs] at h
    cases List.mem_append.mp h
    case inr h => exact List.mem_singleton.mp h ▸ isNamedIn_declared hs
    case inl h =>
      unfold members at h
      split at h
      case h_1 => cases h
      case h_2 body hb =>
        have hinner := (Specifiers.isPart_body_of_read? hs hb).1
        split at h
        · exact List.mem_singleton.mp h ▸ (isNamedIn_enumerators body).mono hinner.subset
        · obtain ⟨member, hm, h⟩ := List.mem_flatMap.mp h
          exact (ih body hb member hm h).mono ((Stretch.isPart_of_mem_parts hm).trans hinner).subset

theorem isNamedIn_of_mem_ofFunction {body : Run} (h : b ∈ ofFunction s body) :
    b.IsNamedIn s.lexemes := by
  unfold ofFunction at h
  split at h
  case h_1 => cases h
  case h_2 specifiers hs =>
    split at h
    case h_1 => cases h
    case h_2 first others hall =>
      cases List.mem_singleton.mp h
      refine List.forall_mem_singleton.mpr ((Specifiers.isPart_rest hs).subset ?_)
      exact Declarator.name_mem (hall ▸ List.mem_cons_self)

end Batch

theorem Site.isNamedIn_of_mem_batches {s : Site} {b : Batch} (h : b ∈ s.batches) :
    b.IsNamedIn s.stmt.lexemes := by
  unfold batches at h
  split at h
  case h_1 atFile first text ended hs =>
    refine (Batch.isNamedIn_of_mem_ofDeclaration h).mono ?_
    rw [hs, Stmt.lexemes]
    exact List.subset_append_left ..
  case h_2 g parts hs =>
    split at h
    case h_1 init hi =>
      refine (Batch.isNamedIn_of_mem_ofDeclaration h).mono
        (List.Subset.trans (Group.isPart_forInit? hi).subset ?_)
      rw [hs, Stmt.lexemes, Stmt.groupLexemes, Option.map_some, Option.getD_some]
      exact List.subset_append_of_subset_left _ (List.subset_append_right ..)
    case h_2 => cases h
  case h_3 header body hs =>
    refine (Batch.isNamedIn_of_mem_ofFunction h).mono ?_
    rw [hs, Stmt.lexemes]
    exact List.subset_append_left ..
  case h_4 => cases h

theorem Parts.isNamedIn_of_mem_batches {p : Parts} {b : Batch} (h : b ∈ p.batches) :
    b.IsNamedIn p.lexemes := by
  obtain ⟨s, hs, hb⟩ := List.mem_flatMap.mp h
  have hpart := Stmt.isPart_of_mem_listSites _ hs
  rw [Stmt.listLexemes_readFile] at hpart
  exact (Site.isNamedIn_of_mem_batches hb).mono hpart.subset

section

variable {path text : String} {t : Token} {ts : List Token}

theorem Source.isIdentifier_text (ht : t ∈ (ofText path text).tokens)
    (hk : t.kind = .identifier ∨ t.kind = .keyword) : Name.isIdentifier t.text.toList := by
  have hmem : t.lexeme ∈ Lexer.lexemes text.toList := by
    rw [← map_lexeme_placed .origin (Lexer.lexemes text.toList)]
    exact List.mem_map_of_mem ht
  unfold Token.kind at hk
  unfold Token.text
  cases hl : t.lexeme with
  | identifier name => exact Lexer.isIdentifier_of_mem_lexemes (hl ▸ hmem)
  | keyword k => exact k.isIdentifier_text
  | _ => simp [hl, Lexeme.kind] at hk

-- The word that a directive defines is a token of it.
theorem Parts.exists_token_of_mem_definitions {d : Declaration Span}
    (h : d ∈ (ofTokens ts).definitions) :
    ∃ t ∈ ts, (t.kind = .identifier ∨ t.kind = .keyword) ∧ t.text = d.name := by
  obtain ⟨⟨hash, rest⟩, hd, h⟩ := List.mem_filterMap.mp h
  dsimp only at h
  unfold Directive.definition? at h
  split at h
  case h_2 => cases h
  case h_1 first m after =>
    split at h <;> cases h
    case isTrue.refl hm =>
      obtain ⟨-, hk⟩ := Bool.and_eq_true_iff.mp hm
      refine ⟨m.token, (sublist_directive hd).mem ?_, by simpa using hk, rfl⟩
      simp

theorem Outline.name_keepComment (ds : List (Declaration Span)) (d : Declaration Span) :
    (keepComment ds d).name = d.name := by
  unfold keepComment
  split <;> rfl

-- All that is declared has an identifier for its name.
theorem Outline.isIdentifier_name {d : Declaration Span}
    (h : d ∈ (ofSource (.ofText path text)).declarations) : Name.isIdentifier d.name.toList := by
  obtain ⟨d', hd', rfl⟩ := List.mem_map.mp (List.mem_mergeSort.mp h)
  rw [name_keepComment]
  obtain ⟨ds, hds, e, he, n, rfl⟩ := mem_of_mem_grouped hd'
  cases List.mem_append.mp hds
  case inl hds =>
    obtain ⟨m, hm, rfl⟩ := List.mem_map.mp hds
    cases List.mem_singleton.mp he
    obtain ⟨t, ht, hk, htext⟩ := Parts.exists_token_of_mem_definitions hm
    have hidentifier := Source.isIdentifier_text ht hk
    rwa [htext] at hidentifier
  case inr hds =>
    obtain ⟨b, hb, rfl⟩ := List.mem_map.mp hds
    obtain ⟨r, hr, rfl⟩ := List.mem_map.mp he
    have hnamed := Parts.isNamedIn_of_mem_batches hb r hr
    obtain ⟨m, hm, hl⟩ := List.mem_map.mp hnamed
    have ht := (Parts.sublist_code _).mem (List.mem_map_of_mem (f := Marked.token) hm)
    have hidentifier := Source.isIdentifier_text ht (.inl (by rw [Token.kind, hl]; rfl))
    rwa [Token.text, hl] at hidentifier

end

end CLint
