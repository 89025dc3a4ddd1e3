import CLint.Proofs.Attributes.Grammar
import CLint.Proofs.Declaring.Recording

namespace CLint

open Code

-- What some batches declare.
def Batch.records (bs : List Batch) : List Record :=
  (bs.flatMap (·.declarations)).map Declaration.record

theorem Batch.records_append (as bs : List Batch) :
    records (as ++ bs) = records as ++ records bs := by
  simp [records]

theorem Batch.records_singleton (b : Batch) :
    records [b] = b.declarations.map Declaration.record := by
  simp [records]

theorem Entry.map_record {es : List Entry} {ds : List (Declaration Run)}
    (h : List.Forall₂ IsRecordedBy es ds) : ds.map Declaration.record = es.map record := by
  induction h with
  | nil => rfl
  | cons hd _ ih =>
    simp only [List.map_cons, ih, Declaration.record, record, hd.kind, hd.name, hd.scope,
      hd.container]

namespace Enumerator

-- Enumerators are cut at the commas between them, and also at one behind the last of them.
theorem cut_lexemes (list : List Enumerator) (last : Option Enumerator) :
    Code.cut Lexeme.nesting .comma 0 (TagContent.enumerators list last).lexemes =
      list.map lexemes ++ [(last.map lexemes).getD []] := by
  have hone : ∀ (e : Enumerator) (rest : List Lexeme) {piece : List Lexeme}
      {pieces : List (List Lexeme)},
      Code.cut Lexeme.nesting .comma ((0 : Nat) : Int) rest = piece :: pieces →
      Code.cut Lexeme.nesting .comma ((0 : Nat) : Int) (e.lexemes ++ rest) =
        (e.lexemes ++ piece) :: pieces := fun e _ _ _ h =>
    e.nested_lexemes.cut_append (.inl rfl) (fun _ _ h => h.1) h
  induction list with
  | nil =>
    cases last with
    | none => rfl
    | some e => simpa [TagContent.lexemes] using hone e [] rfl
  | cons e list ih =>
    have hrest : Code.cut Lexeme.nesting .comma ((0 : Nat) : Int)
        (.punct .comma :: (TagContent.enumerators list last).lexemes) =
          [] :: (list.map lexemes ++ [(last.map lexemes).getD []]) := by
      simpa [Code.cut, Lexeme.isMark] using ih
    rw [TagContent.enumerators_cons]
    simpa using hone e _ hrest

theorem map_lexemes_parts {s : Stretch} {list : List Enumerator} {last : Option Enumerator}
    (hs : s.lexemes = (TagContent.enumerators list last).lexemes) :
    (s.parts .comma).map Stretch.lexemes = (list ++ last.toList).map lexemes := by
  have hkeep : (list.map lexemes).filter (!·.isEmpty) = list.map lexemes :=
    List.filter_eq_self.mpr (by simp [lexemes])
  rw [Stretch.map_lexemes_parts, hs, cut_lexemes, List.filter_append, hkeep]
  cases last with
  | none => simp
  | some e => simp [lexemes]

theorem map_record {es : List Enumerator} {ts : List Stretch}
    (h : ts.map Stretch.lexemes = es.map lexemes) :
    (ts.filterMap Batch.enumerator?).map Declaration.record = es.map record := by
  induction es generalizing ts with
  | nil =>
    cases List.map_eq_nil_iff.mp h
    rfl
  | cons e es ih =>
    obtain ⟨t, ts, rfl, ht, hts⟩ := List.map_eq_cons_iff.mp h
    rw [List.filterMap_cons, Batch.enumerator?, ht]
    exact congrArg (e.record :: ·) (ih hts)

end Enumerator

-- The members of a tagged type are recorded as its fields or its enumerators.
theorem TagContent.records_members (c : TagContent) (hc : c.isProper) {sp : Specifiers}
    (hb : sp.body.map TagBody.view = some (c.word, c.lexemes)) :
    Batch.records (Batch.members sp) = c.members := by
  cases c with
  | fields aggregate list =>
    rw [isProper, Bool.and_eq_true] at hc
    exact Entry.map_record (TypePhrase.forall₂_members (.body aggregate none list) hc.1 hb)
  | enumerators list last =>
    obtain ⟨b, hb, hview⟩ := Option.map_eq_some_iff.mp hb
    obtain ⟨htag, hinner⟩ := Prod.ext_iff.mp hview
    have htag : b.tag = .enumKw := htag
    have hmembers : Batch.members sp = [Batch.enumerators b] := by
      simp only [Batch.members, hb, htag, if_true]
    rw [hmembers, Batch.records_singleton]
    exact Enumerator.map_record (Enumerator.map_lexemes_parts hinner)

-- An extension as a specifier.
def Specifier.ofName (name : String) : Specifier :=
  .extension (some ⟨Phrase.inParens [.identifier name], some (.punct .rparen)⟩)

namespace Specifier

theorem takes_extension (name : String) (typed : Bool) (rest : List Lexeme) :
    Takes typed (Phrase.extension name) [ofName name] rest := by
  have hname : Nested Lexeme.IsInner [.identifier name] := .singleton rfl rfl ⟨nofun, nofun⟩
  have hinner : Enclosed.inBrackets (Phrase.inParens [.identifier name] ++ .punct .rparen :: rest) =
      ⟨Phrase.inParens [.identifier name], some (.punct .rparen)⟩ :=
    Enclosed.inBrackets_append (Phrase.nested_inParens (q := Lexeme.IsInner) hname) rfl rest
  exact .single (congrArg (fun e => some (extension (some e))) hinner) rfl

theorem takes_extensions (names : List String) (typed : Bool) (rest : List Lexeme) :
    Takes typed (Phrase.extensions names) (names.map ofName) rest := by
  induction names generalizing typed with
  | nil => exact .nil typed rest
  | cons name names ih => exact (takes_extension name typed _).append (ih _)

end Specifier

namespace DeclaratorPhrase

theorem exists_cores (ps : List DeclaratorPhrase) :
    ∃ (w : Words Keyword.isQualifier) (cores : List DeclaratorPhrase),
      anyLexemes ps = w.lexemes ++ anyLexemes cores ∧ cores.map name = ps.map name ∧
        ∀ typed, Specifier.readAll typed (anyLexemes cores) = [] := by
  cases ps with
  | nil =>
    exact ⟨⟨[], List.forall_mem_nil _⟩, [], rfl, rfl, fun typed => by
      rw [anyLexemes, Specifier.readAll]⟩
  | cons first others =>
    obtain ⟨w, core, hw, ha, hcore⟩ := first.exists_core (DeclPhrase.isTypeName_others others)
    refine ⟨w, core :: others, ?_, congrArg (· :: _) ha.name, hcore⟩
    rw [anyLexemes, listLexemes, hw, List.append_assoc]
    rfl

end DeclaratorPhrase

namespace TagDefinition

variable {d : TagDefinition} {sp : Specifiers} {s : Stretch}

theorem record_entry (d : TagDefinition) (p : DeclaratorPhrase) :
    Entry.record ⟨p, d.storage.list, none, .file⟩ = d.named p.name := by
  simp [Entry.record, Entry.kind, named]

-- The names behind the braces are recorded.
theorem records_declared {cores : List DeclaratorPhrase}
    (hn : cores.map DeclaratorPhrase.name = d.declarators.map DeclaratorPhrase.name)
    (hr : sp.rest.lexemes = DeclaratorPhrase.anyLexemes cores)
    (hst : sp.storage = d.storage.list) :
    Batch.records [Batch.declared none .file s sp] = d.names := by
  have hnames : d.names = cores.map fun p => d.named p.name := by
    have h := congrArg (List.map d.named) hn
    rwa [List.map_map, List.map_map, eq_comm] at h
  rw [hnames, Batch.records_singleton]
  cases cores with
  | nil =>
    have hall : Declarator.readAll sp.rest = [] := by
      have hparts := sp.rest.map_lexemes_parts .comma
      rw [hr] at hparts
      rw [Declarator.readAll, List.map_eq_nil_iff.mp hparts]
      rfl
    rw [Batch.declared, hall]
    rfl
  | cons core others =>
    have hall : (Batch.declared none .file s sp).declarations.map Declaration.record =
        ((core :: others).map fun p => ⟨p, d.storage.list, none, .file⟩).map Entry.record :=
      Entry.map_record (Entry.forall₂_declared (.refl core) hr hst)
    simpa only [List.map_map, Function.comp_def, record_entry] using hall

-- What a definition begins with, up to its declarators.
def specifiers (d : TagDefinition) (before after : List String) (qualifiers : List Keyword) :
    List Specifier :=
  d.storage.list.map .storage ++ before.map .ofName ++
    [.tagged d.content.word d.tag.isSome (some ⟨d.content.lexemes, some (.punct .rbrace)⟩)] ++
    after.map .ofName ++ qualifiers.map .qualifier

theorem takes_specifiers (d : TagDefinition) (before after : List String)
    (w : Words Keyword.isQualifier) (rest : List Lexeme) :
    Specifier.Takes false
      (d.front (Phrase.extensions before) [] ++
        (.punct .lbrace :: d.content.lexemes ++ [.punct .rbrace]) ++ Phrase.extensions after ++
        w.lexemes)
      (d.specifiers before after w.list) rest := by
  have hstorage := Specifier.takes_words d.storage Specifier.read?_storage fun _ => rfl
  have htagged := Specifier.takes_tagged d.content.isTag_word d.tag d.content.nested_lexemes
  have hqualifiers := Specifier.takes_words w Specifier.read?_qualifier fun _ => rfl
  have htakes := ((((hstorage false _).append (Specifier.takes_extensions before _ _)).append
    (htagged _ _)).append (Specifier.takes_extensions after _ _)).append (hqualifiers _ rest)
  simpa [front, specifiers] using htakes

theorem any_isType_specifiers (d : TagDefinition) (before after : List String)
    (qualifiers : List Keyword) :
    (d.specifiers before after qualifiers).any Specifier.isType := by
  simp [specifiers, Specifier.isType]

theorem storage_of_specifiers {before after : List String} {qualifiers : List Keyword}
    (h : sp.list = d.specifiers before after qualifiers) : sp.storage = d.storage.list := by
  rw [Specifiers.storage, h]
  simp [specifiers, List.filterMap_map, Function.comp_def, Specifier.ofName]

theorem filterMap_bodyView? (d : TagDefinition) (before after : List String)
    (qualifiers : List Keyword) :
    (d.specifiers before after qualifiers).filterMap Specifier.bodyView? =
      [(d.content.word, d.content.lexemes)] := by
  simp [specifiers, Function.comp_def, Specifier.ofName, Specifier.bodyView?]

-- A definition declares the members of its type and the names behind the braces, whichever
-- extensions there are before the keyword and behind the braces.
theorem records_ofDeclaration (hd : d.isProper) {before after : List String}
    (hs : s.lexemes = d.lexemes (Phrase.extensions before) [] (Phrase.extensions after)) :
    Batch.records (Batch.ofDeclaration none .file s) = d.content.members ++ d.names := by
  rw [isProper, Bool.and_eq_true] at hd
  obtain ⟨w, cores, hcores, hn, hend⟩ := DeclaratorPhrase.exists_cores d.declarators
  have htakes := d.takes_specifiers before after w (DeclaratorPhrase.anyLexemes cores)
  have hlexemes : s.lexemes = _ := hs
  rw [lexemes, hcores, ← List.append_assoc] at hlexemes
  have hall : Specifier.readAll false s.lexemes = d.specifiers before after w.list := by
    rw [hlexemes, htakes.readAll, hend, List.append_nil]
  have hread := Specifiers.read?_eq_some hall (d.any_isType_specifiers ..)
  rw [Batch.ofDeclaration_of_some hread, Batch.records_append, d.content.records_members hd.1,
    records_declared hn]
  · simp only [Stretch.drop, htakes.totalSize]
    rw [hlexemes, List.drop_left]
  · exact storage_of_specifiers rfl
  · rw [Specifiers.view_bodyFrom, filterMap_bodyView?]
    rfl

end TagDefinition
end CLint
