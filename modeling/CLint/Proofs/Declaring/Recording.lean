import CLint.Proofs.Declaring.Declarators
import CLint.Proofs.Within.Declaration

namespace CLint

open Code

namespace Stretch

-- The lexemes of the parts of a stretch are the pieces it is cut to, without empty ones.
theorem map_lexemes_parts (mark : Punct) (s : Stretch) :
    (s.parts mark).map lexemes =
      (Code.cut Lexeme.nesting mark 0 s.lexemes).filter (!·.isEmpty) := by
  have hlaid : ∀ (start : Nat) (pieces : List (List Lexeme)),
      ((laidOut start pieces).filter (!·.isEmpty)).map lexemes = pieces.filter (!·.isEmpty) := by
    intro start pieces
    induction pieces generalizing start with
    | nil => rfl
    | cons piece pieces ih =>
      rw [laidOut, List.filter_cons, List.filter_cons]
      cases piece with
      | nil => exact ih _
      | cons => exact congrArg (_ :: ·) (ih _)
  exact hlaid s.start _

-- Code without commas at the front of a stretch is in its first part, with what follows up to the
-- first comma.
theorem exists_parts {p : Lexeme → Prop} {s : Stretch} {front more piece : List Lexeme}
    {pieces : List (List Lexeme)} (h : Nested p front) (hp : ∀ l, p l → l ≠ .punct .comma)
    (hne : front ≠ []) (hs : s.lexemes = front ++ more)
    (hcut : Code.cut Lexeme.nesting .comma ((0 : Nat) : Int) more = piece :: pieces) :
    ∃ t ts, s.parts .comma = t :: ts ∧ t.lexemes = front ++ piece ∧
      ts.map lexemes = pieces.filter (!·.isEmpty) := by
  have hparts := s.map_lexemes_parts .comma
  have hfront : !(front ++ piece).isEmpty := by simp [hne]
  rw [hs, ← Int.natCast_zero, h.cut_append (.inl rfl) (fun _ => hp) hcut, List.filter_cons,
    if_pos hfront] at hparts
  exact List.map_eq_cons_iff.mp hparts

end Stretch

namespace DeclaratorPhrase

theorem lexemes_ne_nil (p : DeclaratorPhrase) : p.lexemes ≠ [] := by
  cases p <;> simp [lexemes, Phrase.inParens]

-- Declarators are cut at the commas between them and nowhere else.
theorem cut_listLexemes (first : DeclaratorPhrase) (others : List DeclaratorPhrase) :
    Code.cut Lexeme.nesting .comma 0 (listLexemes first others) =
      first.lexemes :: others.map lexemes := by
  induction others generalizing first with
  | nil =>
    have hnil : Code.cut Lexeme.nesting .comma ((0 : Nat) : Int) [] = [[]] := rfl
    have h := first.nested_lexemes.cut_append (.inl rfl) (fun _ _ h => h.1) hnil
    simpa [listLexemes] using h
  | cons o os ih =>
    have hrest : Code.cut Lexeme.nesting .comma ((0 : Nat) : Int)
        (.punct .comma :: listLexemes o os) = [] :: (o :: os).map lexemes := by
      simpa [Code.cut, Lexeme.isMark] using ih o
    have h := first.nested_lexemes.cut_append (.inl rfl) (fun _ _ h => h.1) hrest
    simpa [listLexemes] using h

theorem forall₂_filterMap_read? {ps : List DeclaratorPhrase} {ts : List Stretch}
    (h : ts.map Stretch.lexemes = ps.map lexemes) :
    List.Forall₂ IsReadAs ps (ts.filterMap Declarator.read?) := by
  induction ps generalizing ts with
  | nil =>
    cases List.map_eq_nil_iff.mp h
    exact .nil
  | cons p ps ih =>
    obtain ⟨t, ts, rfl, ht, hts⟩ := List.map_eq_cons_iff.mp h
    obtain ⟨d, hd, hp⟩ := p.exists_read? ht
    rw [List.filterMap_cons, hd]
    exact .cons hp (ih hts)

-- All declarators of a declaration are read, each as what it is.
theorem forall₂_readAll {s : Stretch} {first : DeclaratorPhrase} {others : List DeclaratorPhrase}
    (hs : s.lexemes = listLexemes first others) :
    List.Forall₂ IsReadAs (first :: others) (Declarator.readAll s) := by
  have hparts : (s.parts .comma).map Stretch.lexemes = (first :: others).map lexemes := by
    rw [Stretch.map_lexemes_parts, hs, cut_listLexemes, List.filter_eq_self.mpr]
    · rfl
    · simp [lexemes_ne_nil]
  exact forall₂_filterMap_read? hparts

end DeclaratorPhrase

namespace Entry

variable {container : Option Keyword} {scope : Scope} {storage : List Keyword}

-- A declaration says of its declarator what the entry for it asks for.
theorem isRecordedBy_declaration {p q : DeclaratorPhrase} {d : Declarator} {sp : Specifiers}
    (hq : q.Agrees p) (hd : q.IsReadAs d) (hst : sp.storage = storage) (first : Nat) :
    IsRecordedBy ⟨p, storage, container, scope⟩
      (Batch.declaration container scope sp first d) where
  name := hd.name.trans hq.name
  kind := by
    simp only [Batch.declaration, Batch.kindOf, hd.list, Specifiers.isTypedef, hst, kind,
      Option.isSome_none, Bool.false_eq_true, if_false]
  scope := rfl
  container := rfl
  storage w := by
    simp only [Batch.declaration, Specifiers.storageTexts, hst, List.mem_mergeSort,
      List.mem_eraseDups, List.mem_map]
  isPointer := by
    rw [Batch.declaration, hd.stars, hq.stars]
  isArray hw := (hd.isArray (hq.width ▸ hw)).trans hq.isArray
  hasInitializer hw := (hd.hasInitializer (hq.width ▸ hw)).trans hq.hasValue

-- A declaration declares the names of its declarators, one after another.
theorem forall₂_declared {first core : DeclaratorPhrase} {others : List DeclaratorPhrase}
    {s : Stretch} {sp : Specifiers} (ha : core.Agrees first)
    (hr : sp.rest.lexemes = DeclaratorPhrase.listLexemes core others)
    (hst : sp.storage = storage) :
    List.Forall₂ IsRecordedBy
      ((first :: others).map fun p => ⟨p, storage, container, scope⟩)
      (Batch.declared container scope s sp).declarations := by
  have hall := DeclaratorPhrase.forall₂_readAll hr
  rw [Batch.declared]
  cases hds : Declarator.readAll sp.rest with
  | nil => rw [hds] at hall; cases hall
  | cons d ds =>
    rw [hds] at hall
    obtain ⟨hd, hds⟩ := List.forall₂_cons.mp hall
    refine .cons (isRecordedBy_declaration ha hd hst _) ?_
    rw [List.forall₂_map_left_iff, List.forall₂_map_right_iff]
    exact hds.imp fun p d hp => isRecordedBy_declaration (.refl p) hp hst _

end Entry

namespace DeclPhrase

theorem lexemes_ne_nil (d : DeclPhrase) : d.lexemes ≠ [] := by
  obtain ⟨storage, before, type, after, first, others⟩ := d
  simp [lexemes, DeclaratorPhrase.listLexemes, first.lexemes_ne_nil]

-- The members of a tagged type are cut at the semicolons behind them and nowhere else.
theorem cut_listLexemes (ds : List DeclPhrase) :
    Code.cut Lexeme.nesting .semicolon 0 (listLexemes ds) = ds.map lexemes ++ [[]] := by
  induction ds with
  | nil =>
    rw [listLexemes]
    rfl
  | cons d ds ih =>
    have hrest : Code.cut Lexeme.nesting .semicolon ((0 : Nat) : Int)
        (.punct .semicolon :: listLexemes ds) = [] :: (ds.map lexemes ++ [[]]) := by
      simpa [Code.cut, Lexeme.isMark] using ih
    have h := d.nested_lexemes.cut_append (.inr rfl) (fun _ _ h => h) hrest
    rw [listLexemes]
    simpa using h

theorem map_lexemes_parts {s : Stretch} {ds : List DeclPhrase}
    (hs : s.lexemes = listLexemes ds) :
    (s.parts .semicolon).map Stretch.lexemes = ds.map lexemes := by
  rw [Stretch.map_lexemes_parts, hs, cut_listLexemes, List.filter_append, List.filter_eq_self.mpr]
  · simp
  · simp [lexemes_ne_nil]

end DeclPhrase

mutual

-- By induction on the grammar: what a declaration declares is recorded entry by entry.
theorem TypePhrase.forall₂_members (type : TypePhrase) (ht : type.isProper) {sp : Specifiers}
    (hb : sp.body.map TagBody.view = type.bodyView?) :
    List.Forall₂ Entry.IsRecordedBy type.entries
      ((Batch.members sp).flatMap (·.declarations)) := by
  cases type with
  | body aggregate tag members =>
    obtain ⟨b, hb, hview⟩ := Option.map_eq_some_iff.mp hb
    obtain ⟨htag, hinner⟩ := Prod.ext_iff.mp hview
    have hmembers : Batch.members sp =
        (b.inner.parts .semicolon).flatMap (Batch.ofDeclaration (some aggregate.word) .member) := by
      have henum : b.tag ≠ .enumKw := by
        rw [show b.tag = aggregate.word from htag]
        cases aggregate <;> decide
      simp only [Batch.members, hb, henum, if_false]
      rw [show b.tag = aggregate.word from htag]
    rw [TypePhrase.entries, hmembers]
    exact DeclPhrase.forall₂_members aggregate members ht (DeclPhrase.map_lexemes_parts hinner)
  | basic | named | tagged =>
    rw [Batch.members, Option.map_eq_none_iff.mp hb]
    simp [TypePhrase.entries]

theorem DeclPhrase.forall₂_ofDeclaration (d : DeclPhrase) {member : Bool} (hd : d.isProper member)
    {s : Stretch} (hs : s.lexemes = d.lexemes) (container : Option Keyword) (scope : Scope) :
    List.Forall₂ Entry.IsRecordedBy (d.entries container scope)
      ((Batch.ofDeclaration container scope s).flatMap (·.declarations)) := by
  obtain ⟨storage, before, type, after, first, others⟩ := d
  simp only [DeclPhrase.isProper, Bool.and_eq_true] at hd
  obtain ⟨sp, core, hread, ha, hsp⟩ := DeclPhrase.exists_specified hd.1.2 hs
  have hmembers := TypePhrase.forall₂_members type hd.2 hsp.body
  have hown : List.Forall₂ Entry.IsRecordedBy _
      (Batch.declared container scope s sp).declarations :=
    Entry.forall₂_declared ha hsp.rest hsp.storage
  rw [DeclPhrase.entries, Batch.ofDeclaration_of_some hread, List.flatMap_append,
    List.flatMap_singleton]
  exact List.rel_append hmembers hown

theorem DeclPhrase.forall₂_members (aggregate : Aggregate) (ds : List DeclPhrase)
    (hds : DeclPhrase.listProper ds) {ts : List Stretch}
    (ht : ts.map Stretch.lexemes = ds.map DeclPhrase.lexemes) :
    List.Forall₂ Entry.IsRecordedBy (DeclPhrase.listEntries aggregate ds)
      ((ts.flatMap (Batch.ofDeclaration (some aggregate.word) .member)).flatMap
        (·.declarations)) := by
  cases ds with
  | nil =>
    cases List.map_eq_nil_iff.mp ht
    exact .nil
  | cons d ds =>
    obtain ⟨t, ts, rfl, hd, hts⟩ := List.map_eq_cons_iff.mp ht
    rw [DeclPhrase.listProper, Bool.and_eq_true] at hds
    rw [DeclPhrase.listEntries, List.flatMap_cons, List.flatMap_append]
    exact List.rel_append (DeclPhrase.forall₂_ofDeclaration d hds.1 hd _ _)
      (DeclPhrase.forall₂_members aggregate ds hds.2 hts)

end

namespace DeclPhrase

theorem isPlain_keyword {k : Keyword}
    (h : k.isStorage || k.isQualifier || k.isBasicType || k.isTag) :
    (Lexeme.keyword k).isPlain := by
  cases k <;> first | rfl | cases h

-- A declaration begins neither like a statement of another kind nor like a label.
theorem exists_lexemes (d : DeclPhrase) :
    ∃ l ls, d.lexemes = l :: ls ∧ l.isPlain ∧
      ∀ rest, Stmt.startsLabel l (ls ++ rest) = false := by
  have hkeyword : ∀ (k : Keyword) (ls : List Lexeme),
      (k.isStorage || k.isQualifier || k.isBasicType || k.isTag) → d.lexemes = .keyword k :: ls →
      ∃ l ls, d.lexemes = l :: ls ∧ l.isPlain ∧
        ∀ rest, Stmt.startsLabel l (ls ++ rest) = false := fun k ls hk hl =>
    ⟨.keyword k, ls, hl, isPlain_keyword hk, fun _ => rfl⟩
  obtain ⟨⟨storage, hstorage⟩, ⟨before, hbefore⟩, type, after, first, others⟩ := d
  cases storage with
  | cons k ks =>
    refine hkeyword k _ ?_ (by rw [lexemes]; rfl)
    simp [hstorage k List.mem_cons_self]
  | nil =>
    cases before with
    | cons k ks =>
      refine hkeyword k _ ?_ (by rw [lexemes]; rfl)
      simp [hbefore k List.mem_cons_self]
    | nil =>
      cases type with
      | basic words hne =>
        obtain ⟨ks, hks⟩ := words
        cases ks with
        | nil => exact absurd rfl hne
        | cons k ks =>
          refine hkeyword k _ ?_ (by rw [lexemes, TypePhrase.lexemes]; rfl)
          simp [hks k List.mem_cons_self]
      | tagged aggregate tag =>
        refine hkeyword aggregate.word _ ?_ (by rw [lexemes, TypePhrase.lexemes]; rfl)
        cases aggregate <;> rfl
      | body aggregate tag members =>
        refine hkeyword aggregate.word _ ?_ (by rw [lexemes, TypePhrase.lexemes]; rfl)
        cases aggregate <;> rfl
      | named name =>
        obtain ⟨m, ms, hm, hstarts⟩ := exists_startsDeclarator after first
        have hlexemes : (mk ⟨[], hstorage⟩ ⟨[], hbefore⟩ (.named name) after first others).lexemes =
            .identifier name.text :: m ::
              (ms ++ others.flatMap fun o => .punct .comma :: o.lexemes) := by
          rw [lexemes, TypePhrase.lexemes, DeclaratorPhrase.listLexemes, ← List.append_assoc,
            List.append_assoc _ after.lexemes, hm]
          rfl
        refine ⟨_, _, hlexemes, rfl, fun rest => ?_⟩
        have hcolon : m.isMark .colon = false := by
          rw [Lexeme.isMark, decide_eq_false_iff_not]
          rintro rfl
          cases hstarts
        simp [Stmt.startsLabel, hcolon]

-- Any declaration of the grammar is recognized, at file level and in a block: its code with the
-- semicolon is read as one statement, all of it and nothing of the rest, and what this declares
-- are the names of its declarators, each once and in order, behind those of the members in it.
theorem isRecordedBy_read (d : DeclPhrase) (hd : d.isProper false) (atFile : Bool)
    (rest : List Lexeme) (start : Nat) :
    ∃ l ls, d.lexemes ++ .punct .semicolon :: rest = l :: ls ∧
      (Stmt.read atFile l ls).rest = rest ∧
      List.Forall₂ Entry.IsRecordedBy (d.entries none (if atFile then .file else .block))
        (((Stmt.sites start (Stmt.read atFile l ls).value).flatMap Site.batches).flatMap
          (·.declarations)) := by
  obtain ⟨l, ls, hl, hplain, hlabel⟩ := exists_lexemes d
  have hread : Stmt.Reads (.stmt atFile) (l :: (ls ++ .punct .semicolon :: rest))
      [.simple atFile l ls true] rest := by
    refine .simple hplain ?_ (readText_lexemes hd hl rest) ?_
    · rw [hlabel, Bool.and_false]
    · simp [Stmt.startsFunction]
  obtain ⟨hvalue, hrest⟩ := Stmt.reads_iff.mp hread
  refine ⟨l, ls ++ .punct .semicolon :: rest, by rw [hl]; rfl, hrest, ?_⟩
  have hsites : Stmt.sites start (.simple atFile l ls true) = [⟨start, .simple atFile l ls true⟩] :=
    rfl
  rw [hvalue, hsites, List.flatMap_singleton]
  exact forall₂_ofDeclaration d hd (s := ⟨start, l :: ls⟩) hl.symm none _

-- A definition of two type names, with a bit-field and an array of pointers in it, in a block.
theorem isRecordedBy_read_typedef :
    let none' : Words Keyword.isQualifier := ⟨[], nofun⟩
    let a : DeclPhrase := ⟨⟨[], nofun⟩, none', .basic ⟨[.unsignedKw], by decide⟩ nofun, none',
      .plain [] nofun ⟨"a", rfl⟩ [] (some ⟨⟨[.number "3"], rfl⟩, by decide⟩) none, []⟩
    let b : DeclPhrase := ⟨⟨[], nofun⟩, none', .named ⟨"T", rfl⟩, none',
      .plain [.punct .star] (by decide) ⟨"b", rfl⟩ [⟨⟨[.number "4"], rfl⟩, by decide⟩] none none,
      []⟩
    let d : DeclPhrase := ⟨⟨[.typedefKw], by decide⟩, none', .body .struct (some "s") [a, b], none',
      .plain [.punct .star] (by decide) ⟨"p", rfl⟩ [] none none, [.pointer ⟨"q", rfl⟩ ⟨[], rfl⟩]⟩
    d.isProper false ∧
      (d.entries none .block).map (·.declarator.name) = ["a", "b", "p", "q"] ∧
      ∃ l ls, d.lexemes ++ [.punct .semicolon, .punct .rbrace] = l :: ls ∧
        (Stmt.read false l ls).rest = [.punct .rbrace] ∧
        List.Forall₂ Entry.IsRecordedBy (d.entries none .block)
          (((Stmt.sites 3 (Stmt.read false l ls).value).flatMap Site.batches).flatMap
            (·.declarations)) := by
  intro none' a b d
  exact ⟨rfl, rfl, isRecordedBy_read d rfl false [.punct .rbrace] 3⟩

-- A name right behind a `struct` is its tag, so that it is not declared.
theorem unrecorded_tag :
    let d : DeclPhrase := ⟨⟨[], nofun⟩, ⟨[], nofun⟩, .tagged .struct none, ⟨[], nofun⟩,
      .plain [] nofun ⟨"x", rfl⟩ [] none none, []⟩
    let s := (Stmt.read true (.keyword .structKw) [.identifier "x", .punct .semicolon]).value
    d.lexemes ++ [.punct .semicolon] =
        [.keyword .structKw, .identifier "x", .punct .semicolon] ∧
      (d.entries none .file).map (·.declarator.name) = ["x"] ∧
      ((Stmt.sites 0 s).flatMap Site.batches).flatMap (·.declarations) = [] := by
  intro d s
  refine ⟨rfl, rfl, ?_⟩
  decide +kernel

end DeclPhrase
end CLint
