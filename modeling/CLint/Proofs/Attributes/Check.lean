import CLint.Proofs.Attributes.Locals

namespace CLint

open Code Scan

mutual

theorem TypePhrase.scope_entries (type : TypePhrase) : ∀ e ∈ type.entries, e.scope = .member := by
  cases type with
  | body aggregate tag members =>
    rw [TypePhrase.entries]
    exact DeclPhrase.scope_listEntries aggregate members
  | _ => simp [TypePhrase.entries]

theorem DeclPhrase.scope_entries (d : DeclPhrase) (container : Option Keyword) :
    ∀ e ∈ d.entries container .member, e.scope = .member := by
  obtain ⟨storage, before, type, after, first, others⟩ := d
  rw [DeclPhrase.entries]
  refine List.forall_mem_append.mpr ⟨type.scope_entries, fun e he => ?_⟩
  obtain ⟨o, _, rfl⟩ := List.mem_map.mp he
  rfl

theorem DeclPhrase.scope_listEntries (aggregate : Aggregate) (list : List DeclPhrase) :
    ∀ e ∈ DeclPhrase.listEntries aggregate list, e.scope = .member := by
  cases list with
  | nil => simp [DeclPhrase.listEntries]
  | cons d list =>
    rw [DeclPhrase.listEntries]
    exact List.forall_mem_append.mpr
      ⟨d.scope_entries _, DeclPhrase.scope_listEntries aggregate list⟩

end

namespace TagContent

theorem scope_members (c : TagContent) : ∀ r ∈ c.members, r.scope = .member := by
  cases c with
  | fields aggregate list =>
    intro r hr
    obtain ⟨e, he, rfl⟩ := List.mem_map.mp hr
    exact DeclPhrase.scope_listEntries aggregate list e he
  | enumerators list last =>
    intro r hr
    obtain ⟨e, _, rfl⟩ := List.mem_map.mp hr
    rfl

theorem locals_eq_nil (c : TagContent) (h : c.members = []) : c.locals = [] := by
  cases c with
  | enumerators => rfl
  | fields aggregate list =>
    cases list with
    | nil => rfl
    | cons d list =>
      obtain ⟨storage, before, type, after, first, others⟩ := d
      simp [members, DeclPhrase.listEntries, DeclPhrase.entries] at h

end TagContent

namespace DeclaratorPhrase

-- Declarators without a type declare nothing.
theorem records_anyLexemes {ps : List DeclaratorPhrase} (h : ps.all (·.width.isNone))
    (rest : List Lexeme) :
    Code.records (anyLexemes ps ++ .punct .semicolon :: rest) = Code.records rest := by
  cases ps with
  | nil => exact Code.records_of_reads .empty
  | cons first others =>
    have hcrosses := crosses_anyLexemes h
    obtain ⟨l, ls, hl, hstarts⟩ :=
      DeclPhrase.exists_startsDeclarator ⟨[], List.forall_mem_nil _⟩ first
    have hplain : l.isPlain := by
      cases l with
      | punct p => cases p <;> first | rfl | cases hstarts
      | keyword k => cases k <;> first | rfl | cases hstarts
      | _ => rfl
    obtain ⟨w, cores, hcores, -, hend⟩ := exists_cores (first :: others)
    have hnone : Specifiers.read? ⟨0, anyLexemes (first :: others)⟩ = none := by
      have htakes := Specifier.takes_words w Specifier.read?_qualifier (fun _ => rfl) false
        (anyLexemes cores)
      have hall := htakes.readAll
      rw [← hcores, hend, List.append_nil] at hall
      simp [Specifiers.read?, hall, Specifier.isType]
    have hl : anyLexemes (first :: others) =
        l :: (ls ++ others.flatMap fun o => .punct .comma :: o.lexemes) := by
      rw [anyLexemes, listLexemes]
      exact congrArg (· ++ _) hl
    rw [hl] at hcrosses hnone ⊢
    rw [Code.records_statement hcrosses hplain, Batch.ofDeclaration_of_none hnone]
    rfl

-- A name in two pairs of parentheses is read as a declarator.
theorem exists_readAll_inParens (name : String) (tag : Option String) {s : Stretch}
    (hs : s.lexemes = Phrase.inParens (Phrase.inParens [.identifier name]) ++
      (tag.map .identifier).toList) :
    ∃ d, Declarator.readAll s = [d] ∧ d.head.name = name ∧ d.list = none := by
  have hname : Nested Lexeme.IsInner [.identifier name] := .singleton rfl rfl ⟨nofun, nofun⟩
  have hinner : Nested Lexeme.IsInner (Phrase.inParens [.identifier name]) :=
    Phrase.nested_inParens hname
  have htag : Nested Lexeme.IsInner (tag.map .identifier).toList := by
    cases tag with
    | none => exact .nil
    | some name => exact .singleton rfl rfl ⟨nofun, nofun⟩
  have hnested := (Phrase.nested_inParens hinner).append htag
  obtain ⟨t, ts, hsplit, ht, hts⟩ := Stretch.exists_parts hnested
    (fun _ h => h.1) (by simp [Phrase.inParens]) (hs.trans (List.append_nil _).symm) rfl
  cases List.map_eq_nil_iff.mp hts
  rw [List.append_nil] at ht
  have hread := read?_of_head (read?_inParens hinner _ ht) rfl
  rw [Declarator.readAll, hsplit, List.filterMap_cons, hread]
  exact ⟨_, rfl, rfl, rfl⟩

end DeclaratorPhrase

namespace TagDefinition

variable (d : TagDefinition)

-- What stands before the braces begins like a statement.
theorem exists_front (before behind : List Lexeme) (hb : before.head?.all Lexeme.isPlain) :
    ∃ l ls, d.front before behind = l :: ls ∧ l.isPlain := by
  obtain ⟨⟨ks, hks⟩, tag, content, declarators⟩ := d
  cases ks with
  | cons k ks =>
    refine ⟨.keyword k, _, rfl, DeclPhrase.isPlain_keyword ?_⟩
    rw [hks k List.mem_cons_self]
    rfl
  | nil =>
    cases before with
    | cons l before => exact ⟨l, _, rfl, by simpa using hb⟩
    | nil =>
      refine ⟨.keyword content.word, _, rfl, DeclPhrase.isPlain_keyword ?_⟩
      rw [content.isTag_word, Bool.or_true]

-- The specifiers that are read where the word of an extension stands right behind the keyword. It
-- is taken for the tag.
def wordSpecifiers : List Specifier :=
  d.storage.list.map .storage ++ [.tagged d.content.word true none]

theorem any_isType_wordSpecifiers : d.wordSpecifiers.any Specifier.isType := by
  simp [wordSpecifiers, Specifier.isType]

theorem takes_wordSpecifiers (tail : List Lexeme) : Specifier.Takes false
    (d.storage.lexemes ++ [.keyword d.content.word, .identifier "__attribute__"])
    d.wordSpecifiers (.punct .lparen :: tail) := by
  have hstorage := Specifier.takes_words d.storage Specifier.read?_storage fun _ => rfl
  have htagged : ∀ typed, Specifier.Takes typed
      [.keyword d.content.word, .identifier "__attribute__"] [.tagged d.content.word true none]
      (.punct .lparen :: tail) := fun typed =>
    .single (Specifier.read?_tag _ d.content.isTag_word ..) rfl
  exact (hstorage false _).append (htagged _)

-- What is in the parentheses of the extension is taken for a declarator.
theorem exists_read?_front (name : String) (start : Nat) : ∃ sp o,
    Specifiers.read? ⟨start, d.front [] (Phrase.extension name)⟩ = some sp ∧ sp.body = none ∧
      sp.storage = d.storage.list ∧ Declarator.readAll sp.rest = [o] ∧ o.head.name = name ∧
      o.list = none := by
  obtain ⟨tail, htail⟩ : ∃ tail, Phrase.inParens (Phrase.inParens [.identifier name]) ++
    (d.tag.map .identifier).toList = .punct .lparen :: tail := ⟨_, rfl⟩
  have hfront : d.front [] (Phrase.extension name) =
      d.storage.lexemes ++ [.keyword d.content.word, .identifier "__attribute__"] ++
        .punct .lparen :: tail := by
    rw [← htail]
    simp [front, Phrase.extension]
  have htakes := d.takes_wordSpecifiers tail
  have hend : Specifier.readAll true (.punct .lparen :: tail) = [] := by
    rw [Specifier.readAll]
    rfl
  have hall : Specifier.readAll false (d.front [] (Phrase.extension name)) = d.wordSpecifiers := by
    rw [hfront, htakes.readAll, d.any_isType_wordSpecifiers, Bool.or_true, hend, List.append_nil]
  have hread := Specifiers.read?_eq_some (s := ⟨start, _⟩) hall d.any_isType_wordSpecifiers
  have hrest : (Stretch.drop ⟨start, d.front [] (Phrase.extension name)⟩
      (Specifier.totalSize d.wordSpecifiers)).lexemes =
        Phrase.inParens (Phrase.inParens [.identifier name]) ++
          (d.tag.map .identifier).toList := by
    rw [Stretch.drop, htakes.totalSize, hfront, List.drop_left, htail]
  obtain ⟨o, ho, hname, hlist⟩ := DeclaratorPhrase.exists_readAll_inParens name d.tag hrest
  refine ⟨_, o, hread, ?_, ?_, ho, hname, hlist⟩
  · refine Option.map_eq_none_iff.mp ((Specifiers.view_bodyFrom ..).trans ?_)
    simp [wordSpecifiers, Specifier.bodyView?]
  · simp [Specifiers.storage, wordSpecifiers]

-- To a scan, the parentheses hide that there was a tag.
theorem passes_front (name : String) :
    passes {} (d.front [] (Phrase.extension name)) ∧
      (d.front [] (Phrase.extension name)).foldl step {} = {} := by
  have hword : passes {} (.keyword d.content.word :: Phrase.extension name) ∧
      (.keyword d.content.word :: Phrase.extension name).foldl step {} = {} := ⟨rfl, rfl⟩
  have htag : ∀ l ∈ (d.tag.map Lexeme.identifier).toList, IsIdle l := by
    intro l hl
    obtain ⟨name, _, rfl⟩ := Option.map_eq_some_iff.mp (Option.mem_toList.mp hl)
    exact isIdle_identifier name
  obtain ⟨hpass, hfold⟩ := passes_of_isIdle (isIdle_storage d.storage)
  obtain ⟨hpass', hfold'⟩ := passes_of_isIdle htag
  simp only [front, List.append_nil, passes_append, List.foldl_append, hpass, hfold, hword, hpass',
    hfold', Bool.and_self, and_self]

theorem records_declaration_front (name : String) :
    Batch.records (Batch.ofDeclaration none .file ⟨0, d.front [] (Phrase.extension name)⟩) =
      [d.named name] := by
  obtain ⟨sp, o, hread, hbody, hstorage, hall, hname, hlist⟩ := d.exists_read?_front name 0
  have hmembers : Batch.members sp = [] := by rw [Batch.members, hbody]
  have hkind : Batch.kindOf .file sp o = (d.named name).kind := by
    simp [Batch.kindOf, Specifiers.isTypedef, hstorage, hlist, named]
  rw [Batch.ofDeclaration_of_some hread, hmembers, List.nil_append, Batch.records_singleton,
    Batch.declared, hall]
  simp only [List.map_cons, List.map_nil, Declaration.record, Batch.declaration, hkind, hname]
  rfl

-- The statement ends before the braces, and declares the name in the extension.
theorem records_front (name : String) (rest : List Lexeme) :
    Code.records (d.front [] (Phrase.extension name) ++ .punct .lbrace :: rest) =
      d.named name :: Code.records (.punct .lbrace :: rest) := by
  obtain ⟨l, ls, hl, hplain⟩ := d.exists_front [] (Phrase.extension name) rfl
  obtain ⟨hpass, hfold⟩ := d.passes_front name
  obtain ⟨sp, o, hread, -, -, hall, -, hlist⟩ := d.exists_read?_front name 0
  have hdeclared := d.records_declaration_front name
  rw [hl] at hpass hfold hread hdeclared ⊢
  have htext := Stmt.readText_of_passes hpass hfold (.punct .lbrace :: rest)
  have hstop : Scan.read {} (.punct .lbrace :: rest) = ([], .punct .lbrace :: rest) := rfl
  rw [hstop, List.append_nil] at htext
  have hfunction : Stmt.startsFunction true l ls false (.punct .lbrace :: rest) = false := by
    simp [Stmt.startsFunction, Batch.definesFunction, hread, hall, hlist]
  rw [List.cons_append, Code.records_of_reads (.simple hplain rfl htext hfunction),
    Stmt.records_simple, if_pos rfl, hdeclared, List.singleton_append]

theorem records_extensions (hd : d.isProper) (rest : List Lexeme) (before after : List String) :
    Code.records (d.lexemes (Phrase.extensions before) [] (Phrase.extensions after) ++
      .punct .semicolon :: rest) = d.content.members ++ d.names ++ Code.records rest := by
  have hplain : (Phrase.extensions before).head?.all Lexeme.isPlain := by
    cases before <;> rfl
  obtain ⟨l, ls, hl, hl'⟩ := d.exists_front (Phrase.extensions before) [] hplain
  obtain ⟨ms, hms⟩ : ∃ ms, d.lexemes (Phrase.extensions before) [] (Phrase.extensions after) =
      l :: ms := ⟨_, by rw [lexemes, hl]; rfl⟩
  have hcrosses := crosses_lexemes hd before after
  rw [hms] at hcrosses ⊢
  rw [Code.records_statement hcrosses hl', records_ofDeclaration hd hms.symm]

theorem records_extension (hd : d.isProper) (name : String) (rest : List Lexeme) :
    Code.records (d.lexemes [] (Phrase.extension name) [] ++ .punct .semicolon :: rest) =
      d.named name :: d.content.locals ++ Code.records rest := by
  rw [isProper, Bool.and_eq_true] at hd
  have hlexemes : d.lexemes [] (Phrase.extension name) [] ++ .punct .semicolon :: rest =
      d.front [] (Phrase.extension name) ++ .punct .lbrace :: (d.content.lexemes ++
        .punct .rbrace :: (DeclaratorPhrase.anyLexemes d.declarators ++
          .punct .semicolon :: rest)) := by
    simp [lexemes]
  obtain ⟨ss, hreads, hlocals⟩ := d.content.exists_reads hd.1
    (DeclaratorPhrase.anyLexemes d.declarators ++ .punct .semicolon :: rest)
  rw [hlexemes, records_front, Code.records_block hreads, hlocals,
    DeclaratorPhrase.records_anyLexemes hd.2]
  rfl

-- The first of the members is not declared at file level.
theorem named_locals_eq_iff (name : String) :
    d.named name :: d.content.locals = d.content.members ++ d.names ↔
      d.content.members = [] ∧ d.declarators.map DeclaratorPhrase.name = [name] := by
  constructor
  · intro h
    cases hmembers : d.content.members with
    | cons r rs =>
      have hscope := d.content.scope_members r (by simp [hmembers])
      rw [hmembers] at h
      cases (List.cons.inj h).1
      cases hscope
    | nil =>
      rw [hmembers, d.content.locals_eq_nil hmembers] at h
      have hnames := congrArg (List.map Record.name) h
      refine ⟨rfl, ?_⟩
      simpa [names, named, Function.comp_def] using hnames.symm
  · rintro ⟨hmembers, hnames⟩
    have h := congrArg (List.map d.named) hnames
    rw [List.map_map] at h
    rw [d.content.locals_eq_nil hmembers, hmembers]
    exact h.symm

-- Extensions before the keyword and behind the braces of a definition change nothing of what is
-- declared: the members and the names behind the braces. Right behind the keyword, an extension
-- makes a name of its own be declared in place of these names, and locals of the members. This is
-- the same only if there are no members and the names are that one.
theorem records_lexemes (hd : d.isProper) (rest : List Lexeme) :
    (∀ before after : List String,
      Code.records (d.lexemes (Phrase.extensions before) [] (Phrase.extensions after) ++
        .punct .semicolon :: rest) = d.content.members ++ d.names ++ Code.records rest) ∧
    ∀ name : String,
      Code.records (d.lexemes [] (Phrase.extension name) [] ++ .punct .semicolon :: rest) =
        d.named name :: d.content.locals ++ Code.records rest ∧
      (d.named name :: d.content.locals = d.content.members ++ d.names ↔
        d.content.members = [] ∧ d.declarators.map DeclaratorPhrase.name = [name]) := by
  refine ⟨d.records_extensions hd rest, fun name => ⟨?_, ?_⟩⟩
  · exact d.records_extension hd name rest
  · exact d.named_locals_eq_iff name

-- The name of a type with two fields, of which the second one is a bit-field.
theorem records_lexemes_packed :
    let none' : Words Keyword.isQualifier := ⟨[], nofun⟩
    let field (name : PlainName) (width : Option ValuePhrase) : DeclPhrase :=
      ⟨⟨[], nofun⟩, none', .basic ⟨[.intKw], by decide⟩ nofun, none',
        .plain [] nofun name [] width none, []⟩
    let width : ValuePhrase := ⟨⟨[.number "3"], rfl⟩, by decide⟩
    let d : TagDefinition := ⟨⟨[.typedefKw], by decide⟩, some "point",
      .fields .struct [field ⟨"a", rfl⟩ none, field ⟨"b", rfl⟩ (some width)],
      [.plain [] nofun ⟨"point_t", rfl⟩ [] none none]⟩
    d.isProper ∧
      Code.records (d.lexemes [] [] [] ++ [.punct .semicolon]) =
        [⟨.field, "a", .member, some .structKw⟩, ⟨.field, "b", .member, some .structKw⟩,
          ⟨.typedef, "point_t", .file, none⟩] ∧
      Code.records (d.lexemes [] (Phrase.extension "packed") [] ++ [.punct .semicolon]) =
        [⟨.typedef, "packed", .file, none⟩, ⟨.var, "a", .block, none⟩,
          ⟨.var, "b", .block, none⟩] := by
  intro none' field width d
  obtain ⟨hother, hbehind⟩ := d.records_lexemes rfl []
  have hnil : Code.records [] = [] := by
    rw [Code.records, Stmt.readFile]
    rfl
  rw [hnil] at hother hbehind
  exact ⟨rfl, hother [] [], (hbehind "packed").1⟩

theorem declarations_packed :
    let o (text : String) := Outline.ofSource (.ofText "a.c" text)
    (o "enum color \x7b RED \x7d;\n").declarations.map (·.record) =
        [⟨.field, "RED", .member, some .enumKw⟩] ∧
      (o "enum __attribute__((packed)) color \x7b RED \x7d;\n").declarations.map (·.record) =
        [⟨.var, "packed", .file, none⟩] := by
  decide +kernel

end TagDefinition
end CLint
