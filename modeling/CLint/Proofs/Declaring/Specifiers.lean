import CLint.Proofs.Declaring.Whole

namespace CLint

open Code

namespace Specifier

variable {typed : Bool} {as bs ls rest : List Lexeme} {s : Specifier} {ss ts : List Specifier}

-- From the front of some code, the specifiers `ss` are read as what the lexemes `as` stand for, and
-- then the reader goes on with what is behind them.
structure Takes (typed : Bool) (as : List Lexeme) (ss : List Specifier) (rest : List Lexeme) :
    Prop where
  readAll : Specifier.readAll typed (as ++ rest) =
    ss ++ Specifier.readAll (typed || ss.any isType) rest
  totalSize : totalSize ss = as.length

theorem totalSize_append (ss ts : List Specifier) :
    Specifier.totalSize (ss ++ ts) = Specifier.totalSize ss + Specifier.totalSize ts := by
  induction ss with
  | nil => simp [Specifier.totalSize]
  | cons s ss ih => simp [Specifier.totalSize, ih, Nat.add_assoc]

theorem Takes.nil (typed : Bool) (rest : List Lexeme) : Takes typed [] [] rest :=
  ⟨by simp, rfl⟩

theorem Takes.append (h : Takes typed as ss (bs ++ rest))
    (h' : Takes (typed || ss.any isType) bs ts rest) : Takes typed (as ++ bs) (ss ++ ts) rest where
  readAll := by
    rw [List.append_assoc, h.readAll, h'.readAll, List.append_assoc, List.any_append, Bool.or_assoc]
  totalSize := by rw [totalSize_append, h.totalSize, h'.totalSize, List.length_append]

theorem Takes.single {l : Lexeme} (h : read? typed l (ls ++ rest) = some s)
    (hs : s.tailSize = ls.length) : Takes typed (l :: ls) [s] rest where
  readAll := by
    rw [List.cons_append, Specifier.readAll, h]
    simp [hs]
  totalSize := by simp [Specifier.totalSize, size, hs]

-- Keywords of one kind, each of which is a specifier by itself.
theorem takes_words {p : Keyword → Bool} {f : Keyword → Specifier} (w : Words p)
    (hf : ∀ k, p k → ∀ typed ls, read? typed (.keyword k) ls = some (f k))
    (hs : ∀ k, (f k).tailSize = 0) (typed : Bool) (rest : List Lexeme) :
    Takes typed w.lexemes (w.list.map f) rest := by
  have hwords : ∀ (ks : List Keyword) (typed : Bool), (∀ k ∈ ks, p k) →
      Takes typed (ks.map .keyword) (ks.map f) rest := by
    intro ks
    induction ks with
    | nil => exact fun typed _ => .nil typed rest
    | cons k ks ih =>
      intro typed hks
      obtain ⟨hk, hks⟩ := List.forall_mem_cons.mp hks
      have hsingle : Takes typed [.keyword k] [f k] (ks.map .keyword ++ rest) :=
        .single (hf k hk typed _) (hs k)
      exact hsingle.append (ih _ hks)
  exact hwords w.list typed w.all

theorem read?_storage (k : Keyword) (h : k.isStorage) (typed : Bool) (ls : List Lexeme) :
    read? typed (.keyword k) ls = some (.storage k) := by
  simp [read?, h]

theorem read?_qualifier (k : Keyword) (h : k.isQualifier) (typed : Bool) (ls : List Lexeme) :
    read? typed (.keyword k) ls = some (.qualifier k) := by
  cases k <;> first | rfl | cases h

theorem read?_basic (k : Keyword) (h : k.isBasicType) (typed : Bool) (ls : List Lexeme) :
    read? typed (.keyword k) ls = some (.basic k) := by
  cases k <;> first | rfl | cases h

theorem read?_tag (k : Keyword) (h : k.isTag) (typed : Bool) (ls : List Lexeme) :
    read? typed (.keyword k) ls = some (ofTag k ls) := by
  cases k <;> first | rfl | cases h

-- The definition of a tagged type.
theorem takes_tagged {p : Lexeme → Prop} {k : Keyword} (hk : k.isTag) (tag : Option String)
    {inner : List Lexeme} (h : Nested p inner) (typed : Bool) (rest : List Lexeme) :
    Takes typed
      (.keyword k :: (tag.map .identifier).toList ++ (.punct .lbrace :: inner ++ [.punct .rbrace]))
      [.tagged k tag.isSome (some ⟨inner, some (.punct .rbrace)⟩)] rest := by
  have hbody : body? (.punct .lbrace :: inner ++ .punct .rbrace :: rest) =
      some ⟨inner, some (.punct .rbrace)⟩ :=
    congrArg some (Enclosed.inBraces_append h _)
  refine .single ((read?_tag k hk ..).trans (congrArg some ?_)) ?_
  · cases tag <;> simpa [ofTag] using hbody
  · cases tag <;> simp [tailSize, Enclosed.size] <;> omega

end Specifier

-- The specifiers that a type is read as.
def TypePhrase.specifiers : TypePhrase → List Specifier
  | .basic words _ => words.list.map .basic
  | .named name => [.named name.text]
  | .tagged aggregate tag => [.tagged aggregate.word tag.isSome none]
  | .body aggregate tag members =>
    [.tagged aggregate.word tag.isSome
      (some ⟨DeclPhrase.listLexemes members, some (.punct .rbrace)⟩)]

theorem TypePhrase.any_isType_specifiers (type : TypePhrase) :
    type.specifiers.any Specifier.isType := by
  cases type with
  | basic words h =>
    obtain ⟨ks, hks⟩ := words
    cases ks with
    | nil => exact absurd rfl h
    | cons k ks => rfl
  | _ => rfl

-- What may be the first lexeme of a declarator.
def Lexeme.startsDeclarator (l : Lexeme) : Bool :=
  l.isIdentifier || DeclaratorHead.isPointerPart l || l.isMark .lparen

theorem Specifier.body?_of_startsDeclarator {l : Lexeme} (h : l.startsDeclarator)
    (ls : List Lexeme) : body? (l :: ls) = none := by
  cases l with
  | punct mark => cases mark <;> first | rfl | cases h
  | _ => rfl

theorem TypePhrase.goesBefore_cons (type : TypePhrase) (l : Lexeme) (ls ms : List Lexeme) :
    type.goesBefore (l :: ls) = type.goesBefore (l :: ms) := by
  cases type with
  | tagged aggregate tag => cases tag <;> rfl
  | _ => rfl

theorem Specifier.takes_type (type : TypePhrase) {l : Lexeme} {ls : List Lexeme}
    (h : type.goesBefore (l :: ls)) (hl : l.startsDeclarator) :
    Takes false type.lexemes type.specifiers (l :: ls) := by
  cases type with
  | basic words _ =>
    rw [TypePhrase.lexemes]
    exact takes_words words read?_basic (fun _ => rfl) false _
  | named name =>
    rw [TypePhrase.lexemes]
    refine .single ?_ rfl
    have htype : isTypeName false (l :: ls) := by
      simp only [TypePhrase.goesBefore, List.head?_cons, Option.any_some, Bool.not_eq_true'] at h
      simpa [isTypeName, Lexeme.startsDeclarator, DeclaratorHead.isPointerPart, h] using hl
    simp [read?, name.plain, htype]
  | tagged aggregate tag =>
    rw [TypePhrase.lexemes]
    refine .single ((read?_tag _ aggregate.isTag_word ..).trans (congrArg some ?_)) ?_
    · cases tag with
      | none =>
        simp only [TypePhrase.goesBefore, List.head?_cons, Option.any_some, Bool.not_eq_true'] at h
        have htag : ofTag aggregate.word (l :: ls) =
            tagged aggregate.word false (body? (l :: ls)) := by
          unfold ofTag
          split <;> simp_all [Lexeme.isIdentifier]
        exact htag.trans (by rw [body?_of_startsDeclarator hl]; rfl)
      | some tag =>
        simp [ofTag, body?_of_startsDeclarator hl]
    · cases tag <;> rfl
  | body aggregate tag members =>
    rw [TypePhrase.lexemes, List.append_assoc]
    exact takes_tagged aggregate.isTag_word tag (DeclPhrase.nested_listLexemes members) false _

namespace DeclaratorPhrase

-- Two phrases that differ at most in their qualifiers.
structure Agrees (d e : DeclaratorPhrase) : Prop where
  name : d.name = e.name
  stars : d.stars = e.stars
  width : d.width = e.width
  isArray : d.isArray = e.isArray
  hasValue : d.hasValue = e.hasValue

theorem Agrees.refl (d : DeclaratorPhrase) : d.Agrees d :=
  ⟨rfl, rfl, rfl, rfl, rfl⟩

-- Behind a name there is nothing that would make it the name of a type.
theorem isTypeName_suffix (dimensions : List Dimension) (width value : Option ValuePhrase)
    {rest : List Lexeme} (hr : Specifier.isTypeName false rest = false) :
    Specifier.isTypeName false (suffix dimensions width value ++ rest) = false := by
  cases dimensions with
  | cons => rfl
  | nil =>
    cases width with
    | some => rfl
    | none =>
      cases value with
      | some => rfl
      | none => exact hr

theorem readAll_name (name : PlainName) {ls : List Lexeme}
    (h : Specifier.isTypeName false ls = false) (typed : Bool) :
    Specifier.readAll typed (.identifier name.text :: ls) = [] := by
  have htype : Specifier.isTypeName typed ls = false := by
    cases ls with
    | nil => rfl
    | cons l ls => cases typed <;> simp_all [Specifier.isTypeName]
  simp [Specifier.readAll, Specifier.read?, name.plain, htype]

-- The qualifiers in front of a declarator are read as specifiers, and nothing else of it.
theorem exists_core (d : DeclaratorPhrase) {rest : List Lexeme}
    (hr : Specifier.isTypeName false rest = false) :
    ∃ (w : Words Keyword.isQualifier) (core : DeclaratorPhrase),
      d.lexemes = w.lexemes ++ core.lexemes ∧ core.Agrees d ∧
        ∀ typed, Specifier.readAll typed (core.lexemes ++ rest) = [] := by
  cases d with
  | pointer name parameters =>
    exact ⟨⟨[], nofun⟩, .pointer name parameters, rfl, .refl _, by
      simp [lexemes, Phrase.inParens, Specifier.readAll, Specifier.read?]⟩
  | plain lead h name dimensions width value =>
    induction lead with
    | nil =>
      exact ⟨⟨[], nofun⟩, .plain [] h name dimensions width value, rfl, .refl _,
        readAll_name name (isTypeName_suffix dimensions width value hr)⟩
    | cons l lead ih =>
      obtain ⟨hl, hlead⟩ := List.forall_mem_cons.mp h
      cases hq : l.isQualifier with
      | false =>
        have hstar : l = .punct .star := by
          simpa [DeclaratorHead.isPointerPart, hq, Lexeme.isMark] using hl
        subst hstar
        exact ⟨⟨[], nofun⟩, .plain _ h name dimensions width value, rfl, .refl _, by
          simp [lexemes, Specifier.readAll, Specifier.read?]⟩
      | true =>
        obtain ⟨w, core, hw, ha, hcore⟩ := ih hlead
        cases l <;> first | cases hq | skip
        case keyword k =>
          refine ⟨⟨k :: w.list, List.forall_mem_cons.mpr ⟨hq, w.all⟩⟩, core, ?_, ?_, hcore⟩
          · simp only [lexemes, List.cons_append, Words.lexemes, List.map_cons] at hw ⊢
            rw [hw]
          · refine ⟨ha.name, ha.stars.trans ?_, ha.width, ha.isArray, ha.hasValue⟩
            simp [stars, DeclaratorHead.starCount, Lexeme.isMark]

end DeclaratorPhrase

-- What is known of the body of a tagged type: its tag and the code in its braces.
def TagBody.view (b : TagBody) : Keyword × List Lexeme :=
  (b.tag, b.inner.lexemes)

def Specifier.bodyView? : Specifier → Option (Keyword × List Lexeme)
  | .tagged tag _ (some e) => some (tag, e.inner)
  | _ => none

def TypePhrase.bodyView? : TypePhrase → Option (Keyword × List Lexeme)
  | .body aggregate _ members => some (aggregate.word, DeclPhrase.listLexemes members)
  | _ => none

namespace Specifiers

theorem view_bodyFrom (start : Nat) (ss : List Specifier) :
    (bodyFrom start ss).map TagBody.view = (ss.filterMap Specifier.bodyView?).getLast? := by
  induction ss generalizing start with
  | nil => rfl
  | cons s ss ih =>
    cases s with
    | tagged tag hasName body =>
      cases body with
      | none => simp [bodyFrom, Specifier.bodyView?, ih]
      | some e =>
        simp only [bodyFrom, Option.map_or, ih, List.filterMap_cons, Specifier.bodyView?,
          List.getLast?_cons, Option.map_some, TagBody.view]
        cases (ss.filterMap Specifier.bodyView?).getLast? <;> rfl
    | _ => simp [bodyFrom, Specifier.bodyView?, ih]

end Specifiers

theorem TypePhrase.filterMap_bodyView? (type : TypePhrase) :
    type.specifiers.filterMap Specifier.bodyView? = type.bodyView?.toList := by
  cases type with
  | basic words => simp [specifiers, bodyView?, Specifier.bodyView?]
  | _ => rfl

theorem Specifiers.read?_eq_some {s : Stretch} {list : List Specifier}
    (hl : Specifier.readAll false s.lexemes = list) (h : list.any Specifier.isType) :
    read? s = some ⟨list, s.lexemes.take (Specifier.totalSize list),
      s.drop (Specifier.totalSize list), bodyFrom s.start list⟩ := by
  subst hl
  exact if_pos h

namespace DeclPhrase

-- A type with the storage words and the qualifiers around it, as specifiers.
def specifiers (storage : Words Keyword.isStorage) (before : Words Keyword.isQualifier)
    (type : TypePhrase) (after : List Keyword) : List Specifier :=
  storage.list.map .storage ++ before.list.map .qualifier ++ type.specifiers ++
    after.map .qualifier

variable {storage : Words Keyword.isStorage} {before after : Words Keyword.isQualifier}
  {type : TypePhrase} {first : DeclaratorPhrase} {others : List DeclaratorPhrase}

-- Behind its specifiers, a declaration goes on with a declarator.
theorem exists_startsDeclarator (after : Words Keyword.isQualifier) (first : DeclaratorPhrase) :
    ∃ l ls, after.lexemes ++ first.lexemes = l :: ls ∧ l.startsDeclarator := by
  obtain ⟨ks, hks⟩ := after
  cases ks with
  | cons k ks =>
    refine ⟨_, _, rfl, ?_⟩
    simp [Lexeme.startsDeclarator, DeclaratorHead.isPointerPart, Lexeme.isQualifier,
      hks k List.mem_cons_self]
  | nil =>
    cases first with
    | pointer => exact ⟨_, _, rfl, rfl⟩
    | plain lead h =>
      cases lead with
      | nil => exact ⟨_, _, rfl, rfl⟩
      | cons l lead =>
        refine ⟨l, _, rfl, ?_⟩
        simp [Lexeme.startsDeclarator, h l List.mem_cons_self]

theorem isTypeName_others (others : List DeclaratorPhrase) :
    Specifier.isTypeName false (others.flatMap fun o => .punct .comma :: o.lexemes) = false := by
  cases others <;> rfl

-- All specifiers of a declaration are read, and nothing of what is declared.
theorem exists_readAll (storage : Words Keyword.isStorage) (before : Words Keyword.isQualifier)
    (others : List DeclaratorPhrase) (h : type.goesBefore (after.lexemes ++ first.lexemes)) :
    ∃ (w : Words Keyword.isQualifier) (core : DeclaratorPhrase), core.Agrees first ∧
      DeclaratorPhrase.listLexemes first others =
        w.lexemes ++ DeclaratorPhrase.listLexemes core others ∧
      Specifier.Takes false
        (storage.lexemes ++ before.lexemes ++ type.lexemes ++ after.lexemes ++ w.lexemes)
        (specifiers storage before type (after.list ++ w.list))
        (DeclaratorPhrase.listLexemes core others) ∧
      Specifier.readAll true (DeclaratorPhrase.listLexemes core others) = [] := by
  obtain ⟨w, core, hw, ha, hcore⟩ := first.exists_core (isTypeName_others others)
  have hlist : DeclaratorPhrase.listLexemes first others =
      w.lexemes ++ DeclaratorPhrase.listLexemes core others := by
    simp only [DeclaratorPhrase.listLexemes, hw, List.append_assoc]
  refine ⟨w, core, ha, hlist, ?_, hcore true⟩
  have hqualifiers : ∀ (v : Words Keyword.isQualifier) (typed : Bool) (rest : List Lexeme),
      Specifier.Takes typed v.lexemes (v.list.map .qualifier) rest := fun v =>
    Specifier.takes_words v Specifier.read?_qualifier fun _ => rfl
  have htype : Specifier.Takes false type.lexemes type.specifiers
      (after.lexemes ++ (w.lexemes ++ DeclaratorPhrase.listLexemes core others)) := by
    obtain ⟨l, ls, hl, hstarts⟩ := exists_startsDeclarator after first
    rw [← hlist, DeclaratorPhrase.listLexemes, ← List.append_assoc, hl]
    rw [hl] at h
    exact Specifier.takes_type type (type.goesBefore_cons .. ▸ h) hstarts
  have hnone : (storage.list.map Specifier.storage ++ before.list.map Specifier.qualifier).any
      Specifier.isType = false := by
    simp [Specifier.isType]
  have hstorage := Specifier.takes_words storage Specifier.read?_storage (fun _ => rfl) false
    (before.lexemes ++ (type.lexemes ++
      (after.lexemes ++ (w.lexemes ++ DeclaratorPhrase.listLexemes core others))))
  have hfront := hstorage.append (hqualifiers before _ _)
  have htyped := hfront.append (by rwa [hnone])
  have hafter := htyped.append (hqualifiers after _ _)
  have hall := hafter.append (hqualifiers w _ _)
  simpa [specifiers] using hall

theorem any_isType_specifiers (storage : Words Keyword.isStorage)
    (before : Words Keyword.isQualifier) (type : TypePhrase) (after : List Keyword) :
    (specifiers storage before type after).any Specifier.isType := by
  simp [specifiers, type.any_isType_specifiers]

theorem filterMap_bodyView? (storage : Words Keyword.isStorage)
    (before : Words Keyword.isQualifier) (type : TypePhrase) (after : List Keyword) :
    (specifiers storage before type after).filterMap Specifier.bodyView? =
      type.bodyView?.toList := by
  have hnone : ∀ (f : Keyword → Specifier) (ks : List Keyword),
      (∀ k, (f k).bodyView? = none) → (ks.map f).filterMap Specifier.bodyView? = [] :=
    fun f ks hf => by
      rw [List.filterMap_map, List.filterMap_eq_nil_iff]
      exact fun k _ => hf k
  rw [specifiers, List.filterMap_append, List.filterMap_append, List.filterMap_append,
    hnone _ _ fun _ => rfl, hnone _ _ fun _ => rfl, hnone _ _ fun _ => rfl,
    type.filterMap_bodyView?, List.append_nil]
  rfl

theorem storage_of_specifiers {d : Specifiers} {after : List Keyword}
    (h : d.list = specifiers storage before type after) : d.storage = storage.list := by
  rw [Specifiers.storage, h]
  have hnone : ∀ ks : List Keyword, ks.filterMap (fun _ => (none : Option Keyword)) = [] :=
    fun ks => List.filterMap_eq_nil_iff.mpr fun _ _ => rfl
  simp only [specifiers, List.filterMap_append, List.filterMap_map, Function.comp_def,
    List.filterMap_some, hnone, List.append_nil]
  cases type <;> simp [TypePhrase.specifiers]

-- What is to be known of the specifiers of a declaration, of which `core` and `others` are the
-- declarators.
structure Specified (storage : Words Keyword.isStorage) (type : TypePhrase)
    (core : DeclaratorPhrase) (others : List DeclaratorPhrase) (d : Specifiers) : Prop where
  rest : d.rest.lexemes = DeclaratorPhrase.listLexemes core others
  storage : d.storage = storage.list
  body : d.body.map TagBody.view = type.bodyView?

theorem exists_specified (h : type.goesBefore (after.lexemes ++ first.lexemes)) {s : Stretch}
    (hs : s.lexemes = (DeclPhrase.mk storage before type after first others).lexemes) :
    ∃ d core, Specifiers.read? s = some d ∧ core.Agrees first ∧
      Specified storage type core others d := by
  obtain ⟨w, core, ha, hlist, htakes, hend⟩ := exists_readAll storage before others h
  have hlexemes : s.lexemes =
      (storage.lexemes ++ before.lexemes ++ type.lexemes ++ after.lexemes ++ w.lexemes) ++
        DeclaratorPhrase.listLexemes core others := by
    rw [hs, lexemes, hlist]
    simp only [List.append_assoc]
  have hall : Specifier.readAll false s.lexemes =
      specifiers storage before type (after.list ++ w.list) := by
    have htyped := any_isType_specifiers storage before type (after.list ++ w.list)
    rw [hlexemes, htakes.readAll, htyped, Bool.or_true, hend, List.append_nil]
  have hread := Specifiers.read?_eq_some hall (any_isType_specifiers ..)
  refine ⟨_, core, hread, ha, ?_, ?_, ?_⟩
  · simp only [Stretch.drop, htakes.totalSize]
    rw [hlexemes, List.drop_left]
  · exact storage_of_specifiers rfl
  · rw [Specifiers.view_bodyFrom, filterMap_bodyView?]
    cases type.bodyView? <;> rfl

end DeclPhrase
end CLint
