import CLint.Proofs.Declaring.Scanning

namespace CLint

open Code Scan

-- What the parts of a declaration are made of outside of all brackets.
def Lexeme.IsInner (l : Lexeme) : Prop :=
  l ≠ .punct .comma ∧ l ≠ .punct .semicolon

namespace Code

variable {p : Lexeme → Prop} {ls : List Lexeme}

-- A lexeme that is nothing but itself to a reader of nested code.
structure IsSimple (l : Lexeme) : Prop where
  opens : l.closer? = none
  closes : l.closes = false
  inner : l.IsInner

theorem isSimple_keyword (k : Keyword) : IsSimple (.keyword k) :=
  ⟨rfl, rfl, nofun, nofun⟩

theorem isSimple_identifier (name : String) : IsSimple (.identifier name) :=
  ⟨rfl, rfl, nofun, nofun⟩

theorem isSimple_of_isPointerPart {l : Lexeme} (h : DeclaratorHead.isPointerPart l) :
    IsSimple l := by
  unfold DeclaratorHead.isPointerPart at h
  rcases Bool.or_eq_true_iff.mp h with h | h
  · rw [of_decide_eq_true h]
    exact ⟨rfl, rfl, nofun, nofun⟩
  · cases l <;> first | exact isSimple_keyword _ | cases h

theorem Nested.of_isSimple (h : ∀ l ∈ ls, IsSimple l) : Nested Lexeme.IsInner ls := by
  induction ls with
  | nil => exact .nil
  | cons l ls ih =>
    obtain ⟨hl, hls⟩ := List.forall_mem_cons.mp h
    exact .plain hl.opens hl.closes hl.inner (ih hls)

theorem crosses_of_isSimple (h : ∀ l ∈ ls, IsSimple l) : Crosses ls := by
  induction ls with
  | nil => exact .nil
  | cons l ls ih =>
    obtain ⟨hl, hls⟩ := List.forall_mem_cons.mp h
    exact .append (.singleton hl.opens hl.closes hl.inner.2) (ih hls)

end Code

theorem Words.isSimple {p : Keyword → Bool} (w : Words p) : ∀ l ∈ w.lexemes, IsSimple l := by
  intro l hl
  obtain ⟨k, _, rfl⟩ := List.mem_map.mp hl
  exact isSimple_keyword k

theorem Code.isSimple_tagged (k : Keyword) (tag : Option String) :
    ∀ l ∈ .keyword k :: (tag.map .identifier).toList, IsSimple l := by
  refine List.forall_mem_cons.mpr ⟨isSimple_keyword _, fun l hl => ?_⟩
  obtain ⟨name, _, rfl⟩ := Option.map_eq_some_iff.mp (Option.mem_toList.mp hl)
  exact isSimple_identifier name

theorem Aggregate.isSimple (aggregate : Aggregate) (tag : Option String) :
    ∀ l ∈ aggregate.lexemes tag, IsSimple l :=
  isSimple_tagged aggregate.word tag

theorem Aggregate.isTag_word (aggregate : Aggregate) : aggregate.word.isTag := by
  cases aggregate <;> rfl

theorem Content.nested_lexemes (c : Content) : Nested (fun _ => True) c.lexemes :=
  nested_of_isNested c.nested fun _ _ => trivial

theorem ValuePhrase.nested_lexemes (v : ValuePhrase) : Nested Lexeme.IsInner v.lexemes :=
  nested_of_isNested v.nested v.whole

theorem Dimension.nested_code (d : Dimension) : Nested Lexeme.IsInner d.code :=
  .enclosed rfl d.nested_lexemes

theorem Dimension.crosses_code (d : Dimension) : Crosses d.code :=
  .enclosed rfl nofun d.nested_lexemes

theorem ValuePhrase.nested_optional {mark : Punct} (h : IsSimple (.punct mark))
    (v : Option ValuePhrase) : Nested Lexeme.IsInner (optional mark v) := by
  cases v with
  | none => exact .nil
  | some v => exact .plain h.opens h.closes h.inner v.nested_lexemes

theorem ValuePhrase.crosses_optional (v : Option ValuePhrase) : Crosses (optional .assign v) := by
  cases v with
  | none => exact .nil
  | some v => exact .assigned v.nested_lexemes fun _ h => h.2

-- Is there no brace in a width? One would stop a scan outside of all brackets.
def ValuePhrase.isBraceless (v : Option ValuePhrase) : Bool :=
  v.all fun v => v.lexemes.all (!·.isMark .lbrace)

theorem ValuePhrase.crosses_width {v : Option ValuePhrase} (h : isBraceless v) :
    Crosses (optional .colon v) := by
  cases v with
  | none => exact .nil
  | some v =>
    have hcolon : Crosses [.punct .colon] := .singleton rfl rfl nofun
    refine hcolon.append (.braceless v.nested_lexemes (fun _ h => h.2) fun l hl => ?_)
    simpa [Lexeme.isMark] using List.all_eq_true.mp h l hl

namespace Phrase

variable {p q : Lexeme → Prop} {ls : List Lexeme}

theorem nested_inParens (h : Nested p ls) : Nested q (inParens ls) :=
  .enclosed rfl h

theorem crosses_inParens (h : Nested p ls) : Crosses (inParens ls) :=
  .enclosed rfl nofun h

end Phrase

namespace DeclaratorPhrase

theorem nested_dimensions (ds : List Dimension) :
    Nested Lexeme.IsInner (ds.flatMap Dimension.code) := by
  induction ds with
  | nil => exact .nil
  | cons d ds ih => exact .append d.nested_code ih

theorem crosses_dimensions (ds : List Dimension) : Crosses (ds.flatMap Dimension.code) := by
  induction ds with
  | nil => exact .nil
  | cons d ds ih => exact .append d.crosses_code ih

theorem nested_suffix (dimensions : List Dimension) (width value : Option ValuePhrase) :
    Nested Lexeme.IsInner (suffix dimensions width value) := by
  have hcolon : IsSimple (.punct .colon) := ⟨rfl, rfl, nofun, nofun⟩
  have hassign : IsSimple (.punct .assign) := ⟨rfl, rfl, nofun, nofun⟩
  exact ((nested_dimensions dimensions).append (ValuePhrase.nested_optional hcolon width)).append
    (ValuePhrase.nested_optional hassign value)

-- The name of a pointer to a function, with its star.
theorem nested_starred (name : String) :
    Nested Lexeme.IsInner [.punct .star, .identifier name] :=
  .of_isSimple <| List.forall_mem_cons.mpr
    ⟨isSimple_of_isPointerPart rfl, List.forall_mem_singleton.mpr (isSimple_identifier name)⟩

theorem nested_lexemes (d : DeclaratorPhrase) : Nested Lexeme.IsInner d.lexemes := by
  cases d with
  | plain lead h name dimensions width value =>
    refine .append (.of_isSimple fun l hl => isSimple_of_isPointerPart (h l hl)) ?_
    exact .plain rfl rfl ⟨nofun, nofun⟩ (nested_suffix dimensions width value)
  | pointer name parameters =>
    exact (Phrase.nested_inParens (nested_starred name.text)).append
      (Phrase.nested_inParens parameters.nested_lexemes)

theorem isBraceless_of_isNone {width : Option ValuePhrase} (h : width.isNone) :
    ValuePhrase.isBraceless width := by
  cases Option.isNone_iff_eq_none.mp h
  rfl

theorem crosses_lexemes (d : DeclaratorPhrase) (hw : ValuePhrase.isBraceless d.width) :
    Crosses d.lexemes := by
  cases d with
  | plain lead h name dimensions width value =>
    have hlead := crosses_of_isSimple fun l hl => isSimple_of_isPointerPart (h l hl)
    have hname : Crosses [.identifier name.text] := .singleton rfl rfl nofun
    have hsuffix : Crosses (suffix dimensions width value) :=
      ((crosses_dimensions dimensions).append (ValuePhrase.crosses_width hw)).append
        (ValuePhrase.crosses_optional value)
    exact hlead.append (hname.append hsuffix)
  | pointer name parameters =>
    exact (Phrase.crosses_inParens (nested_starred name.text)).append
      (Phrase.crosses_inParens parameters.nested_lexemes)

theorem nested_listLexemes (first : DeclaratorPhrase) (others : List DeclaratorPhrase) :
    Nested (· ≠ .punct .semicolon) (listLexemes first others) := by
  refine .append (first.nested_lexemes.mono fun _ h => h.2) ?_
  induction others with
  | nil => exact .nil
  | cons o os ih =>
    exact .plain rfl rfl nofun ((o.nested_lexemes.mono fun _ h => h.2).append ih)

theorem crosses_listLexemes {first : DeclaratorPhrase} {others : List DeclaratorPhrase}
    (hw : (first :: others).all (ValuePhrase.isBraceless ·.width)) :
    Crosses (listLexemes first others) := by
  rw [List.all_cons, Bool.and_eq_true] at hw
  refine .append (first.crosses_lexemes hw.1) ?_
  induction others with
  | nil => exact .nil
  | cons o os ih =>
    have hos := hw.2
    rw [List.all_cons, Bool.and_eq_true] at hos
    have hcomma : Crosses [.punct .comma] := .singleton rfl rfl nofun
    exact hcomma.append ((o.crosses_lexemes hos.1).append (ih ⟨hw.1, hos.2⟩))

end DeclaratorPhrase

mutual

-- By induction on the grammar: all that a declaration consists of is properly nested.
theorem TypePhrase.nested_lexemes (type : TypePhrase) :
    Nested (· ≠ .punct .semicolon) type.lexemes := by
  cases type with
  | basic words h =>
    rw [TypePhrase.lexemes]
    exact (Nested.of_isSimple words.isSimple).mono fun _ h => h.2
  | named name =>
    rw [TypePhrase.lexemes]
    exact .singleton rfl rfl nofun
  | tagged aggregate tag =>
    rw [TypePhrase.lexemes]
    exact (Nested.of_isSimple (aggregate.isSimple tag)).mono fun _ h => h.2
  | body aggregate tag members =>
    rw [TypePhrase.lexemes]
    have haggregate := (Nested.of_isSimple (aggregate.isSimple tag)).mono fun _ h => h.2
    have hmembers : Nested (· ≠ .punct .semicolon)
        (.punct .lbrace :: DeclPhrase.listLexemes members ++ [.punct .rbrace]) :=
      .enclosed rfl (DeclPhrase.nested_listLexemes members)
    simpa using haggregate.append hmembers

theorem DeclPhrase.nested_lexemes (d : DeclPhrase) :
    Nested (· ≠ .punct .semicolon) d.lexemes := by
  obtain ⟨storage, before, type, after, first, others⟩ := d
  rw [DeclPhrase.lexemes]
  have hstorage := (Nested.of_isSimple storage.isSimple).mono fun _ h => h.2
  have hbefore := (Nested.of_isSimple before.isSimple).mono fun _ h => h.2
  have hafter := (Nested.of_isSimple after.isSimple).mono fun _ h => h.2
  exact (((hstorage.append hbefore).append type.nested_lexemes).append hafter).append
    (DeclaratorPhrase.nested_listLexemes first others)

theorem DeclPhrase.nested_listLexemes (ds : List DeclPhrase) :
    Nested (fun _ => True) (DeclPhrase.listLexemes ds) := by
  cases ds with
  | nil => exact .nil
  | cons d ds =>
    rw [DeclPhrase.listLexemes]
    refine .append (d.nested_lexemes.mono fun _ _ => trivial) ?_
    exact .plain rfl rfl trivial (DeclPhrase.nested_listLexemes ds)

end

-- A brace behind a tag, or where one could be, does not stop a scan.
theorem Scan.crosses_tagged {p : Lexeme → Prop} {ls : List Lexeme} {k : Keyword} (hk : k.isTag)
    (tag : Option String) (h : Nested p ls) :
    Crosses (.keyword k :: (tag.map .identifier).toList ++
      (.punct .lbrace :: ls ++ [.punct .rbrace])) := by
  intro s hs
  obtain ⟨hpass, htop⟩ := crosses_of_isSimple (isSimple_tagged k tag) s hs
  have htag : ((.keyword k :: (tag.map Lexeme.identifier).toList).foldl step s).tag ≠ .none := by
    cases tag <;> simp [step, tagStep, Lexeme.isTag, hk, Lexeme.isIdentifier]
  have hstop : ((.keyword k :: (tag.map Lexeme.identifier).toList).foldl step s).stopsAt
      (.punct .lbrace) = false := by
    rw [stopsAt, decide_eq_false htag, Bool.and_false]
  obtain ⟨hbody, hend⟩ := passes_enclosed htop hstop rfl h
  rw [passes_append, hpass, hbody, List.foldl_append]
  exact ⟨rfl, hend⟩

theorem TypePhrase.crosses_lexemes (type : TypePhrase) : Crosses type.lexemes := by
  cases type with
  | basic words h =>
    rw [TypePhrase.lexemes]
    exact crosses_of_isSimple words.isSimple
  | named name =>
    rw [TypePhrase.lexemes]
    exact .singleton rfl rfl nofun
  | tagged aggregate tag =>
    rw [TypePhrase.lexemes]
    exact crosses_of_isSimple (aggregate.isSimple tag)
  | body aggregate tag members =>
    rw [TypePhrase.lexemes, List.append_assoc]
    exact crosses_tagged aggregate.isTag_word tag (DeclPhrase.nested_listLexemes members)

namespace DeclPhrase

-- Has none of the declarators a width with a brace in it?
def isBraceless : DeclPhrase → Bool
  | ⟨_, _, _, _, first, others⟩ => (first :: others).all (ValuePhrase.isBraceless ·.width)

theorem crosses_of_isBraceless {d : DeclPhrase} (hd : d.isBraceless) : Crosses d.lexemes := by
  obtain ⟨storage, before, type, after, first, others⟩ := d
  rw [lexemes]
  have hstorage := crosses_of_isSimple storage.isSimple
  have hbefore := crosses_of_isSimple before.isSimple
  have hafter := crosses_of_isSimple after.isSimple
  exact (((hstorage.append hbefore).append type.crosses_lexemes).append hafter).append
    (DeclaratorPhrase.crosses_listLexemes hd)

theorem crosses_lexemes {d : DeclPhrase} (hd : d.isProper false) : Crosses d.lexemes := by
  refine crosses_of_isBraceless ?_
  obtain ⟨storage, before, type, after, first, others⟩ := d
  simp only [isProper, Bool.false_or, Bool.and_eq_true] at hd
  refine List.all_eq_true.mpr fun o ho => ?_
  exact DeclaratorPhrase.isBraceless_of_isNone (List.all_eq_true.mp hd.1.1 o ho)

-- A declaration is read as the text of one statement, up to its semicolon.
theorem readText_lexemes {d : DeclPhrase} (hd : d.isProper false) {l : Lexeme}
    {ls : List Lexeme} (hl : d.lexemes = l :: ls) (rest : List Lexeme) :
    Stmt.readText l (ls ++ .punct .semicolon :: rest) = (ls, true, rest) :=
  Stmt.readText_of_crosses (hl ▸ crosses_lexemes hd) rest

end DeclPhrase
end CLint
