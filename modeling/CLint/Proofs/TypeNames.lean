import CLint.Outline
import CLint.Proofs.Declaring.Recording
import CLint.Proofs.Declaring.Statement
import CLint.Proofs.Declaring.Whole

namespace CLint

open Scan

-- All that is known of a declaration but the spelling of its type.
def Declaration.untyped {σ : Type} (d : Declaration σ) : Declaration σ :=
  { d with typeText := "" }

def Batch.untyped (b : Batch) : Batch :=
  { b with declarations := b.declarations.map Declaration.untyped }

namespace Specifiers

-- Specifiers that only differ in how the type is called.
structure Agrees (d e : Specifiers) : Prop where
  rest : d.rest = e.rest
  body : d.body = e.body
  storage : d.storage = e.storage
  isConst : d.isConst = e.isConst

theorem readAll_storage (storage : Words Keyword.isStorage) (rest : List Lexeme) :
    Specifier.readAll false (storage.lexemes ++ rest) =
      storage.list.map .storage ++ Specifier.readAll false rest := by
  have htakes := Specifier.takes_words storage Specifier.read?_storage (fun _ => rfl) false rest
  have hnone : (storage.list.map Specifier.storage).any Specifier.isType = false := by
    simp [Specifier.isType]
  rw [htakes.readAll, hnone, Bool.or_false]

theorem bodyFrom_congr (start : Nat) (front : List Keyword) (k : Keyword) (name : String)
    (ss : List Specifier) : bodyFrom start (front.map .storage ++ .basic k :: ss) =
      bodyFrom start (front.map .storage ++ .named name :: ss) := by
  induction front generalizing start with
  | nil => rfl
  | cons l front ih => simp only [List.map_cons, List.cons_append, bodyFrom, ih]

theorem totalSize_typed (storage : Words Keyword.isStorage) {x : Specifier}
    (hx : x.tailSize = 0) (ss : List Specifier) :
    Specifier.totalSize (storage.list.map .storage ++ x :: ss) =
      storage.lexemes.length + 1 + Specifier.totalSize ss := by
  have htakes := Specifier.takes_words storage Specifier.read?_storage (fun _ => rfl) false []
  rw [Specifier.totalSize_append, htakes.totalSize, Specifier.totalSize, Specifier.size, hx]
  omega

theorem drop_typed (storage : Words Keyword.isStorage) {x : Specifier} (hx : x.tailSize = 0)
    (ss : List Specifier) (l : Lexeme) (ls : List Lexeme) :
    (storage.lexemes ++ l :: ls).drop
      (Specifier.totalSize (storage.list.map .storage ++ x :: ss)) =
        ls.drop (Specifier.totalSize ss) := by
  rw [totalSize_typed storage hx, ← List.drop_drop, ← List.drop_drop, List.drop_left]
  rfl

variable {storage : Words Keyword.isStorage} {name : PlainName} {ls : List Lexeme}

theorem readAll_int (storage : Words Keyword.isStorage) (ls : List Lexeme) :
    Specifier.readAll false (storage.lexemes ++ .keyword .intKw :: ls) =
      storage.list.map .storage ++ .basic .intKw :: Specifier.readAll true ls := by
  rw [readAll_storage, Specifier.readAll]
  rfl

theorem readAll_named (storage : Words Keyword.isStorage) (h : Specifier.isTypeName false ls) :
    Specifier.readAll false (storage.lexemes ++ .identifier name.text :: ls) =
      storage.list.map .storage ++ .named name.text :: Specifier.readAll true ls := by
  have hread : Specifier.read? false (.identifier name.text) ls = some (.named name.text) := by
    simp [Specifier.read?, name.plain, h]
  rw [readAll_storage, Specifier.readAll, hread]
  rfl

-- The name of a type is as good as a keyword if it is taken for that of a type.
theorem exists_agrees (start : Nat) (storage : Words Keyword.isStorage)
    (h : Specifier.isTypeName false ls) : ∃ d e,
      read? ⟨start, storage.lexemes ++ .keyword .intKw :: ls⟩ = some d ∧
      read? ⟨start, storage.lexemes ++ .identifier name.text :: ls⟩ = some e ∧ d.Agrees e := by
  have hread : read? ⟨start, storage.lexemes ++ .keyword .intKw :: ls⟩ = some _ :=
    read?_eq_some (readAll_int storage ls) (by simp [Specifier.isType])
  have hread' : read? ⟨start, storage.lexemes ++ .identifier name.text :: ls⟩ = some _ :=
    read?_eq_some (readAll_named storage h) (by simp [Specifier.isType])
  refine ⟨_, _, hread, hread', ?_, ?_, ?_, ?_⟩
  · simp only [Stretch.drop, Stretch.mk.injEq]
    constructor
    · rw [totalSize_typed (x := .basic .intKw) storage rfl,
        totalSize_typed (x := .named name.text) storage rfl]
    · rw [drop_typed (x := .basic .intKw) storage rfl,
        drop_typed (x := .named name.text) storage rfl]
  · exact bodyFrom_congr ..
  · simp [Specifiers.storage]
  · simp [Specifiers.isConst]

end Specifiers

namespace Batch

variable {container : Option Keyword} {scope : Scope} {s t : Stretch} {d e : Specifiers}

theorem untyped_declared (ha : d.Agrees e) (hs : s.start = t.start) :
    (declared container scope s d).untyped = (declared container scope t e).untyped := by
  have hdeclaration : ∀ first o, (declaration container scope d first o).untyped =
      (declaration container scope e first o).untyped := by
    intro first o
    have htypedef : d.isTypedef = e.isTypedef := by
      rw [Specifiers.isTypedef, ha.storage, Specifiers.isTypedef]
    simp only [Declaration.untyped, declaration, kindOf, Specifiers.storageTexts, ha.storage,
      ha.isConst, htypedef]
  simp only [untyped, declared, ha.rest, hs]
  cases Declarator.readAll e.rest with
  | nil => rfl
  | cons o os => simp [hdeclaration, Function.comp_def]

theorem untyped_ofDeclaration (hd : Specifiers.read? s = some d) (he : Specifiers.read? t = some e)
    (ha : d.Agrees e) (hs : s.start = t.start) :
    (ofDeclaration container scope s).map untyped =
      (ofDeclaration container scope t).map untyped := by
  have hmembers : members d = members e := by rw [members, ha.body, members]
  rw [ofDeclaration_of_some hd, ofDeclaration_of_some he, hmembers, List.map_append,
    List.map_append, List.map_singleton, List.map_singleton, untyped_declared ha hs]

theorem untyped_ofFunction {body : Run} (hd : Specifiers.read? s = some d)
    (he : Specifiers.read? t = some e) (ha : d.Agrees e) (hs : s.start = t.start) :
    (ofFunction s body).map untyped = (ofFunction t body).map untyped := by
  simp only [ofFunction, hd, he, ha.rest]
  cases Declarator.readAll e.rest with
  | nil => rfl
  | cons o os =>
    simp [untyped, Declaration.untyped, Specifiers.storageTexts, ha.storage, ha.isConst, hs]

theorem definesFunction_congr (hd : Specifiers.read? s = some d)
    (he : Specifiers.read? t = some e) (ha : d.Agrees e) (hl : s.last = t.last) :
    definesFunction s = definesFunction t := by
  simp [definesFunction, hd, he, ha.rest, hl]

end Batch
namespace Stmt

variable {storage : Words Keyword.isStorage} {t : Lexeme} {ls : List Lexeme} {start : Nat}

-- Storage words and one more lexeme at the front of a statement are nothing special to its reader.
theorem exists_readText (storage : Words Keyword.isStorage) (ht : t.isPlain) (hi : IsIdle t)
    (ls : List Lexeme) : ∃ x xs text, storage.lexemes ++ t :: ls = x :: xs ∧ x.isPlain ∧
      readText x xs = (text, semicolon (Scan.read {} ls).2) ∧
      x :: text = storage.lexemes ++ t :: (Scan.read {} ls).1 ∧
      text.length = storage.lexemes.length + (Scan.read {} ls).1.length := by
  have hstorage := isIdle_storage storage
  obtain ⟨ks, hks⟩ := storage
  cases ks with
  | nil =>
    have hidle : ∀ m ∈ [t], IsIdle m := List.forall_mem_singleton.mpr hi
    have hread := readText_of_isIdle hidle ls
    exact ⟨t, ls, _, rfl, ht, hread, rfl, by simp [Words.lexemes]⟩
  | cons k ks =>
    have hidle : ∀ m ∈ .keyword k :: (ks.map Lexeme.keyword ++ [t]), IsIdle m :=
      List.forall_mem_append.mpr ⟨hstorage, List.forall_mem_singleton.mpr hi⟩
    have hread := readText_of_isIdle hidle ls
    have hk := hks k List.mem_cons_self
    rw [← List.append_cons, ← List.append_cons] at hread
    refine ⟨.keyword k, ks.map .keyword ++ t :: ls, ks.map .keyword ++ t :: (Scan.read {} ls).1,
      rfl, ?_, hread, rfl, ?_⟩
    · cases k <;> first | rfl | cases hk
    · simp [Words.lexemes]
      omega

-- Two statements declare the same if their specifiers agree, and with them all that follows.
theorem untyped_ofCode {x x' : Lexeme} {xs xs' text text' rest : List Lexeme} {ended : Bool}
    (hp : x.isPlain) (hp' : x'.isPlain) (ht : readText x xs = (text, ended, rest))
    (ht' : readText x' xs' = (text', ended, rest)) (hlength : text.length = text'.length)
    (hd : ∀ start, ∃ d e, Specifiers.read? ⟨start, x :: text⟩ = some d ∧
      Specifiers.read? ⟨start, x' :: text'⟩ = some e ∧ d.Agrees e) (start : Nat) :
    (Batch.ofCode start (x :: xs)).map Batch.untyped =
      (Batch.ofCode start (x' :: xs')).map Batch.untyped := by
  have hstarts : startsFunction true x text ended rest =
      startsFunction true x' text' ended rest := by
    obtain ⟨d, e, hread, hread', ha⟩ := hd 0
    have hlast : Stretch.last ⟨0, x :: text⟩ = Stretch.last ⟨0, x' :: text'⟩ := by
      simp [Stretch.last, Stretch.length, hlength]
    rw [startsFunction, startsFunction, Batch.definesFunction_congr hread hread' ha hlast]
  obtain ⟨d, e, hread, hread', ha⟩ := hd start
  cases hf : startsFunction true x text ended rest with
  | false =>
    rw [ofCode_simple hp ht hf, ofCode_simple hp' ht' (hstarts ▸ hf), List.map_append,
      List.map_append, hlength, Batch.untyped_ofDeclaration hread hread' ha rfl]
  | true =>
    obtain ⟨-, hdefines, rfl, hrest⟩ := of_startsFunction hf
    obtain ⟨-, hdefines', -, -⟩ := of_startsFunction (hstarts ▸ hf)
    rw [hrest] at ht ht'
    rw [ofCode_function hp ht hdefines, ofCode_function hp' ht' hdefines']
    simp only [List.map_append, List.length_cons, hlength,
      Batch.untyped_ofFunction hread hread' ha rfl]

-- Before a name, a star or a qualifier, the name of a type is as good as `int`.
theorem untyped_ofCode_named (storage : Words Keyword.isStorage) (name : PlainName) {l : Lexeme}
    (hl : l.isIdentifier || DeclaratorHead.isPointerPart l) (ls : List Lexeme) (start : Nat) :
    (Batch.ofCode start (storage.lexemes ++ .keyword .intKw :: l :: ls)).map Batch.untyped =
      (Batch.ofCode start (storage.lexemes ++ .identifier name.text :: l :: ls)).map
        Batch.untyped := by
  obtain ⟨x, xs, text, hcode, hp, hread, hheader, hlength⟩ :=
    exists_readText storage (t := .keyword .intKw) rfl (isIdle_keyword rfl) (l :: ls)
  obtain ⟨x', xs', text', hcode', hp', hread', hheader', hlength'⟩ :=
    exists_readText storage (t := .identifier name.text) rfl (isIdle_identifier _) (l :: ls)
  have hnamed : Specifier.isTypeName false (Scan.read {} (l :: ls)).1 := by
    have hstop : stopsAt {} l = false := by
      cases l with
      | punct p => cases p <;> first | rfl | cases hl
      | _ => rfl
    simpa [Scan.read, hstop, Specifier.isTypeName, DeclaratorHead.isPointerPart] using hl
  rw [hcode, hcode']
  refine untyped_ofCode hp hp' hread hread' (hlength.trans hlength'.symm) (fun place => ?_) start
  rw [hheader, hheader']
  exact Specifiers.exists_agrees place storage hnamed

end Stmt

namespace DeclaratorPhrase

-- A pointer to a function is read as a declarator, and not as that of a function.
theorem exists_readAll_pointer (name : PlainName) (parameters : Content) {s : Stretch}
    {more : List Lexeme} (hs : s.lexemes = (pointer name parameters).lexemes ++ more) :
    ∃ d ds, Declarator.readAll s = d :: ds ∧ d.head.name = name.text ∧ d.list = none := by
  obtain ⟨piece, pieces, hcut⟩ := Code.exists_cut Lexeme.nesting .comma ((0 : Nat) : Int) more
  obtain ⟨t, ts, hsplit, ht, -⟩ := Stretch.exists_parts (pointer name parameters).nested_lexemes
    (fun _ h => h.1) (lexemes_ne_nil _) hs hcut
  rw [lexemes, List.append_assoc] at ht
  have hread := read?_of_head (read?_pointer name.text _ ht) rfl
  rw [Declarator.readAll, hsplit, List.filterMap_cons, hread]
  exact ⟨_, _, rfl, rfl, rfl⟩

end DeclaratorPhrase
namespace Specifiers

variable {storage : Words Keyword.isStorage} {name : PlainName} {l : Lexeme} {ls : List Lexeme}

-- A parenthesis is no specifier, and a name before one is no type.

theorem read?_int_lparen (start : Nat) (storage : Words Keyword.isStorage) (ls : List Lexeme) :
    ∃ d, read? ⟨start, storage.lexemes ++ .keyword .intKw :: .punct .lparen :: ls⟩ = some d ∧
      d.rest.lexemes = .punct .lparen :: ls ∧ d.body = none := by
  have hend : Specifier.readAll true (.punct .lparen :: ls) = [] := by
    rw [Specifier.readAll]
    rfl
  have hlist := readAll_int storage (.punct .lparen :: ls)
  rw [hend] at hlist
  refine ⟨_, read?_eq_some hlist (by simp [Specifier.isType]), ?_, ?_⟩
  · rw [Stretch.drop, drop_typed (x := .basic .intKw) storage rfl]
    rfl
  · refine Option.map_eq_none_iff.mp ((view_bodyFrom ..).trans ?_)
    simp [Specifier.bodyView?]

theorem read?_named_lparen (start : Nat) (storage : Words Keyword.isStorage) (name : PlainName)
    (ls : List Lexeme) :
    read? ⟨start, storage.lexemes ++ .identifier name.text :: .punct .lparen :: ls⟩ = none := by
  have hend : Specifier.readAll false (.identifier name.text :: .punct .lparen :: ls) = [] := by
    have htype : Specifier.isTypeName false (.punct .lparen :: ls) = false := rfl
    simp [Specifier.readAll, Specifier.read?, name.plain, htype]
  have hlist := readAll_storage storage (.identifier name.text :: .punct .lparen :: ls)
  rw [hend, List.append_nil] at hlist
  simp [read?, hlist, Specifier.isType]

end Specifiers

namespace Batch

-- Behind `int`, a pointer to a function is declared. Behind the name of a type nothing is, as that
-- is not taken for a type.
theorem exists_ofCode_pointer (storage : Words Keyword.isStorage) (name target : PlainName)
    (parameters : Content) (more : List Lexeme) (start : Nat) :
    let declarators := (DeclaratorPhrase.pointer target parameters).lexemes ++ more
    ∃ b : Batch, b.declarations.head?.map (·.name) = some target.text ∧
      ofCode start (storage.lexemes ++ .keyword .intKw :: declarators) =
        b :: ofCode start (storage.lexemes ++ .identifier name.text :: declarators) := by
  intro declarators
  obtain ⟨x, xs, text, hcode, hp, hread, hheader, hlength⟩ :=
    Stmt.exists_readText storage (t := .keyword .intKw) rfl (isIdle_keyword rfl) declarators
  obtain ⟨x', xs', text', hcode', hp', hread', hheader', hlength'⟩ :=
    Stmt.exists_readText storage (t := .identifier name.text) rfl (isIdle_identifier _) declarators
  -- The text of the statement goes on with the pointer, and so does what is read of it.
  obtain ⟨tail, htail⟩ : ∃ tail, (DeclaratorPhrase.pointer target parameters).lexemes =
      .punct .lparen :: tail := ⟨_, rfl⟩
  obtain ⟨hpass, -⟩ := (DeclaratorPhrase.pointer target parameters).crosses_lexemes rfl {} rfl
  have htext : (Scan.read {} declarators).1 = _ :=
    congrArg Prod.fst (read_append_of_passes hpass more)
  rw [htext, htail, List.cons_append] at hheader hheader'
  have hint : ∀ place, ∃ d first others, Specifiers.read? ⟨place, x :: text⟩ = some d ∧
      d.body = none ∧ Declarator.readAll d.rest = first :: others ∧
      first.head.name = target.text ∧ first.list = none := by
    intro place
    obtain ⟨d, hd, hrest, hbody⟩ := Specifiers.read?_int_lparen place storage _
    rw [← List.cons_append, ← htail] at hrest
    obtain ⟨first, others, hall, hname, hlist⟩ :=
      DeclaratorPhrase.exists_readAll_pointer target parameters hrest
    exact ⟨d, first, others, hheader ▸ hd, hbody, hall, hname, hlist⟩
  have hnamed : ∀ place, Specifiers.read? ⟨place, x' :: text'⟩ = none := fun place =>
    hheader' ▸ Specifiers.read?_named_lparen place storage name _
  have hdefines : definesFunction ⟨0, x :: text⟩ = false := by
    obtain ⟨d, first, others, hd, -, hall, -, hlist⟩ := hint 0
    simp [definesFunction, hd, hall, hlist]
  have hdefines' : definesFunction ⟨0, x' :: text'⟩ = false := by
    simp [definesFunction, hnamed]
  obtain ⟨d, first, others, hd, hbody, hall, hname, -⟩ := hint start
  refine ⟨declared none .file ⟨start, x :: text⟩ d, ?_, ?_⟩
  · simp [declared, hall, declaration, hname]
  · rw [hcode, hcode', Stmt.ofCode_simple hp hread (by simp [Stmt.startsFunction, hdefines]),
      Stmt.ofCode_simple hp' hread' (by simp [Stmt.startsFunction, hdefines']),
      ofDeclaration_of_some hd, ofDeclaration_of_none (hnamed start), hlength, hlength', members,
      hbody]
    rfl

-- In a declaration, the name of a type may stand for `int`, and but for the spelling of the type
-- the same is declared. Only where the first thing to be declared is a pointer to a function, that
-- whole declaration is lost, and nothing else.
theorem ofCode_typeName (storage : Words Keyword.isStorage) (name : PlainName) (start : Nat) :
    (∀ l : Lexeme, (l.isIdentifier || DeclaratorHead.isPointerPart l) → ∀ ls : List Lexeme,
      (ofCode start (storage.lexemes ++ .identifier name.text :: l :: ls)).map untyped =
        (ofCode start (storage.lexemes ++ .keyword .intKw :: l :: ls)).map untyped) ∧
    ∀ (target : PlainName) (parameters : Content) (more : List Lexeme),
      let declarators := (DeclaratorPhrase.pointer target parameters).lexemes ++ more
      ∃ b : Batch, b.declarations.head?.map (·.name) = some target.text ∧
        ofCode start (storage.lexemes ++ .keyword .intKw :: declarators) =
          b :: ofCode start (storage.lexemes ++ .identifier name.text :: declarators) :=
  ⟨fun _ hl ls => (Stmt.untyped_ofCode_named storage name hl ls start).symm,
    fun target parameters more =>
      exists_ofCode_pointer storage name target parameters more start⟩

-- A pointer, an array with a value, a prototype and a pointer to a function, in this order.
theorem ofCode_typeName_list :
    let storage : Words Keyword.isStorage := ⟨[.staticKw], by decide⟩
    let ls : List Lexeme := [.identifier "p", .punct .comma, .identifier "a", .punct .lbracket,
      .punct .rbracket, .punct .assign, .punct .lbrace, .number "0", .punct .rbrace, .punct .comma,
      .identifier "f", .punct .lparen, .keyword .voidKw, .punct .rparen, .punct .comma,
      .punct .lparen, .punct .star, .identifier "g", .punct .rparen, .punct .lparen,
      .punct .rparen, .punct .semicolon]
    ((Lexeme.punct .star).isIdentifier || DeclaratorHead.isPointerPart (.punct .star)) ∧
      (ofCode 0 (storage.lexemes ++ .identifier "uint8_t" :: .punct .star :: ls)).map untyped =
        (ofCode 0 (storage.lexemes ++ .keyword .intKw :: .punct .star :: ls)).map untyped := by
  intro storage ls
  exact ⟨rfl, (ofCode_typeName storage ⟨"uint8_t", rfl⟩ 0).1 (.punct .star) rfl ls⟩

theorem declarations_typeName_pointer :
    let o (text : String) := Outline.ofSource (.ofText "a.c" text)
    (o "typedef int (*bad)(int);\n").declarations.map (·.name) = ["bad"] ∧
      (o "typedef uint8_t (*bad)(int);\n").declarations = [] := by
  decide +kernel

end Batch
end CLint
