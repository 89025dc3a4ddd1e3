import CLint.Outline
import CLint.Proofs.Attributes.Members
import CLint.Proofs.Declaring.Statement
import CLint.Proofs.Join.Blocks

namespace CLint

open Code Scan

theorem Batch.records_batch (m : Move) (bs : List Batch) :
    records (bs.map m.batch) = records bs := by
  simp only [records, List.flatMap_map, Move.batch, ← List.map_flatMap, List.map_map]
  rfl

namespace Stmt

variable {ls rest : List Lexeme}

-- What statements and all statements in them declare.
def records (ss : List Stmt) : List Record :=
  Batch.records ((listSites 0 ss).flatMap Site.batches)

-- It does not matter where the statements are.
theorem records_listSites (start : Nat) (ss : List Stmt) :
    Batch.records ((listSites start ss).flatMap Site.batches) = records ss := by
  let m : Move := ⟨0, 0, start, 0⟩
  have hsites : listSites start ss = (listSites 0 ss).map m.site := by
    rw [← listSites_add, Nat.zero_add]
  rw [hsites, List.flatMap_map]
  simp only [Site.batches_site]
  rw [← List.map_flatMap, Batch.records_batch, records]

theorem records_cons (s : Stmt) (ss : List Stmt) :
    records (s :: ss) = records [s] ++ records ss := by
  rw [records, listSites, List.flatMap_append, Batch.records_append, records_listSites]
  simp [records, listSites]

theorem records_block (ss : List Stmt) (closed : Bool) :
    records [block ss closed] = records ss := by
  rw [← records_listSites 1 ss]
  simp [records, listSites, sites, Site.batches]

theorem records_simple (atFile : Bool) (l : Lexeme) (text : List Lexeme) (ended : Bool) :
    records [simple atFile l text ended] = Batch.records
      (Batch.ofDeclaration none (if atFile then .file else .block) ⟨0, l :: text⟩) := by
  simp [records, listSites, sites, Site.batches]

end Stmt

namespace Code

variable {l : Lexeme} {ls rest : List Lexeme}

-- What the code of a file declares.
def records (ls : List Lexeme) : List Record :=
  Stmt.records (Stmt.readFile ls)

theorem records_of_reads {s : Stmt} (h : Stmt.Reads (.stmt true) (l :: ls) [s] rest) :
    records (l :: ls) = Stmt.records [s] ++ records rest := by
  obtain ⟨hvalue, hrest⟩ := Stmt.reads_iff.mp h
  rw [records, Stmt.readFile, hvalue, hrest, Stmt.records_cons, records]

theorem records_statement (h : Crosses (l :: ls)) (hp : l.isPlain) (rest : List Lexeme) :
    records (l :: ls ++ .punct .semicolon :: rest) =
      Batch.records (Batch.ofDeclaration none .file ⟨0, l :: ls⟩) ++ records rest := by
  have hread := Stmt.readText_of_crosses h rest
  have hfunction : Stmt.startsFunction true l ls true rest = false := rfl
  rw [List.cons_append, records_of_reads (.simple hp rfl hread hfunction), Stmt.records_simple,
    if_pos rfl]

theorem records_block {ss : List Stmt} (h : Stmt.Reads .block ls [.block ss true] rest) :
    records (.punct .lbrace :: ls) = Stmt.records ss ++ records rest := by
  rw [records_of_reads (.block h), Stmt.records_block]

end Code

-- Fields as the statements of a block.
theorem DeclPhrase.exists_reads {list : List DeclPhrase} (hp : listProper list)
    (hb : list.all isBraceless) (rest : List Lexeme) : ∃ ss,
      Stmt.Reads .block (listLexemes list ++ .punct .rbrace :: rest) [.block ss true] rest ∧
      Stmt.records ss = (list.flatMap (·.entries none .block)).map Entry.record := by
  induction list with
  | nil => exact ⟨[], by rw [listLexemes]; exact .blockClose, rfl⟩
  | cons d list ih =>
    rw [listProper, Bool.and_eq_true] at hp
    rw [List.all_cons, Bool.and_eq_true] at hb
    obtain ⟨ss, hreads, hss⟩ := ih hp.2 hb.2
    obtain ⟨l, ls, hl, hplain, hlabel⟩ := d.exists_lexemes
    have hread := Stmt.readText_of_crosses (hl ▸ crosses_of_isBraceless hb.1)
      (listLexemes list ++ .punct .rbrace :: rest)
    have hitem : Stmt.Reads (.stmt false) _ _ _ :=
      .simple hplain (by rw [hlabel]; rfl) hread rfl
    have hne : l ≠ .punct .rbrace := by
      rintro rfl
      cases hplain
    have hdeclared := Entry.map_record
      (forall₂_ofDeclaration d hp.1 (s := ⟨0, l :: ls⟩) hl.symm none .block)
    refine ⟨.simple false l ls true :: ss, ?_, ?_⟩
    · rw [listLexemes, hl]
      simpa using Stmt.Reads.blockItem hne hitem hreads
    · rw [Stmt.records_cons, hss, Stmt.records_simple, List.flatMap_cons, List.map_append]
      exact congrArg (· ++ _) hdeclared

namespace Enumerator

-- Enumerators begin with a name, behind which there is neither what would make it the name of a
-- type nor what would make it a label.
theorem exists_lexemes (list : List Enumerator) (last : Option Enumerator) :
    (TagContent.enumerators list last).lexemes = [] ∨ ∃ (name : PlainName) (ls : List Lexeme),
      (TagContent.enumerators list last).lexemes = .identifier name.text :: ls ∧
      Specifier.isTypeName false ls = false ∧
      ∀ rest, Stmt.startsLabel (.identifier name.text) (ls ++ .punct .rbrace :: rest) = false := by
  cases list with
  | nil =>
    cases last with
    | none => exact .inl rfl
    | some e =>
      obtain ⟨name, value⟩ := e
      refine .inr ⟨name, ValuePhrase.optional .assign value, ?_, ?_, ?_⟩
      · simp [TagContent.lexemes, lexemes]
      all_goals cases value <;> simp [ValuePhrase.optional, Specifier.isTypeName,
        Stmt.startsLabel, Lexeme.isIdentifier, Lexeme.isMark, Lexeme.isQualifier]
  | cons e list =>
    obtain ⟨name, value⟩ := e
    refine .inr ⟨name, ValuePhrase.optional .assign value ++ .punct .comma ::
      (TagContent.enumerators list last).lexemes, TagContent.enumerators_cons .., ?_, ?_⟩
    all_goals cases value <;> simp [ValuePhrase.optional, Specifier.isTypeName, Stmt.startsLabel,
      Lexeme.isIdentifier, Lexeme.isMark, Lexeme.isQualifier]

-- Enumerators as the statements of a block. They name no type, so that they declare nothing.
theorem exists_reads (list : List Enumerator) (last : Option Enumerator) (rest : List Lexeme) :
    ∃ ss, Stmt.Reads .block ((TagContent.enumerators list last).lexemes ++ .punct .rbrace :: rest)
      [.block ss true] rest ∧ Stmt.records ss = [] := by
  have hcrosses := TagContent.crosses_enumerators list last
  rcases exists_lexemes list last with hnil | ⟨name, ls, hcode, htype, hlabel⟩
  · exact ⟨[], by rw [hnil]; exact .blockClose, rfl⟩
  · rw [hcode] at hcrosses ⊢
    have hnone : Specifiers.read? ⟨0, .identifier name.text :: ls⟩ = none := by
      rw [Specifiers.read?, DeclaratorPhrase.readAll_name name htype]
      rfl
    have hitem : Stmt.Reads (.stmt false) _ _ _ :=
      .simple rfl (by rw [hlabel]; rfl) (Stmt.readText_rbrace hcrosses rest) rfl
    refine ⟨_, Stmt.Reads.blockItem (fun h => by cases h) hitem .blockClose, ?_⟩
    rw [Stmt.records_simple, Batch.ofDeclaration_of_none hnone]
    rfl

end Enumerator

theorem TagContent.exists_reads (c : TagContent) (hc : c.isProper) (rest : List Lexeme) :
    ∃ ss, Stmt.Reads .block (c.lexemes ++ .punct .rbrace :: rest) [.block ss true] rest ∧
      Stmt.records ss = c.locals := by
  cases c with
  | fields aggregate list =>
    rw [isProper, Bool.and_eq_true] at hc
    exact DeclPhrase.exists_reads hc.1 hc.2 rest
  | enumerators list last => exact Enumerator.exists_reads list last rest

end CLint
