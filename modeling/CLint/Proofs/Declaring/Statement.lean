import CLint.Proofs.Declaring.Specifiers
import CLint.Proofs.Reading
import CLint.Proofs.Within.Declaration

namespace CLint

-- The batches of declarations that the code of a file makes, where its first lexeme has the number
-- `start`.
def Batch.ofCode (start : Nat) (ls : List Lexeme) : List Batch :=
  (Stmt.listSites start (Stmt.readFile ls)).flatMap Site.batches

namespace Scan

-- Outside of everything, a lexeme that changes nothing.
def IsIdle (l : Lexeme) : Prop :=
  stopsAt {} l = false ∧ step {} l = {}

variable {front : List Lexeme}

theorem isIdle_keyword {k : Keyword} (h : k.isTag = false) : IsIdle (.keyword k) :=
  ⟨rfl, by simp [step, tagStep, Lexeme.isTag, h, Lexeme.isIdentifier]⟩

theorem isIdle_identifier (name : String) : IsIdle (.identifier name) :=
  ⟨rfl, by simp [step, tagStep, Lexeme.isTag]⟩

theorem isIdle_storage (storage : Words Keyword.isStorage) : ∀ l ∈ storage.lexemes, IsIdle l := by
  intro l hl
  obtain ⟨k, hk, rfl⟩ := List.mem_map.mp hl
  have hk := storage.all k hk
  exact isIdle_keyword (by cases k <;> first | rfl | cases hk)

theorem passes_of_isIdle (h : ∀ l ∈ front, IsIdle l) :
    passes {} front ∧ front.foldl step {} = {} := by
  induction front with
  | nil => exact ⟨rfl, rfl⟩
  | cons l front ih =>
    obtain ⟨⟨hstop, hstep⟩, hfront⟩ := List.forall_mem_cons.mp h
    obtain ⟨hpass, hfold⟩ := ih hfront
    rw [passes, List.foldl_cons, hstep, hstop, hpass, hfold]
    exact ⟨rfl, rfl⟩

end Scan

namespace Stmt

theorem readText_of_isIdle {l : Lexeme} {front : List Lexeme}
    (h : ∀ m ∈ l :: front, Scan.IsIdle m) (ls : List Lexeme) :
    readText l (front ++ ls) = (front ++ (Scan.read {} ls).1, semicolon (Scan.read {} ls).2) := by
  obtain ⟨hpass, hfold⟩ := Scan.passes_of_isIdle h
  exact readText_of_passes hpass hfold ls

variable {l : Lexeme} {ls text rest : List Lexeme} {ended : Bool} {start : Nat}

-- What is declared by a statement at the front of a file, and by what follows it.
theorem ofCode_simple (hp : l.isPlain) (ht : readText l ls = (text, ended, rest))
    (hf : startsFunction true l text ended rest = false) (start : Nat) :
    Batch.ofCode start (l :: ls) =
      Batch.ofDeclaration none .file ⟨start, l :: text⟩ ++
        Batch.ofCode (start + (text.length + 1 + ended.toNat)) rest := by
  have hread : Reads (.stmt true) (l :: ls) [simple true l text ended] rest := .simple hp rfl ht hf
  obtain ⟨hvalue, hrest⟩ := reads_iff.mp hread
  have hsites : sites start (simple true l text ended) = [⟨start, simple true l text ended⟩] := rfl
  rw [Batch.ofCode, readFile, hvalue, hrest, listSites, List.flatMap_append, hsites,
    List.flatMap_singleton]
  rfl

theorem size_function (header : List Lexeme) (body : Stmt) :
    (function header body).size = header.length + body.size := by
  rw [size]

theorem ofCode_function {more : List Lexeme} (hp : l.isPlain)
    (ht : readText l ls = (text, false, .punct .lbrace :: more))
    (hd : Batch.definesFunction ⟨0, l :: text⟩) (start : Nat) :
    let items := readItems more
    let body : Stmt := .block items.value.1 items.value.2
    let place := start + (l :: text).length
    Batch.ofCode start (l :: ls) = (sites place body).flatMap Site.batches ++
      Batch.ofFunction ⟨start, l :: text⟩ ⟨place, place + body.size - 1⟩ ++
      Batch.ofCode (place + body.size) items.rest := by
  intro items body place
  obtain ⟨hvalue, hrest⟩ := Prod.ext_iff.mp (run_function hp ht hd)
  simp only [Part.run, List.cons.injEq, and_true] at hvalue hrest
  have hvalue : (read true l ls).value = function (l :: text) body := hvalue
  have hstop : start + (function (l :: text) body).size = place + body.size := by
    rw [size_function, ← Nat.add_assoc]
  rw [Batch.ofCode, readFile, hvalue, hrest, listSites, hstop, List.flatMap_append, sites,
    List.flatMap_append, List.flatMap_singleton]
  rfl

end Stmt
end CLint
