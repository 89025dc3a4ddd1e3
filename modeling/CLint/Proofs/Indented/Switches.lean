import CLint.Proofs.Indented.Seams

namespace CLint

-- The code of a line, with what the rôle of the line tells of its braces.
def LaidLine.hinted (l : LaidLine) : List Stmt.Hinted :=
  match l.role with
  | .opening isSwitch => l.row.code.map (·, some isSwitch)
  | _ => Stmt.unhinted l.row.code

theorem LaidLine.map_fst_hinted (l : LaidLine) : l.hinted.map Prod.fst = l.row.code := by
  unfold hinted
  split
  · simp [Function.comp_def]
  · exact Stmt.map_fst_unhinted _

-- Do all labels have their conditionals outside of brackets?
def LaidLine.choosesOpenly (l : LaidLine) : Bool :=
  match l.role with
  | .label label => label.choosesOpenly
  | _ => true

theorem HeaderRow.readGroup {word : Keyword} (r : HeaderRow word) (more : List Lexeme) :
    Stmt.readGroup (word = .forKw)
        (Stmt.groupLexemes (some ⟨r.inner, some (.punct .rparen)⟩) ++ more) =
      (some ⟨r.inner, some (.punct .rparen)⟩, more) :=
  Stmt.readGroup_enclosed r.nested r.enclosed more

namespace Laid

open Stmt

variable {width : Nat} {bs : List OpenBlock} {ls : List LaidLine}

-- A reader that comes to the end of a line finds the next one before it.
theorem seam (h : Laid Row.Heads width bs ls) (hl : ∀ l ∈ ls, l.choosesOpenly) :
    Seam bs.length (ls.flatMap LaidLine.hinted) := by
  induction h with
  | done => exact .done
  | function s h ih =>
    obtain ⟨l, text, hcode, hp, hread⟩ := s.exists_code
    have hseam := Seam.function hp hread (ih fun l hl' => hl l (by simp [hl']))
    simpa [LaidLine.hinted, hcode, Row.code_openBrace] using hseam
  | statement s h ih =>
    have htail : Code.IsTail 0 s.code := ⟨by simp [s.ended], [], s.nested, rfl⟩
    exact .tail htail (ih fun l hl' => hl l (List.mem_cons_of_mem _ hl'))
  | block h ih =>
    have hseam := Seam.block (ih fun l hl' => hl l (List.mem_cons_of_mem _ hl'))
    simpa [LaidLine.hinted, Row.code_openBrace] using hseam
  | headed hr h ih =>
    have ih := ih fun l hl' => hl l (by simp [hl'])
    cases hr with
    | @group word hw r =>
      have hword : decide (word = .switchKw) = false := by cases word <;> first | rfl | cases hw
      have hseam := Seam.headed (.inl hw) r.readGroup ih
      simpa [LaidLine.hinted, Row.code_openBrace, r.spelled, hword, groupLexemes_some] using hseam
    | switchOn r =>
      have hseam := Seam.headed (.inr rfl) r.readGroup ih
      simpa [LaidLine.hinted, Row.code_openBrace, r.spelled, groupLexemes_some] using hseam
    | elseWord =>
      simpa [LaidLine.hinted, Row.code_openBrace, Row.code_elseWord] using Seam.word (.inl rfl) ih
    | doWord =>
      simpa [LaidLine.hinted, Row.code_openBrace, Row.code_doWord] using Seam.word (.inr rfl) ih
  | @closing _ rest _ bs hr _ _ ls h ih =>
    have hclosed := ih fun l hl' => hl l (List.mem_cons_of_mem _ hl')
    have hseam : Seam bs.length (unhinted rest ++ ls.flatMap LaidLine.hinted) := by
      cases bs with
      | nil =>
        rw [hr.inner rfl]
        exact hclosed
      | cons b bs => exact .tail ⟨hr.ended, [], hr.nested, rfl⟩ hclosed
    simpa [LaidLine.hinted, hr.code] using Seam.closing hseam
  | label l h ih =>
    have hlabel : l.label.choosesOpenly := hl _ List.mem_cons_self
    have hseam := Seam.label l.label.isCaseWord_word (l.label.readLabel_text hlabel)
      (ih fun l hl' => hl l (List.mem_cons_of_mem _ hl'))
    simpa [LaidLine.hinted, l.spelled] using hseam

end Laid

-- The tokens of the code are told apart by their offsets.
theorem Token.Ordered.eq_of_offset_eq {code : Array Token} (ho : Token.Ordered code.toList)
    {i j : Nat} (hi : i < code.size) (hj : j < code.size)
    (h : (Outline.tokenAt code i).offset = (Outline.tokenAt code j).offset) : i = j := by
  have hlt := List.pairwise_iff_getElem.mp ho.pairwise_lt
  simp only [Outline.tokenAt, Array.getD, hi, hj, dite_true] at h
  rcases Nat.lt_trichotomy i j with hij | rfl | hij
  · exact absurd h (Nat.ne_of_lt (hlt i j hi hj hij))
  · rfl
  · exact absurd h.symm (Nat.ne_of_lt (hlt j i hj hi hij))

namespace Rule

variable {path text : String} {o : Outline} (ho : o = .ofSource (.ofText path text))

include ho

theorem contains_switchBodies_iff {n : Nat} (hn : n < o.code.size) :
    (switchBodies o).contains (Outline.tokenAt o.code n).offset ↔
      (Stmt.listSwitchBraces (Stmt.readFile o.lexemes))[n]? = some true := by
  have hparts : (Parts.ofTokens (Source.ofText path text).tokens).lexemes = o.lexemes := by
    simp [ho, Parts.lexemes, Outline.lexemes, Outline.ofSource, Parts.tokens]
  have hordered : Token.Ordered o.code.toList := by
    rw [ho]
    exact (Source.ordered_tokens path text).sublist (Parts.sublist_code _)
  have hsize : (Stmt.listSwitchBraces (Stmt.readFile o.lexemes)).length = o.code.size := by
    rw [Stmt.length_listSwitchBraces, ← Stmt.length_listLexemes, Stmt.listLexemes_readFile]
    simp [Outline.lexemes]
  have hmem : (Outline.tokenAt o.code n).offset ∈
      switchBodies (.ofSource (.ofText path text)) ↔ _ := mem_switchBodies_iff
  rw [← ho, hparts] at hmem
  rw [List.contains_iff_mem, hmem]
  constructor
  · rintro ⟨m, hm, hoffset⟩
    have hflag := (Stmt.mem_flagged_iff.mp hm).2
    have hlt := (List.getElem?_eq_some_iff.mp hflag).1
    cases hordered.eq_of_offset_eq (by omega) hn hoffset
    exact hflag
  · intro hflag
    exact ⟨n, Stmt.mem_flagged_iff.mpr ⟨Nat.zero_le n, hflag⟩, rfl⟩

-- What is known of the braces of a file is how the rule takes them.
theorem contains_switchBodies {hs : List Stmt.Hinted}
    (h : Stmt.Agree (Stmt.listSwitchBraces (Stmt.readFile o.lexemes)) hs) :
    List.Forall₂ (fun h t => ∀ c ∈ h.2, (switchBodies o).contains t.offset = c)
      hs o.code.toList := by
  rw [Stmt.Agree, List.forall₂_iff_get] at h
  obtain ⟨hflags, hagree⟩ := h
  have hlength : (Stmt.listSwitchBraces (Stmt.readFile o.lexemes)).length =
      o.code.toList.length := by
    rw [Stmt.length_listSwitchBraces, ← Stmt.length_listLexemes, Stmt.listLexemes_readFile]
    simp [Outline.lexemes]
  refine List.forall₂_iff_get.mpr ⟨hflags.symm.trans hlength, fun i hi hi' c hc => ?_⟩
  have hflag := hagree i (hflags ▸ hi) hi c hc
  have hn : i < o.code.size := by simpa using hi'
  have htoken : (Outline.tokenAt o.code i).offset = (o.code.toList.get ⟨i, hi'⟩).offset := by
    simp [Outline.tokenAt, hn]
  have hcontains := contains_switchBodies_iff ho hn
  rw [htoken, List.getElem?_eq_getElem (hflags ▸ hi), Option.some.injEq] at hcontains
  rw [← hflag]
  exact Bool.eq_iff_iff.mpr hcontains

end Rule

end CLint
