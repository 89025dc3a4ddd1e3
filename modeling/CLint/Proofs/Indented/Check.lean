import CLint.Proofs.Indented.Reports

namespace CLint

open Rule

namespace LaidLine

def isLabel (l : LaidLine) : Bool :=
  match l.role with
  | .label _ => true
  | _ => false

-- The text of some lines, each with the number of blanks that it is indented by.
def textOf (ps : List (LaidLine × Nat)) : List Char :=
  Row.textOf (ps.map fun (l, count) => (l.row, count))

-- The lines, with their numbers, that are not indented as they should be.
def changed (line : Nat) (ps : List (LaidLine × Nat)) : List ((LaidLine × Nat) × Nat) :=
  (ps.zipIdx line).filter fun (p, _) => p.2 ≠ p.1.indent

-- What is said about a line that is indented by another number of blanks than it should be.
def remark (l : LaidLine) (count line : Nat) : Remark :=
  .atPlace line (count + 1) s!"line is indented {count} space(s), expected {l.indent}"
    s!"Indent with {l.indent} spaces."

-- What is said about some lines, which is possible if the indentations that they should have can be
-- written.
def report (ps : List ((LaidLine × Nat) × Nat)) : Except RuleFailure (List Remark) :=
  if ps.all fun (p, _) => Numeral.isWritable p.1.indent then
    .ok (ps.map fun (p, line) => p.1.remark p.2 line)
  else .error .unwritable

theorem report_cons (p : LaidLine × Nat) (line : Nat) (ps : List ((LaidLine × Nat) × Nat)) :
    report ((p, line) :: ps) = (do
      let r ← (if Numeral.isWritable p.1.indent then .ok (p.1.remark p.2 line)
        else .error .unwritable)
      let rs ← report ps
      return r :: rs) := by
  rw [report, report]
  cases hp : Numeral.isWritable p.1.indent <;>
    cases hps : ps.all (fun (p, _) => Numeral.isWritable p.1.indent) <;> simp [hp, hps] <;> rfl

end LaidLine

namespace SetLine

variable {o : Outline} {bodies : List Nat} {line : Nat} {ps : List (LaidLine × Nat)}
  {groups : List (List Token)}

theorem forall_contains {l : LaidLine} {ts : List Token}
    (h : List.Forall₂ (fun h t => ∀ c ∈ h.2, bodies.contains t.offset = c) l.hinted ts)
    (isSwitch : Bool) (hrole : l.role = .opening isSwitch) :
    ∀ t ∈ ts, bodies.contains t.offset = isSwitch := by
  rw [LaidLine.hinted, hrole, List.forall₂_map_left_iff] at h
  generalize l.row.code = ls at h
  induction h with
  | nil => exact List.forall_mem_nil _
  | cons hc _ ih => exact List.forall_mem_cons.mpr ⟨hc isSwitch rfl, ih⟩

-- The lines of a file as they stand in it.
theorem exists_allStand
    (hhave : Row.AllHave line (ps.map fun (l, count) => (l.row, count)) groups)
    (hlead : ∀ r count n, ((r, count), n) ∈ (ps.map fun (l, count) => (l.row, count)).zipIdx line →
      leadingBlanks (o.source.lineText n) = List.replicate count ' ')
    (hhints : List.Forall₂ (fun h t => ∀ c ∈ h.2, bodies.contains t.offset = c)
      (ps.flatMap (·.1.hinted)) groups.flatten)
    (hl : ∀ p ∈ ps, p.1.isLabel → p.2 = p.1.indent) :
    ∃ ls : List SetLine, ls.map (fun l => (l.toLaidLine, l.count)) = ps ∧
      ls.flatMap (·.tokens) = groups.flatten ∧ AllStand o bodies line ls := by
  induction ps generalizing line groups with
  | nil =>
    cases hhave
    exact ⟨[], rfl, rfl, trivial⟩
  | cons p ps ih =>
    obtain ⟨l, count⟩ := p
    cases hhave with
    | @cons _ ts _ groups hts hrest =>
    rw [List.flatMap_cons, List.flatten_cons] at hhints
    have hlength : l.hinted.length = ts.length := by
      rw [← List.length_map Prod.fst, l.map_fst_hinted, ← hts.code, List.length_map]
    have hfirst := List.forall₂_take_append _ _ _ hhints
    have hothers := List.forall₂_drop_append _ _ _ hhints
    rw [List.take_left' hlength] at hfirst
    rw [List.drop_left' hlength] at hothers
    obtain ⟨ls, rfl, htokens, hstand⟩ := ih hrest
      (fun r count n hn => hlead r count n (List.mem_cons_of_mem _ hn)) hothers
      (fun p hp => hl p (List.mem_cons_of_mem _ hp))
    have htokens' : ((⟨l, count, ts⟩ : SetLine) :: ls).flatMap (·.tokens) = ts ++ groups.flatten := by
      rw [List.flatMap_cons, htokens]
    refine ⟨⟨l, count, ts⟩ :: ls, rfl, htokens', ⟨hts, ?_, ?_, ?_⟩, hstand⟩
    · exact hlead _ _ _ List.mem_cons_self
    · exact forall_contains hfirst
    · intro label hrole
      exact hl (l, count) List.mem_cons_self (by rw [LaidLine.isLabel, hrole])

-- The rule says of each changed line what is to be said, and nothing of the others.
theorem mapM_remark {ls : List SetLine} (h : AllStand o bodies line ls) :
    (ls.filterMap (·.wrong?)).mapM WrongIndent.remark =
      LaidLine.report (LaidLine.changed line (ls.map fun l => (l.toLaidLine, l.count))) := by
  induction ls generalizing line with
  | nil => rfl
  | cons l ls ih =>
    obtain ⟨hl, hls⟩ := h
    obtain ⟨t, ts, ht⟩ := List.exists_cons_of_ne_nil (l := l.tokens) fun hnil =>
      l.row.code_ne_nil (by rw [← hl.has.code, hnil]; rfl)
    have hcolumn := hl.has.column t (by simp [ht])
    have hline := (hl.has.line t (by simp [ht])).1
    by_cases hcount : l.count = l.indent
    case pos =>
      have hnone : l.wrong? = none := by simp [wrong?, Margin.wrong?, ht, hcount]
      rw [List.filterMap_cons_none hnone, ih hls]
      simp [LaidLine.changed, hcount]
    case neg =>
      have hsome : l.wrong? = some ⟨t, l.count, l.indent⟩ := by
        simp [wrong?, Margin.wrong?, ht, hcount]
      have hchanged : LaidLine.changed line ((l :: ls).map fun l => (l.toLaidLine, l.count)) =
          ((l.toLaidLine, l.count), line) ::
            LaidLine.changed (line + 1) (ls.map fun l => (l.toLaidLine, l.count)) := by
        simp [LaidLine.changed, hcount]
      have hremark : WrongIndent.remark ⟨t, l.count, l.indent⟩ =
          if Numeral.isWritable l.indent then .ok (l.toLaidLine.remark l.count line)
          else .error .unwritable := by
        rw [WrongIndent.remark, writtenInt]
        split
        · simp only [hline, hcolumn, LaidLine.remark]
          rfl
        · rfl
      rw [List.filterMap_cons_some hsome, List.mapM_cons, ih hls, hchanged, LaidLine.report_cons,
        hremark]

end SetLine

-- Of lines that follow one another in a canonical way, those that are indented otherwise are
-- reported, if the braces of the file are read as they are meant.
theorem Laid.check_eq_report {w : Nat} {ps : List (LaidLine × Nat)}
    {heads : Row → Bool → Prop} (settings : RuleSettings) (path : String)
    (hlaid : Laid heads w [] (ps.map Prod.fst))
    (hheads : ∀ r isSwitch, heads r isSwitch → ∃ isSwitch', r.Heads isSwitch')
    (hw : settings.indentWidth = w)
    (hl : ∀ p ∈ ps, p.1.isLabel → p.2 = p.1.indent)
    (hhints : Stmt.Agree (Stmt.listSwitchBraces (Stmt.readFile (ps.flatMap (·.1.row.code))))
      (ps.flatMap (·.1.hinted))) :
    indentation.check settings (.ofSource (.ofText path (String.ofList (LaidLine.textOf ps)))) =
      LaidLine.report (LaidLine.changed 1 ps) := by
  obtain ⟨groups, hcode, hhave⟩ := Row.exists_code path (ps.map fun (l, count) => (l.row, count))
  rw [← LaidLine.textOf] at hcode
  have hsource : (Outline.ofSource
      (.ofText path (String.ofList (LaidLine.textOf ps)))).source =
        .ofText path (String.ofList (LaidLine.textOf ps)) := rfl
  generalize ho : Outline.ofSource (.ofText path (String.ofList (LaidLine.textOf ps))) = o
    at hcode hsource ⊢
  have hlexemes : o.lexemes = ps.flatMap (·.1.row.code) := by
    rw [Outline.lexemes, hcode, hhave.code, List.flatMap_map]
  rw [← hlexemes] at hhints
  have hcontains := contains_switchBodies ho.symm hhints
  rw [hcode] at hcontains
  obtain ⟨ls, rfl, htokens, hstand⟩ := SetLine.exists_allStand hhave
    (fun r count n hn => hsource ▸ Source.leadingBlanks_lineText hn) hcontains hl
  rw [List.map_map] at hlaid
  have hrun := hlaid.wrongIndents hheads hstand (m := {}) ⟨rfl, rfl, rfl⟩ fun t _ => by
    simp [Margin.isChecked, Margin.startsStatement]
  change (Margin.wrongIndents o settings.indentWidth (switchBodies o) {} o.code.toList).mapM
    WrongIndent.remark = _
  rw [hw, hcode, ← htokens, hrun, SetLine.mapM_remark hstand]

namespace DefinitionLayout

-- Of a file of function definitions that is laid out in the canonical way, but for the
-- indentation of some lines that are no labels, these lines are reported, and no others.
theorem check_indentation {w : Nat} {ds : List DefinitionLayout} {ps : List (LaidLine × Nat)}
    (settings : RuleSettings) (path : String) (hw : settings.indentWidth = w)
    (hps : ps.map Prod.fst = allLines w ds) (hl : ∀ p ∈ ps, p.1.isLabel → p.2 = p.1.indent)
    (hopen : ∀ p ∈ ps, p.1.choosesOpenly) :
    indentation.check settings (.ofSource (.ofText path (String.ofList (LaidLine.textOf ps)))) =
      LaidLine.report (LaidLine.changed 1 ps) := by
  have hlaid := laid_allLines w ds
  rw [← hps] at hlaid
  have hseam := hlaid.seam fun l hm => by
    obtain ⟨p, hp, rfl⟩ := List.mem_map.mp hm
    exact hopen p hp
  rw [List.flatMap_map] at hseam
  refine hlaid.check_eq_report settings path (fun _ c h => ⟨c, h⟩) hw hl
    (hseam.agree_readFile _ _ ?_)
  rw [List.map_flatMap]
  simp only [LaidLine.map_fst_hinted]

section Sample

-- The rows of the samples.
def sampleSignature : SignatureRow where
  text := "void f(int x)"

def sampleSwitch : HeaderRow .switchKw where
  text := "switch (x)"
  inner := [.identifier "x"]

def sampleLabel : LabelRow where
  text := "case d:"
  label := .caseOf ⟨[.identifier "d"], by decide, by decide, by decide⟩

def sampleStatement : StatementRow where
  text := "g();"

-- A label with a conditional in parentheses.
def sampleChoice : LabelRow where
  text := "case (a ? b : c):"
  label := .caseOf
    ⟨Phrase.inParens
        [.identifier "a", .punct .question, .identifier "b", .punct .colon, .identifier "c"],
      by decide, by decide, by decide⟩

-- A brace that is moved to the right is reported, but what it encloses is not.
theorem check_indentation_movedBrace :
    let body : List Layout := [.switchOn sampleSwitch [⟨sampleLabel, [.line sampleStatement]⟩]]
    let ds : List DefinitionLayout := [⟨sampleSignature, body⟩]
    let ps := (allLines 2 ds).zip [0, 0, 2, 7, 4, 6, 2, 0]
    ps.map Prod.fst = allLines 2 ds ∧ (∀ p ∈ ps, p.1.isLabel → p.2 = p.1.indent) ∧
      (∀ p ∈ ps, p.1.choosesOpenly) ∧
      indentation.check {} (.ofSource (.ofText "f.c" (String.ofList (LaidLine.textOf ps)))) =
        .ok [.atPlace 4 8 "line is indented 7 space(s), expected 2" "Indent with 2 spaces."] := by
  intro body ds ps
  have hps : ps.map Prod.fst = allLines 2 ds := List.map_fst_zip (by decide +kernel)
  have hl : ∀ p ∈ ps, p.1.isLabel → p.2 = p.1.indent := by decide +kernel
  have hopen : ∀ p ∈ ps, p.1.choosesOpenly := by decide +kernel
  have hcheck := check_indentation {} "f.c" rfl hps hl hopen
  have hwritable : (LaidLine.changed 1 ps).all fun (p, _) => Numeral.isWritable p.1.indent := by
    decide +kernel
  exact ⟨hps, hl, hopen, hcheck.trans (if_pos hwritable)⟩

-- A label with a conditional in parentheses is not read to its own colon but up to the brace of the
-- `switch` behind it, which then is none. So a line in it is reported though no line is changed.
theorem check_indentation_enclosedChoice :
    let inner : Layout := .switchOn sampleSwitch [⟨sampleLabel, [.line sampleStatement]⟩]
    let body : List Layout := [.switchOn sampleSwitch [⟨sampleChoice, [inner]⟩]]
    let ds : List DefinitionLayout := [⟨sampleSignature, body⟩]
    let ps := (allLines 2 ds).map fun l => (l, l.indent)
    LaidLine.changed 1 ps = [] ∧
      indentation.check {} (.ofSource (.ofText "f.c" (String.ofList (LaidLine.textOf ps)))) =
        .ok [.atPlace 9 11 "line is indented 10 space(s), expected 8" "Indent with 8 spaces."] := by
  intro inner body ds ps
  -- The same lines as they are taken: the inner braces are those of a block.
  let taken : List (LaidLine × Nat) :=
    [(⟨0, sampleSignature.toRow, .header⟩, 0), (⟨0, .openBrace, .opening false⟩, 0),
      (⟨2, sampleSwitch.toRow, .header⟩, 2), (⟨2, .openBrace, .opening true⟩, 2),
      (⟨4, sampleChoice.toRow, .label sampleChoice.label⟩, 4),
      (⟨6, sampleSwitch.toRow, .header⟩, 6), (⟨6, .openBrace, .opening false⟩, 6),
      (⟨8, sampleLabel.toRow, .label sampleLabel.label⟩, 8),
      (⟨8, sampleStatement.toRow, .statement⟩, 10), (⟨6, .closeBrace, .closing⟩, 6),
      (⟨2, .closeBrace, .closing⟩, 2), (⟨0, .closeBrace, .closing⟩, 0)]
  have hsame : LaidLine.textOf ps = LaidLine.textOf taken := by decide +kernel
  have hheader : ∃ isSwitch, sampleSwitch.toRow.Heads isSwitch := ⟨true, .switchOn sampleSwitch⟩
  have hlaid : Laid (fun r _ => ∃ isSwitch, r.Heads isSwitch) 2 [] (taken.map Prod.fst) :=
    .function sampleSignature <| .headed hheader <| .label sampleChoice <| .headed hheader <|
      .label sampleLabel <| .statement sampleStatement <|
      .closing (Row.closes_closeBrace _) rfl <| .closing (Row.closes_closeBrace _) rfl <|
      .closing (Row.closes_closeBrace _) rfl .done
  have hl : ∀ p ∈ taken, p.1.isLabel → p.2 = p.1.indent := by decide +kernel
  have hhints : Stmt.Agree
      (Stmt.listSwitchBraces (Stmt.readFile (taken.flatMap (·.1.row.code))))
      (taken.flatMap (·.1.hinted)) := by
    unfold Stmt.Agree
    decide +kernel
  have hcheck := hlaid.check_eq_report {} "f.c" (fun _ _ h => h) rfl hl hhints
  have hwritable : (LaidLine.changed 1 taken).all fun (p, _) => Numeral.isWritable p.1.indent := by
    decide +kernel
  have hnone : (LaidLine.changed 1 ps).isEmpty := by decide +kernel
  exact ⟨List.isEmpty_iff.mp hnone, hsame ▸ hcheck.trans (if_pos hwritable)⟩

end Sample

end DefinitionLayout

end CLint
