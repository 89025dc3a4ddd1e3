import CLint.Proofs.Recognition
import CLint.Proofs.Tidy

namespace CLint

namespace Site

theorem placed_append (start : Nat) (ss ts : List Stmt) :
    placed start (ss ++ ts) = placed start ss ++ placed (start + Stmt.listSize ss) ts := by
  induction ss generalizing start with
  | nil => rfl
  | cons s ss ih =>
    simp only [List.cons_append, placed, ih, Stmt.listSize, Nat.add_assoc]

theorem stop_getLast?_placed (start : Nat) (ss : List Stmt) :
    ((placed start ss).getLast?.map stop).getD start = start + Stmt.listSize ss := by
  induction ss generalizing start with
  | nil => rfl
  | cons s ss ih =>
    have hcons : ((placed start (s :: ss)).getLast?.map stop).getD start =
        ((placed (start + s.size) ss).getLast?.map stop).getD (start + s.size) := by
      rw [placed, List.getLast?_cons]
      cases (placed (start + s.size) ss).getLast? <;> rfl
    rw [hcons, ih, Stmt.listSize, Nat.add_assoc]

variable {constants : List String} {announced : List Nat}

-- The shapes of the blocks that some statements are by themselves.
def shapes (constants : List String) (announced : List Nat) (ss : List Site) : List Shape :=
  (ss.flatMap (controlBlocks constants announced)).map ControlBlock.shape

@[simp]
theorem shapes_nil : shapes constants announced [] = [] :=
  rfl

@[simp]
theorem shapes_cons (s : Site) (ss : List Site) :
    shapes constants announced (s :: ss) =
      (s.controlBlocks constants announced).map ControlBlock.shape ++
        shapes constants announced ss := by
  simp [shapes]

@[simp]
theorem shapes_append (ss ts : List Site) :
    shapes constants announced (ss ++ ts) =
      shapes constants announced ss ++ shapes constants announced ts := by
  simp [shapes]

end Site

namespace Phrase

theorem lexemes_toStmt {p : Phrase} (hp : p.isProper) : p.toStmt.lexemes = p.lexemes := by
  have h := (reads_toStmt p hp [] nofun).append
  simpa [Stmt.Part.lead] using h

theorem size_toStmt {p : Phrase} (hp : p.isProper) : p.toStmt.size = p.size := by
  rw [← Stmt.length_lexemes, lexemes_toStmt hp, size]

theorem listSize_toStmts {ps : List Phrase} (hp : listProper ps) :
    Stmt.listSize (toStmts ps) = (listLexemes ps).length := by
  induction ps with
  | nil => rfl
  | cons p ps ih =>
    simp only [listProper, Bool.and_eq_true] at hp
    rw [toStmts, Stmt.listSize, size_toStmt hp.1, ih hp.2, listLexemes, List.length_append, size]

theorem listSize_groupStmts {gs : List CaseGroup} (hp : casesProper gs) :
    Stmt.listSize (groupStmts gs) = (caseLexemes gs).length := by
  induction gs with
  | nil => rfl
  | cons g gs ih =>
    obtain ⟨label, items⟩ := g
    simp only [casesProper, Bool.and_eq_true] at hp
    simp only [groupStmts, List.cons_append, Stmt.listSize, Stmt.listSize_append, Stmt.size,
      listSize_toStmts hp.1, ih hp.2, caseLexemes, CaseLabel.lexemes, List.length_append,
      List.length_cons]
    omega

theorem isBlock_toStmt (p : Phrase) : p.toStmt.isBlock = p.isBlock := by
  cases p <;> rfl

variable {constants : List String} {announced : List Nat} {start : Nat}

-- The labels of a `switch` and the statements behind each of them are found again.

theorem split_append_toStmts (ps : List Phrase) (ss : List Stmt) (start : Nat) :
    Section.split (Site.placed start (toStmts ps ++ ss)) =
      let r := Section.split (Site.placed (start + Stmt.listSize (toStmts ps)) ss)
      (Site.placed start (toStmts ps) ++ r.1, r.2) := by
  induction ps generalizing start with
  | nil => rfl
  | cons p ps ih =>
    have ih := ih (start + p.toStmt.size)
    rw [Nat.add_assoc] at ih
    simp only [toStmts, List.cons_append, Site.placed, Section.split, ih, Stmt.listSize]
    cases p <;> rfl

theorem split_groupStmts_fst (gs : List CaseGroup) (start : Nat) :
    (Section.split (Site.placed start (groupStmts gs))).1 = [] := by
  cases gs with
  | nil => rfl
  | cons g gs =>
    obtain ⟨_ | _, items⟩ := g <;> rfl

theorem head?_placed_toStmts (ps : List Phrase) (start : Nat) :
    (Site.placed start (toStmts ps)).head?.any (·.stmt.isBlock) = ps.head?.any isBlock := by
  cases ps with
  | nil => rfl
  | cons p ps => exact isBlock_toStmt p

theorem split_groupStmts_cons (label : CaseLabel) (items : List Phrase) (gs : List CaseGroup)
    (start : Nat) :
    (Section.split (Site.placed start (groupStmts (⟨label, items⟩ :: gs)))).2 =
      let place := start + label.lexemes.length
      ⟨⟨start, .label (.keyword label.word) label.text⟩, label.word = .defaultKw,
          Site.placed place (toStmts items)⟩ ::
        (Section.split (Site.placed (place + Stmt.listSize (toStmts items)) (groupStmts gs))).2 := by
  have h := split_append_toStmts items (groupStmts gs) (start + label.lexemes.length)
  simp only [split_groupStmts_fst, List.append_nil] at h
  simp only [groupStmts, List.cons_append, Site.placed, Stmt.size, Section.split]
  rw [← List.length_cons, ← CaseLabel.lexemes, h]
  simp [isCaseWord_word label]

theorem shape_sections {gs : List CaseGroup} (hp : casesProper gs) (start : Nat) :
    ((Section.split (Site.placed start (groupStmts gs))).2.map Section.block).map
        ControlBlock.shape = caseShapes start gs := by
  induction gs generalizing start with
  | nil => rfl
  | cons g gs ih =>
    obtain ⟨label, items⟩ := g
    simp only [casesProper, Bool.and_eq_true] at hp
    simp only [split_groupStmts_cons, listSize_toStmts hp.1, List.map_cons, ih hp.2, caseShapes]
    congr 1
    have hstop := Site.stop_getLast?_placed (start + label.lexemes.length) (toStmts items)
    rw [listSize_toStmts hp.1] at hstop
    have hkind : (if decide (label.word = .defaultKw) then ControlKind.defaultBlock else .caseBlock) =
        if label.word = .caseKw then .caseBlock else .defaultBlock := by
      cases label <;> rfl
    simp only [ControlBlock.shape, Section.block, hkind, head?_placed_toStmts]
    exact congrArg (Shape.mk _ _ ⟨start, · - 1⟩ none) hstop

theorem run?_expr (e : Expr) (start : Nat) :
    Stretch.run? ⟨start, e.lexemes⟩ = some (e.run start) := by
  simp [Stretch.run?, Stretch.isEmpty, e.ne_nil, Stretch.run, Stretch.last, Stretch.length,
    Expr.run]

theorem run?_optional (e : Option Expr) (start : Nat) :
    Stretch.run? ⟨start, Expr.optional e⟩ = e.map (Expr.run start) := by
  cases e with
  | none => rfl
  | some e => exact run?_expr e start

theorem partsStart_closed (head : Head) (ls : List Lexeme) :
    Stmt.partsStart start head (some ⟨ls, some (.punct .rparen)⟩) =
      start + head.lexemes.length + ls.length + 2 := by
  simp only [Stmt.partsStart, Stmt.groupLexemes, Group.lexemes, Option.map_some, Option.getD_some,
    Option.toList_some, List.length_append, List.length_cons, List.length_nil]
  omega

-- The heads with a condition and a body, and nothing else that a block is made of.
theorem shape_branch {head : Head} (hh : head ∈ [.ifHead, .elseIf, .whileHead]) (condition : Expr)
    {body : Phrase} (hb : body.isProper) (more : List Stmt) :
    (Site.controlBlocks constants announced ⟨start, .control head
        (some ⟨condition.lexemes, some (.punct .rparen)⟩) (body.toStmt :: more)⟩).map
          ControlBlock.shape =
      [⟨head.kind, body.isBlock,
        ⟨start, start + head.lexemes.length + condition.lexemes.length + 1 + body.size⟩,
        condition.run (start + head.lexemes.length + 1)⟩] := by
  have hstop : Control.stop start head (some ⟨condition.lexemes, some (.punct .rparen)⟩)
      (body.toStmt :: more) =
        start + head.lexemes.length + condition.lexemes.length + 2 + body.size := by
    have hd : head ≠ .doHead := by rintro rfl; simp at hh
    simp [Control.stop, hd, partsStart_closed, Stmt.listSize, size_toStmt hb]
  have hsections : Control.sections start head (some ⟨condition.lexemes, some (.punct .rparen)⟩)
      (body.toStmt :: more) = [] := by
    simp only [List.mem_cons, List.not_mem_nil, or_false] at hh
    rcases hh with rfl | rfl | rfl <;> rfl
  have hcondition : Control.condition? start head
      (some ⟨condition.lexemes, some (.punct .rparen)⟩) (body.toStmt :: more) =
        some ⟨start + head.lexemes.length + 1, condition.lexemes⟩ := by
    simp only [List.mem_cons, List.not_mem_nil, or_false] at hh
    rcases hh with rfl | rfl | rfl <;> rfl
  simp [Site.controlBlocks, hsections, hcondition, hstop, ControlBlock.shape, run?_expr,
    isBlock_toStmt, Site.placed]

theorem shape_headed {head : Head} (hh : head ∈ [.ifHead, .whileHead]) (condition : Expr)
    {body : Phrase} (hb : body.isProper) (more : List Stmt) :
    (Site.controlBlocks constants announced ⟨start, .control head
        (some ⟨condition.lexemes, some (.punct .rparen)⟩) (body.toStmt :: more)⟩).map
          ControlBlock.shape =
      [headed head.kind start (condition.run (start + 2)) condition.lexemes body] := by
  have hmem : head ∈ [.ifHead, .elseIf, .whileHead] :=
    List.Sublist.mem hh (.cons_cons _ (.cons _ (.refl _)))
  have hone : head.lexemes.length = 1 := by
    simp only [List.mem_cons, List.not_mem_nil, or_false] at hh
    rcases hh with rfl | rfl <;> rfl
  rw [shape_branch hmem condition hb, hone, headed]
  congr 3
  omega

theorem shape_do {body : Phrase} (hb : body.isProper) (condition : Expr) :
    (Site.controlBlocks constants announced ⟨start, toStmt (.doWhile body condition)⟩).map
        ControlBlock.shape =
      [⟨.doLoop, body.isBlock, ⟨start, start + 1 + body.size + condition.lexemes.length + 3⟩,
        condition.run (start + 1 + body.size + 2)⟩] := by
  have hcondition : Control.condition? start .doHead none
      [body.toStmt, .doWhile (some ⟨condition.lexemes, some (.punct .rparen)⟩) true] =
        some ⟨start + 1 + body.size + 2, condition.lexemes⟩ := by
    rw [← size_toStmt hb]
    rfl
  have hstop : Control.stop start .doHead none
      [body.toStmt, .doWhile (some ⟨condition.lexemes, some (.punct .rparen)⟩) true] =
        start + 1 + body.size + condition.lexemes.length + 4 := by
    simp [Control.stop, Stmt.partsStart, Stmt.listSize, Stmt.size, size_toStmt hb, Head.lexemes,
      Stmt.groupLexemes, Group.lexemes]
    omega
  simp [toStmt, Site.controlBlocks, Control.sections, hcondition, hstop, ControlBlock.shape,
    run?_expr, isBlock_toStmt, Site.placed, Head.kind]

theorem cut_optional (e : Option Expr) (ls : List Lexeme) :
    Code.cut Lexeme.nestingFlat .semicolon 0 (Expr.optional e ++ .punct .semicolon :: ls) =
      Expr.optional e :: Code.cut Lexeme.nestingFlat .semicolon 0 ls := by
  have hr : Code.cut Lexeme.nestingFlat .semicolon 0 (.punct .semicolon :: ls) =
      [] :: Code.cut Lexeme.nestingFlat .semicolon 0 ls := by
    simp [Code.cut, Lexeme.isMark]
  have h := Code.cut_nested (Expr.isNested_optional e) (fun _ => Expr.flat_of_mem_optional) hr
  rwa [List.append_nil] at h

theorem forCondition_forHeader (init condition step : Option Expr) (place : Nat) :
    Group.forCondition place ⟨forHeader init condition step, some (.punct .rparen)⟩ =
      ⟨place + (Expr.optional init).length + 2, Expr.optional condition⟩ := by
  have hlast : Code.cut Lexeme.nestingFlat .semicolon 0 (Expr.optional step) =
      [Expr.optional step] := by
    have hr : Code.cut Lexeme.nestingFlat .semicolon 0 [] = [[]] := rfl
    have h := Code.cut_nested (Expr.isNested_optional step) (fun _ => Expr.flat_of_mem_optional) hr
    rwa [List.append_nil] at h
  have hpieces : Code.cut Lexeme.nestingFlat .semicolon 0 (forHeader init condition step) =
      [Expr.optional init, Expr.optional condition, Expr.optional step] := by
    rw [forHeader, List.append_assoc, List.cons_append, cut_optional, cut_optional, hlast]
  simp only [Group.forCondition, Group.pieces, Group.contentAt, Group.content, Group.isClosed,
    Option.isSome_some, if_true, Stretch.cut, hpieces, Code.laidOut]
  congr 1
  omega

theorem shape_for (init condition step : Option Expr) {body : Phrase} (hb : body.isProper) :
    (Site.controlBlocks constants announced
        ⟨start, toStmt (.forDo init condition step body)⟩).map ControlBlock.shape =
      [headed .forLoop start (condition.map (Expr.run (start + (Expr.optional init).length + 3)))
        (forHeader init condition step) body] := by
  have hcondition : Control.condition? start .forHead
      (some ⟨forHeader init condition step, some (.punct .rparen)⟩) [body.toStmt] =
        some ⟨start + (Expr.optional init).length + 3, Expr.optional condition⟩ := by
    have h := forCondition_forHeader init condition step (start + 1)
    simp only [Control.condition?, Control.conditionGroup?, Head.lexemes, List.length_singleton,
      Option.map_some, if_true, h]
    congr 2
    omega
  have hstop : Control.stop start .forHead
      (some ⟨forHeader init condition step, some (.punct .rparen)⟩) [body.toStmt] =
        start + (forHeader init condition step).length + 3 + body.size := by
    simp [Control.stop, partsStart_closed, Stmt.listSize, size_toStmt hb, Head.lexemes]
    omega
  simp [toStmt, Site.controlBlocks, Control.sections, hcondition, hstop, ControlBlock.shape,
    run?_optional, isBlock_toStmt, Site.placed, Head.kind, headed]

theorem shape_switch (subject : Expr) {cases : List CaseGroup} (hc : casesProper cases) :
    (Site.controlBlocks constants announced ⟨start, toStmt (.switchOn subject cases)⟩).map
        ControlBlock.shape =
      ⟨.switchBlock, true,
        ⟨start, start + subject.lexemes.length + 4 + (caseLexemes cases).length⟩,
        subject.run (start + 2)⟩ :: caseShapes (start + subject.lexemes.length + 4) cases := by
  have hcondition : Control.condition? start .switchHead
      (some ⟨subject.lexemes, some (.punct .rparen)⟩) [.block (groupStmts cases) true] =
        some ⟨start + 2, subject.lexemes⟩ :=
    rfl
  have hstop : Control.stop start .switchHead
      (some ⟨subject.lexemes, some (.punct .rparen)⟩) [.block (groupStmts cases) true] =
        start + subject.lexemes.length + 5 + (caseLexemes cases).length := by
    simp [Control.stop, partsStart_closed, Stmt.listSize, Stmt.size, listSize_groupStmts hc,
      Head.lexemes]
    omega
  have hsections : Control.sections start .switchHead
      (some ⟨subject.lexemes, some (.punct .rparen)⟩) [.block (groupStmts cases) true] =
        (Section.split (Site.placed (start + subject.lexemes.length + 4) (groupStmts cases))).2 := by
    simp only [Control.sections, partsStart_closed, Head.lexemes, List.length_singleton]
    congr 3
    omega
  have hs := shape_sections hc (start + subject.lexemes.length + 4)
  simp [toStmt, Site.controlBlocks, hsections, hcondition, hstop, ControlBlock.shape,
    run?_expr, Stmt.isBlock, Site.placed, Head.kind, ← hs]

theorem partsStart_of_length_one {head : Head} (h : head.lexemes.length = 1) (ls : List Lexeme) :
    Stmt.partsStart start head (some ⟨ls, some (.punct .rparen)⟩) = start + ls.length + 3 := by
  rw [partsStart_closed]
  omega

-- An `if` behind an `else` makes one block with it, in which all else is as before.
theorem shapes_elseIf {condition : Expr} {body : Phrase} (hb : body.isProper) (more : List Stmt)
    {ss : List Shape} (hs : Site.shapes constants announced (Stmt.sites (start + 1)
      (.control .ifHead (some ⟨condition.lexemes, some (.punct .rparen)⟩) (body.toStmt :: more))) =
        headed .ifBlock (start + 1) (condition.run (start + 3)) condition.lexemes body :: ss) :
    Site.shapes constants announced (Stmt.sites start
      (.control .elseIf (some ⟨condition.lexemes, some (.punct .rparen)⟩) (body.toStmt :: more))) =
        ⟨.elseIf, body.isBlock, ⟨start, start + 1 + condition.lexemes.length + 2 + body.size⟩,
          condition.run (start + 3)⟩ :: ss := by
  rw [Stmt.sites, Site.shapes_cons, shape_branch (by simp) condition hb,
    List.singleton_append] at hs ⊢
  have hplace : Stmt.partsStart (start + 1) .ifHead
      (some ⟨condition.lexemes, some (.punct .rparen)⟩) =
        Stmt.partsStart start .elseIf (some ⟨condition.lexemes, some (.punct .rparen)⟩) := by
    rw [partsStart_closed, partsStart_closed]
    rfl
  rw [← hplace, (List.cons_eq_cons.mp hs).2]
  simp only [Head.kind, Head.lexemes, List.length_cons, List.length_nil]
  congr 3
  omega

theorem shapes_elseHead {other : Phrase} (hp : other.isProper) :
    Site.shapes constants announced (Stmt.sites start (.control .elseHead none [other.toStmt])) =
      ⟨.elseBlock, other.isBlock, ⟨start, start + other.size⟩, none⟩ ::
        Site.shapes constants announced (Stmt.sites (start + 1) other.toStmt) := by
  have hstop : Control.stop start .elseHead none [other.toStmt] = start + other.size + 1 := by
    simp [Control.stop, Stmt.partsStart, Stmt.listSize, size_toStmt hp, Head.lexemes,
      Stmt.groupLexemes]
    omega
  simp [Stmt.sites, Stmt.listSites, Site.controlBlocks, Control.condition?, Control.sections,
    Control.conditionGroup?, ControlBlock.shape, hstop, Site.placed, isBlock_toStmt, Head.kind,
    Stmt.partsStart, Stmt.groupLexemes, Head.lexemes]

-- An `else` with all that is behind it.
theorem shapes_elseOf {other : Phrase} (hp : other.isProper)
    (hs : Site.shapes constants announced (Stmt.sites (start + 1) other.toStmt) =
      other.shapes (start + 1)) :
    Site.shapes constants announced (Stmt.sites start (elseOf other.toStmt)) =
      continued start other (other.shapes (start + 1)) := by
  cases other with
  | ifThen condition body =>
    have hp : body.isProper := hp
    exact shapes_elseIf hp [] hs
  | ifElse condition body other =>
    simp only [isProper, Bool.and_eq_true] at hp
    exact shapes_elseIf hp.1.2 _ hs
  | _ =>
    refine (shapes_elseHead hp).trans ?_
    rw [hs]
    rfl

mutual

-- By induction on phrases: what is found in the statement that a phrase is read as, is what is in
-- the phrase.
theorem shapes_sites (p : Phrase) (hp : p.isProper) (start : Nat) :
    Site.shapes constants announced (Stmt.sites start p.toStmt) = p.shapes start := by
  cases p with
  | empty => rfl
  | expr => rfl
  | jump => rfl
  | block items =>
    have hi := shapes_listSites items hp (start + 1)
    simpa [toStmt, Stmt.sites, Site.controlBlocks, shapes] using hi
  | ifThen condition body =>
    have hp : body.isProper := hp
    have hb := shapes_sites body hp (start + condition.lexemes.length + 3)
    rw [toStmt, Stmt.sites, Site.shapes_cons, shape_headed (by simp) condition hp,
      partsStart_of_length_one rfl, Stmt.listSites, Stmt.listSites, List.append_nil, hb]
    rfl
  | ifElse condition body other =>
    simp only [isProper, Bool.and_eq_true] at hp
    have hb := shapes_sites body hp.1.2 (start + condition.lexemes.length + 3)
    have ho := shapes_elseOf hp.2 (shapes_sites other hp.2
      (start + condition.lexemes.length + 3 + body.size + 1))
    rw [toStmt, Stmt.sites, Site.shapes_cons, shape_headed (by simp) condition hp.1.2,
      partsStart_of_length_one rfl, Stmt.listSites, Stmt.listSites, Stmt.listSites,
      List.append_nil, Site.shapes_append, size_toStmt hp.1.2, hb, ho]
    rfl
  | whileDo condition body =>
    have hp : body.isProper := hp
    have hb := shapes_sites body hp (start + condition.lexemes.length + 3)
    rw [toStmt, Stmt.sites, Site.shapes_cons, shape_headed (by simp) condition hp,
      partsStart_of_length_one rfl, Stmt.listSites, Stmt.listSites, List.append_nil, hb]
    rfl
  | doWhile body condition =>
    have hp : body.isProper := hp
    have hb := shapes_sites body hp (start + 1)
    rw [toStmt, Stmt.sites, ← toStmt, Site.shapes_cons, shape_do hp condition, Stmt.listSites,
      Site.shapes_append]
    exact congrArg _ ((congrArg (· ++ []) hb).trans (List.append_nil _))
  | forDo init condition step body =>
    have hp : body.isProper := hp
    have hb := shapes_sites body hp (start + (forHeader init condition step).length + 3)
    rw [toStmt, Stmt.sites, ← toStmt, Site.shapes_cons, shape_for init condition step hp,
      partsStart_of_length_one rfl, Stmt.listSites, Stmt.listSites, List.append_nil, hb]
    rfl
  | switchOn subject cases =>
    have hp : casesProper cases := hp
    have hc := shapes_groupSites cases hp (start + subject.lexemes.length + 4)
    rw [toStmt, Stmt.sites, ← toStmt, Site.shapes_cons, shape_switch subject hp,
      partsStart_of_length_one rfl, Stmt.listSites, Stmt.listSites, List.append_nil, Stmt.sites,
      Site.shapes_cons, hc]
    rfl

theorem shapes_listSites (ps : List Phrase) (hp : listProper ps) (start : Nat) :
    Site.shapes constants announced (Stmt.listSites start (toStmts ps)) = listShapes start ps := by
  cases ps with
  | nil => rfl
  | cons p ps =>
    simp only [listProper, Bool.and_eq_true] at hp
    rw [toStmts, Stmt.listSites, Site.shapes_append, shapes_sites p hp.1 start,
      shapes_listSites ps hp.2, size_toStmt hp.1, listShapes]

theorem shapes_groupSites (gs : List CaseGroup) (hp : casesProper gs) (start : Nat) :
    Site.shapes constants announced (Stmt.listSites start (groupStmts gs)) =
      groupShapes start gs := by
  cases gs with
  | nil => rfl
  | cons g gs =>
    obtain ⟨label, items⟩ := g
    simp only [casesProper, Bool.and_eq_true] at hp
    have hi := shapes_listSites items hp.1 (start + label.lexemes.length)
    have hg := shapes_groupSites gs hp.2
      (start + label.lexemes.length + (listLexemes items).length)
    rw [← listSize_toStmts hp.1] at hg
    rw [groupStmts, List.cons_append, Stmt.listSites, Stmt.listSites_append, Site.shapes_append,
      Site.shapes_append]
    simp only [Stmt.size]
    rw [← List.length_cons, ← CaseLabel.lexemes, hi, hg, groupShapes, listSize_toStmts hp.1]
    rfl

end

theorem isTidy_elseOf (s : Stmt) : (elseOf s).isTidy = s.isTidy := by
  unfold elseOf
  split
  case h_1 => rfl
  case h_2 => simp [Stmt.isTidy, Stmt.listTidy]

mutual

theorem isTidy_toStmt (p : Phrase) : p.toStmt.isTidy := by
  cases p with
  | empty | expr | jump => rfl
  | block items => simp [toStmt, Stmt.isTidy, listTidy_toStmts items]
  | ifThen _ body | whileDo _ body | doWhile body _ | forDo _ _ _ body =>
    simp [toStmt, Stmt.isTidy, Stmt.listTidy, Group.isClosed, isTidy_toStmt body]
  | ifElse _ body other =>
    simp [toStmt, Stmt.isTidy, Stmt.listTidy, Group.isClosed, isTidy_elseOf, isTidy_toStmt body,
      isTidy_toStmt other]
  | switchOn _ cases =>
    simp [toStmt, Stmt.isTidy, Stmt.listTidy, Group.isClosed, listTidy_groupStmts cases]

theorem listTidy_toStmts (ps : List Phrase) : Stmt.listTidy (toStmts ps) := by
  cases ps with
  | nil => rfl
  | cons p ps => simp [toStmts, Stmt.listTidy, isTidy_toStmt p, listTidy_toStmts ps]

theorem listTidy_groupStmts (gs : List CaseGroup) : Stmt.listTidy (groupStmts gs) := by
  cases gs with
  | nil => rfl
  | cons g gs =>
    obtain ⟨label, items⟩ := g
    simp [groupStmts, Stmt.listTidy, Stmt.isTidy, Stmt.listTidy_append, listTidy_toStmts items,
      listTidy_groupStmts gs]

end

-- Any phrase of the grammar is recognized in a function, if it is not followed by an `else` that
-- would continue it: its code is read as one statement, all of it and nothing of the rest, nothing
-- is wrong with it, and the control blocks that are found in it are those of the phrase.
theorem read_lexemes_append (p : Phrase) (hp : p.isProper) (rest : List Lexeme)
    (hr : p.endsOpen → rest.head? ≠ some (.keyword .elseKw)) (start : Nat)
    (constants : List String) (announced : List Nat) :
    ∃ l ls, p.lexemes ++ rest = l :: ls ∧ (Stmt.read false l ls).rest = rest ∧
      Site.problemsOf (Stmt.sites start (Stmt.read false l ls).value) = [] ∧
      ((Stmt.sites start (Stmt.read false l ls).value).flatMap
        (Site.controlBlocks constants announced)).map ControlBlock.shape = p.shapes start := by
  have h := reads_toStmt p hp rest hr
  obtain ⟨l, ls, hl, _⟩ := p.exists_lexemes
  rw [hl, List.cons_append] at h ⊢
  obtain ⟨hvalue, hrest⟩ := Stmt.reads_iff.mp h
  refine ⟨l, ls ++ rest, rfl, hrest, ?_, ?_⟩
  · rw [hvalue]
    exact Stmt.problemsOf_sites_eq_nil_iff.mpr (isTidy_toStmt p)
  · rw [hvalue]
    exact shapes_sites p hp start

-- An `if` in braces that an `else if` without braces continues, at the end of a block.
theorem read_lexemes_append_elseIf :
    let a : Expr := ⟨[.identifier "a"], nofun, rfl, by decide⟩
    let p : Phrase := .ifElse a (.block [.jump .breakKw rfl none]) (.ifThen a .empty)
    let rest : List Lexeme := [.punct .rbrace]
    p.isProper ∧ (p.endsOpen → rest.head? ≠ some (.keyword .elseKw)) ∧
      ∃ l ls, p.lexemes ++ rest = l :: ls ∧ (Stmt.read false l ls).rest = rest ∧
        Site.problemsOf (Stmt.sites 5 (Stmt.read false l ls).value) = [] ∧
        ((Stmt.sites 5 (Stmt.read false l ls).value).flatMap
          (Site.controlBlocks [] [])).map ControlBlock.shape =
            [⟨.ifBlock, true, ⟨5, 12⟩, some ⟨7, 7⟩⟩, ⟨.elseIf, false, ⟨13, 18⟩, some ⟨16, 16⟩⟩] := by
  intro a p rest
  exact ⟨rfl, nofun, read_lexemes_append p rfl rest nofun 5 [] []⟩

end Phrase
end CLint
