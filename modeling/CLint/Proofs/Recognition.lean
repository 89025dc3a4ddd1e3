import CLint.Proofs.Grammar

namespace CLint

variable {ls ms rest : List Lexeme}

namespace Code

theorem closesAll_append {awaited : List Lexeme} (h : closesAll awaited ls) (hm : isNested ms) :
    closesAll awaited (ls ++ ms) := by
  simpa using closesAll_append_append h hm

theorem isNested_cons {l : Lexeme} (hc : l.closer? = none) (hl : l.closes = false) :
    isNested (l :: ls) = isNested ls := by
  simp [isNested, closesAll, hc, hl]

end Code

theorem Stmt.readGroup_inParens {semicolons : Bool} (hn : Code.isNested ls)
    (hs : ∀ l ∈ ls, l.breaksOff → semicolons ∧ l = .punct .semicolon) :
    Stmt.readGroup semicolons (Phrase.inParens ls ++ rest) =
      (some ⟨ls, some (.punct .rparen)⟩, rest) := by
  have h := Group.read_nested hn hs (.punct .rparen :: rest) 0
  have hclose : Group.read semicolons 0 0 (.punct .rparen :: rest) =
      (⟨[], some (.punct .rparen)⟩, rest) := by
    simp [Group.read, Lexeme.isOpener, Lexeme.isCloser]
  rw [List.length_nil, Nat.add_zero, hclose, List.append_nil] at h
  simp [Phrase.inParens, Stmt.readGroup, h]

theorem Stmt.readText_nested {l : Lexeme} (hn : Code.isNested (l :: ls))
    (hb : ∀ m ∈ ls, m.breaksOff = false) :
    Stmt.readText l (ls ++ .punct .semicolon :: rest) = (ls, true, rest) := by
  have h : Scan.Awaits {} [] := ⟨rfl, rfl, rfl⟩
  exact readText_flat hb (h.foldl_step hn).isTop

namespace Expr

theorem isNested_optional (e : Option Expr) : Code.isNested (optional e) := by
  cases e with
  | none => rfl
  | some e => exact e.nested

theorem flat_of_mem_optional {e : Option Expr} {l : Lexeme} (h : l ∈ optional e) :
    l.breaksOff = false := by
  cases e with
  | none => cases h
  | some e => exact e.flat l h

theorem readGroup_inParens (e : Expr) :
    Stmt.readGroup false (Phrase.inParens e.lexemes ++ rest) =
      (some ⟨e.lexemes, some (.punct .rparen)⟩, rest) :=
  Stmt.readGroup_inParens e.nested fun l hl hb => by simp [e.flat l hl] at hb

theorem readGroup_forHeader (init condition step : Option Expr) :
    Stmt.readGroup true (Phrase.inParens (Phrase.forHeader init condition step) ++ rest) =
      (some ⟨Phrase.forHeader init condition step, some (.punct .rparen)⟩, rest) := by
  have hsemi : ∀ e, Code.isNested (.punct .semicolon :: optional e) := fun e =>
    (Code.isNested_cons rfl rfl).trans (isNested_optional e)
  refine Stmt.readGroup_inParens ?_ fun l hl hb => ⟨rfl, ?_⟩
  · exact Code.closesAll_append (Code.closesAll_append (isNested_optional _) (hsemi _)) (hsemi _)
  · simp only [Phrase.forHeader, List.mem_append, List.mem_cons] at hl
    rcases hl with (hl | rfl | hl) | rfl | hl <;>
      first | rfl | simp [flat_of_mem_optional hl] at hb

theorem isPlain_of_standsAlone {e : Expr} {l : Lexeme} (h : e.standsAlone)
    (hl : e.lexemes = l :: ls) : l.isPlain := by
  have hb := e.flat l (hl ▸ List.mem_cons_self)
  unfold Lexeme.isPlain
  split
  case h_1 | h_2 | h_3 => cases hb
  case h_4 k => simpa [standsAlone, hl] using h
  case h_5 => rfl

theorem not_startsLabel {e : Expr} {l : Lexeme} (h : e.standsAlone) (hl : e.lexemes = l :: ls) :
    Stmt.startsLabel l (ls ++ .punct .semicolon :: rest) = false := by
  unfold standsAlone at h
  rw [hl] at h
  cases ls with
  | nil => simp [Stmt.startsLabel, Lexeme.isMark]
  | cons m ls =>
    cases l <;> simp_all [Stmt.startsLabel, Lexeme.isIdentifier, Lexeme.isMark]
    rintro rfl
    simp at h

end Expr
namespace Phrase

-- What stands behind an `else`, as the part that continues an `if`.
def elseOf : Stmt → Stmt
  | .control .ifHead group parts => .control .elseIf group parts
  | s => .control .elseHead none [s]

mutual

-- The statement that a phrase is read as.
def toStmt : Phrase → Stmt
  | empty => .empty
  | expr e _ => .simple false (e.lexemes.head e.ne_nil) e.lexemes.tail true
  | jump word _ value => .jump word (Expr.optional value) true
  | block items => .block (toStmts items) true
  | ifThen condition body =>
    .control .ifHead (some ⟨condition.lexemes, some (.punct .rparen)⟩) [toStmt body]
  | ifElse condition body other =>
    .control .ifHead (some ⟨condition.lexemes, some (.punct .rparen)⟩)
      [toStmt body, elseOf (toStmt other)]
  | whileDo condition body =>
    .control .whileHead (some ⟨condition.lexemes, some (.punct .rparen)⟩) [toStmt body]
  | doWhile body condition =>
    .control .doHead none
      [toStmt body, .doWhile (some ⟨condition.lexemes, some (.punct .rparen)⟩) true]
  | forDo init condition step body =>
    .control .forHead (some ⟨forHeader init condition step, some (.punct .rparen)⟩) [toStmt body]
  | switchOn subject cases =>
    .control .switchHead (some ⟨subject.lexemes, some (.punct .rparen)⟩)
      [.block (groupStmts cases) true]

def toStmts : List Phrase → List Stmt
  | [] => []
  | p :: ps => toStmt p :: toStmts ps

def groupStmts : List CaseGroup → List Stmt
  | [] => []
  | ⟨label, items⟩ :: gs =>
    .label (.keyword label.word) label.text :: toStmts items ++ groupStmts gs

end

-- A phrase begins with a lexeme that neither closes a block nor continues an `if`.
theorem exists_lexemes (p : Phrase) :
    ∃ l ls, p.lexemes = l :: ls ∧ l ≠ .punct .rbrace ∧ l ≠ .keyword .elseKw := by
  cases p with
  | expr e h =>
    refine ⟨e.lexemes.head e.ne_nil, e.lexemes.tail ++ [.punct .semicolon], ?_, ?_, ?_⟩
    · rw [lexemes, ← List.cons_append, List.cons_head_tail]
    · have hb := e.flat _ (List.head_mem e.ne_nil)
      intro hl
      rw [hl] at hb
      cases hb
    · have hp := Expr.isPlain_of_standsAlone h (List.cons_head_tail e.ne_nil).symm
      intro hl
      rw [hl] at hp
      cases hp
  | jump word h =>
    refine ⟨_, _, rfl, nofun, ?_⟩
    rintro ⟨⟩
    cases h
  | _ => exact ⟨_, _, rfl, nofun, nofun⟩

theorem head?_ne_else (p : Phrase) (rest : List Lexeme) :
    (p.lexemes ++ rest).head? ≠ some (.keyword .elseKw) := by
  obtain ⟨l, ls, hp, _, hl⟩ := p.exists_lexemes
  rw [hp]
  exact fun h => hl (Option.some.inj h)

-- Only the two phrases for an `if` begin with this word.
theorem head?_ne_if {p : Phrase} (h : p.isIf = false) (rest : List Lexeme) :
    (p.lexemes ++ rest).head? ≠ some (.keyword .ifKw) := by
  cases p with
  | expr e he =>
    have hp := Expr.isPlain_of_standsAlone he (List.cons_head_tail e.ne_nil).symm
    rw [lexemes, ← List.cons_head_tail e.ne_nil]
    intro hl
    rw [Option.some.inj hl] at hp
    cases hp
  | jump word hw =>
    rintro ⟨⟩
    cases hw
  | ifThen | ifElse => cases h
  | _ => nofun

theorem reads_body {p : Phrase} (h : Stmt.Reads (.stmt false) (p.lexemes ++ rest) [p.toStmt] ms) :
    Stmt.Reads .body (p.lexemes ++ rest) [p.toStmt] ms := by
  obtain ⟨l, ls, hp, hl, _⟩ := p.exists_lexemes
  rw [hp] at h ⊢
  exact .body hl h

-- The part that continues an `if`.
theorem reads_tail {p : Phrase} (h : Stmt.Reads (.stmt false) (p.lexemes ++ rest) [p.toStmt] rest) :
    Stmt.Reads .tail (.keyword .elseKw :: p.lexemes ++ rest) [elseOf p.toStmt] rest := by
  have hbody := reads_body h
  cases p with
  | ifThen c b => exact .elseIf h
  | ifElse c b o => exact .elseIf h
  | _ => exact .elseBody (head?_ne_if rfl rest) hbody

theorem isCaseWord_word (label : CaseLabel) : Stmt.isCaseWord label.word := by
  cases label <;> rfl

theorem readLabel_text (label : CaseLabel) (rest : List Lexeme) :
    Stmt.readLabel 0 0 (label.text ++ rest) = (label.text, rest) := by
  have hcolon : Stmt.readLabel 0 0 (.punct .colon :: rest) = ([.punct .colon], rest) := by
    simp [Stmt.readLabel, Lexeme.isOpener, Lexeme.isCloser, Lexeme.isMark]
  cases label with
  | default => exact hcolon
  | caseOf value h =>
    cases value <;> simp [Lexeme.isIdentifier, Lexeme.isLiteral, Lexeme.kind] at h <;>
    simp [CaseLabel.text, Stmt.readLabel, Lexeme.isOpener, Lexeme.isCloser, Lexeme.isMark, Cut.keep]

theorem readDoWhile_inParens (e : Expr) (rest : List Lexeme) :
    Stmt.readDoWhile (.keyword .whileKw :: (inParens e.lexemes ++ .punct .semicolon :: rest)) =
      ([.doWhile (some ⟨e.lexemes, some (.punct .rparen)⟩) true], rest) := by
  simp [Stmt.readDoWhile, Expr.readGroup_inParens, Stmt.semicolon]

mutual

-- By induction on phrases: each is read as the statement that it stands for, as long as no `else`
-- is behind it that would belong to an `if` in it.
theorem reads_toStmt (p : Phrase) (hp : p.isProper) (rest : List Lexeme)
    (hr : p.endsOpen → rest.head? ≠ some (.keyword .elseKw)) :
    Stmt.Reads (.stmt false) (p.lexemes ++ rest) [p.toStmt] rest := by
  cases p with
  | empty => exact .empty
  | expr e he =>
    have hl := List.cons_head_tail e.ne_nil
    rw [lexemes, toStmt, List.append_assoc]
    conv in e.lexemes ++ _ => rw [← hl]
    refine .simple (Expr.isPlain_of_standsAlone he hl.symm) ?_ (Stmt.readText_nested ?_ ?_) rfl
    · exact Expr.not_startsLabel he hl.symm
    · rw [hl]
      exact e.nested
    · exact fun m hm => e.flat m (List.mem_of_mem_tail hm)
  | jump word hw value =>
    rw [lexemes, toStmt, List.cons_append, List.cons_append, List.append_assoc]
    refine .jump hw (Stmt.readText_nested ?_ fun m hm => Expr.flat_of_mem_optional hm)
    exact (Code.isNested_cons rfl rfl).trans (Expr.isNested_optional value)
  | block items =>
    have hend : Stmt.Reads .block (.punct .rbrace :: rest) [.block [] true] rest := .blockClose
    have hi := reads_items items hp (by simp) hend
    rw [List.append_nil] at hi
    simpa [lexemes, toStmt] using Stmt.Reads.block hi
  | ifThen condition body =>
    have hb := reads_toStmt body hp rest fun _ => hr rfl
    simpa [lexemes, toStmt] using
      Stmt.Reads.branch condition.readGroup_inParens (reads_body hb) (.noTail (hr rfl))
  | ifElse condition body other =>
    simp only [isProper, Bool.and_eq_true, Bool.not_eq_true'] at hp
    have ho := reads_toStmt other hp.2 rest hr
    have hb := reads_toStmt body hp.1.2 (.keyword .elseKw :: other.lexemes ++ rest)
      fun h => by simp [hp.1.1] at h
    simpa [lexemes, toStmt] using
      Stmt.Reads.branch condition.readGroup_inParens (reads_body hb) (reads_tail ho)
  | whileDo condition body =>
    have hb := reads_toStmt body hp rest hr
    simpa [lexemes, toStmt] using
      Stmt.Reads.headed (k := .whileKw) rfl condition.readGroup_inParens (reads_body hb)
  | doWhile body condition =>
    have hb := reads_toStmt body hp
      (.keyword .whileKw :: (inParens condition.lexemes ++ .punct .semicolon :: rest))
      fun _ => by simp
    simpa [lexemes, toStmt] using
      Stmt.Reads.doLoop (reads_body hb) (readDoWhile_inParens condition rest)
  | forDo init condition step body =>
    have hb := reads_toStmt body hp rest hr
    simpa [lexemes, toStmt] using
      Stmt.Reads.headed (k := .forKw) rfl (Expr.readGroup_forHeader init condition step)
        (reads_body hb)
  | switchOn subject cases =>
    have hc := reads_groupStmts cases hp rest
    simpa [lexemes, toStmt] using
      Stmt.Reads.headed (k := .switchKw) rfl subject.readGroup_inParens
        (.body (l := .punct .lbrace) nofun (.block hc))

theorem reads_items (ps : List Phrase) (hp : listProper ps) {more rest : List Lexeme}
    {ss : List Stmt} {closed : Bool} (hm : more.head? ≠ some (.keyword .elseKw))
    (h : Stmt.Reads .block more [.block ss closed] rest) :
    Stmt.Reads .block (listLexemes ps ++ more) [.block (toStmts ps ++ ss) closed] rest := by
  cases ps with
  | nil => exact h
  | cons p ps =>
    simp only [listProper, Bool.and_eq_true] at hp
    have hi := reads_items ps hp.2 hm h
    have hs := reads_toStmt p hp.1 (listLexemes ps ++ more) fun _ => by
      cases ps with
      | nil => exact hm
      | cons q ps =>
        rw [listLexemes, List.append_assoc]
        exact head?_ne_else q _
    obtain ⟨l, ls, hl, hbrace, _⟩ := p.exists_lexemes
    rw [hl] at hs
    rw [listLexemes, List.append_assoc, hl]
    exact .blockItem hbrace hs hi

theorem reads_groupStmts (gs : List CaseGroup) (hp : casesProper gs) (rest : List Lexeme) :
    Stmt.Reads .block (caseLexemes gs ++ .punct .rbrace :: rest) [.block (groupStmts gs) true]
      rest := by
  cases gs with
  | nil => exact .blockClose
  | cons g gs =>
    obtain ⟨label, items⟩ := g
    simp only [casesProper, Bool.and_eq_true] at hp
    have hg := reads_groupStmts gs hp.2 rest
    have hm : (caseLexemes gs ++ .punct .rbrace :: rest).head? ≠ some (.keyword .elseKw) := by
      rcases gs with _ | ⟨⟨_ | _, _⟩, _⟩ <;> nofun
    have hi := reads_items items hp.1 hm hg
    simpa [caseLexemes, groupStmts, CaseLabel.lexemes] using
      Stmt.Reads.blockItem (l := .keyword label.word) nofun
        (.caseLabel (isCaseWord_word label) (readLabel_text label _)) hi

end

end Phrase
end CLint
