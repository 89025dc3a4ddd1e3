import CLint.Proofs.Indented.Margin
import CLint.Proofs.Indented.Switches

namespace CLint

open Rule Rule.Margin

-- A line as it stands in a file: indented by a number of blanks, and read as some tokens.
structure SetLine extends LaidLine where
  count : Nat
  tokens : List Token

-- What the rule knows of a line. Labels are indented as they should be.
structure SetLine.Stands (o : Outline) (bodies : List Nat) (line : Nat) (l : SetLine) : Prop where
  has : l.row.Has l.count line l.tokens
  lead : leadingBlanks (o.source.lineText line) = List.replicate l.count ' '
  hint : ∀ isSwitch, l.role = .opening isSwitch →
    ∀ t ∈ l.tokens, bodies.contains t.offset = isSwitch
  kept : ∀ label, l.role = .label label → l.count = l.indent

-- What is to be said about a line.
def SetLine.wrong? (l : SetLine) : Option WrongIndent :=
  l.tokens.head?.bind fun t => Margin.wrong? t l.count l.indent

def SetLine.AllStand (o : Outline) (bodies : List Nat) : Nat → List SetLine → Prop
  | _, [] => True
  | line, l :: ls => l.Stands o bodies line ∧ AllStand o bodies (line + 1) ls

variable {o : Outline} {bodies : List Nat} {w line : Nat} {l : SetLine} {m m' : Margin}
  {bs bs' : List OpenBlock} {ts more : List Token} {ws : List WrongIndent}

-- Code that begins a statement or the header of one.
structure Code.Begins (ls : List Lexeme) : Prop where
  nested : isNested ls
  unlabelled : startsLabel ls = false
  last : ∃ l ∈ ls.getLast?, l.isIdentifier = false

-- The text of a label is nested properly.
theorem SwitchLabel.isNested_text (l : SwitchLabel) :
    Code.isNested (.keyword l.word :: l.text) := by
  have hcolon : Code.isNested [.punct .colon] := rfl
  cases l with
  | caseOf value => exact Code.closesAll_append value.nested hcolon
  | default => exact hcolon

namespace Code.Begins

variable {t : Token} (h : Code.Begins ((t :: ts).map (·.lexeme)))

include h

theorem isMark_rbrace : t.lexeme.isMark .rbrace = false := by
  rw [Lexeme.isMark, decide_eq_false_iff_not]
  intro hl
  have hn := h.nested
  rw [List.map_cons, hl] at hn
  cases hn

theorem isLabelWord : Margin.isLabelWord t = false := by
  have hs := h.unlabelled
  rw [Bool.eq_false_iff]
  intro hl
  simp only [Margin.isLabelWord, Lexeme.isWord, Bool.or_eq_true, decide_eq_true_eq] at hl
  rcases hl with hl | hl <;> rw [List.map_cons, hl] at hs <;> cases hs

theorem isNamedLabel (more : List Token) :
    (t.lexeme.isIdentifier && (ts ++ more).head?.any (·.text = ":")) = false := by
  obtain ⟨l, hlast, hl⟩ := h.last
  have hs := h.unlabelled
  cases ht : t.lexeme with
  | identifier name =>
    cases ts with
    | nil =>
      rw [List.map_singleton, ht] at hlast
      cases hlast
      cases hl
    | cons u us =>
      rw [List.map_cons, List.map_cons, ht] at hs
      exact hs
  | _ => rfl

end Code.Begins

namespace SetLine.Stands

variable (h : l.Stands o bodies line)

include h

-- The last token of a line decides whether the next line is checked.
theorem isChecked_of_starts (hs : Step o w bodies bs m l.tokens more ws m') {last : Lexeme}
    (hlast : l.row.code.getLast? = some last) {t : Token} (ht : t.line = line + 1)
    (hstarts : ∀ u, m'.previous = some u → u.lexeme = last → u.line = line →
      m'.startsStatement t) : m'.isChecked t := by
  rw [← h.has.code, List.getLast?_map, Option.map_eq_some_iff] at hlast
  obtain ⟨u, hu, hlexeme⟩ := hlast
  obtain ⟨hline, hend⟩ := h.has.line u (List.mem_of_getLast? hu)
  have hprevious := hs.previous.trans hu
  simp [Margin.isChecked, hprevious, hs.inside.parens, hend, ht,
    hstarts u hprevious hlexeme hline]

theorem isChecked_of_mark (hs : Step o w bodies bs m l.tokens more ws m') {p : Punct}
    (hlast : l.row.code.getLast? = some (.punct p)) (hp : p ∈ [Punct.semicolon, .lbrace, .rbrace]) :
    ∀ t, t.line = line + 1 → m'.isChecked t := by
  refine fun t ht => h.isChecked_of_starts hs hlast ht fun u hu hl _ => ?_
  have hmark : isMarkOf [.semicolon, .lbrace, .rbrace] u :=
    List.any_eq_true.mpr ⟨p, hp, by simp [hl, Lexeme.isMark]⟩
  simp [startsStatement, hu, hmark]

-- A brace on its own line is checked behind the header of its block.
theorem isChecked_lbrace (hs : Step o w bodies bs m l.tokens more ws m') {a : Lexeme}
    (hlast : l.row.code.getLast? = some a)
    (ha : a ∈ [Lexeme.punct .rparen, .keyword .elseKw, .keyword .doKw]) :
    ∀ t, t.line = line + 1 → t.lexeme = .punct .lbrace → m'.isChecked t := by
  refine fun t ht hbrace => h.isChecked_of_starts hs hlast ht fun u hu hlexeme _ => ?_
  simp only [List.mem_cons, List.not_mem_nil, or_false] at ha
  rcases ha with rfl | rfl | rfl <;>
    simp [startsStatement, hu, hlexeme, hbrace, Lexeme.isMark, Lexeme.isWord]

theorem isChecked_of_colon (hs : Step o w bodies bs m l.tokens more ws m')
    (hlast : l.row.code.getLast? = some (.punct .colon)) (hl : m'.labelLine = some line) :
    ∀ t, t.line = line + 1 → m'.isChecked t := by
  refine fun t ht => h.isChecked_of_starts hs hlast ht fun u hu hlexeme hline => ?_
  simp [startsStatement, hu, hlexeme, hline, hl, Lexeme.isMark]

theorem exists_tokens {a : Lexeme} {as : List Lexeme} (hcode : l.row.code = a :: as) :
    ∃ t ts, l.tokens = t :: ts ∧ t.lexeme = a ∧ ts.map (·.lexeme) = as ∧
      ∀ u ∈ t :: ts, u.line = line ∧ u.endLine = line := by
  obtain ⟨t, ts, ht, hl, hls⟩ := List.map_eq_cons_iff.mp (h.has.code.trans hcode)
  exact ⟨t, ts, ht, hl, hls, ht ▸ h.has.line⟩

theorem step_begins (w : Nat) (more : List Token) (hm : m.Inside bs)
    (hc : ∀ t, t.line = line → m.isChecked t) (hb : Code.Begins l.row.code) (hi : l.indent = indentIn w bs) :
    ∃ m', Step o w bodies bs m l.tokens more l.wrong?.toList m' := by
  obtain ⟨a, as, hcode⟩ := List.exists_cons_of_ne_nil (l := l.row.code) fun hnil => by
    obtain ⟨_, hlast, _⟩ := hb.last
    rw [hnil] at hlast
    cases hlast
  obtain ⟨t, ts, ht, rfl, rfl, hts⟩ := h.exists_tokens hcode
  rw [hcode, ← List.map_cons] at hb
  have hstep := hm.step_nested bodies w more (hc t (hts t List.mem_cons_self).1) hts h.lead
    hb.isMark_rbrace hb.isLabelWord (hb.isNamedLabel more) hb.nested
  rw [← hi, ← ht] at hstep
  simpa [wrong?, ht] using hstep

theorem step_opening (w : Nat) (more : List Token) {isSwitch : Bool} (hm : m.Inside bs)
    (hc : ∀ t, t.line = line → t.lexeme = .punct .lbrace → m.isChecked t)
    (hr : l.row = .openBrace) (hrole : l.role = .opening isSwitch)
    (hi : l.indent = indentIn w bs) :
    ∃ m', Step o w bodies ({ content := l.indent + w, isSwitch := isSwitch } :: bs) m l.tokens
      more l.wrong?.toList m' := by
  obtain ⟨t, ts, ht, hl, hnil, hts⟩ := h.exists_tokens (hr ▸ Row.code_openBrace)
  have hswitch := h.hint isSwitch hrole t (ht ▸ List.mem_cons_self)
  have hstep := hm.step_opening bodies w more (hc t (hts t List.mem_cons_self).1 hl) hts h.lead hl
    (List.map_eq_nil_iff.mp hnil)
  rw [hswitch, ← hi, ← ht] at hstep
  simpa [wrong?, ht] using hstep

theorem step_closing (w : Nat) (more : List Token) {b : OpenBlock} {rest : List Lexeme}
    {isOuter : Bool} (hm : m.Inside (b :: bs))
    (hc : ∀ t, t.line = line → m.isChecked t) (hr : l.row.Closes isOuter rest)
    (hb : b.content = l.indent + w) :
    ∃ m', Step o w bodies bs m l.tokens more l.wrong?.toList m' := by
  obtain ⟨t, ts, ht, hl, rfl, hts⟩ := h.exists_tokens hr.code
  have hstep := hm.step_closing bodies w more (hc t (hts t List.mem_cons_self).1) hts h.lead hl hb
    hr.nested
  rw [← ht] at hstep
  simpa [wrong?, ht] using hstep

theorem step_label (w : Nat) (more : List Token) {b : OpenBlock} {r : LabelRow}
    (hm : m.Inside (b :: bs))
    (hc : ∀ t, t.line = line → m.isChecked t) (hr : l.row = r.toRow)
    (hrole : l.role = .label r.label) (hi : l.indent = b.content) :
    ∃ m', Step o w bodies (b.labelled :: bs) m l.tokens more
      l.wrong?.toList m' ∧ m'.labelLine = some line := by
  obtain ⟨t, ts, ht, hl, hls, hts⟩ := h.exists_tokens (hr ▸ r.spelled)
  have hcount := h.kept _ hrole
  have hword : isLabelWord t := by
    rw [isLabelWord, hl]
    cases r.label <;> rfl
  have hnested : Code.isNested ((t :: ts).map (·.lexeme)) := by
    rw [List.map_cons, hl, hls]
    exact r.label.isNested_text
  obtain ⟨m', hstep, hlabel⟩ := hm.step_label bodies w more
    (hc t (hts t List.mem_cons_self).1) hts h.lead (hcount.trans hi) hword hnested
  rw [← ht] at hstep
  refine ⟨m', ?_, hlabel⟩
  simpa [wrong?, Margin.wrong?, ht, hcount] using hstep

end SetLine.Stands

theorem StatementRow.begins (s : StatementRow) : Code.Begins s.code :=
  ⟨s.nested, s.unlabelled, _, s.ended, rfl⟩

theorem SignatureRow.begins (s : SignatureRow) : Code.Begins s.code :=
  ⟨s.nested, s.unlabelled, _, s.ended, rfl⟩

theorem HeaderRow.begins {word : Keyword} (r : HeaderRow word)
    (hw : Stmt.isCaseWord word = false) :
    Code.Begins r.code ∧ r.code.getLast? = some (.punct .rparen) := by
  have hlast : r.code.getLast? = some (.punct .rparen) := by
    rw [r.spelled, Phrase.inParens, ← List.cons_append, List.getLast?_concat]
  refine ⟨⟨?_, ?_, _, hlast, rfl⟩, hlast⟩
  · rw [r.spelled, Code.isNested_cons rfl rfl, ← List.append_nil (Phrase.inParens r.inner)]
    exact Code.isNested_inParens r.nested rfl
  · rw [r.spelled]
    exact hw

theorem Row.Heads.begins {r : Row} {isSwitch : Bool} (h : r.Heads isSwitch) :
    Code.Begins r.code ∧
      ∃ l ∈ [Lexeme.punct .rparen, .keyword .elseKw, .keyword .doKw], r.code.getLast? = some l := by
  cases h with
  | @group word hw r =>
    have hcase : Stmt.isCaseWord word = false := by cases word <;> first | rfl | cases hw
    exact ⟨(r.begins hcase).1, _, by simp, (r.begins hcase).2⟩
  | switchOn r => exact ⟨(r.begins rfl).1, _, by simp, (r.begins rfl).2⟩
  | elseWord =>
    rw [code_elseWord]
    exact ⟨⟨rfl, rfl, _, rfl, rfl⟩, _, by simp, rfl⟩
  | doWord =>
    rw [code_doWord]
    exact ⟨⟨rfl, rfl, _, rfl, rfl⟩, _, by simp, rfl⟩

theorem Row.Closes.exists_last {r : Row} {isOuter : Bool} {rest : List Lexeme}
    (h : r.Closes isOuter rest) :
    ∃ p ∈ [Punct.semicolon, .lbrace, .rbrace], r.code.getLast? = some (.punct p) := by
  rw [h.code]
  cases hl : rest.getLast? with
  | none =>
    rw [List.getLast?_eq_none_iff.mp hl]
    exact ⟨.rbrace, by simp, rfl⟩
  | some l =>
    cases h.ended l hl
    exact ⟨.semicolon, by simp, by rw [List.getLast?_cons, hl]; rfl⟩

theorem LabelRow.getLast?_code (r : LabelRow) : r.code.getLast? = some (.punct .colon) := by
  rw [r.spelled]
  cases r.label with
  | caseOf value => rw [SwitchLabel.text, ← List.cons_append, List.getLast?_concat]
  | default => rfl

-- What is reported of some lines is what is reported of the first one and of the others.
theorem Rule.Margin.Step.wrongIndents_cons {ls : List SetLine}
    (h : Step o w bodies bs m l.tokens (ls.flatMap (·.tokens)) l.wrong?.toList m')
    (hls : Margin.wrongIndents o w bodies m' (ls.flatMap (·.tokens)) = ls.filterMap (·.wrong?)) :
    Margin.wrongIndents o w bodies m ((l :: ls).flatMap (·.tokens)) =
      (l :: ls).filterMap (·.wrong?) := by
  rw [List.flatMap_cons, h.wrong, hls, List.filterMap_cons]
  cases l.wrong? <;> rfl

-- By induction on the lines: each is taken as what it is, and reported if it is not indented as it
-- should be. What is reported does not change what is open behind the line.
theorem Laid.wrongIndents {heads : Row → Bool → Prop} {ls : List SetLine}
    (hheads : ∀ r isSwitch, heads r isSwitch → ∃ isSwitch', r.Heads isSwitch')
    (h : Laid heads w bs (ls.map (·.toLaidLine)))
    (hls : SetLine.AllStand o bodies line ls) (hm : m.Inside bs)
    (hc : ∀ t, t.line = line → m.isChecked t) :
    Margin.wrongIndents o w bodies m (ls.flatMap (·.tokens)) = ls.filterMap (·.wrong?) := by
  generalize hlaid : ls.map (·.toLaidLine) = laid at h
  induction h generalizing ls line m with
  | done =>
    cases List.map_eq_nil_iff.mp hlaid
    rfl
  | @function s laid h ih =>
    obtain ⟨⟨_, count, tokens⟩, ls, rfl, ⟨⟩, htail⟩ := List.map_eq_cons_iff.mp hlaid
    obtain ⟨⟨_, count', tokens'⟩, ls, rfl, ⟨⟩, rfl⟩ := List.map_eq_cons_iff.mp htail
    obtain ⟨hhead, hbrace, hrest⟩ := hls
    obtain ⟨m₁, hstep⟩ := hhead.step_begins w
      (List.flatMap (·.tokens) (⟨⟨0, .openBrace, .opening false⟩, count', tokens'⟩ :: ls)) hm hc
      s.begins rfl
    have hc₁ := hhead.isChecked_lbrace hstep s.ended (by simp)
    obtain ⟨m₂, hstep'⟩ := hbrace.step_opening w (ls.flatMap (·.tokens)) hstep.inside hc₁ rfl rfl
      rfl
    have hc₂ := hbrace.isChecked_of_mark hstep' (congrArg _ Row.code_openBrace) (by simp)
    have hinside : m₂.Inside [{ content := w }] := by simpa using hstep'.inside
    exact hstep.wrongIndents_cons (hstep'.wrongIndents_cons (ih hrest hinside hc₂ rfl))
  | statement s h ih =>
    obtain ⟨⟨_, count, tokens⟩, ls, rfl, ⟨⟩, rfl⟩ := List.map_eq_cons_iff.mp hlaid
    obtain ⟨hstands, hrest⟩ := hls
    obtain ⟨m₁, hstep⟩ := hstands.step_begins w (ls.flatMap (·.tokens)) hm hc s.begins rfl
    have hc₁ := hstands.isChecked_of_mark hstep s.ended (by simp)
    exact hstep.wrongIndents_cons (ih hrest hstep.inside hc₁ rfl)
  | block h ih =>
    obtain ⟨⟨_, count, tokens⟩, ls, rfl, ⟨⟩, rfl⟩ := List.map_eq_cons_iff.mp hlaid
    obtain ⟨hstands, hrest⟩ := hls
    obtain ⟨m₁, hstep⟩ := hstands.step_opening w (ls.flatMap (·.tokens)) hm (fun t ht _ => hc t ht)
      rfl rfl rfl
    have hc₁ := hstands.isChecked_of_mark hstep (congrArg _ Row.code_openBrace) (by simp)
    exact hstep.wrongIndents_cons (ih hrest hstep.inside hc₁ rfl)
  | @headed r isSwitch hr b bs laid h ih =>
    obtain ⟨⟨_, count, tokens⟩, ls, rfl, ⟨⟩, htail⟩ := List.map_eq_cons_iff.mp hlaid
    obtain ⟨⟨_, count', tokens'⟩, ls, rfl, ⟨⟩, rfl⟩ := List.map_eq_cons_iff.mp htail
    obtain ⟨hhead, hbrace, hrest⟩ := hls
    obtain ⟨_, hr⟩ := hheads r isSwitch hr
    obtain ⟨hbegins, last, hmem, hlast⟩ := hr.begins
    obtain ⟨m₁, hstep⟩ := hhead.step_begins w
      (List.flatMap (·.tokens)
        (⟨⟨b.indent w, .openBrace, .opening isSwitch⟩, count', tokens'⟩ :: ls)) hm hc hbegins rfl
    have hc₁ := hhead.isChecked_lbrace hstep hlast hmem
    obtain ⟨m₂, hstep'⟩ := hbrace.step_opening w (ls.flatMap (·.tokens)) hstep.inside hc₁ rfl rfl
      rfl
    have hc₂ := hbrace.isChecked_of_mark hstep' (congrArg _ Row.code_openBrace) (by simp)
    exact hstep.wrongIndents_cons (hstep'.wrongIndents_cons (ih hrest hstep'.inside hc₂ rfl))
  | closing hr hi h ih =>
    obtain ⟨⟨_, count, tokens⟩, ls, rfl, ⟨⟩, rfl⟩ := List.map_eq_cons_iff.mp hlaid
    obtain ⟨hstands, hrest⟩ := hls
    obtain ⟨m₁, hstep⟩ := hstands.step_closing w (ls.flatMap (·.tokens)) hm hc hr hi
    obtain ⟨p, hp, hlast⟩ := hr.exists_last
    have hc₁ := hstands.isChecked_of_mark hstep hlast hp
    exact hstep.wrongIndents_cons (ih hrest hstep.inside hc₁ rfl)
  | label r h ih =>
    obtain ⟨⟨_, count, tokens⟩, ls, rfl, ⟨⟩, rfl⟩ := List.map_eq_cons_iff.mp hlaid
    obtain ⟨hstands, hrest⟩ := hls
    obtain ⟨m₁, hstep, hlabel⟩ := hstands.step_label w (ls.flatMap (·.tokens)) hm hc rfl rfl rfl
    have hc₁ := hstands.isChecked_of_colon hstep r.getLast?_code hlabel
    exact hstep.wrongIndents_cons (ih hrest hstep.inside hc₁ rfl)

end CLint
