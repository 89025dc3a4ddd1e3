import CLint.Proofs.Indented.Choice
import CLint.Proofs.Indented.Within

namespace CLint

-- What a way through a file knows of a block that is open.
def OpenBlock.frame (b : OpenBlock) : Rule.Frame where
  content := b.content
  isSwitch := b.isSwitch
  label := b.label.map (↑)

namespace Rule.Margin

variable {m : Margin} {o : Outline} {width : Int} {bodies : List Nat} {lead : List Char}
  {t : Token} {ts us : List Token} {line count : Nat} {bs : List OpenBlock}

-- What the tokens of a line change for the tokens after it.
def passAll (m : Margin) (width : Int) (bodies : List Nat) (lead : List Char) (ts : List Token) :
    Margin :=
  ts.foldl (pass · width bodies lead) m

section Pass

variable (m width bodies lead t)

@[simp]
theorem bottom_pass : (m.pass width bodies lead t).bottom = m.bottom := by
  fun_cases pass m width bodies lead t <;> rfl

@[simp]
theorem previous_pass : (m.pass width bodies lead t).previous = some t := by
  fun_cases pass m width bodies lead t <;> rfl

theorem labelLine_pass : (m.pass width bodies lead t).labelLine =
    if isLabelWord t then some t.line else m.labelLine := by
  fun_cases pass m width bodies lead t <;> rfl

variable {t}

theorem pass_opener (h : t.lexeme.isOpener) :
    (m.pass width bodies lead t).frames = m.frames ∧
      (m.pass width bodies lead t).parens = m.parens + 1 := by
  fun_cases pass m width bodies lead t with
  | case1 | case2 => exact ⟨rfl, rfl⟩
  | _ => simp_all [Lexeme.isOpener]

theorem pass_closer (h : t.lexeme.isCloser) :
    (m.pass width bodies lead t).frames = m.frames ∧
      (m.pass width bodies lead t).parens = m.parens - 1 := by
  fun_cases pass m width bodies lead t with
  | case3 | case4 => exact ⟨rfl, rfl⟩
  | _ => simp_all [Lexeme.isCloser]

theorem pass_lbrace (h : t.lexeme = .punct .lbrace) :
    (m.pass width bodies lead t).frames =
        { content := m.lineIndent lead t + width, isSwitch := bodies.contains t.offset } ::
          m.frames ∧
      (m.pass width bodies lead t).parens = m.parens := by
  simp [pass, h, lineIndent]

theorem pass_rbrace (h : t.lexeme = .punct .rbrace) :
    (m.pass width bodies lead t).frames = m.frames.tail ∧
      (m.pass width bodies lead t).parens = m.parens := by
  simp [pass, h]

theorem pass_other (ho : ¬t.lexeme.isOpener) (hb : ¬t.lexeme.isMark .lbrace)
    (hc : ¬t.lexeme.closes) :
    (m.pass width bodies lead t).frames = m.frames ∧
      (m.pass width bodies lead t).parens = m.parens := by
  fun_cases pass m width bodies lead t with
  | case7 => exact ⟨rfl, rfl⟩
  | _ => simp_all [Lexeme.isOpener, Lexeme.isMark, Lexeme.closes, Lexeme.isCloser]

end Pass

-- Code that is nested properly leaves everything open as it was, but for what it closes.
theorem passAll_nested {awaited : List Lexeme} {fs base : List Frame} {n : Nat}
    (hn : Code.closesAll awaited (ts.map (·.lexeme))) (hf : m.frames = fs ++ base)
    (hfs : fs.length = awaited.count (.punct .rbrace))
    (hp : m.parens = awaited.countP Lexeme.isCloser + n) :
    (m.passAll width bodies lead ts).bottom = m.bottom ∧
      (m.passAll width bodies lead ts).frames = base ∧
      (m.passAll width bodies lead ts).parens = n := by
  induction ts generalizing m awaited fs with
  | nil =>
    cases List.isEmpty_iff.mp hn
    cases List.length_eq_zero_iff.mp hfs
    rw [List.countP_nil, Nat.zero_add] at hp
    exact ⟨rfl, hf, hp⟩
  | cons t ts ih =>
    rw [List.map_cons] at hn
    rw [passAll, List.foldl_cons, ← passAll]
    rw [← bottom_pass m width bodies lead t]
    by_cases ho : t.lexeme.isOpener
    · obtain ⟨c, hc, hn⟩ := Code.closesAll_opener hn ho
      obtain ⟨hframes, hparens⟩ := pass_opener m width bodies lead ho
      refine ih hn (hframes.trans hf) ?_ ?_
      · rw [List.count_cons_of_ne (by rintro rfl; cases hc), hfs]
      · rw [hparens, hp, List.countP_cons_of_pos hc]
        omega
    by_cases hb : t.lexeme.isMark .lbrace
    · have hb := of_decide_eq_true hb
      obtain ⟨hframes, hparens⟩ := pass_lbrace m width bodies lead hb
      rw [hb] at hn
      have hn : Code.closesAll (.punct .rbrace :: awaited) (ts.map (·.lexeme)) := hn
      rw [hf, ← List.cons_append] at hframes
      refine ih hn hframes ?_ ?_
      · rw [List.count_cons_self, List.length_cons, hfs]
      · rw [hparens, hp, List.countP_cons_of_neg (by decide)]
    by_cases hc : t.lexeme.closes
    · obtain ⟨awaited, rfl, hrest⟩ := Code.closesAll_closing hn hc
      by_cases hcloser : t.lexeme.isCloser
      · obtain ⟨hframes, hparens⟩ := pass_closer m width bodies lead hcloser
        refine ih hrest (hframes.trans hf) ?_ ?_
        · rw [hfs, List.count_cons_of_ne (by intro h; rw [h] at hcloser; cases hcloser)]
        · rw [hparens, hp, List.countP_cons_of_pos hcloser]
          omega
      · have hr : t.lexeme = .punct .rbrace := by
          simpa [Lexeme.closes, hcloser, Lexeme.isMark] using hc
        obtain ⟨hframes, hparens⟩ := pass_rbrace m width bodies lead hr
        rw [hr, List.count_cons_self] at hfs
        obtain ⟨f, fs, rfl⟩ := List.exists_cons_of_length_eq_add_one hfs
        refine ih hrest (hframes.trans (by rw [hf]; rfl)) (Nat.succ.inj hfs) ?_
        rw [hparens, hp, List.countP_cons_of_neg hcloser]
    · obtain ⟨hframes, hparens⟩ := pass_other m width bodies lead ho hb hc
      exact ih (Code.closesAll_other hn ho hb hc) (hframes.trans hf) hfs (hparens.trans hp)

theorem passAll_isNested (hn : Code.isNested (ts.map (·.lexeme))) :
    (m.passAll width bodies lead ts).bottom = m.bottom ∧
      (m.passAll width bodies lead ts).frames = m.frames ∧
      (m.passAll width bodies lead ts).parens = m.parens :=
  passAll_nested hn (List.nil_append _).symm rfl (Nat.zero_add _).symm

theorem previous_passAll (hts : ts ≠ []) :
    (m.passAll width bodies lead ts).previous = ts.getLast? := by
  obtain ⟨us, t, rfl⟩ := List.eq_nil_or_concat' ts |>.resolve_left hts
  rw [passAll, List.foldl_append, List.getLast?_concat]
  exact previous_pass ..

theorem labelLine_passAll (hm : m.labelLine = some line) (hts : ∀ t ∈ ts, t.line = line) :
    (m.passAll width bodies lead ts).labelLine = some line := by
  induction ts generalizing m with
  | nil => exact hm
  | cons t ts ih =>
    obtain ⟨ht, hts⟩ := List.forall_mem_cons.mp hts
    refine ih ?_ hts
    rw [labelLine_pass, ht, hm]
    exact ite_self _

-- Of the tokens of a line only the first one is checked.
theorem wrongIndents_same {p : Token} {more : List Token} (hm : m.previous = some p)
    (hp : p.endLine = line) (hts : ∀ t ∈ ts, t.line = line ∧ t.endLine = line)
    (hlead : leadingBlanks (o.source.lineText line) = lead) :
    wrongIndents o width bodies m (ts ++ more) =
      wrongIndents o width bodies (m.passAll width bodies lead ts) more := by
  induction ts generalizing m p with
  | nil => rfl
  | cons t ts ih =>
    obtain ⟨⟨hline, hend⟩, hts⟩ := List.forall_mem_cons.mp hts
    have hchecked : m.isChecked t = false := by
      simp [isChecked, hm, hp, hline]
    rw [List.cons_append, wrongIndents, hline, hlead]
    simp only [hchecked, Bool.false_eq_true, if_false, Option.toList_none, List.nil_append]
    exact ih (previous_pass ..) hend hts

-- The tokens of a line, the first of which begins a statement.
theorem wrongIndents_line (width : Int) (bodies : List Nat) {more : List Token}
    {r : Option WrongIndent × Margin} (hchecked : m.isChecked t)
    (hts : ∀ u ∈ t :: ts, u.line = line ∧ u.endLine = line)
    (hlead : leadingBlanks (o.source.lineText line) = lead)
    (hr : m.checkLine width lead t (ts ++ more).head? = r) :
    wrongIndents o width bodies m (t :: ts ++ more) =
      r.1.toList ++ wrongIndents o width bodies (r.2.passAll width bodies lead (t :: ts)) more := by
  obtain ⟨⟨hline, hend⟩, hts⟩ := List.forall_mem_cons.mp hts
  rw [List.cons_append, wrongIndents, hline, hlead]
  simp only [hchecked, if_true, hr]
  rw [wrongIndents_same (previous_pass ..) hend hts hlead]
  rfl

-- What is to be said about a line of which the first token is `t`, if it is indented by `count`
-- blanks and should be by `expected`.
def wrong? (t : Token) (count expected : Nat) : Option WrongIndent :=
  if count = expected then none else some ⟨t, count, expected⟩

theorem checkLine_of_allowed {x : Nat} {following : Option Token}
    (ha : m.allowed width t following = [(x : Int)]) (hl : isLabelWord t = false) :
    m.checkLine width (List.replicate count ' ') t following =
      (wrong? t count x, { m with current := some (t.line, (x : Int)) }) := by
  have htab : (List.replicate count ' ').contains '\t' = false := by simp
  simp only [checkLine, htab, Bool.false_eq_true, if_false, List.length_replicate, ha,
    closest_singleton, Int.natCast_inj, hl, Bool.false_and, wrong?]

-- The blocks `bs` are open and nothing else is.
structure Inside (m : Margin) (bs : List OpenBlock) : Prop where
  bottom : m.bottom = { content := 0 }
  frames : m.frames = bs.map OpenBlock.frame
  parens : m.parens = 0

-- How deep a statement is indented that the blocks `bs` are around.
def indentIn (width : Nat) (bs : List OpenBlock) : Nat :=
  (bs.head?.map (·.indent width)).getD 0

-- What comes of a line that is read in the blocks `bs`, and where `bs'` are open behind it.
structure Step (o : Outline) (width : Int) (bodies : List Nat) (bs' : List OpenBlock)
    (m : Margin) (ts more : List Token) (ws : List WrongIndent) (m' : Margin) : Prop where
  inside : m'.Inside bs'
  previous : m'.previous = ts.getLast?
  wrong : wrongIndents o width bodies m (ts ++ more) = ws ++ wrongIndents o width bodies m' more

namespace Inside

variable {w : Nat} {more : List Token}

theorem allowed {following : Option Token} (h : m.Inside bs)
    (hr : t.lexeme.isMark .rbrace = false) (hl : isLabelWord t = false)
    (hn : (t.lexeme.isIdentifier && following.any (·.text = ":")) = false) :
    m.allowed w t following = [(indentIn w bs : Int)] := by
  cases bs with
  | nil => simp [Margin.allowed, top, h.frames, h.bottom, hr, hn, indentIn]
  | cons b bs =>
    cases hb : b.isSwitch <;> cases hlabel : b.label <;>
      simp [Margin.allowed, top, h.frames, hr, hl, hn, indentIn, OpenBlock.frame,
        OpenBlock.indent, hb, hlabel]

theorem allowed_rbrace {b : OpenBlock} {indent : Nat} {following : Option Token}
    (h : m.Inside (b :: bs)) (hr : t.lexeme = .punct .rbrace)
    (hb : b.content = indent + w) : m.allowed w t following = [(indent : Int)] := by
  simp [Margin.allowed, top, h.frames, hr, Lexeme.isMark, OpenBlock.frame, hb]

-- Code that is nested properly leaves open what was open before it.
theorem passAll (h : m.Inside bs) (hn : Code.isNested (ts.map (·.lexeme))) :
    (m.passAll width bodies lead ts).Inside bs := by
  obtain ⟨hbottom, hframes, hparens⟩ := passAll_isNested hn
  exact ⟨hbottom.trans h.bottom, hframes.trans h.frames, hparens.trans h.parens⟩

theorem set_current (h : m.Inside bs) (c : Option (Nat × Int)) :
    ({ m with current := c } : Margin).Inside bs :=
  ⟨h.bottom, h.frames, h.parens⟩

-- A label that stands where it should.
theorem checkLine_label {b : OpenBlock} {following : Option Token} (h : m.Inside (b :: bs))
    (hl : isLabelWord t) :
    m.checkLine w (List.replicate b.content ' ') t following =
      (none, { m with
        current := some (t.line, b.content)
        frames := (b.labelled :: bs).map OpenBlock.frame }) := by
  obtain ⟨hr, hi⟩ : t.lexeme.isMark .rbrace = false ∧ t.lexeme.isIdentifier = false := by
    simp only [isLabelWord, Lexeme.isWord, Bool.or_eq_true, decide_eq_true_eq] at hl
    rcases hl with hl | hl <;> simp [hl, Lexeme.isMark, Lexeme.isIdentifier]
  have hmem : (b.content : Int) ∈ m.allowed w t following := by
    cases hb : b.isSwitch <;>
      simp [Margin.allowed, top, h.frames, OpenBlock.frame, hr, hi, hb, hl]
  have hclosest := (closest_eq_self_allowed_iff m w t following).mpr hmem
  cases hb : b.isSwitch <;>
    simp [checkLine, hclosest, hl, top, h.frames, OpenBlock.frame, OpenBlock.labelled, hb, setLabel]

section Lines

variable (w bodies more)

variable (hc : m.isChecked t) (hts : ∀ u ∈ t :: ts, u.line = line ∧ u.endLine = line)
  (hlead : leadingBlanks (o.source.lineText line) = List.replicate count ' ')

include hc hts hlead

theorem step_nested (h : m.Inside bs) (hr : t.lexeme.isMark .rbrace = false)
    (hl : isLabelWord t = false)
    (hn : (t.lexeme.isIdentifier && (ts ++ more).head?.any (·.text = ":")) = false)
    (hnested : Code.isNested ((t :: ts).map (·.lexeme))) :
    ∃ m', Step o w bodies bs m (t :: ts) more (wrong? t count (indentIn w bs)).toList m' := by
  have hallowed : m.allowed w t (ts ++ more).head? = _ := h.allowed hr hl hn
  have hstep := wrongIndents_line w bodies hc hts hlead (checkLine_of_allowed hallowed hl)
  exact ⟨_, (h.set_current _).passAll hnested, previous_passAll (List.cons_ne_nil t ts), hstep⟩

theorem step_opening (h : m.Inside bs) (hl : t.lexeme = .punct .lbrace) (hnil : ts = []) :
    ∃ m', Step o w bodies
      ({ content := indentIn w bs + w, isSwitch := bodies.contains t.offset } :: bs) m (t :: ts)
      more (wrong? t count (indentIn w bs)).toList m' := by
  subst hnil
  have hword : isLabelWord t = false := by simp [isLabelWord, hl, Lexeme.isWord]
  have hallowed : m.allowed w t ([] ++ more).head? = _ :=
    h.allowed (by simp [hl, Lexeme.isMark]) hword (by simp [hl, Lexeme.isIdentifier])
  have hstep := wrongIndents_line w bodies hc hts hlead (checkLine_of_allowed hallowed hword)
  refine ⟨_, ?_, previous_pass .., hstep⟩
  obtain ⟨hframes, hparens⟩ := pass_lbrace { m with current := some (t.line, ↑(indentIn w bs)) }
    w bodies (List.replicate count ' ') hl
  refine ⟨(bottom_pass ..).trans h.bottom, hframes.trans ?_, hparens.trans h.parens⟩
  simp [lineIndent, h.frames, OpenBlock.frame]

theorem step_closing {b : OpenBlock} {indent : Nat} (h : m.Inside (b :: bs))
    (hr : t.lexeme = .punct .rbrace) (hb : b.content = indent + w)
    (hnested : Code.isNested (ts.map (·.lexeme))) :
    ∃ m', Step o w bodies bs m (t :: ts) more (wrong? t count indent).toList m' := by
  have hword : isLabelWord t = false := by simp [isLabelWord, hr, Lexeme.isWord]
  have hallowed : m.allowed w t (ts ++ more).head? = _ := h.allowed_rbrace hr hb
  have hstep := wrongIndents_line w bodies hc hts hlead (checkLine_of_allowed hallowed hword)
  refine ⟨_, ?_, previous_passAll (List.cons_ne_nil t ts), hstep⟩
  obtain ⟨hframes, hparens⟩ := pass_rbrace { m with current := some (t.line, ↑indent) }
    w bodies (List.replicate count ' ') hr
  have hpass : ({ m with current := some (t.line, ↑indent) }.pass w bodies
      (List.replicate count ' ') t).Inside bs :=
    ⟨(bottom_pass ..).trans h.bottom, hframes.trans (by simp [h.frames]), hparens.trans h.parens⟩
  exact hpass.passAll hnested

theorem step_label {b : OpenBlock} (h : m.Inside (b :: bs))
    (hcount : count = b.content) (hl : isLabelWord t)
    (hnested : Code.isNested ((t :: ts).map (·.lexeme))) :
    ∃ m', Step o w bodies (b.labelled :: bs) m (t :: ts) more [] m' ∧
      m'.labelLine = some line := by
  subst hcount
  have hcheck : m.checkLine w _ t (ts ++ more).head? = _ := h.checkLine_label hl
  have hset : Inside { m with
      current := some (t.line, b.content)
      frames := (b.labelled :: bs).map OpenBlock.frame } (b.labelled :: bs) :=
    ⟨h.bottom, rfl, h.parens⟩
  refine ⟨_, ⟨hset.passAll hnested, previous_passAll (List.cons_ne_nil t ts),
    wrongIndents_line w bodies hc hts hlead hcheck⟩, ?_⟩
  rw [Margin.passAll, List.foldl_cons]
  refine labelLine_passAll ?_ fun u hu => (hts u (List.mem_cons_of_mem t hu)).1
  rw [labelLine_pass, if_pos hl, (hts t List.mem_cons_self).1]

end Lines

end Inside

end Rule.Margin

end CLint
