import CLint.Proofs.Partition

namespace CLint

namespace Divided

-- May a token that comes right behind another one be on the same logical line?
def Follows (p t : Token) : Prop :=
  t.line = p.line ∨ p.text = "\\"

theorem continues_iff (p t : Token) : continues (some p) (some p.line) t ↔ Follows p t := by
  simp [continues, Follows]

-- Some tokens at the front of a list, the first of which comes right behind `p`, and all that can
-- follow are among them.
structure Extends (p : Token) (run ms : List Marked) : Prop where
  chain : (p :: run.map (·.token)).IsChain Follows
  front : ∃ after, ms = run ++ after ∧ ∀ last ∈ (p :: run.map (·.token)).getLast?,
    ∀ next ∈ after.head?, ¬Follows last next.token

-- The same for some tokens within a list, where the first one begins a directive.
structure Stands (previous : Option Token) (d : Marked × List Marked) (ms : List Marked) :
    Prop where
  exists_before : ∃ before after, ms = before ++ d.1 :: after ∧
    (∀ p ∈ (previous.toList ++ before.map (·.token)).getLast?, p.endLine < d.1.token.line) ∧
    Extends d.1.token d.2 after

variable {p : Token} {previous : Option Token} {line : Option Nat} {m : Marked}
  {run ms : List Marked} {d : Marked × List Marked}

theorem Extends.nil (h : ∀ next ∈ ms.head?, ¬Follows p next.token) : Extends p [] ms where
  chain := .singleton p
  front := ⟨ms, rfl, fun last hlast => by cases hlast; exact h⟩

theorem Extends.cons (h : Extends m.token run ms) (hm : Follows p m.token) :
    Extends p (m :: run) (m :: ms) where
  chain := .cons_cons hm h.chain
  front := by
    obtain ⟨after, hms, hafter⟩ := h.front
    exact ⟨after, congrArg (m :: ·) hms, by simpa using hafter⟩

theorem Stands.cons (h : Stands (some m.token) d ms) : Stands previous d (m :: ms) where
  exists_before := by
    obtain ⟨before, after, hms, hbefore, hafter⟩ := h.exists_before
    refine ⟨m :: before, after, congrArg (m :: ·) hms, ?_, hafter⟩
    simpa [List.getLast?_append] using hbefore

-- A directive that is still open takes what follows it, and each directive that is begun takes
-- what follows its number sign.
theorem stands_ofMarked (previous : Option Token) (line : Option Nat) (ms : List Marked) :
    (∀ p ∈ previous, line = some p.line →
      Extends p (ofMarked previous line ms).continuation ms) ∧
    ∀ d ∈ (ofMarked previous line ms).directives, Stands previous d ms := by
  induction ms generalizing previous line with
  | nil => exact ⟨fun p _ _ => .nil (by simp), by simp [ofMarked]⟩
  | cons m ms ih =>
    obtain ⟨hopen, hrest⟩ := ih (some m.token) (some m.token.line)
    have hopen := hopen m.token rfl rfl
    simp only [ofMarked]
    split
    case isTrue hc =>
      refine ⟨fun p hp hline => ?_, fun d hd => (hrest d hd).cons⟩
      cases hp
      subst hline
      exact hopen.cons ((continues_iff p m.token).mp hc)
    case isFalse hc =>
      have hnil : ∀ p ∈ previous, line = some p.line → Extends p [] (m :: ms) := by
        intro p hp hline
        cases hp
        subst hline
        refine .nil fun next hnext => ?_
        cases hnext
        exact fun hfollows => hc ((continues_iff p m.token).mpr hfollows)
      split
      case isTrue hb =>
        refine ⟨hnil, List.forall_mem_cons.mpr ⟨⟨[], ms, rfl, ?_, hopen⟩,
          fun d hd => (hrest d hd).cons⟩⟩
        have hb := (Bool.and_eq_true_iff.mp hb).2
        intro p hp
        cases previous with
        | none => cases hp
        | some q =>
          cases hp
          simpa using hb
      case isFalse hb =>
        refine ⟨fun p hp hline => ?_, fun d hd => ((ih (some m.token) none).2 d hd).cons⟩
        rw [continuation_ofMarked_none]
        exact hnil p hp hline

end Divided

namespace Source

variable {path text : String} {s : Source} {t u : Token} {p : Place} {ls : List Lexeme}

-- The tokens that are neither blanks nor comments.
def significant (s : Source) : List Token :=
  s.tokens.filter fun t => !t.lexeme.isComment && !t.lexeme.isTrivia

-- A line that holds nothing but blanks and comments.
def IsVacant (s : Source) (n : Nat) : Prop :=
  ∀ t ∈ s.tokens, t.line ≤ n → n ≤ t.endLine → t.lexeme.isTrivia ∨ t.lexeme.isComment

theorem pairwise_endLine_placed (p : Place) (ls : List Lexeme) :
    (placed p ls).Pairwise (·.endLine ≤ ·.line) := by
  induction ls generalizing p with
  | nil => exact .nil
  | cons l ls ih =>
    refine List.pairwise_cons.mpr ⟨fun t ht => ?_, ih _⟩
    exact Nat.le_trans (Place.line_last_le ..) (line_le_of_mem_placed ht)

theorem line_le_endLine (h : t ∈ placed p ls) : t.line ≤ t.endLine := by
  rw [Token.endLine, span_of_mem_placed h]
  exact Place.line_le_last ..

theorem endLine_of_text_backslash (h : t ∈ placed p ls) (ht : t.text = "\\") :
    t.endLine = t.line := by
  rw [Token.endLine, span_of_mem_placed h, ht]
  rfl

theorem pairwise_significant (path text : String) :
    (ofText path text).significant.Pairwise (·.endLine ≤ ·.line) :=
  (pairwise_endLine_placed ..).filter _

theorem endLine_le_of_infix (h : [t, u] <:+: (ofText path text).significant) :
    t.endLine ≤ u.line :=
  List.rel_of_pairwise_cons ((pairwise_significant path text).sublist h.sublist) List.mem_cons_self

theorem mem_tokens_of_mem_significant (h : t ∈ s.significant) : t ∈ s.tokens :=
  (List.mem_filter.mp h).1

-- The lines between two significant tokens are vacant if no such token is between them.
theorem isVacant_of_between (hnext : [t, u] <:+: (ofText path text).significant) {n : Nat}
    (ht : t.endLine < n) (hu : n < u.line) : (ofText path text).IsVacant n := by
  intro v hv hn hn'
  by_contra hsignificant
  have hmem : v ∈ (ofText path text).significant :=
    List.mem_filter.mpr ⟨hv, by simpa [and_comm] using hsignificant⟩
  have hlines : ∀ w ∈ (ofText path text).significant, w.line ≤ w.endLine :=
    fun w hw => line_le_endLine (mem_tokens_of_mem_significant hw)
  have hlinet := hlines t (hnext.mem (by simp))
  have hlineu := hlines u (hnext.mem (by simp))
  obtain ⟨before, after, hsplit⟩ := hnext
  have hsorted := pairwise_significant path text
  rw [← hsplit, List.append_assoc, List.cons_append, List.cons_append] at hmem hsorted
  obtain ⟨-, htail, hbefore⟩ := List.pairwise_append.mp hsorted
  have hafter := (List.pairwise_cons.mp (List.pairwise_cons.mp htail).2).1
  simp only [List.mem_append, List.mem_cons, List.nil_append] at hmem hafter
  rcases hmem with hmem | rfl | rfl | hmem
  · have := hbefore v hmem t List.mem_cons_self
    omega
  · omega
  · omega
  · have := hafter v hmem
    omega

end Source

-- Of two tokens of a directive, the second comes right behind the first. They are on one line, or
-- the first is a backslash and the second is on the next line. That line is only passed over if it
-- is vacant.
structure Token.Adjoins (s : Source) (t u : Token) : Prop where
  next : [t, u] <:+: s.significant
  line : u.line = t.line ∨ t.text = "\\" ∧
    (u.line = t.line + 1 ∨ t.line + 1 < u.line ∧ s.IsVacant (t.line + 1))

-- The tokens of a directive are the logical line that its number sign begins.
structure Directive.IsLogicalLine (s : Source) (group : List Token) (d : Directive) : Prop where
  isOf : d.IsOf group
  chain : group.IsChain (Token.Adjoins s)
  whole : ∃ before after, s.significant = before ++ group ++ after ∧
    (∀ p ∈ before.getLast?, ∀ first ∈ group.head?, p.endLine < first.line) ∧
    ∀ last ∈ group.getLast?, ∀ next ∈ after.head?, last.line < next.line ∧ last.text ≠ "\\"

theorem Token.adjoins_of_follows {path text : String} {t u : Token}
    (hnext : [t, u] <:+: (Source.ofText path text).significant) (h : Divided.Follows t u) :
    Adjoins (.ofText path text) t u where
  next := hnext
  line := by
    rcases h with h | h
    · exact .inl h
    · have hmem := Source.mem_tokens_of_mem_significant (hnext.mem List.mem_cons_self)
      have hend := Source.endLine_of_text_backslash hmem h
      have hle := Source.endLine_le_of_infix hnext
      rcases Nat.lt_or_ge (t.line + 1) u.line with hlt | hge
      · exact .inr ⟨h, .inr ⟨hlt, Source.isVacant_of_between hnext (by omega) hlt⟩⟩
      · have : u.line = t.line ∨ u.line = t.line + 1 := by omega
        exact this.imp_right fun h' => ⟨h, .inl h'⟩

theorem Divided.Stands.isLogicalLine {path text : String} {hash : Marked} {rest ms : List Marked}
    (hms : ms.map (·.token) = (Source.ofText path text).significant)
    (h : Stands none (hash, rest) ms) (hhash : hash.token.lexeme.isMark .hash) :
    (Directive.ofTokens hash rest).IsLogicalLine (.ofText path text)
      ((hash :: rest).map (·.token)) := by
  obtain ⟨before, after, hbefore, hfirst, hextends⟩ := h.exists_before
  obtain ⟨after, rfl, hlast⟩ := hextends.front
  have hsplit : (Source.ofText path text).significant = before.map (·.token) ++
      (hash :: rest).map (·.token) ++ after.map (·.token) := by
    rw [← hms, hbefore]
    simp
  refine ⟨Directive.isOf_ofTokens hhash, ?_, before.map (·.token), after.map (·.token), hsplit,
    ?_, ?_⟩
  · refine List.isChain_iff_forall_rel_of_append_cons_cons.mpr fun t u l l' hl => ?_
    have hpair : [t, u] <:+: (hash :: rest).map (·.token) := ⟨l, l', by simp [hl]⟩
    exact Token.adjoins_of_follows (hpair.trans ⟨_, _, hsplit.symm⟩)
      (List.isChain_iff_forall_rel_of_append_cons_cons.mp hextends.chain hl)
  · intro p hp first hf
    cases hf
    exact hfirst p hp
  · intro last hl next hn
    rw [List.head?_map] at hn
    obtain ⟨m, hm, rfl⟩ := Option.map_eq_some_iff.mp hn
    obtain ⟨hline, htext⟩ := not_or.mp (hlast last hl m hm)
    obtain ⟨group, hgroup⟩ := List.getLast?_eq_some_iff.mp hl
    obtain ⟨after, rfl⟩ := List.head?_eq_some_iff.mp hm
    have hpair : [last, m.token] <:+: (Source.ofText path text).significant := by
      refine ⟨before.map (·.token) ++ group, after.map (·.token), ?_⟩
      rw [hsplit, hgroup]
      simp
    have hle := Source.endLine_le_of_infix hpair
    have hle' := Source.line_le_endLine
      (Source.mem_tokens_of_mem_significant (hpair.mem List.mem_cons_self))
    exact ⟨by omega, htext⟩

-- A directive is a logical line, and what is neither blank nor comment is in a directive or in the
-- code.
theorem Outline.isLogicalLine_directives (path text : String) :
    let s := Source.ofText path text
    let groups := (Parts.ofTokens s.tokens).directiveGroups
    List.Forall₂ (Directive.IsLogicalLine s) groups (ofSource s).directives ∧
    ∀ t ∈ s.significant, t ∉ (ofSource s).code → ∃ group ∈ groups, t ∈ group := by
  intro s groups
  have hmarked : (Gathering.ofTokens s.tokens).markedList.map (·.token) = s.significant :=
    Gathering.markedList_ofTokens s.tokens
  refine ⟨?_, fun t ht hcode => ?_⟩
  · have hstands := (Divided.stands_ofMarked none none (Gathering.ofTokens s.tokens).markedList).2
    unfold groups Parts.directiveGroups
    rw [ofSource, List.forall₂_map_left_iff, List.forall₂_map_right_iff, List.forall₂_same]
    exact fun d hd => (hstands d hd).isLogicalLine hmarked
      ((Parts.divides_ofTokens s.tokens).2.2 d hd)
  · have hmem := (Parts.divides_ofTokens s.tokens).1.mem_iff.mpr ht
    rcases List.mem_append.mp hmem with hmem | hmem
    · exact List.mem_flatten.mp hmem
    · exact absurd (Array.mem_toList_iff.mp hmem) hcode

-- The line behind a backslash is empty here, so that the definition ends with it. The declaration
-- behind that line is taken into the directive all the same.
theorem Outline.declaration_in_directive :
    let s := Source.ofText "a.c" "#define A \\\n\nint x;\n"
    (¬∀ group ∈ (Parts.ofTokens s.tokens).directiveGroups, group.IsChain fun t u =>
      u.line = t.line ∨ t.text = "\\" ∧ u.line = t.line + 1) ∧
    (ofSource s).code = #[] := by
  decide +kernel

end CLint
