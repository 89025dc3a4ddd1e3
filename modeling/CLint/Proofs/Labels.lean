import CLint.Proofs.Sited

namespace CLint

namespace Code

-- Is each question mark answered by a later colon of the same level, and each colon outside of
-- brackets the answer to one? `pending` question marks are open at the level that is reached, and
-- `levels` gives their numbers for the levels around it, the innermost first.
def answersChoices (levels : List Nat) (pending : Nat) : List Lexeme → Bool
  | [] => levels.isEmpty && pending = 0
  | l :: ls =>
    if l.isOpener then answersChoices (pending :: levels) 0 ls
    else if l.isCloser then
      match levels with
      | [] => false
      | outer :: levels => pending = 0 && answersChoices levels outer ls
    else if l.isMark .question then answersChoices levels (pending + 1) ls
    else if l.isMark .colon then
      match pending with
      | 0 => !levels.isEmpty && answersChoices levels 0 ls
      | pending + 1 => answersChoices levels pending ls
    else answersChoices levels pending ls

-- The question marks that are open outside of all brackets.
def outermost (levels : List Nat) (pending : Nat) : Nat :=
  levels.getLast?.getD pending

theorem outermost_nil (pending : Nat) : outermost [] pending = pending :=
  rfl

theorem outermost_cons (outer pending : Nat) (levels : List Nat) :
    outermost (outer :: levels) pending = outermost levels outer := by
  rw [outermost, List.getLast?_cons]
  rfl

end Code

namespace Stmt

open Code

variable {ls rest value : List Lexeme}

-- What is neither a bracket, a question mark nor a colon that counts is kept as it is.
theorem readLabel_cons {depth : Int} {pending : Nat} {l : Lexeme} (ho : ¬l.isOpener)
    (hc : ¬l.isCloser) (hq : ¬l.isMark .question) (hcolon : l.isMark .colon → ¬depth ≤ 0)
    (hb : l.breaksOff = false) (ls : List Lexeme) :
    readLabel depth pending (l :: ls) = Cut.keep l (readLabel depth pending ls) := by
  obtain ⟨hsemi, hl, hr⟩ := Lexeme.isMark_of_not_breaksOff hb
  have hcolon : ¬(l.isMark .colon && decide (depth ≤ 0)) = true := by simpa using hcolon
  simp only [readLabel, if_neg ho, if_neg hc, if_neg hq, if_neg hcolon, hsemi, hl, hr,
    Bool.or_self, Bool.false_eq_true, if_false]

-- The reader of a label gets over its value, but leaves as many question marks open as there are
-- in brackets.
theorem readLabel_of_answersChoices {levels : List Nat} {pending : Nat}
    (h : answersChoices levels pending ls) (hb : ∀ l ∈ ls, l.breaksOff = false) :
    ∃ n, (n = 0 ↔ choosesOpenly levels.length (outermost levels pending) ls) ∧
      ∀ kept rest, readLabel levels.length (outermost levels pending + kept) (ls ++ rest) =
        (ls ++ (readLabel 0 (kept + n) rest).1, (readLabel 0 (kept + n) rest).2) := by
  fun_induction answersChoices levels pending ls with
  | case1 levels pending =>
    simp only [Bool.and_eq_true, List.isEmpty_iff, decide_eq_true_eq] at h
    obtain ⟨rfl, rfl⟩ := h
    exact ⟨0, by simp [choosesOpenly, outermost_nil], fun kept rest => by simp [outermost_nil]⟩
  | case2 levels pending l ls ho ih =>
    obtain ⟨n, hn, hread⟩ := ih h fun m hm => hb m (List.mem_cons_of_mem l hm)
    simp only [outermost_cons, List.length_cons, Int.natCast_succ] at hn hread
    refine ⟨n, by simp [hn, choosesOpenly, ho], fun kept rest => ?_⟩
    simp [readLabel, ho, hread, Cut.keep]
  | case3 => cases h
  | case4 pending l ls ho hc outer levels ih =>
    simp only [Bool.and_eq_true, decide_eq_true_eq] at h
    obtain ⟨rfl, h⟩ := h
    obtain ⟨n, hn, hread⟩ := ih h fun m hm => hb m (List.mem_cons_of_mem l hm)
    simp only [outermost_cons, List.length_cons, Int.natCast_succ]
    refine ⟨n, by simp [hn, choosesOpenly, ho, hc], fun kept rest => ?_⟩
    simp [readLabel, ho, hc, hread, Cut.keep]
  | case5 levels pending l ls ho hc hq ih =>
    obtain ⟨n, hn, hread⟩ := ih h fun m hm => hb m (List.mem_cons_of_mem l hm)
    cases levels with
    | nil =>
      simp only [outermost_nil, List.length_nil, Int.natCast_zero] at hn hread ⊢
      refine ⟨n, by simpa [choosesOpenly, ho, hc, hq] using hn, fun kept rest => ?_⟩
      have hread := hread kept rest
      rw [Nat.add_right_comm] at hread
      simp [readLabel, ho, hc, hq, hread, Cut.keep]
    | cons outer levels =>
      simp only [outermost_cons] at hn hread ⊢
      refine ⟨n + 1, by simp [choosesOpenly, ho, hc, hq], fun kept rest => ?_⟩
      have hread := hread (kept + 1) rest
      rw [← Nat.add_assoc, Nat.add_right_comm kept] at hread
      simp only [List.cons_append, readLabel, if_neg ho, if_neg hc, if_pos hq, hread]
      rfl
  | case6 levels l ls ho hc hq hcolon ih =>
    simp only [Bool.and_eq_true, Bool.not_eq_true'] at h
    obtain ⟨hlevels, h⟩ := h
    obtain ⟨n, hn, hread⟩ := ih h fun m hm => hb m (List.mem_cons_of_mem l hm)
    cases levels with
    | nil => cases hlevels
    | cons outer levels =>
      have hdepth : ¬((outer :: levels).length : Int) ≤ 0 := by
        rw [List.length_cons]
        omega
      refine ⟨n, by simp [hn, choosesOpenly, ho, hc, hq], fun kept rest => ?_⟩
      rw [List.cons_append, readLabel_cons ho hc hq (fun _ => hdepth) (hb l List.mem_cons_self),
        hread]
      rfl
  | case7 levels l ls ho hc hq hcolon pending ih =>
    obtain ⟨n, hn, hread⟩ := ih h fun m hm => hb m (List.mem_cons_of_mem l hm)
    cases levels with
    | nil =>
      simp only [outermost_nil, List.length_nil, Int.natCast_zero] at hn hread ⊢
      refine ⟨n, by simpa [choosesOpenly, ho, hc, hq, hcolon] using hn, fun kept rest => ?_⟩
      rw [Nat.succ_add]
      simp [readLabel, ho, hc, hq, hcolon, hread, Cut.keep]
    | cons outer levels =>
      simp only [outermost_cons] at hn hread ⊢
      have hdepth : ¬((outer :: levels).length : Int) ≤ 0 := by
        rw [List.length_cons]
        omega
      refine ⟨n, by simp [hn, choosesOpenly, ho, hc, hq], fun kept rest => ?_⟩
      rw [List.cons_append, readLabel_cons ho hc hq (fun _ => hdepth) (hb l List.mem_cons_self),
        hread]
      rfl
  | case8 levels pending l ls ho hc hq hcolon ih =>
    obtain ⟨n, hn, hread⟩ := ih h fun m hm => hb m (List.mem_cons_of_mem l hm)
    refine ⟨n, by simp [hn, choosesOpenly, ho, hc, hq, hcolon], fun kept rest => ?_⟩
    rw [List.cons_append, readLabel_cons ho hc hq (fun h => absurd h hcolon)
      (hb l List.mem_cons_self), hread]
    rfl

-- Nothing is kept of what a statement or a block ends with, or a block begins with.
theorem readLabel_eq_nil_iff (pending : Nat) :
    (readLabel 0 pending rest).1 = [] ↔ ∀ l ∈ rest.head?, l.breaksOff := by
  cases rest with
  | nil => simp [readLabel]
  | cons l rest =>
    simp only [List.head?_cons, Option.mem_some_iff, forall_eq', readLabel]
    cases l with
    | punct p =>
      cases p
      case colon => cases pending <;> simp [Lexeme.breaksOff, Lexeme.isOpener, Lexeme.isCloser,
        Lexeme.isMark, Cut.keep]
      all_goals simp [Lexeme.breaksOff, Lexeme.isOpener, Lexeme.isCloser, Lexeme.isMark, Cut.keep]
    | _ => simp [Lexeme.breaksOff, Lexeme.isOpener, Lexeme.isCloser, Lexeme.isMark, Cut.keep]

-- A label ends at its own colon if all conditionals in it stand outside of brackets, and otherwise
-- only if nothing can follow it in a label anyway.
theorem readLabel_eq_iff (h : answersChoices [] 0 value) (hb : ∀ l ∈ value, l.breaksOff = false) :
    readLabel 0 0 (value ++ .punct .colon :: rest) = (value ++ [.punct .colon], rest) ↔
      choosesOpenly 0 0 value ∨ ∀ l ∈ rest.head?, l.breaksOff := by
  obtain ⟨n, hn, hread⟩ := readLabel_of_answersChoices h hb
  have hread := hread 0 (.punct .colon :: rest)
  simp only [outermost_nil, List.length_nil, Int.natCast_zero, Nat.zero_add] at hn hread
  rw [hread, ← hn]
  cases n with
  | zero => simp [readLabel, Lexeme.isOpener, Lexeme.isCloser, Lexeme.isMark]
  | succ n =>
    rw [← readLabel_eq_nil_iff n]
    simp only [readLabel, Lexeme.isOpener, Lexeme.isCloser, Lexeme.isMark, Cut.keep]
    constructor
    · intro heq
      have := (Prod.ext_iff.mp heq).1
      simp_all
    · intro hor
      have hnil := hor.resolve_left (Nat.succ_ne_zero n)
      have happend := readLabel_append 0 n rest
      rw [hnil, List.nil_append] at happend
      simp [hnil, happend]

end Stmt

-- The label of a section ends with the colon behind its value. The clause is labelled with the text
-- up to this colon, and all that follows up to the end of the section belongs to it.
structure Section.EndsBehind (o : Outline) (value rest : List Lexeme) (c : Section) : Prop where
  label : c.label.stmt = .label (.keyword .caseKw) (value ++ [.punct .colon])
  clause : ∃ b ∈ o.blocks, b.kind = .switchBlock ∧ ∃ k ∈ b.clauses,
    k.label = Outline.locate o.code ⟨c.label.start, c.label.start + value.length + 1⟩
  items : ∃ more, rest = Stmt.listLexemes (c.items.map (·.stmt)) ++ more ∧
    ∀ l ∈ more.head?, l.endsSection

-- A label of a `switch` in a file ends at its own colon if all conditionals in it stand outside of
-- brackets, and otherwise only if nothing can follow it in a label anyway.
theorem Outline.endsBehind_iff (path text : String) :
    let source := Source.ofText path text
    let p := Parts.ofTokens source.tokens
    ∀ s ∈ p.sites, ∀ c ∈ s.sections, ∀ value rest,
      p.lexemes.drop c.label.start = .keyword .caseKw :: (value ++ .punct .colon :: rest) →
      (∀ l ∈ value, l.breaksOff = false) → Code.answersChoices [] 0 value →
      (c.EndsBehind (ofSource source) value rest ↔
        Code.choosesOpenly 0 0 value ∨ ∀ l ∈ rest.head?, l.breaksOff) := by
  intro source p s hs c hc value rest hcode hflat hanswers
  have hread := Parts.isRead_of_mem_sections hs hc
  have hlabel := hread.label.reads
  rw [hcode] at hlabel
  obtain ⟨hvalue, hrest⟩ := Stmt.reads_iff.mp hlabel
  rw [Stmt.read_caseLabel rfl] at hvalue hrest
  dsimp only at hvalue hrest
  rw [← Stmt.readLabel_eq_iff hanswers hflat]
  constructor
  · intro h
    have htext : (Stmt.readLabel 0 0 (value ++ .punct .colon :: rest)).1 =
        value ++ [.punct .colon] := by
      have heq := hvalue.trans h.label
      simpa using heq
    have happend := Stmt.readLabel_append 0 0 (value ++ .punct .colon :: rest)
    rw [htext] at happend
    exact Prod.ext htext (by simpa using happend)
  · intro h
    rw [h] at hvalue hrest
    refine ⟨hvalue.symm, ?_, ?_⟩
    · obtain ⟨b, hb, hkind, hk⟩ := exists_clause hs hc
      refine ⟨b, hb, hkind, _, hk, ?_⟩
      have hrun : c.label.run = ⟨c.label.start, c.label.start + value.length + 1⟩ := by
        simp only [Site.run, Site.stop, ← hvalue, Stmt.size, List.length_append,
          List.length_singleton]
        congr 1
      rw [Clause.map, Section.clause, hrun]
    · obtain ⟨more, hmore, hends⟩ := hread.rest
      exact ⟨more, hrest.trans hmore, hends⟩

-- A conditional that is not in brackets, with one in its middle.
theorem Outline.endsBehind_openChoice :
    let source := Source.ofText "a.c"
      "void f(int x) \x7b\nswitch (x) \x7b\ncase a ? b ? (c) : d : e:\nbreak;\n\x7d\n\x7d\n"
    let value : List Lexeme := [.identifier "a", .punct .question, .identifier "b",
      .punct .question, .punct .lparen, .identifier "c", .punct .rparen, .punct .colon,
      .identifier "d", .punct .colon, .identifier "e"]
    let rest : List Lexeme :=
      [.keyword .breakKw, .punct .semicolon, .punct .rbrace, .punct .rbrace]
    ∃ s ∈ (Parts.ofTokens source.tokens).sites, ∃ c ∈ s.sections,
      (Parts.ofTokens source.tokens).lexemes.drop c.label.start =
        .keyword .caseKw :: (value ++ .punct .colon :: rest) ∧
      (∀ l ∈ value, l.breaksOff = false) ∧ Code.answersChoices [] 0 value ∧
      c.EndsBehind (ofSource source) value rest := by
  intro source value rest
  let sites := (Parts.ofTokens source.tokens).sites
  let s := sites.get ⟨1, by decide +kernel⟩
  let c := s.sections.get ⟨0, by decide +kernel⟩
  have hs : s ∈ sites := List.get_mem ..
  have hc : c ∈ s.sections := List.get_mem ..
  have hcode : (Parts.ofTokens source.tokens).lexemes.drop c.label.start =
      .keyword .caseKw :: (value ++ .punct .colon :: rest) := by decide +kernel
  have hflat : ∀ l ∈ value, l.breaksOff = false := by decide
  have hanswers : Code.answersChoices [] 0 value := by decide
  refine ⟨s, hs, c, hc, hcode, hflat, hanswers, ?_⟩
  exact (endsBehind_iff _ _ s hs c hc value rest hcode hflat hanswers).mpr (.inl (by decide))

-- A label with a conditional in parentheses is not read to its own colon. The statement behind it
-- is taken into the label, and its semicolon is all that is left of it in the clause.
theorem Outline.label_of_enclosedChoice :
    let source := Source.ofText "a.c"
      "void f(int x) \x7b\n  switch (x) \x7b\n    case (a ? b : c):\n      break;\n  \x7d\n\x7d\n"
    let value : List Lexeme := [.punct .lparen, .identifier "a", .punct .question, .identifier "b",
      .punct .colon, .identifier "c", .punct .rparen]
    let rest : List Lexeme :=
      [.keyword .breakKw, .punct .semicolon, .punct .rbrace, .punct .rbrace]
    Code.isNested value ∧ (∀ l ∈ value, l.breaksOff = false) ∧ Code.answersChoices [] 0 value ∧
    ∃ s ∈ (Parts.ofTokens source.tokens).sites, ∃ c ∈ s.sections,
      (Parts.ofTokens source.tokens).lexemes.drop c.label.start =
        .keyword .caseKw :: (value ++ .punct .colon :: rest) ∧
      c.label.stmt.lexemes = .keyword .caseKw :: (value ++ [.punct .colon, .keyword .breakKw]) ∧
      ¬c.EndsBehind (ofSource source) value rest := by
  intro source value rest
  let sites := (Parts.ofTokens source.tokens).sites
  let s := sites.get ⟨1, by decide +kernel⟩
  let c := s.sections.get ⟨0, by decide +kernel⟩
  have hlabel : c.label.stmt.lexemes =
      .keyword .caseKw :: (value ++ [.punct .colon, .keyword .breakKw]) := by decide +kernel
  refine ⟨by decide, by decide, by decide, s, List.get_mem .., c, List.get_mem ..,
    by decide +kernel, hlabel, fun h => ?_⟩
  rw [h.label] at hlabel
  exact absurd hlabel (by decide)

end CLint
