import CLint.Proofs.Sited
import CLint.Proofs.Declaring.Scanning
import CLint.Rule.Control
import Mathlib.Data.List.Induction

namespace CLint

namespace Code

-- Does some code end in the keyword of a tagged type, or in such a keyword and a name?
def endsInTag (ls : List Lexeme) : Bool :=
  ls.getLast?.any fun l => l.isTag || l.isIdentifier && ls.dropLast.getLast?.any (·.isTag)

-- A brace that opens outside of all brackets fits into a simple statement behind an equals sign
-- that is outside of all brackets as well, and right behind the head of a tagged type.
def bracesFit (ls : List Lexeme) : Prop :=
  ∀ n < ls.length, ls[n]? = some (.punct .lbrace) → isNested (ls.take n) →
    .punct .assign ∈ outer 0 (ls.take n) ∨ endsInTag (ls.take n)

instance (ls : List Lexeme) : Decidable (bracesFit ls) :=
  inferInstanceAs (Decidable (∀ n < ls.length, _))

end Code

namespace Scan

open Code

variable {s : Scan} {l c : Lexeme} {ls awaited : List Lexeme}

theorem Awaits.isTop_iff (h : s.Awaits awaited) (hc : ∀ c ∈ awaited, c.closes) :
    s.isTop ↔ awaited = [] := by
  constructor
  · intro htop
    refine List.eq_nil_iff_forall_not_mem.mpr fun c hmem => ?_
    simp only [Scan.isTop, h.parens, h.brackets, h.braces, Bool.and_eq_true, decide_eq_true_eq,
      List.count_eq_zero] at htop
    obtain ⟨⟨hparen, hbracket⟩, hbrace⟩ := htop
    rcases Lexeme.closes_iff.mp (hc c hmem) with rfl | rfl | rfl <;> contradiction
  · rintro rfl
    exact h.isTop

theorem closes_of_closer? (h : l.closer? = some c) : c.closes := by
  unfold Lexeme.closer? at h
  split at h <;> cases h <;> rfl

theorem tag_foldl (s : Scan) (ls : List Lexeme) :
    (ls.foldl step s).tag = ls.foldl tagStep s.tag := by
  induction ls generalizing s with
  | nil => rfl
  | cons l ls ih =>
    have hstep : (s.step l).tag = tagStep s.tag l := by
      unfold step
      split <;> rfl
    rw [List.foldl_cons, List.foldl_cons, ih, hstep]

theorem tagStep_eq_tag_iff (t : TagState) (l : Lexeme) : tagStep t l = .tag ↔ l.isTag := by
  unfold tagStep
  split
  · simp_all
  · split <;> simp_all

theorem tagStep_ne_none_iff (t : TagState) (l : Lexeme) :
    tagStep t l ≠ .none ↔ l.isTag ∨ l.isIdentifier ∧ t = .tag := by
  unfold tagStep
  split
  · simp_all
  · split <;> simp_all

theorem foldl_tagStep_ne_none_iff (ls : List Lexeme) :
    ls.foldl tagStep .none ≠ .none ↔ endsInTag ls := by
  induction ls using List.reverseRecOn with
  | nil => simp [endsInTag]
  | append_singleton ls l _ =>
    have htag : ls.foldl tagStep .none = .tag ↔ ls.getLast?.any (·.isTag) := by
      induction ls using List.reverseRecOn with
      | nil => simp
      | append_singleton ls m _ => simp [tagStep_eq_tag_iff]
    simp [endsInTag, tagStep_ne_none_iff, htag]

theorem assigned_step (s : Scan) (l : Lexeme) :
    (s.step l).assigned = (s.assigned || l.isMark .assign && s.isTop) := by
  unfold step
  split <;> simp_all [Lexeme.isMark, isTop]

theorem isMark_assign_of_closer? (h : l.closer? = some c) : l.isMark .assign = false := by
  unfold Lexeme.closer? at h
  split at h <;> cases h <;> rfl

theorem isMark_assign_of_closes (h : l.closes) : l.isMark .assign = false := by
  rcases Lexeme.closes_iff.mp h with rfl | rfl | rfl <;> rfl

-- A scan remembers the equals signs outside of all brackets.
theorem assigned_foldl (h : s.Awaits awaited) (hc : ∀ c ∈ awaited, c.closes)
    (hn : closesAll awaited ls) : (ls.foldl step s).assigned ↔
      s.assigned ∨ .punct .assign ∈ outer awaited.length ls := by
  fun_induction closesAll awaited ls generalizing s with
  | case1 awaited => simp [outer]
  | case2 awaited l ls c hl ih =>
    rw [List.foldl_cons, ih (h.opened hl) (List.forall_mem_cons.mpr ⟨closes_of_closer? hl, hc⟩) hn,
      assigned_step, isMark_assign_of_closer? hl, outer, hl]
    simp
  | case3 l ls hl hcl => cases hn
  | case4 l ls hl hcl c awaited ih =>
    simp only [Bool.and_eq_true, decide_eq_true_eq] at hn
    obtain ⟨rfl, hn⟩ := hn
    rw [List.foldl_cons, ih (h.closed hcl) (List.forall_mem_cons.mp hc).2 hn, assigned_step,
      isMark_assign_of_closes hcl, outer, hl, hcl]
    simp
  | case5 awaited l ls hl hcl ih =>
    have hcl := eq_false_of_ne_true hcl
    rw [List.foldl_cons, ih (h.passed hl hcl) hc hn, assigned_step, mem_outer_cons hl hcl,
      Bool.or_eq_true, Bool.and_eq_true, h.isTop_iff hc, List.length_eq_zero_iff]
    simp only [Lexeme.isMark, decide_eq_true_eq]
    grind

-- A brace behind some code does not stop the scan, if all brackets are closed there.
def LetsOpen (s : Scan) (awaited before : List Lexeme) : Prop :=
  closesAll awaited before →
    (before.foldl step s).assigned ∨ (before.foldl step s).tag ≠ .none

theorem letsOpen_nil : s.LetsOpen awaited [] ↔ (awaited = [] → s.assigned ∨ s.tag ≠ .none) := by
  simp [LetsOpen, closesAll]

theorem letsOpen_opened (hl : l.closer? = some c) (before : List Lexeme) :
    s.LetsOpen awaited (l :: before) ↔ (s.step l).LetsOpen (c :: awaited) before := by
  simp [LetsOpen, closesAll, hl]

theorem letsOpen_closed (hl : l.closer? = none) (hcl : l.closes) (before : List Lexeme) :
    s.LetsOpen (l :: awaited) (l :: before) ↔ (s.step l).LetsOpen awaited before := by
  simp [LetsOpen, closesAll, hl, hcl]

theorem letsOpen_passed (hl : l.closer? = none) (hcl : l.closes = false) (before : List Lexeme) :
    s.LetsOpen awaited (l :: before) ↔ (s.step l).LetsOpen awaited before := by
  simp [LetsOpen, closesAll, hl, hcl]

-- A brace in some code is either its first lexeme or behind it.
theorem forall_brace_cons {p : List Lexeme → Prop} :
    (∀ n < (l :: ls).length, (l :: ls)[n]? = some (.punct .lbrace) → p ((l :: ls).take n)) ↔
      (l = .punct .lbrace → p []) ∧
        ∀ n < ls.length, ls[n]? = some (.punct .lbrace) → p (l :: ls.take n) := by
  rw [List.length_cons, Nat.forall_lt_succ_left]
  simp

theorem stopsAt_of_closer? (h : s.Awaits awaited) (hc : ∀ c ∈ awaited, c.closes)
    (hl : l.closer? = some c) :
    s.stopsAt l = false ↔ (l = .punct .lbrace → s.LetsOpen awaited []) := by
  rw [letsOpen_nil, ← h.isTop_iff hc]
  unfold Lexeme.closer? at hl
  split at hl <;> cases hl
  case h_1 | h_2 => simp [stopsAt]
  case h_3 => cases hs : s.isTop <;> simp [stopsAt, hs, or_iff_not_imp_left]

theorem stopsAt_of_closes (h : s.Awaits (l :: awaited)) (hl : l.closes) :
    s.stopsAt l = false := by
  rcases Lexeme.closes_iff.mp hl with rfl | rfl | rfl
  · rfl
  · rfl
  · simp [stopsAt, h.braces]

-- A scan that counts the open brackets stops within properly nested code only before a brace
-- outside of all brackets that it does not let open.
theorem passes_iff (h : s.Awaits awaited) (hc : ∀ c ∈ awaited, c.closes)
    (hn : closesAll awaited ls) (hs : .punct .semicolon ∉ outer awaited.length ls) :
    s.passes ls ↔
      ∀ n < ls.length, ls[n]? = some (.punct .lbrace) → s.LetsOpen awaited (ls.take n) := by
  fun_induction closesAll awaited ls generalizing s with
  | case1 awaited => simp [passes]
  | case2 awaited l ls c hl ih =>
    rw [outer, hl] at hs
    rw [forall_brace_cons, passes, Bool.and_eq_true, Bool.not_eq_true',
      ih (h.opened hl) (List.forall_mem_cons.mpr ⟨closes_of_closer? hl, hc⟩) hn hs,
      stopsAt_of_closer? h hc hl]
    simp only [letsOpen_opened hl]
  | case3 l ls hl hcl => cases hn
  | case4 l ls hl hcl c awaited ih =>
    simp only [Bool.and_eq_true, decide_eq_true_eq] at hn
    obtain ⟨rfl, hn⟩ := hn
    rw [outer, hl, hcl] at hs
    have hne : l ≠ .punct .lbrace := fun heq => by
      rw [heq] at hl
      cases hl
    rw [forall_brace_cons, passes, stopsAt_of_closes h hcl]
    simp only [letsOpen_closed hl hcl, hne, false_imp_iff, true_and, Bool.not_false, Bool.true_and]
    exact ih (h.closed hcl) (List.forall_mem_cons.mp hc).2 hn hs
  | case5 awaited l ls hl hcl ih =>
    have hcl := eq_false_of_ne_true hcl
    have hne : l ≠ .punct .lbrace := fun heq => by
      rw [heq] at hl
      cases hl
    have hstop : s.stopsAt l = false := by
      refine not_stopsAt_plain hl hcl fun htop heq => ?_
      rw [h.isTop_iff hc] at htop
      exact hs ((mem_outer_cons hl hcl).mpr (.inl ⟨congrArg _ htop, heq.symm⟩))
    rw [forall_brace_cons, passes, hstop]
    simp only [letsOpen_passed hl hcl, hne, false_imp_iff, true_and, Bool.not_false, Bool.true_and]
    exact ih (h.passed hl hcl) hc hn fun hmem => hs ((mem_outer_cons hl hcl).mpr (.inr hmem))

-- A scan gets over what it takes.
theorem passes_of_read {rest : List Lexeme} (h : (s.read (ls ++ rest)).1 = ls) : s.passes ls := by
  induction ls generalizing s with
  | nil => rfl
  | cons l ls ih =>
    rw [List.cons_append, read] at h
    split at h
    case isTrue => cases h
    case isFalse hstop =>
      have hrest : ((s.step l).read (ls ++ rest)).1 = ls := by simpa [Cut.keep] using h
      simp [passes, hstop, ih hrest]

end Scan

namespace Stmt

open Code

variable {k : Keyword} {value rest : List Lexeme}

theorem passes_iff_bracesFit (hk : k.isJump) (hn : isNested value)
    (hs : .punct .semicolon ∉ outer 0 value) :
    (Scan.step {} (.keyword k)).passes value ↔ bracesFit value := by
  have htag : (Lexeme.keyword k).isTag = false := by
    cases k <;> first | rfl | cases hk
  have hstart : Scan.step {} (.keyword k) = {} := by
    simp [Scan.step, Scan.tagStep, htag, Lexeme.isIdentifier]
  have hawaits : Scan.Awaits {} [] := ⟨rfl, rfl, rfl⟩
  rw [hstart, Scan.passes_iff hawaits (List.forall_mem_nil _) hn hs]
  refine forall₃_congr fun n _ _ => forall_congr' fun hbefore => ?_
  rw [Scan.assigned_foldl hawaits (List.forall_mem_nil _) hbefore, Scan.tag_foldl,
    Scan.foldl_tagStep_ne_none_iff]
  simp

-- A jump is read up to its own semicolon if all braces outside of brackets fit into it. Before
-- any other brace it ends.
theorem read_jump_iff (hk : k.isJump) (hn : isNested value)
    (hs : .punct .semicolon ∉ outer 0 value) (atFile : Bool) :
    ((read atFile (.keyword k) (value ++ .punct .semicolon :: rest)).value = jump k value true ∧
      (read atFile (.keyword k) (value ++ .punct .semicolon :: rest)).rest = rest) ↔
      bracesFit value := by
  rw [read_jump hk, ← passes_iff_bracesFit hk hn hs]
  simp only [readText, jump.injEq, true_and]
  refine ⟨fun h => Scan.passes_of_read h.1.1, fun hpass => ?_⟩
  have hnested : closesAll [] (.keyword k :: value) := hn
  have htop : (value.foldl Scan.step (Scan.step {} (.keyword k))).isTop :=
    (Scan.Awaits.foldl_step ⟨rfl, rfl, rfl⟩ hnested).isTop
  have hstop : (value.foldl Scan.step (Scan.step {} (.keyword k))).read
      (.punct .semicolon :: rest) = ([], .punct .semicolon :: rest) := by
    simp [Scan.read, Scan.stopsAt, htop]
  rw [Scan.read_append_of_passes hpass, hstop]
  simp [semicolon]

end Stmt

namespace Section

variable {code value rest : List Lexeme} {c : Section} {k : Keyword} {x : Site}

-- A section ends with a jump if it is the last statement in it, as the code has it.
theorem IsRead.getLast?_of_jump (h : c.IsRead code) (hx : x ∈ c.items) (hk : k.isJump)
    (hcode : code.drop x.start = .keyword k :: (value ++ .punct .semicolon :: rest))
    (hn : Code.isNested value) (hs : .punct .semicolon ∉ Code.outer 0 value)
    (hfit : Code.bracesFit value) (hends : ∀ l ∈ rest.head?, l.endsSection) :
    c.items.getLast? = some x ∧ c.endsWithJump := by
  have hreads := (h.items x hx).1.reads
  rw [hcode] at hreads
  obtain ⟨hvalue, hrest⟩ := Stmt.reads_iff.mp hreads
  have hread : _ ∧ (Stmt.read false (.keyword k) (value ++ .punct .semicolon :: rest)).rest = rest :=
    (Stmt.read_jump_iff hk hn hs false).mpr hfit
  obtain ⟨hvalue', hrest'⟩ := hread
  have hlast := h.getLast?_eq hx (by rwa [← hrest, hrest'])
  refine ⟨hlast, ?_⟩
  rw [endsWithJump, hlast, Option.any_some, ← hvalue, hvalue']
  rfl

end Section

-- A jump ends at its own semicolon if all braces outside of brackets fit into it, and only then. A
-- clause of a `switch` that ends with such a jump is known to do so, and is not reported.
theorem Outline.endsWithJump_of_jump (path text : String) :
    let source := Source.ofText path text
    let p := Parts.ofTokens source.tokens
    let o := ofSource source
    ∀ (k : Keyword) (value : List Lexeme), k.isJump → Code.isNested value →
      .punct .semicolon ∉ Code.outer 0 value →
      (∀ atFile rest,
        ((Stmt.read atFile (.keyword k) (value ++ .punct .semicolon :: rest)).value =
            .jump k value true ∧
          (Stmt.read atFile (.keyword k) (value ++ .punct .semicolon :: rest)).rest = rest) ↔
        Code.bracesFit value) ∧
      (Code.bracesFit value → ∀ s ∈ p.sites, ∀ c ∈ s.sections, ∀ x ∈ c.items, ∀ rest,
        p.lexemes.drop x.start = .keyword k :: (value ++ .punct .semicolon :: rest) →
        (∀ l ∈ rest.head?, l.endsSection) →
        c.items.getLast? = some x ∧ ∃ b ∈ o.blocks, b.kind = .switchBlock ∧ ∃ clause ∈ b.clauses,
          clause.label = locate o.code c.label.run ∧ clause.endsWithJump ∧
          Rule.clauseRemark o clause = none) := by
  intro source p o k value hk hn hs
  refine ⟨fun atFile rest => Stmt.read_jump_iff hk hn hs atFile, ?_⟩
  intro hfit s hsite c hc x hx rest hcode hends
  obtain ⟨hlast, hjump⟩ :=
    (Parts.isRead_of_mem_sections hsite hc).getLast?_of_jump hx hk hcode hn hs hfit hends
  obtain ⟨b, hb, hkind, hclause⟩ := exists_clause hsite hc
  refine ⟨hlast, b, hb, hkind, _, hclause, rfl, hjump, ?_⟩
  rw [Rule.clauseRemark, if_pos]
  simp [Clause.terminated, Clause.map, Section.clause, hjump]

-- The braces of a compound literal fit behind the equals sign of an assignment.
theorem Outline.endsWithJump_of_jump_assigned :
    let source := Source.ofText "a.c"
      "void f(int x) \x7b\nswitch (x) \x7b\ncase 1:\nreturn y = (a)\x7b1\x7d;\n\x7d\n\x7d\n"
    let p := Parts.ofTokens source.tokens
    let o := ofSource source
    let value : List Lexeme := [.identifier "y", .punct .assign, .punct .lparen, .identifier "a",
      .punct .rparen, .punct .lbrace, .number "1", .punct .rbrace]
    let rest : List Lexeme := [.punct .rbrace, .punct .rbrace]
    Code.isNested value ∧ .punct .semicolon ∉ Code.outer 0 value ∧ Code.bracesFit value ∧
    ∃ s ∈ p.sites, ∃ c ∈ s.sections, ∃ x ∈ c.items,
      p.lexemes.drop x.start = .keyword .returnKw :: (value ++ .punct .semicolon :: rest) ∧
      (∀ l ∈ rest.head?, l.endsSection) ∧
      c.items.getLast? = some x ∧ ∃ b ∈ o.blocks, b.kind = .switchBlock ∧ ∃ clause ∈ b.clauses,
        clause.label = locate o.code c.label.run ∧ clause.endsWithJump ∧
        Rule.clauseRemark o clause = none := by
  intro source p o value rest
  let s := p.sites.get ⟨1, by decide +kernel⟩
  let c := s.sections.get ⟨0, by decide +kernel⟩
  let x := c.items.get ⟨0, by decide +kernel⟩
  have hnested : Code.isNested value := by decide
  have hsemicolon : .punct .semicolon ∉ Code.outer 0 value := by decide
  have hfit : Code.bracesFit value := by decide
  have hs : s ∈ p.sites := List.get_mem ..
  have hc : c ∈ s.sections := List.get_mem ..
  have hx : x ∈ c.items := List.get_mem ..
  have hcode : p.lexemes.drop x.start =
      .keyword .returnKw :: (value ++ .punct .semicolon :: rest) := by decide +kernel
  have hends : ∀ l ∈ rest.head?, l.endsSection := by decide
  exact ⟨hnested, hsemicolon, hfit, s, hs, c, hc, x, hx, hcode, hends,
    (endsWithJump_of_jump _ _ .returnKw value rfl hnested hsemicolon).2 hfit s hs c hc x hx rest
      hcode hends⟩

-- A compound literal that is returned has its braces cut off. The jump is no longer the last
-- statement of its clause, which is reported.
theorem Outline.reported_of_compoundLiteral :
    let source := Source.ofText "a.c"
      "void f(int x) \x7b\nswitch (x) \x7b\ncase 1:\nreturn (struct p)\x7b1\x7d;\n\x7d\n\x7d\n"
    let p := Parts.ofTokens source.tokens
    let o := ofSource source
    let head : List Lexeme :=
      [.punct .lparen, .keyword .structKw, .identifier "p", .punct .rparen]
    let value := head ++ [.punct .lbrace, .number "1", .punct .rbrace]
    let rest : List Lexeme := [.punct .rbrace, .punct .rbrace]
    Code.isNested value ∧ .punct .semicolon ∉ Code.outer 0 value ∧
    (Stmt.read false (.keyword .returnKw) (value ++ .punct .semicolon :: rest)).value.lexemes =
      .keyword .returnKw :: head ∧
    ∃ s ∈ p.sites, ∃ c ∈ s.sections, ∃ x ∈ c.items,
      p.lexemes.drop x.start = .keyword .returnKw :: (value ++ .punct .semicolon :: rest) ∧
      ∃ b ∈ o.blocks, b.kind = .switchBlock ∧ ∃ clause ∈ b.clauses,
        clause.label = locate o.code c.label.run ∧ clause.endsWithJump = false ∧
        (Rule.clauseRemark o clause).isSome := by
  intro source p o head value rest
  let s := p.sites.get ⟨1, by decide +kernel⟩
  let c := s.sections.get ⟨0, by decide +kernel⟩
  let x := c.items.get ⟨0, by decide +kernel⟩
  have hs : s ∈ p.sites := List.get_mem ..
  have hc : c ∈ s.sections := List.get_mem ..
  obtain ⟨b, hb, hkind, hclause⟩ := exists_clause hs hc
  have hopen : (c.clause (announced p.code p.comments)).terminated = false := by decide +kernel
  refine ⟨by decide, by decide, by decide +kernel, s, hs, c, hc, x, List.get_mem ..,
    by decide +kernel, b, hb, hkind, _, hclause, rfl, by decide +kernel, ?_⟩
  rw [Rule.clauseRemark, if_neg (by simpa [Clause.terminated, Clause.map] using hopen)]
  rfl

end CLint
