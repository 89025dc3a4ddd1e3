import CLint.Proofs.Indented.Grammar
import CLint.Proofs.Join.Reading

namespace CLint

open Cut (followed)

variable {awaited as bs ls more : List Lexeme} {l : Lexeme}

namespace Code

-- Some code opens as many braces as it closes.
def Even (ls : List Lexeme) : Prop :=
  ls.count (.punct .lbrace) = ls.count (.punct .rbrace)

theorem Even.append (ha : Even as) (hb : Even bs) : Even (as ++ bs) := by
  rw [Even, List.count_append, List.count_append, ha, hb]

theorem Even.cons (hl : l ≠ .punct .lbrace) (hr : l ≠ .punct .rbrace) (h : Even ls) :
    Even (l :: ls) := by
  rw [Even, List.count_cons_of_ne hl, List.count_cons_of_ne hr, h]

theorem closesAll_opener (h : closesAll awaited (l :: ls)) (hl : l.isOpener) :
    ∃ c, c.isCloser ∧ closesAll (c :: awaited) ls := by
  unfold Lexeme.isOpener at hl
  split at hl
  · exact ⟨.punct .rparen, rfl, h⟩
  · exact ⟨.punct .rbracket, rfl, h⟩
  · cases hl

theorem closesAll_closing (h : closesAll awaited (l :: ls)) (hl : l.closes) :
    ∃ awaited', awaited = l :: awaited' ∧ closesAll awaited' ls := by
  have hc : l.closer? = none := by
    rcases Lexeme.closes_iff.mp hl with rfl | rfl | rfl <;> rfl
  rw [closesAll.eq_def] at h
  simp only [hc, hl, if_true] at h
  split at h
  · cases h
  · simp only [Bool.and_eq_true, decide_eq_true_eq] at h
    exact ⟨_, by rw [h.1], h.2⟩

theorem closesAll_other (h : closesAll awaited (l :: ls)) (ho : ¬l.isOpener)
    (hb : ¬l.isMark .lbrace) (hl : ¬l.closes) : closesAll awaited ls := by
  have hc : l.closer? = none := by
    unfold Lexeme.closer?
    split <;> first | rfl | exact absurd rfl ho | exact absurd rfl hb
  rw [closesAll.eq_def] at h
  simpa only [hc, if_neg hl] using h

-- What the rest of some code has to close.
theorem closesAll_rest (h : closesAll awaited (as ++ ls)) : ∃ awaited', closesAll awaited' ls ∧
    awaited'.count (.punct .rbrace) + as.count (.punct .rbrace) =
      awaited.count (.punct .rbrace) + as.count (.punct .lbrace) := by
  induction as generalizing awaited with
  | nil => exact ⟨awaited, h, rfl⟩
  | cons a as ih =>
    by_cases ho : a.isOpener
    · obtain ⟨c, hc, h⟩ := closesAll_opener h ho
      obtain ⟨awaited', h, hcount⟩ := ih h
      refine ⟨awaited', h, ?_⟩
      rw [List.count_cons_of_ne (by rintro rfl; cases hc)] at hcount
      rwa [List.count_cons_of_ne (by rintro rfl; cases ho),
        List.count_cons_of_ne (by rintro rfl; cases ho)]
    by_cases hb : a.isMark .lbrace
    · cases of_decide_eq_true hb
      have hn : closesAll (.punct .rbrace :: awaited) (as ++ ls) := h
      obtain ⟨awaited', h, hcount⟩ := ih hn
      refine ⟨awaited', h, ?_⟩
      rw [List.count_cons_self] at hcount
      rw [List.count_cons_of_ne (by simp), List.count_cons_self]
      omega
    simp only [Lexeme.isMark, decide_eq_true_eq] at hb
    by_cases hc : a.closes
    · obtain ⟨awaited, rfl, hn⟩ := closesAll_closing h hc
      obtain ⟨awaited', h, hcount⟩ := ih hn
      refine ⟨awaited', h, ?_⟩
      rw [List.count_cons, List.count_cons, List.count_cons_of_ne hb]
      omega
    · obtain ⟨awaited', h, hcount⟩ := ih (closesAll_other h ho (by simpa [Lexeme.isMark]) hc)
      refine ⟨awaited', h, ?_⟩
      rwa [List.count_cons_of_ne (by rintro rfl; exact hc rfl), List.count_cons_of_ne hb]

-- What may be left of a line with statements, if `n` braces that were opened on it are still open.
structure IsTail (n : Nat) (ls : List Lexeme) : Prop where
  last : ∀ l ∈ ls.getLast?, l = .punct .semicolon
  nested : ∃ awaited, closesAll awaited ls ∧ awaited.count (.punct .rbrace) = n

variable {n : Nat}

theorem IsTail.ends (h : IsTail n ls) : Ends ls where
  last := h.last
  nested := h.nested.imp fun _ => And.left

theorem IsTail.eq_zero (h : IsTail n []) : n = 0 := by
  obtain ⟨awaited, hn, rfl⟩ := h.nested
  rw [List.isEmpty_iff.mp hn, List.count_nil]

theorem IsTail.of_append {m : Nat} (h : IsTail n (as ++ ls))
    (hm : m + as.count (.punct .rbrace) = n + as.count (.punct .lbrace)) : IsTail m ls where
  last := h.ends.of_append.last
  nested := by
    obtain ⟨awaited, hn, rfl⟩ := h.nested
    obtain ⟨awaited', hn', hcount⟩ := closesAll_rest hn
    exact ⟨awaited', hn', by omega⟩

theorem IsTail.of_even (h : IsTail n (as ++ ls)) (ha : Even as) : IsTail n ls :=
  h.of_append (by rw [ha])

theorem IsTail.tail (h : IsTail n (l :: ls)) (hl : l.breaksOff = false) : IsTail n ls := by
  have h : IsTail n ([l] ++ ls) := h
  exact h.of_even (.cons (by rintro rfl; cases hl) (by rintro rfl; cases hl) rfl)

theorem IsTail.lbrace (h : IsTail n (.punct .lbrace :: ls)) : IsTail (n + 1) ls := by
  have h : IsTail n ([.punct .lbrace] ++ ls) := h
  exact h.of_append rfl

theorem IsTail.rbrace (h : IsTail n (.punct .rbrace :: ls)) : ∃ m, n = m + 1 ∧ IsTail m ls := by
  obtain ⟨awaited, hn, rfl⟩ := h.nested
  obtain ⟨awaited, rfl, hn⟩ := closesAll_closing hn rfl
  exact ⟨_, List.count_cons_self, h.ends.tail.last, awaited, hn, rfl⟩

end Code

namespace Group

-- A group in code that ends with a semicolon ends before that.
theorem read_within {semicolons : Bool} {depth braces : Nat} {inner outer : List Lexeme}
    (hn : Code.closesAll (inner ++ .punct .rparen :: outer) ls)
    (hl : ls.getLast? = some (.punct .semicolon)) (hd : inner.countP Lexeme.isCloser = depth)
    (hb : inner.count (.punct .rbrace) = braces) (more : List Lexeme) :
    read semicolons depth braces (ls ++ more) = followed (read semicolons depth braces ls) more ∧
      (read semicolons depth braces ls).2 ≠ [] ∧
      braces + (read semicolons depth braces ls).1.inner.count (.punct .lbrace) =
        (read semicolons depth braces ls).1.inner.count (.punct .rbrace) := by
  fun_induction read semicolons depth braces ls generalizing inner with
  | case1 => cases hl
  | case2 depth braces l ls ho ih =>
    obtain ⟨c, hc, hn⟩ := Code.closesAll_opener hn ho
    have hcount : (c :: inner).count (.punct .rbrace) = braces := by
      rw [List.count_cons_of_ne (by rintro rfl; cases hc), hb]
    have hn : Code.closesAll ((c :: inner) ++ .punct .rparen :: outer) ls := hn
    obtain ⟨hread, hrest, heven⟩ := ih hn
      (Stmt.getLast?_of_ne hl (by rintro rfl; cases ho)) (by simp [hc, hd]) hcount
    refine ⟨by simp [read, ho, hread, followed, push], hrest, ?_⟩
    rw [push, List.count_cons_of_ne (by rintro rfl; cases ho),
      List.count_cons_of_ne (by rintro rfl; cases ho), heven]
  | case3 braces l ls ho hc =>
    obtain ⟨awaited, hawaited, hn⟩ := Code.closesAll_closing hn (by simp [Lexeme.closes, hc])
    have hnil : inner = [] := by
      cases inner with
      | nil => rfl
      | cons c inner =>
        cases (List.cons.inj hawaited).1
        simp [hc] at hd
    subst hnil hb
    refine ⟨by simp [read, ho, hc, followed], ?_, rfl⟩
    rintro rfl
    cases hl
    cases hc
  | case4 braces l ls ho hc depth ih =>
    obtain ⟨awaited, hawaited, hn⟩ := Code.closesAll_closing hn (by simp [Lexeme.closes, hc])
    cases inner with
    | nil => cases hd
    | cons c inner =>
      obtain ⟨rfl, rfl⟩ := List.cons.inj hawaited
      have hcount : inner.count (.punct .rbrace) = braces := by
        rwa [List.count_cons_of_ne (by rintro rfl; cases hc)] at hb
      obtain ⟨hread, hrest, heven⟩ := ih hn
        (Stmt.getLast?_of_ne hl (by rintro rfl; cases hc)) (by simpa [hc] using hd) hcount
      refine ⟨by simp [read, ho, hc, hread, followed, push], hrest, ?_⟩
      rw [push, List.count_cons_of_ne (by rintro rfl; cases hc),
        List.count_cons_of_ne (by rintro rfl; cases hc), heven]
  | case5 depth braces l ls ho hc hbrace ih =>
    cases of_decide_eq_true hbrace
    have hn : Code.closesAll ((.punct .rbrace :: inner) ++ .punct .rparen :: outer) ls := hn
    obtain ⟨hread, hrest, heven⟩ := ih hn
      (Stmt.getLast?_of_ne hl (by simp)) (by simpa [Lexeme.isCloser] using hd) (by simp [hb])
    refine ⟨by simp [read, ho, hc, hbrace, hread, followed, push], hrest, ?_⟩
    rw [push, List.count_cons_self, List.count_cons_of_ne (by simp), ← heven]
    omega
  | case6 depth l ls ho hc hbrace hr =>
    cases of_decide_eq_true hr
    obtain ⟨awaited, hawaited, hn⟩ := Code.closesAll_closing hn rfl
    cases inner with
    | nil => cases hawaited
    | cons c inner =>
      cases (List.cons.inj hawaited).1
      simp at hb
  | case7 depth l ls ho hc hbrace hr braces ih =>
    cases of_decide_eq_true hr
    obtain ⟨awaited, hawaited, hn⟩ := Code.closesAll_closing hn rfl
    cases inner with
    | nil => cases hawaited
    | cons c inner =>
      obtain ⟨rfl, rfl⟩ := List.cons.inj hawaited
      obtain ⟨hread, hrest, heven⟩ := ih hn (Stmt.getLast?_of_ne hl (by simp))
        (by simpa [Lexeme.isCloser] using hd) (by simpa using hb)
      refine ⟨by simp [read, ho, hc, hbrace, hr, hread, followed, push], hrest, ?_⟩
      rw [push, List.count_cons_self, List.count_cons_of_ne (by simp), ← heven]
      omega
  | case8 depth braces l ls ho hc hbrace hr hs =>
    simp only [Bool.and_eq_true, decide_eq_true_eq] at hs
    refine ⟨by simp [read, ho, hc, hbrace, hr, hs, followed], List.cons_ne_nil l ls, ?_⟩
    simp [hs]
  | case9 depth braces l ls ho hc hbrace hr hs ih =>
    have hn := Code.closesAll_other hn ho hbrace (by simp [Lexeme.closes, hc, hr])
    have hlast : ls.getLast? = some (.punct .semicolon) := by
      cases ls with
      | nil => cases inner <;> cases hn
      | cons l' ls => rwa [List.getLast?_cons_cons] at hl
    obtain ⟨hread, hrest, heven⟩ := ih hn hlast hd hb
    refine ⟨?_, hrest, ?_⟩
    · rw [List.cons_append, read.eq_def]
      dsimp only
      rw [if_neg ho, if_neg hc, if_neg hbrace, if_neg hr, if_neg hs, hread]
      rfl
    · simp only [Lexeme.isMark, decide_eq_true_eq] at hbrace hr
      rw [push, List.count_cons_of_ne hbrace, List.count_cons_of_ne hr, heven]

-- A group that is nested properly ends with its parenthesis if all its semicolons are in braces,
-- or if they have a place in it.
theorem read_enclosed {semicolons : Bool} {braces : Nat} (hn : Code.closesAll awaited ls)
    (hb : awaited.count (.punct .rbrace) = braces)
    (he : semicolons || Code.enclosesSemicolons braces ls) (more : List Lexeme) :
    read semicolons (awaited.countP Lexeme.isCloser) braces (ls ++ .punct .rparen :: more) =
      (⟨ls, some (.punct .rparen)⟩, more) := by
  fun_induction Code.closesAll awaited ls generalizing braces with
  | case1 awaited =>
    cases List.isEmpty_iff.mp hn
    rfl
  | case2 awaited l ls c hc ih =>
    unfold Lexeme.closer? at hc
    split at hc
    case h_1 | h_2 =>
      cases hc
      have ih := ih hn (by rw [List.count_cons_of_ne (by simp), hb]) he
      rw [List.countP_cons_of_pos rfl] at ih
      simp [read, Lexeme.isOpener, ih, push]
    case h_3 =>
      cases hc
      have ih := ih hn (by rw [List.count_cons_self, hb]) he
      rw [List.countP_cons_of_neg (by decide)] at ih
      simp [read, Lexeme.isOpener, Lexeme.isCloser, Lexeme.isMark, ih, push]
    case h_4 => cases hc
  | case3 => cases hn
  | case4 l ls hc hl c awaited ih =>
    simp only [Bool.and_eq_true, decide_eq_true_eq] at hn
    obtain ⟨rfl, hn⟩ := hn
    rcases Lexeme.closes_iff.mp hl with rfl | rfl | rfl
    case inl | inr.inl =>
      rw [List.count_cons_of_ne (by simp)] at hb
      have ih := ih hn hb he
      rw [List.countP_cons_of_pos rfl]
      simp [read, Lexeme.isOpener, Lexeme.isCloser, ih, push]
    case inr.inr =>
      rw [List.count_cons_self] at hb
      subst hb
      have ih := ih hn rfl he
      rw [List.countP_cons_of_neg (by decide)]
      simp [read, Lexeme.isOpener, Lexeme.isCloser, Lexeme.isMark, ih, push]
  | case5 awaited l ls hc hl ih =>
    obtain ⟨hopen, hbrace⟩ := Lexeme.not_opener_of_closer? hc
    obtain ⟨hclose, hrbrace⟩ := Lexeme.closes_eq_false_iff.mp (Bool.not_eq_true _ ▸ hl)
    simp only [Code.enclosesSemicolons, hbrace, hrbrace, Bool.false_eq_true, if_false] at he
    have hsemi : (l.isMark .semicolon && decide (braces = 0) && !semicolons) = false := by
      cases hm : l.isMark .semicolon <;> cases semicolons <;> simp_all
    have he' : semicolons || Code.enclosesSemicolons braces ls := by
      rw [Bool.or_eq_true] at he ⊢
      exact he.imp_right fun he => by split at he <;> simp_all
    rw [List.cons_append, read.eq_def]
    simp [hopen, hclose, hbrace, hrbrace, hsemi, ih hn hb he', push]

end Group

namespace Scan

theorem braces_step {s : Scan} (hl : l ≠ .punct .lbrace) (hr : l ≠ .punct .rbrace) :
    (s.step l).braces = s.braces := by
  unfold step
  split
  case h_5 => exact absurd rfl hl
  case h_6 => exact absurd rfl hr
  all_goals rfl

-- A scan stops only outside of the braces that it has read.
theorem even_of_read {s : Scan} (h : (s.read ls).2 ≠ []) :
    s.braces + (s.read ls).1.count (.punct .lbrace) = (s.read ls).1.count (.punct .rbrace) := by
  fun_induction Scan.read s ls with
  | case1 => exact absurd rfl h
  | case2 s l ls hs =>
    unfold stopsAt at hs
    split at hs <;> simp_all [isTop]
  | case3 s l ls hs ih =>
    have ih := ih h
    by_cases hbrace : l = .punct .lbrace
    · subst hbrace
      have hstep : (s.step (.punct .lbrace)).braces = s.braces + 1 := rfl
      rw [Cut.fst_keep, List.count_cons_self, List.count_cons_of_ne (by simp), ← ih, hstep]
      omega
    by_cases hr : l = .punct .rbrace
    · subst hr
      have hs : s.braces ≠ 0 := by simpa [stopsAt] using hs
      have hstep : (s.step (.punct .rbrace)).braces = s.braces - 1 := rfl
      rw [Cut.fst_keep, List.count_cons_self, List.count_cons_of_ne (by simp), ← ih, hstep]
      omega
    rw [Cut.fst_keep, List.count_cons_of_ne hbrace, List.count_cons_of_ne hr, ← ih,
      braces_step hbrace hr]

end Scan

namespace Stmt

variable {n : Nat}

theorem even_semicolonIf (ended : Bool) : Code.Even (semicolonIf ended) := by
  cases ended <;> rfl

theorem even_readLabel (depth : Int) (pending : Nat) (ls : List Lexeme) :
    Code.Even (readLabel depth pending ls).1 := by
  fun_induction readLabel depth pending ls with
  | case1 | case7 => rfl
  | case2 depth pending l ls ho ih | case3 depth pending l ls _ ho ih
  | case4 depth pending l ls _ _ ho ih =>
    exact .cons (by rintro rfl; cases ho) (by rintro rfl; cases ho) ih
  | case5 depth l ls _ _ _ hm =>
    exact .cons (by rintro rfl; cases hm) (by rintro rfl; cases hm) rfl
  | case6 depth l ls _ _ _ hm _ ih =>
    exact .cons (by rintro rfl; cases hm) (by rintro rfl; cases hm) ih
  | case8 depth pending l ls _ _ _ _ hm ih =>
    exact .cons (by rintro rfl; exact hm rfl) (by rintro rfl; exact hm rfl) ih

-- The readers do not leave a line with statements before its end.
theorem readText_within (h : Code.IsTail n (l :: ls)) (hl : l.breaksOff = false)
    (more : List Lexeme) :
    ∃ text ended rest, readText l (ls ++ more) = (text, ended, rest ++ more) ∧
      text ++ semicolonIf ended ++ rest = ls ∧ Code.IsTail n rest := by
  have hne : ls ≠ [] := h.ends.ne_nil (by rintro rfl; cases hl)
  have hstop : ((Scan.step {} l).read ls).2 ≠ [] := by
    intro hnil
    have hrest := (readText_followed h.ends hne []).2
    simp [readText, hnil, semicolon] at hrest
  have happ := readText_append l ls
  have heven : Code.Even ((readText l ls).1 ++ semicolonIf (readText l ls).2.1) := by
    refine .append ?_ (even_semicolonIf _)
    have heven := Scan.even_of_read hstop
    rwa [Scan.braces_step (by rintro rfl; cases hl) (by rintro rfl; cases hl), Nat.zero_add]
      at heven
  refine ⟨_, _, _, (readText_followed h.ends hne more).1, happ, ?_⟩
  have htail := h.tail hl
  rw [← happ] at htail
  exact htail.of_even heven

theorem readGroup_within {semicolons : Bool} (h : Code.IsTail n ls) (hne : ls ≠ [])
    (more : List Lexeme) :
    ∃ group rest, readGroup semicolons (ls ++ more) = (group, rest ++ more) ∧
      groupLexemes group ++ rest = ls ∧ rest ≠ [] ∧ Code.IsTail n rest := by
  obtain ⟨l, ls, rfl⟩ := List.exists_cons_of_ne_nil hne
  by_cases hl : l = .punct .lparen
  case neg =>
    have hnone : readGroup semicolons (l :: ls ++ more) = (none, l :: ls ++ more) := by
      rw [readGroup]
      rintro ls' he
      exact hl (List.cons.inj he).1
    exact ⟨none, l :: ls, hnone, rfl, hne, h⟩
  case pos =>
    subst hl
    obtain ⟨awaited, hn, _⟩ := h.nested
    have hlast := getLast?_of_ne (h.ends.getLast? hne) (by simp)
    have hn : Code.closesAll ([] ++ .punct .rparen :: awaited) ls := hn
    obtain ⟨hread, hrest, heven⟩ := Group.read_within hn hlast rfl rfl more
    rw [List.countP_nil, List.count_nil, Nat.zero_add] at *
    have happ := Group.read_append semicolons 0 0 ls
    refine ⟨some (Group.read semicolons 0 0 ls).1, (Group.read semicolons 0 0 ls).2, ?_, ?_, hrest,
      ?_⟩
    · rw [List.cons_append, readGroup, hread]
      rfl
    · simpa [groupLexemes, Group.lexemes] using happ
    · have htail := h.tail rfl
      rw [← happ] at htail
      refine htail.of_even (.append heven ?_)
      cases hclose : (Group.read semicolons 0 0 ls).1.close with
      | none => rfl
      | some c =>
        have hc := Group.isCloser_of_read hclose
        exact .cons (by rintro rfl; cases hc) (by rintro rfl; cases hc) rfl

theorem readLabel_within (h : Code.IsTail n (l :: ls)) (hl : l.breaksOff = false)
    (more : List Lexeme) :
    ∃ text rest, readLabel 0 0 (ls ++ more) = (text, rest ++ more) ∧ text ++ rest = ls ∧
      Code.IsTail n rest := by
  have hne : ls ≠ [] := h.ends.ne_nil (by rintro rfl; cases hl)
  have htail := h.tail hl
  have happ := readLabel_append 0 0 ls
  refine ⟨_, _, readLabel_followed 0 0 (htail.ends.getLast? hne) more, happ, ?_⟩
  rw [← happ] at htail
  exact htail.of_even (even_readLabel 0 0 ls)

theorem readGroup_enclosed {semicolons : Bool} (hn : Code.isNested ls)
    (he : semicolons || Code.enclosesSemicolons 0 ls) (more : List Lexeme) :
    readGroup semicolons (Phrase.inParens ls ++ more) =
      (some ⟨ls, some (.punct .rparen)⟩, more) := by
  have hread := Group.read_enclosed hn rfl he more
  rw [List.countP_nil, List.count_nil] at hread
  rw [Phrase.inParens, List.append_assoc, List.singleton_append, List.cons_append, readGroup, hread]

end Stmt

-- The text of a signature ends before the brace behind it.
theorem SignatureRow.exists_code (s : SignatureRow) : ∃ l ls, s.code = l :: ls ∧ l.isPlain ∧
    ∀ more, Stmt.readText l (ls ++ .punct .lbrace :: more) =
      (ls, false, .punct .lbrace :: more) := by
  obtain ⟨ls, hs⟩ := List.getLast?_eq_some_iff.mp s.ended
  obtain ⟨l, text, hcode⟩ := List.exists_cons_of_ne_nil (l := s.code) (by simp [hs])
  have htag : (s.code.foldl Scan.step {}).tag = .none := by
    rw [hs, List.foldl_append]
    rfl
  have hzero : Scan.Awaits {} [] := ⟨rfl, rfl, rfl⟩
  have htop := (hzero.foldl_step s.nested).isTop
  have hflat := s.flat
  have hplain := s.plain
  have hassigned := s.unassigned
  rw [hcode] at htag htop hflat hplain hassigned
  rw [List.foldl_cons] at htag htop hassigned
  have hstop : (text.foldl Scan.step (Scan.step {} l)).stopsAt (.punct .lbrace) := by
    simp [Scan.stopsAt, htag, htop, hassigned]
  have htext : ∀ m ∈ text, m.breaksOff = false := fun m hm => by
    simpa using List.all_eq_true.mp hflat m (List.mem_cons_of_mem l hm)
  refine ⟨l, text, hcode, by simpa using hplain, fun more => ?_⟩
  simp only [Stmt.readText, Scan.read_append_of_not_stopsAt htext, Scan.read, hstop, if_true,
    List.append_nil]
  rfl

end CLint
