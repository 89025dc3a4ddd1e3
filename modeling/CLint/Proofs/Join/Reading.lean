import CLint.Proofs.Join.Basic
import CLint.Proofs.Nesting
import CLint.Proofs.Reading
import CLint.Proofs.Tidy
import Mathlib.Data.List.Basic

namespace CLint

open Cut (followed)

namespace Code

variable {as ls : List Lexeme} {awaited : List Lexeme}

-- Code that ends with a semicolon, unless there is none, and at the end of which no bracket is
-- open. The code before it may have opened some that are closed here.
structure Ends (ls : List Lexeme) : Prop where
  last : ∀ l ∈ ls.getLast?, l = .punct .semicolon
  nested : ∃ awaited, closesAll awaited ls

theorem closesAll_suffix (h : closesAll awaited (as ++ ls)) : ∃ awaited, closesAll awaited ls := by
  induction as generalizing awaited with
  | nil => exact ⟨awaited, h⟩
  | cons a as ih =>
    rw [List.cons_append, closesAll.eq_def] at h
    dsimp only at h
    split at h
    · exact ih h
    · split at h
      · split at h
        · cases h
        · exact ih (Bool.and_eq_true_iff.mp h).2
      · exact ih h

theorem Ends.of_append (h : Ends (as ++ ls)) : Ends ls where
  last l hl := h.last l (by rw [List.getLast?_append, hl]; rfl)
  nested := h.nested.elim fun _ => closesAll_suffix

theorem Ends.tail {l : Lexeme} (h : Ends (l :: ls)) : Ends ls := by
  replace h : Ends ([l] ++ ls) := h
  exact h.of_append

theorem Ends.getLast? (h : Ends ls) (hne : ls ≠ []) : ls.getLast? = some (.punct .semicolon) := by
  obtain ⟨l, hl⟩ := Option.isSome_iff_exists.mp (List.getLast?_isSome.mpr hne)
  rw [hl, h.last l hl]

-- Only a semicolon can be the last of all.
theorem Ends.ne_nil {l : Lexeme} (h : Ends (l :: ls)) (hl : l ≠ .punct .semicolon) : ls ≠ [] := by
  rintro rfl
  exact hl (h.last l rfl)

end Code

variable {as ls rest more : List Lexeme} {l : Lexeme}

namespace Group

theorem read_followed {semicolons : Bool} {depth braces : Nat}
    (h : (read semicolons depth braces ls).1.isClosed) (more : List Lexeme) :
    read semicolons depth braces (ls ++ more) =
      followed (read semicolons depth braces ls) more := by
  fun_induction read semicolons depth braces ls with
  | case1 | case6 | case8 => cases h
  | case2 depth braces l ls ho ih => simp [read, ho, ih h, followed, push]
  | case3 braces l ls ho hc => simp [read, ho, hc, followed]
  | case4 braces l ls ho hc depth ih => simp [read, ho, hc, ih h, followed, push]
  | case5 depth braces l ls ho hc hb ih => simp [read, ho, hc, hb, ih h, followed, push]
  | case7 depth l ls ho hc hb hr braces ih =>
    simp [read, ho, hc, hb, hr, ih h, followed, push]
  | case9 depth braces l ls ho hc hb hr hs ih =>
    rw [List.cons_append, read.eq_def]
    dsimp only
    rw [if_neg ho, if_neg hc, if_neg hb, if_neg hr, if_neg hs, ih h]
    rfl

theorem isCloser_of_read {semicolons : Bool} {depth braces : Nat} {c : Lexeme}
    (h : (read semicolons depth braces ls).1.close = some c) : c.isCloser := by
  fun_induction read semicolons depth braces ls with
  | case1 | case6 | case8 => cases h
  | case3 braces l ls ho hc =>
    cases h
    exact hc
  | case2 _ _ _ _ _ ih | case4 _ _ _ _ _ _ ih | case5 _ _ _ _ _ _ _ ih
  | case7 _ _ _ _ _ _ _ _ ih | case9 _ _ _ _ _ _ _ _ _ ih => exact ih h

end Group

namespace Scan

variable {s : Scan} {awaited : List Lexeme}

-- A scan counts no more open brackets than are to be closed.
structure Below (s : Scan) (awaited : List Lexeme) : Prop where
  parens : s.parens ≤ awaited.count (.punct .rparen)
  brackets : s.brackets ≤ awaited.count (.punct .rbracket)
  braces : s.braces ≤ awaited.count (.punct .rbrace)

theorem Below.isTop (h : s.Below []) : s.isTop := by
  obtain ⟨hparens, hbrackets, hbraces⟩ := h
  simp only [List.count_nil, Nat.le_zero] at hparens hbrackets hbraces
  simp [Scan.isTop, hparens, hbrackets, hbraces]

theorem Below.step (h : s.Below awaited) (hn : Code.closesAll awaited (l :: ls)) :
    ∃ awaited', (s.step l).Below awaited' ∧ Code.closesAll awaited' ls := by
  obtain ⟨hparens, hbrackets, hbraces⟩ := h
  rw [Code.closesAll.eq_def] at hn
  dsimp only at hn
  split at hn
  case h_1 c hc =>
    refine ⟨c :: awaited, ?_, hn⟩
    unfold Lexeme.closer? at hc
    split at hc <;> cases hc <;>
      constructor <;> simp [Scan.step, hparens, hbrackets, hbraces]
  case h_2 hc =>
    split at hn
    case isTrue hl =>
      split at hn
      case h_1 => cases hn
      case h_2 c awaited =>
        simp only [Bool.and_eq_true, decide_eq_true_eq] at hn
        obtain ⟨rfl, hn⟩ := hn
        refine ⟨awaited, ?_, hn⟩
        rcases Lexeme.closes_iff.mp hl with rfl | rfl | rfl <;>
          simp at hparens hbrackets hbraces <;>
          constructor <;> simp [Scan.step] <;> omega
    case isFalse hl =>
      refine ⟨awaited, ?_, hn⟩
      unfold Scan.step
      split
      case h_1 | h_3 | h_5 => cases hc
      case h_2 | h_4 | h_6 => exact absurd rfl hl
      case h_7 | h_8 => exact ⟨hparens, hbrackets, hbraces⟩

-- No bracket is open at the last semicolon, so that a scan stops there if not before.
theorem read_followed (hs : s.Below awaited) (hn : Code.closesAll awaited ls)
    (hl : ls.getLast? = some (.punct .semicolon)) (more : List Lexeme) :
    (s.read ls).2 ≠ [] ∧ s.read (ls ++ more) = followed (s.read ls) more := by
  induction ls generalizing s awaited with
  | nil => cases hl
  | cons l ls ih =>
    rw [List.cons_append, read, read]
    split
    case isTrue => exact ⟨List.cons_ne_nil l ls, rfl⟩
    case isFalse hstop =>
      cases ls with
      | nil =>
        cases hl
        have hnil : awaited = [] := by simpa [Code.closesAll, Lexeme.closer?, Lexeme.closes,
          Lexeme.isCloser, Lexeme.isMark] using hn
        subst hnil
        exact absurd hs.isTop hstop
      | cons l' ls =>
        obtain ⟨awaited', hb, hn'⟩ := hs.step hn
        rw [List.getLast?_cons_cons] at hl
        obtain ⟨hne, hr⟩ := ih hb hn' hl
        rw [hr]
        exact ⟨hne, rfl⟩

end Scan

namespace Stmt

theorem semicolon_followed (h : ls ≠ []) (more : List Lexeme) :
    semicolon (ls ++ more) = followed (semicolon ls) more := by
  obtain ⟨l, ls, rfl⟩ := List.exists_cons_of_ne_nil h
  unfold semicolon
  split
  case h_1 he =>
    obtain ⟨rfl, rfl⟩ := List.cons.inj he
    rfl
  case h_2 hs =>
    split
    case h_1 he =>
      cases he
      exact absurd rfl (hs (ls ++ more))
    case h_2 => rfl

theorem readText_followed (h : Code.Ends (l :: ls)) (hne : ls ≠ []) (more : List Lexeme) :
    readText l (ls ++ more) = ((readText l ls).1, followed (readText l ls).2 more) ∧
      ((readText l ls).2.1 ∨ (readText l ls).2.2 ≠ []) := by
  obtain ⟨awaited, hn⟩ := h.nested
  have hzero : Scan.Below {} awaited := ⟨Nat.zero_le _, Nat.zero_le _, Nat.zero_le _⟩
  obtain ⟨awaited', hb, hn⟩ := hzero.step hn
  obtain ⟨hr, hread⟩ := Scan.read_followed hb hn (h.tail.getLast? hne) more
  rw [readText, readText, hread]
  refine ⟨Prod.ext rfl (semicolon_followed hr more), ?_⟩
  dsimp only
  unfold semicolon
  split
  case h_1 => exact .inl rfl
  case h_2 => exact .inr hr

theorem getLast?_of_ne {m : Lexeme} (h : (l :: ls).getLast? = some m) (hne : l ≠ m) :
    ls.getLast? = some m := by
  cases ls with
  | nil => exact absurd (Option.some.inj h) hne
  | cons l' ls => rwa [List.getLast?_cons_cons] at h

theorem readLabel_followed (depth : Int) (pending : Nat)
    (hl : ls.getLast? = some (.punct .semicolon)) (more : List Lexeme) :
    readLabel depth pending (ls ++ more) = followed (readLabel depth pending ls) more := by
  fun_induction readLabel depth pending ls with
  | case1 => cases hl
  | case2 depth pending l ls ho ih =>
    have ih := ih (getLast?_of_ne hl (by rintro rfl; cases ho))
    rw [List.cons_append, readLabel.eq_def]
    dsimp only
    rw [if_pos ho, ih]
    rfl
  | case3 depth pending l ls ho hc ih =>
    have ih := ih (getLast?_of_ne hl (by rintro rfl; cases hc))
    rw [List.cons_append, readLabel.eq_def]
    dsimp only
    rw [if_neg ho, if_pos hc, ih]
    rfl
  | case4 depth pending l ls ho hc hq ih =>
    have ih := ih (getLast?_of_ne hl (by rintro rfl; cases hq))
    rw [List.cons_append, readLabel.eq_def]
    dsimp only
    rw [if_neg ho, if_neg hc, if_pos hq, ih]
    rfl
  | case5 depth l ls ho hc hq hm =>
    rw [List.cons_append, readLabel, if_neg ho, if_neg hc, if_neg hq, if_pos hm]
    rfl
  | case6 depth l ls ho hc hq hm pending ih =>
    have ih := ih (getLast?_of_ne hl (by rintro rfl; cases hm))
    rw [List.cons_append, readLabel, if_neg ho, if_neg hc, if_neg hq, if_pos hm, ih]
    rfl
  | case7 depth pending l ls ho hc hq hm he =>
    rw [List.cons_append, readLabel.eq_def]
    dsimp only
    rw [if_neg ho, if_neg hc, if_neg hq, if_neg hm, if_pos he]
    rfl
  | case8 depth pending l ls ho hc hq hm he ih =>
    have ih := ih (getLast?_of_ne hl (by rintro rfl; exact he rfl))
    rw [List.cons_append, readLabel.eq_def]
    dsimp only
    rw [if_neg ho, if_neg hc, if_neg hq, if_neg hm, if_neg he, ih]
    rfl

theorem readGroup_followed {semicolons : Bool} (hne : ls ≠ [])
    (h : (readGroup semicolons ls).1.all Group.isClosed) (more : List Lexeme) :
    readGroup semicolons (ls ++ more) = followed (readGroup semicolons ls) more := by
  obtain ⟨l, ls, rfl⟩ := List.exists_cons_of_ne_nil hne
  by_cases hl : l = .punct .lparen
  case pos =>
    subst hl
    have hr : Group.read semicolons 0 0 (ls ++ more) =
        Cut.followed (Group.read semicolons 0 0 ls) more := Group.read_followed h more
    simp only [List.cons_append, readGroup, hr]
    rfl
  case neg =>
    have hnone : ∀ ls, readGroup semicolons (l :: ls) = (none, l :: ls) := by
      intro ls
      rw [readGroup]
      rintro ls' he
      exact hl (List.cons.inj he).1
    rw [List.cons_append, hnone, hnone]
    rfl

theorem isCloser_of_readGroup {semicolons : Bool} {g : Group} {c : Lexeme}
    (h : (readGroup semicolons ls).1 = some g) (hc : g.close = some c) : c.isCloser := by
  unfold readGroup at h
  split at h
  case h_1 =>
    cases h
    exact Group.isCloser_of_read hc
  case h_2 => cases h

-- A group that is closed does not end with a semicolon.
theorem ne_nil_of_readGroup {semicolons : Bool} (he : Code.Ends ls) (hne : ls ≠ [])
    (h : (readGroup semicolons ls).1.all Group.isClosed) : (readGroup semicolons ls).2 ≠ [] := by
  intro hnil
  have happ := readGroup_append semicolons ls
  rw [hnil, List.append_nil] at happ
  cases hg : (readGroup semicolons ls).1 with
  | none =>
    rw [hg] at happ
    exact hne happ.symm
  | some g =>
    rw [hg] at h happ
    obtain ⟨c, hc⟩ := Option.isSome_iff_exists.mp (show g.close.isSome from h)
    have hcloser := isCloser_of_readGroup hg hc
    have hlast := he.getLast? hne
    simp only [← happ, groupLexemes, Option.map_some, Option.getD_some, Group.lexemes, hc,
      Option.toList_some, List.getLast?_concat, Option.some.injEq] at hlast
    subst hlast
    cases hcloser

theorem readDoWhile_none (h : ls.head? ≠ some (.keyword .whileKw)) : readDoWhile ls = ([], ls) := by
  rw [readDoWhile]
  intro ls' hl
  simp [hl] at h

theorem readDoWhile_followed (h : Code.Ends ls) (ht : listTidy (readDoWhile ls).1)
    (hm : more.head? ≠ some (.keyword .whileKw)) :
    readDoWhile (ls ++ more) = followed (readDoWhile ls) more := by
  by_cases hw : ls.head? = some (.keyword .whileKw)
  case pos =>
    obtain ⟨ls, rfl⟩ := List.head?_eq_some_iff.mp hw
    have hne := h.ne_nil (by simp)
    have hclosed : (readGroup false ls).1.all Group.isClosed := by
      simpa [readDoWhile, listTidy, isTidy] using ht
    simp only [List.cons_append, readDoWhile, readGroup_followed hne hclosed]
    rw [followed, semicolon_followed (ne_nil_of_readGroup h.tail hne hclosed)]
    rfl
  case neg =>
    have hw' : (ls ++ more).head? ≠ some (.keyword .whileKw) := by
      cases ls with
      | nil => exact hm
      | cons l ls => exact hw
    rw [readDoWhile_none hw, readDoWhile_none hw']
    rfl

-- What may follow some code without being taken for a part of its last statement.
def Starts (more : List Lexeme) : Prop :=
  more.head? ≠ some (.keyword .elseKw) ∧ more.head? ≠ some (.keyword .whileKw)

theorem readGroup_of_ends {semicolons : Bool} {group : Option Group} {mid : List Lexeme}
    (he : Code.Ends ls) (hne : ls ≠ []) (hg : readGroup semicolons ls = (group, mid))
    (hc : group.all Group.isClosed) (more : List Lexeme) :
    readGroup semicolons (ls ++ more) = (group, mid ++ more) ∧ Code.Ends mid ∧ mid ≠ [] := by
  have happ := append_of_readGroup hg
  obtain ⟨rfl, rfl⟩ := Prod.ext_iff.mp hg
  refine ⟨readGroup_followed hne hc more, ?_, ne_nil_of_readGroup he hne hc⟩
  exact .of_append (happ.symm ▸ he)

variable {p : Part} {ss : List Stmt}

theorem Reads.ends (h : Reads p ls ss rest) (hp : p.lead = []) (he : Code.Ends ls) :
    Code.Ends rest := by
  have happ := h.append
  rw [hp, List.nil_append] at happ
  exact .of_append (happ.symm ▸ he)

theorem head?_append_ne {l : Lexeme} (h : ls.head? ≠ some l) (hm : more.head? ≠ some l) :
    (ls ++ more).head? ≠ some l := by
  cases ls with
  | nil => exact hm
  | cons _ _ => exact h

-- What is read of code that ends with a semicolon is read of it whatever follows.
theorem Reads.followed (h : Reads p ls ss rest) (he : Code.Ends ls) (hp : p = .body → ls ≠ [])
    (ht : listTidy ss) (hm : Starts more) : Reads p (ls ++ more) ss (rest ++ more) := by
  induction h with
  | stray => exact .stray
  | empty => exact .empty
  | block _ ih => exact .block (ih he.tail (by simp) ht)
  | branch hg hb _ ihb iht =>
    simp only [listTidy, isTidy, listTidy_append, Bool.and_true, Bool.and_eq_true] at ht
    obtain ⟨hclosed, htb, htt⟩ := ht
    obtain ⟨hg, hmid, hne⟩ := readGroup_of_ends he.tail (he.ne_nil (by simp)) hg hclosed more
    exact .branch hg (ihb hmid (fun _ => hne) htb) (iht (hb.ends rfl hmid) (by simp) htt)
  | loneElse _ ih =>
    simp only [listTidy, isTidy, Option.all_none, Bool.true_and, Bool.and_true] at ht
    exact .loneElse (ih he.tail (fun _ => he.ne_nil (by simp)) ht)
  | headed hk hg hb ih =>
    simp only [listTidy, isTidy, Bool.and_true, Bool.and_eq_true] at ht
    obtain ⟨hg, hmid, hne⟩ := readGroup_of_ends he.tail (he.ne_nil (by simp)) hg ht.1 more
    exact .headed hk hg (ih hmid (fun _ => hne) ht.2)
  | doLoop hb hw ih =>
    simp only [listTidy, isTidy, listTidy_append, Option.all_none, Bool.true_and, Bool.and_true,
      Bool.and_eq_true] at ht
    have hb' := ih he.tail (fun _ => he.ne_nil (by simp)) ht.1
    have hw' := readDoWhile_followed (hb.ends rfl he.tail) (hw ▸ ht.2) hm.2
    rw [hw] at hw'
    exact .doLoop hb' hw'
  | caseLabel hk hl =>
    have hlast := he.tail.getLast? (he.ne_nil (by simp))
    have hl' := readLabel_followed 0 0 hlast more
    rw [hl] at hl'
    exact .caseLabel hk hl'
  | jump hk hl =>
    have hr := (readText_followed he (he.ne_nil (by simp)) more).1
    rw [hl] at hr
    exact .jump hk hr
  | nameLabel hl => exact .nameLabel hl
  | simple hl hs hr hf =>
    have hne := he.ne_nil (by rintro rfl; cases hl)
    obtain ⟨hr', hrest⟩ := readText_followed he hne more
    rw [hr] at hr' hrest
    rw [List.cons_append]
    refine .simple hl ?_ hr' ?_
    · rwa [startsLabel, List.head?_append_of_ne_nil _ hne]
    · rcases hrest with hended | hrest
      · simp only at hended
        simp [startsFunction, hended]
      · rwa [startsFunction, List.head?_append_of_ne_nil _ hrest]
  | function hl hr hf hb ih =>
    have hr' := (readText_followed he (he.ne_nil (by rintro rfl; cases hl)) more).1
    have hmid := he.tail
    rw [← append_of_readText hr] at hmid
    rw [hr] at hr'
    exact .function hl hr' hf (ih hmid.of_append.tail (by simp) ht)
  | blockEnd => cases ht
  | blockClose => exact .blockClose
  | blockItem hl hi hb ihi ihb =>
    simp only [listTidy, isTidy, Bool.and_true, Bool.and_eq_true] at ht ihi ihb
    exact .blockItem hl (ihi he (by simp) ht.2.1) (ihb (hi.ends rfl he) (by simp) ⟨ht.1, ht.2.2⟩)
  | bodyEnd => exact absurd rfl (hp rfl)
  | bodyClose => exact .bodyClose
  | body hl hi ih => exact .body hl (ih he (by simp) ht)
  | noTail h => exact .noTail (head?_append_ne h hm.1)
  | elseIf hb ih => exact .elseIf (ih he.tail (by simp) ht)
  | elseBody h hb ih =>
    simp only [listTidy, isTidy, Option.all_none, Bool.true_and, Bool.and_true] at ht
    have hne := he.ne_nil (by simp)
    rw [List.cons_append]
    refine .elseBody ?_ (ih he.tail (fun _ => hne) ht)
    rwa [List.head?_append_of_ne_nil _ hne]

theorem readFile_append (he : Code.Ends ls) (ht : listTidy (readFile ls)) (hm : Starts more) :
    readFile (ls ++ more) = readFile ls ++ readFile more := by
  fun_induction readFile ls with
  | case1 => rfl
  | case2 l ls s ih =>
    simp only [listTidy, Bool.and_eq_true] at ht
    have hread := reads_read true l ls
    have hmore := hread.followed he (by simp) (by simpa [listTidy] using ht.1) hm
    rw [List.cons_append] at hmore
    obtain ⟨hvalue, hrest⟩ := reads_iff.mp hmore
    rw [List.cons_append, readFile, hvalue, hrest, ih (hread.ends rfl he) ht.2]
    rfl

end Stmt
end CLint
