import CLint.Proofs.Nesting

namespace CLint

namespace Code

-- Code in which the brackets match, where all that open are alike, and all that close are. Only
-- what is in no brackets has the property `p`.
inductive Matched (opens closes : Lexeme → Bool) : (Lexeme → Prop) → List Lexeme → Prop
  | nil {p : Lexeme → Prop} : Matched opens closes p []
  | plain {p : Lexeme → Prop} {l : Lexeme} {ls : List Lexeme} (ho : opens l = false)
      (hc : closes l = false) (hp : p l) (h : Matched opens closes p ls) :
      Matched opens closes p (l :: ls)
  | group {p : Lexeme → Prop} {o c : Lexeme} {inner ls : List Lexeme} (ho : opens o)
      (hc : closes c) (hi : Matched opens closes (fun _ => True) inner)
      (h : Matched opens closes p ls) : Matched opens closes p (o :: inner ++ c :: ls)

-- The end of such code is made of a piece before each of the brackets that were opened before it,
-- `n` of them, and one behind the last.
inductive Trailing (opens closes : Lexeme → Bool) : Nat → List Lexeme → Prop
  | last {ls : List Lexeme} (h : Matched opens closes (fun _ => True) ls) :
      Trailing opens closes 0 ls
  | close {n : Nat} {c : Lexeme} {inner ls : List Lexeme}
      (hi : Matched opens closes (fun _ => True) inner) (hc : closes c)
      (h : Trailing opens closes n ls) : Trailing opens closes (n + 1) (inner ++ c :: ls)

variable {opens closes : Lexeme → Bool} {p q : Lexeme → Prop} {l c : Lexeme} {n : Nat}
  {as bs ls ms rest : List Lexeme}

namespace Matched

theorem append (h : Matched opens closes p ls) (hm : Matched opens closes p ms) :
    Matched opens closes p (ls ++ ms) := by
  induction h with
  | nil => exact hm
  | plain ho hc hp _ ih => exact .plain ho hc hp (ih hm)
  | group ho hc hi _ _ ih =>
    rw [List.append_assoc, List.cons_append]
    exact .group ho hc hi (ih hm)

theorem mono (h : Matched opens closes p ls) (hpq : ∀ l, p l → q l) :
    Matched opens closes q ls := by
  induction h with
  | nil => exact .nil
  | plain ho hc hp _ ih => exact .plain ho hc (hpq _ hp) (ih hpq)
  | group ho hc hi _ _ ih => exact .group ho hc hi (ih hpq)

-- Read backwards, the brackets have changed their parts.
theorem reverse (h : Matched opens closes p ls) : Matched closes opens p ls.reverse := by
  induction h with
  | nil => exact .nil
  | plain ho hc hp _ ih =>
    rw [List.reverse_cons]
    exact ih.append (.plain hc ho hp .nil)
  | group ho hc _ _ ihi ih =>
    have hgroup := ih.append (.group hc ho ihi .nil)
    simpa using hgroup

-- Such code either has a property everywhere outside of its brackets, or up to some lexeme that has
-- not.
theorem holds_or_split (h : Matched opens closes q ls) (p : Lexeme → Prop) :
    Matched opens closes p ls ∨ ∃ front l rest, ls = front ++ l :: rest ∧
      Matched opens closes p front ∧ opens l = false ∧ closes l = false ∧ ¬p l := by
  induction h with
  | nil => exact .inl .nil
  | @plain q l ls ho hc _ _ ih =>
    by_cases hp : p l
    case neg => exact .inr ⟨[], l, ls, rfl, .nil, ho, hc, hp⟩
    case pos =>
      rcases ih with h | ⟨front, m, rest, rfl, hf, hm⟩
      · exact .inl (.plain ho hc hp h)
      · exact .inr ⟨l :: front, m, rest, rfl, .plain ho hc hp hf, hm⟩
  | @group q o c inner ls ho hc hi _ _ ih =>
    rcases ih with h | ⟨front, m, rest, rfl, hf, hm⟩
    · exact .inl (.group ho hc hi h)
    · exact .inr ⟨o :: inner ++ c :: front, m, rest, by simp, .group ho hc hi hf, hm⟩

end Matched

namespace Trailing

theorem matched (h : Trailing opens closes 0 ls) : Matched opens closes (fun _ => True) ls := by
  cases h with
  | last h => exact h

theorem prepend (hm : Matched opens closes (fun _ => True) ms) (h : Trailing opens closes n ls) :
    Trailing opens closes n (ms ++ ls) := by
  cases h with
  | last h => exact .last (hm.append h)
  | close hi hc h =>
    rw [← List.append_assoc]
    exact .close (hm.append hi) hc h

theorem behind (hm : Matched opens closes (fun _ => True) ms) (hc : closes c)
    (h : Trailing opens closes n ls) : Trailing opens closes (n + 1) (ls ++ c :: ms) := by
  induction h with
  | last h => exact .close h hc (.last hm)
  | close hi hd _ ih =>
    rw [List.append_assoc, List.cons_append]
    exact .close hi hd ih

-- An opening bracket takes the code behind it up to the first bracket that closes.
theorem opened (ho : opens l) (h : Trailing opens closes (n + 1) ls) :
    Trailing opens closes n (l :: ls) := by
  cases h with
  | @close _ c inner ls hi hc h =>
    have hgroup := h.prepend (.group ho hc hi .nil)
    simpa using hgroup

end Trailing

-- By induction on how the brackets of the whole match.
theorem Matched.exists_trailing (h : Matched opens closes p ls) (hl : ls = as ++ bs) :
    ∃ n, Trailing opens closes n bs := by
  induction h generalizing as bs with
  | nil =>
    obtain ⟨-, rfl⟩ := List.append_eq_nil_iff.mp hl.symm
    exact ⟨0, .last .nil⟩
  | plain ho hc hp h ih =>
    cases as with
    | nil =>
      obtain rfl : _ = bs := hl
      exact ⟨0, .last (.plain ho hc trivial (h.mono fun _ _ => trivial))⟩
    | cons a as =>
      obtain ⟨-, rfl⟩ := List.cons.inj hl
      exact ih rfl
  | @group p o c inner ls ho hc hi h ihi ih =>
    have hls := h.mono (q := fun _ => True) fun _ _ => trivial
    cases as with
    | nil =>
      obtain rfl : _ = bs := hl
      exact ⟨0, .last (.group ho hc hi hls)⟩
    | cons a as =>
      obtain ⟨-, hl⟩ := List.cons.inj hl
      rcases List.append_eq_append_iff.mp hl with ⟨back, rfl, hback⟩ | ⟨front, rfl, rfl⟩
      · cases back with
        | nil =>
          obtain rfl : _ = bs := hback
          exact ⟨1, .close .nil hc (.last hls)⟩
        | cons b back => exact ih (List.cons.inj hback).2
      · obtain ⟨n, hn⟩ := ihi rfl
        exact ⟨n + 1, hn.behind hls hc⟩

end Code

-- What a closed group contains is what its parenthesis takes.
theorem Group.trailing_inner_read {semicolons : Bool} {depth braces : Nat} {ls : List Lexeme}
    (h : (read semicolons depth braces ls).1.isClosed) :
    Code.Trailing Lexeme.isOpener Lexeme.isCloser depth
      (read semicolons depth braces ls).1.inner := by
  fun_induction read semicolons depth braces ls with
  | case1 => cases h
  | case2 depth braces l ls ho ih => exact (ih h).opened ho
  | case3 => exact .last .nil
  | case4 braces l ls _ hc depth ih => exact .close .nil hc (ih h)
  | case6 => cases h
  | case8 => cases h
  | case5 depth braces l ls ho hc _ ih | case7 depth l ls ho hc _ _ braces ih
  | case9 depth braces l ls ho hc _ _ _ ih =>
    exact (ih h).prepend
      (.plain (eq_false_of_ne_true ho) (eq_false_of_ne_true hc) trivial .nil)

namespace Lexeme

variable {l : Lexeme}

theorem nestingFlat_of_opener (h : l.isOpener) :
    l.nestingFlat = 1 ∧ l.isMark .semicolon = false := by
  cases l with
  | punct p => cases p <;> first | exact ⟨rfl, rfl⟩ | cases h
  | _ => cases h

theorem nestingFlat_of_closer (h : l.isCloser) :
    l.nestingFlat = -1 ∧ l.isMark .semicolon = false := by
  cases l with
  | punct p => cases p <;> first | exact ⟨rfl, rfl⟩ | cases h
  | _ => cases h

theorem nestingFlat_of_neither (ho : l.isOpener = false) (hc : l.isCloser = false) :
    l.nestingFlat = 0 := by
  simp [nestingFlat, ho, hc]

end Lexeme

namespace Code

variable {p : Lexeme → Prop} {depth : Nat} {piece ls rest : List Lexeme}
  {pieces : List (List Lexeme)}

-- What is in brackets is not cut.
theorem Matched.cut_append (h : Matched Lexeme.isOpener Lexeme.isCloser p ls)
    (hr : cut Lexeme.nestingFlat .semicolon (depth + 1 : Nat) rest = piece :: pieces) :
    cut Lexeme.nestingFlat .semicolon (depth + 1 : Nat) (ls ++ rest) = (ls ++ piece) :: pieces := by
  induction h generalizing depth rest piece pieces with
  | nil => exact hr
  | @plain p l ls ho hc _ _ ih =>
    have hdepth : decide (((depth + 1 : Nat) : Int) = 0) = false := by simp; omega
    rw [List.cons_append, cut, hdepth, Bool.and_false, Lexeme.nestingFlat_of_neither ho hc,
      Int.add_zero, ih hr]
    rfl
  | @group p o c inner ls ho hc _ _ ihi ih =>
    obtain ⟨hno, hso⟩ := Lexeme.nestingFlat_of_opener ho
    obtain ⟨hnc, hsc⟩ := Lexeme.nestingFlat_of_closer hc
    have hclose : cut Lexeme.nestingFlat .semicolon (depth + 1 + 1 : Nat) (c :: (ls ++ rest)) =
        (c :: (ls ++ piece)) :: pieces := by
      have hdepth : ((depth + 1 + 1 : Nat) : Int) + -1 = (depth + 1 : Nat) := by omega
      rw [cut, hsc, hnc, hdepth, ih hr]
      rfl
    have hopen : ((depth + 1 : Nat) : Int) + 1 = (depth + 1 + 1 : Nat) := by omega
    rw [List.append_assoc, List.cons_append, List.cons_append, cut, hso, hno, hopen, ihi hclose]
    simp

-- The pieces that code is cut into are no less matched.
theorem Matched.of_mem_cut (h : Matched Lexeme.isOpener Lexeme.isCloser p ls)
    (hp : piece ∈ cut Lexeme.nestingFlat .semicolon 0 ls) :
    Matched Lexeme.isOpener Lexeme.isCloser p piece := by
  induction h generalizing piece with
  | nil => exact List.mem_singleton.mp hp ▸ .nil
  | @plain p l ls ho hc hl _ ih =>
    obtain ⟨first, pieces, hcut⟩ := exists_cut Lexeme.nestingFlat .semicolon 0 ls
    rw [cut, Lexeme.nestingFlat_of_neither ho hc, Int.add_zero] at hp
    rw [hcut] at hp ih
    split at hp
    case isTrue =>
      cases List.mem_cons.mp hp
      case inl hp => exact hp ▸ .nil
      case inr hp => exact ih hp
    case isFalse =>
      cases List.mem_cons.mp hp
      case inl hp => exact hp ▸ .plain ho hc hl (ih List.mem_cons_self)
      case inr hp => exact ih (List.mem_cons_of_mem _ hp)
  | @group p o c inner ls ho hc hi _ _ ih =>
    obtain ⟨hno, hso⟩ := Lexeme.nestingFlat_of_opener ho
    obtain ⟨hnc, hsc⟩ := Lexeme.nestingFlat_of_closer hc
    obtain ⟨first, pieces, hcut⟩ := exists_cut Lexeme.nestingFlat .semicolon 0 ls
    have hclose : cut Lexeme.nestingFlat .semicolon (0 + 1 : Nat) (c :: ls) =
        (c :: first) :: pieces := by
      have hdepth : ((0 + 1 : Nat) : Int) + -1 = 0 := by omega
      rw [cut, hsc, hnc, hdepth, hcut]
      rfl
    have hopen : (0 : Int) + 1 = (0 + 1 : Nat) := by omega
    rw [List.cons_append, cut, hso, hno, hopen, hi.cut_append hclose] at hp
    rw [hcut] at ih
    cases List.mem_cons.mp hp
    case inl hp => exact hp ▸ .group ho hc hi (ih List.mem_cons_self)
    case inr hp => exact ih (List.mem_cons_of_mem _ hp)

end Code

namespace Group

variable {g : Group}

theorem matched_content {semicolons : Bool} {ls : List Lexeme}
    (h : (Stmt.readGroup semicolons ls).1 = some g) (hg : g.isClosed) :
    Code.Matched Lexeme.isOpener Lexeme.isCloser (fun _ => True) g.content := by
  unfold Stmt.readGroup at h
  split at h <;> cases h
  case h_1.refl ls =>
    rw [content, if_pos hg]
    exact (trailing_inner_read hg).matched

theorem matched_forCondition (start : Nat)
    (h : Code.Matched Lexeme.isOpener Lexeme.isCloser (fun _ => True) g.content) :
    Code.Matched Lexeme.isOpener Lexeme.isCloser (fun _ => True)
      (g.forCondition start).lexemes := by
  unfold forCondition
  split
  case h_1 _ condition _ _ hp =>
    have hmem : condition ∈ g.pieces start := hp ▸ by simp
    exact h.of_mem_cut (Code.lexemes_of_mem_laidOut hmem)
  case h_2 => exact h

end Group
end CLint
