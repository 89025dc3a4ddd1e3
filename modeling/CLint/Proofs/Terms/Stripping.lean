import CLint.Proofs.Declaring.Nested
import CLint.Rule.Condition
import Mathlib.Data.List.Induction

namespace CLint

namespace Lexeme

variable {l o c : Lexeme}

theorem not_paren_of_neither (hc : l.closer? = none) (hl : l.closes = false) :
    l.isMark .lparen = false ∧ l.isMark .rparen = false := by
  simp only [isMark, decide_eq_false_iff_not]
  constructor
  · rintro rfl
    cases hc
  · rintro rfl
    cases hl

theorem parens_of_closer? (h : o.closer? = some c) : o.isMark .lparen = c.isMark .rparen ∧
    o.isMark .rparen = false ∧ c.isMark .lparen = false := by
  unfold closer? at h
  split at h <;> cases h <;> decide

end Lexeme

namespace Token

-- The lexemes of some tokens.
def lexemes (ts : List Token) : List Lexeme :=
  ts.map (·.lexeme)

end Token

namespace Rule

open Token

-- Parentheses around a term, on its left and on its right.
def AreOpening (ts : List Token) : Prop :=
  ∀ t ∈ ts, t.lexeme = .punct .lparen

def AreClosing (ts : List Token) : Prop :=
  ∀ t ∈ ts, t.lexeme = .punct .rparen

variable {ts us os cs xs : List Token} {o c t : Token} {ls : List Lexeme} {p : Lexeme → Prop}

-- How many more parentheses are opened than closed.

theorem balance_append (ts us : List Token) : balance (ts ++ us) = balance ts + balance us := by
  simp only [balance, List.countP_append]
  omega

theorem balance_reverse (ts : List Token) : balance ts.reverse = balance ts := by
  simp only [balance, List.countP_reverse]

theorem balance_opening (h : AreOpening os) : balance os = os.length := by
  have hopen : os.countP (·.lexeme.isMark .lparen) = os.length :=
    List.countP_eq_length.mpr fun t ht => by simp [h t ht, Lexeme.isMark]
  have hclose : os.countP (·.lexeme.isMark .rparen) = 0 :=
    List.countP_eq_zero.mpr fun t ht => by simp [h t ht, Lexeme.isMark]
  rw [balance, hopen, hclose]
  omega

theorem balance_closing (h : AreClosing cs) : balance cs = -cs.length := by
  have hopen : cs.countP (·.lexeme.isMark .lparen) = 0 :=
    List.countP_eq_zero.mpr fun t ht => by simp [h t ht, Lexeme.isMark]
  have hclose : cs.countP (·.lexeme.isMark .rparen) = cs.length :=
    List.countP_eq_length.mpr fun t ht => by simp [h t ht, Lexeme.isMark]
  rw [balance, hopen, hclose]
  omega

theorem countP_parens_of_nested (h : Code.Nested p ls) :
    ls.countP (·.isMark .lparen) = ls.countP (·.isMark .rparen) := by
  induction h with
  | nil => rfl
  | plain hc hl _ _ ih =>
    obtain ⟨hopen, hclose⟩ := Lexeme.not_paren_of_neither hc hl
    simp [hopen, hclose, ih]
  | group hc _ _ ihi ih =>
    simp [List.countP_cons, Lexeme.parens_of_closer? hc, ihi, ih]
    omega

theorem balance_nested (h : Code.isNested (lexemes ts)) : balance ts = 0 := by
  have hcount := countP_parens_of_nested
    (Code.nested_of_isNested (p := fun _ => True) h fun _ _ => trivial)
  rw [lexemes, List.countP_map, List.countP_map] at hcount
  exact Int.sub_eq_zero.mpr (congrArg _ hcount)

-- Within parentheses the depth does not fall back to what it is outside of them.
theorem wraps_append {depth : Int} (h : Code.Nested p ls) (hd : 0 < depth) (hx : lexemes xs = ls)
    (ts : List Token) : wraps depth (xs ++ ts) = wraps depth ts := by
  induction h generalizing xs depth ts with
  | nil =>
    cases List.map_eq_nil_iff.mp hx
    rfl
  | plain hc hl _ _ ih =>
    obtain ⟨t, us, rfl, rfl, hu⟩ := List.map_eq_cons_iff.mp hx
    obtain ⟨hopen, hclose⟩ := Lexeme.not_paren_of_neither hc hl
    simp [wraps, hopen, hclose, ih hd hu]
  | group hc _ _ ihi ih =>
    obtain ⟨_, _, rfl, hfront, hback⟩ := List.map_eq_append_iff.mp hx
    obtain ⟨o, is, rfl, rfl, hi⟩ := List.map_eq_cons_iff.mp hfront
    obtain ⟨c, us, rfl, rfl, hu⟩ := List.map_eq_cons_iff.mp hback
    obtain ⟨hpair, hclose, hopen⟩ := Lexeme.parens_of_closer? hc
    have hne : depth ≠ 0 := by omega
    rw [List.append_assoc, List.cons_append, List.cons_append]
    cases hparen : o.lexeme.isMark .lparen with
    | true =>
      rw [hparen] at hpair
      simp [wraps, hparen, hopen, ← hpair, ihi (show 0 < depth + 1 by omega) hi, hne, ih hd hu]
    | false =>
      rw [hparen] at hpair
      simp [wraps, hparen, hclose, hopen, ← hpair, ihi hd hi, ih hd hu]

-- The parentheses around code whose brackets match enclose it.
theorem isWrapped_enclosed (ho : o.lexeme = .punct .lparen) (hc : c.lexeme = .punct .rparen)
    (hne : xs ≠ []) (hx : Code.isNested (lexemes xs)) : isWrapped (o :: xs ++ [c]) := by
  have hnested := Code.nested_of_isNested (p := fun _ => True) hx fun _ _ => trivial
  have hwraps : wraps 0 (o :: (xs ++ [c])) := by
    simp [wraps, ho, hc, Lexeme.isMark, wraps_append hnested Int.one_pos rfl]
  have hlength := List.length_pos_iff.mpr hne
  simp [isWrapped, ho, hc, Lexeme.isMark, balance_nested hx, hwraps]
  omega

theorem unwrap_enclosed (ho : o.lexeme = .punct .lparen) (hc : c.lexeme = .punct .rparen)
    (hne : xs ≠ []) (hx : Code.isNested (lexemes xs)) : unwrap (o :: xs ++ [c]) = unwrap xs := by
  rw [unwrap, if_pos (isWrapped_enclosed ho hc hne hx)]
  simp

theorem exists_parens_of_isWrapped (h : isWrapped ts) : ∃ o xs c, ts = o :: xs ++ [c] ∧
    o.lexeme = .punct .lparen ∧ c.lexeme = .punct .rparen ∧ xs ≠ [] := by
  unfold isWrapped at h
  split at h
  case h_1 => cases h
  case h_2 o others =>
    simp only [Bool.and_eq_true, decide_eq_true_eq, List.length_cons] at h
    obtain ⟨⟨⟨⟨hlength, ho⟩, hlast⟩, -⟩, -⟩ := h
    obtain ⟨c, hlast, hc⟩ := (Option.any_eq_true ..).mp hlast
    obtain ⟨xs, rfl⟩ := List.getLast?_eq_some_iff.mp hlast
    refine ⟨o, xs, c, rfl, of_decide_eq_true ho, of_decide_eq_true hc, ?_⟩
    rintro rfl
    simp at hlength

-- If parentheses are found to enclose a term, they do.
theorem exists_of_isWrapped (h : isWrapped ts) (hn : Code.isNested (lexemes ts)) :
    ∃ o xs c, ts = o :: xs ++ [c] ∧ o.lexeme = .punct .lparen ∧ c.lexeme = .punct .rparen ∧
      xs ≠ [] ∧ Code.isNested (lexemes xs) := by
  obtain ⟨o, xs, c, rfl, ho, hc, hne⟩ := exists_parens_of_isWrapped h
  have hwraps : wraps 1 (xs ++ [c]) := by
    simp only [isWrapped, List.cons_append, Bool.and_eq_true] at h
    simpa [wraps, ho, Lexeme.isMark] using h.2
  have hclosing : Code.closesAll [.punct .rparen] (lexemes (xs ++ [c])) := by
    simpa [Code.isNested, lexemes, Code.closesAll, ho, Lexeme.closer?] using hn
  -- The parenthesis that closes the first one is the last, as otherwise the depth is zero there.
  obtain ⟨inner, rest, hsplit, hi, -⟩ :=
    Code.closing_of_closesAll (p := fun _ => True) hclosing fun _ _ => trivial
  obtain ⟨is, _, hxs, rfl, hback⟩ := List.map_eq_append_iff.mp hsplit
  obtain ⟨d, us, rfl, hd, rfl⟩ := List.map_eq_cons_iff.mp hback
  rw [hxs, wraps_append hi Int.one_pos rfl] at hwraps
  have hus : us = [] := by
    simp [wraps, hd, Lexeme.isMark] at hwraps
    exact hwraps.1
  subst hus
  obtain ⟨rfl, -⟩ := List.append_inj' hxs rfl
  exact ⟨o, xs, c, rfl, ho, hc, hne, hi.isNested⟩

theorem dropOpening_append (ho : AreOpening os) (hx : balance xs ≤ 0) :
    ∃ os', dropOpening (os ++ xs) = os' ++ xs ∧ AreOpening os' ∧ os'.length + balance xs ≤ 0 := by
  induction os with
  | nil =>
    refine ⟨[], ?_, List.forall_mem_nil _, by simpa using hx⟩
    cases xs with
    | nil => rfl
    | cons t ts => simp [dropOpening, Int.not_lt.mpr hx]
  | cons o os ih =>
    rw [List.cons_append, dropOpening]
    split
    · exact ih (List.forall_mem_cons.mp ho).2
    · rename_i hstop
      refine ⟨o :: os, rfl, ho, ?_⟩
      have hopen : o.lexeme.isMark .lparen := decide_eq_true (ho o List.mem_cons_self)
      rw [← List.cons_append, balance_append, balance_opening ho] at hstop
      simp only [hopen, Bool.true_and, decide_eq_true_eq] at hstop
      omega

-- By induction from the end of the list.
theorem dropClosing_append (hc : AreClosing cs) (hx : 0 ≤ balance xs)
    (hle : balance xs ≤ cs.length) :
    ∃ cs', dropClosing (xs ++ cs) = xs ++ cs' ∧ AreClosing cs' ∧ balance xs = cs'.length := by
  induction cs using List.reverseRecOn with
  | nil =>
    refine ⟨[], ?_, List.forall_mem_nil _, Int.le_antisymm hle hx⟩
    rw [List.append_nil, dropClosing]
    have hbalance : ¬balance xs.reverse < 0 := by
      rw [balance_reverse]
      omega
    cases hr : xs.reverse with
    | nil => simpa [dropClosing.go] using hr.symm
    | cons t ts =>
      rw [hr] at hbalance
      rw [dropClosing.go, if_neg (by simp [hbalance]), ← hr, List.reverse_reverse]
  | append_singleton cs c ih =>
    obtain ⟨hcs, hlast⟩ := List.forall_mem_append.mp hc
    have hclose : c.lexeme.isMark .rparen :=
      decide_eq_true (hlast c (List.mem_singleton.mpr rfl))
    have hbalance : balance (c :: (xs ++ cs).reverse) = balance xs - (cs.length + 1) := by
      rw [← List.reverse_concat, balance_reverse, List.append_assoc, balance_append,
        balance_closing hc, List.length_append]
      simp
      omega
    have hreverse : (xs ++ (cs ++ [c])).reverse = c :: (xs ++ cs).reverse := by simp
    rw [dropClosing, hreverse, dropClosing.go]
    split
    · rename_i hdrop
      simp only [hclose, hbalance, Bool.true_and, decide_eq_true_eq] at hdrop
      exact ih hcs (by omega)
    · rename_i hstop
      simp only [hclose, hbalance, Bool.true_and, decide_eq_true_eq] at hstop
      refine ⟨cs ++ [c], by simp, hc, ?_⟩
      simp at hle ⊢
      omega

-- What is left of a term among parentheses has as many on its left as on its right.
theorem exists_stripped (ho : AreOpening os) (hc : AreClosing cs) (hx : balance xs = 0) :
    ∃ os' cs', dropClosing (dropOpening (os ++ xs ++ cs)) = os' ++ xs ++ cs' ∧ AreOpening os' ∧
      AreClosing cs' ∧ os'.length = cs'.length := by
  have hbalance : balance (xs ++ cs) = -cs.length := by
    rw [balance_append, hx, balance_closing hc, Int.zero_add]
  have hback : balance (xs ++ cs) ≤ 0 := by omega
  obtain ⟨os', hopening, ho', hle⟩ := dropOpening_append ho hback
  have hfront : balance (os' ++ xs) = os'.length := by
    rw [balance_append, hx, balance_opening ho', Int.add_zero]
  have hfrontLe : balance (os' ++ xs) ≤ cs.length := by omega
  obtain ⟨cs', hclosing, hc', hlength⟩ := dropClosing_append hc (by omega) hfrontLe
  refine ⟨os', cs', ?_, ho', hc', by omega⟩
  rw [List.append_assoc, hopening, ← List.append_assoc, hclosing]

theorem isNested_enclosed (ho : o.lexeme = .punct .lparen) (hc : c.lexeme = .punct .rparen)
    (hx : Code.isNested (lexemes xs)) : Code.isNested (lexemes (o :: xs ++ [c])) := by
  have hclose : Code.closesAll [.punct .rparen] [.punct .rparen] := rfl
  have hinner := Code.closesAll_append_append hx hclose
  simpa [lexemes, Code.isNested, Code.closesAll, ho, hc, Lexeme.closer?] using hinner

-- Parentheses around a term are taken off in pairs, as long as what one pair encloses has a
-- property that lasts. By induction from the innermost pair.
theorem unwrap_append_of {q : List Token → Prop}
    (hq : ∀ {o xs c}, o.lexeme = .punct .lparen → c.lexeme = .punct .rparen → xs ≠ [] → q xs →
      q (o :: xs ++ [c]) ∧ unwrap (o :: xs ++ [c]) = unwrap xs)
    (ho : AreOpening os) (hc : AreClosing cs) (hlength : os.length = cs.length)
    (hne : xs ≠ []) (hx : q xs) : unwrap (os ++ xs ++ cs) = unwrap xs := by
  induction os using List.reverseRecOn generalizing cs xs with
  | nil =>
    cases List.length_eq_zero_iff.mp hlength.symm
    simp
  | append_singleton os o ih =>
    obtain ⟨hos, ho⟩ := List.forall_mem_append.mp ho
    cases cs with
    | nil => simp at hlength
    | cons c cs =>
      obtain ⟨hc, hcs⟩ := List.forall_mem_cons.mp hc
      have ho := ho o (List.mem_singleton.mpr rfl)
      have hlength : os.length = cs.length := by simpa using hlength
      have hne' : o :: xs ++ [c] ≠ [] := by simp
      obtain ⟨hx', hunwrap⟩ := hq ho hc hne hx
      have hinner := ih hos hcs hlength hne' hx'
      rw [← hunwrap, ← hinner]
      simp

theorem unwrap_append (ho : AreOpening os) (hc : AreClosing cs) (hlength : os.length = cs.length)
    (hne : xs ≠ []) (hx : Code.isNested (lexemes xs)) : unwrap (os ++ xs ++ cs) = unwrap xs :=
  unwrap_append_of (q := fun xs => Code.isNested (lexemes xs))
    (fun ho hc hne hx => ⟨isNested_enclosed ho hc hx, unwrap_enclosed ho hc hne hx⟩)
    ho hc hlength hne hx

-- A term is enclosed if there is code in parentheses whose brackets match.
def isEnclosed (ts : List Token) : Bool :=
  let inner := (ts.drop 1).dropLast
  ts.head?.any (·.lexeme.isMark .lparen) && ts.getLast?.any (·.lexeme.isMark .rparen) &&
    !inner.isEmpty && Code.isNested (lexemes inner)

theorem isEnclosed_iff : isEnclosed ts ↔ ∃ o xs c, ts = o :: xs ++ [c] ∧
    o.lexeme = .punct .lparen ∧ c.lexeme = .punct .rparen ∧ xs ≠ [] ∧
      Code.isNested (lexemes xs) := by
  constructor
  · intro h
    simp only [isEnclosed, Bool.and_eq_true, Bool.not_eq_true', List.isEmpty_eq_false_iff,
      Option.any_eq_true, Lexeme.isMark, decide_eq_true_eq] at h
    obtain ⟨⟨⟨⟨o, hhead, ho⟩, c, hlast, hc⟩, hne⟩, hn⟩ := h
    obtain ⟨others, rfl⟩ := List.head?_eq_some_iff.mp hhead
    cases others using List.reverseRecOn with
    | nil => simp at hne
    | append_singleton xs d =>
      rw [← List.cons_append, List.getLast?_concat] at hlast
      cases hlast
      have hinner : ((o :: (xs ++ [c])).drop 1).dropLast = xs := by simp
      rw [hinner] at hne hn
      exact ⟨o, xs, c, rfl, ho, hc, hne, hn⟩
  · rintro ⟨o, xs, c, rfl, ho, hc, hne, hn⟩
    have hinner : ((o :: xs ++ [c]).drop 1).dropLast = xs := by simp
    rw [isEnclosed, List.getLast?_concat, hinner]
    simp [ho, hc, Lexeme.isMark, hne, hn]

-- A term without the parentheses that enclose it.
def core (ts : List Token) : List Token :=
  if isEnclosed ts then core (ts.drop 1).dropLast else ts
termination_by ts.length
decreasing_by
  rename_i h
  obtain ⟨o, xs, c, rfl, -⟩ := isEnclosed_iff.mp h
  simp only [List.length_dropLast, List.length_drop, List.length_append, List.length_cons,
    List.length_nil]
  omega

theorem unwrap_eq_core (hx : Code.isNested (lexemes ts)) : unwrap ts = core ts := by
  fun_induction core ts with
  | case1 ts h ih =>
    obtain ⟨o, xs, c, rfl, ho, hc, hne, hn⟩ := isEnclosed_iff.mp h
    rw [unwrap_enclosed ho hc hne hn]
    simpa using ih (by simpa using hn)
  | case2 ts h =>
    rw [unwrap, if_neg]
    exact fun hw => h (isEnclosed_iff.mpr (exists_of_isWrapped hw hx))

end Rule
end CLint
