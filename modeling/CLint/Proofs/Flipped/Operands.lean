import CLint.Control.Comparison
import CLint.Proofs.Declaring.Grammar
import CLint.Proofs.Flipped.Formula

namespace CLint

namespace Code

-- The depth behind some code, if it is as given before it.
def depth (n : Nat) (ls : List Lexeme) : Nat :=
  ls.foldl (fun n l => if l.closer?.isSome then n + 1 else if l.closes then n - 1 else n) n

variable {n : Nat} {l : Lexeme} {ls ms : List Lexeme}

theorem depth_append (n : Nat) (ls ms : List Lexeme) :
    depth n (ls ++ ms) = depth (depth n ls) ms :=
  List.foldl_append

theorem outer_append (n : Nat) (ls ms : List Lexeme) :
    outer n (ls ++ ms) = outer n ls ++ outer (depth n ls) ms := by
  induction ls generalizing n with
  | nil => rfl
  | cons l ls ih =>
    simp only [List.cons_append, outer, ih, depth, List.foldl_cons]
    split
    · rfl
    · split
      · rfl
      · split <;> rfl

theorem depth_singleton (h : l.breaksOff = false) (n : Nat) :
    depth n [l] = if l.isOpener then n + 1 else if l.isCloser then n - 1 else n := by
  cases l with
  | punct p => cases p <;> first | rfl | cases h
  | _ => rfl

end Code

theorem Lexeme.not_bracket_of_isOperandBoundary (l : Lexeme) (h : l.isOperandBoundary) :
    l.isOpener = false ∧ l.isCloser = false := by
  cases l with
  | punct p => cases p <;> first | exact ⟨rfl, rfl⟩ | cases h
  | _ => exact ⟨rfl, rfl⟩

theorem Lexeme.plain_of_level_pos {l : Lexeme} (h : 0 < l.level) : l.isOpener = false ∧
    l.isCloser = false ∧ l.closer? = none ∧ l.closes = false := by
  cases l with
  | punct p => cases p <;> first | exact ⟨rfl, rfl, rfl, rfl⟩ | cases h
  | _ => exact ⟨rfl, rfl, rfl, rfl⟩

-- The code around a comparison is such that C takes the same operands: no operator in them, unless
-- it is in brackets, and none beside them takes anything away from them or from the comparison.
structure Comparison.Binds (op : Punct) (before left right after : List Lexeme) : Prop where
  left : ∀ l ∈ Code.outer 0 left, op.level < l.level
  right : ∀ l ∈ Code.outer 0 right, op.level < l.level
  before : ∀ l ∈ before.getLast?, l.level < op.level
  after : ∀ l ∈ after.head?, l.level ≤ op.level

namespace Operand

-- How an operand is looked for in one of the directions.
def scan (back : Bool) : Nat → List Lexeme → List Lexeme :=
  extent (if back then Lexeme.isCloser else Lexeme.isOpener)
    (if back then Lexeme.isOpener else Lexeme.isCloser)

-- Some code within the operand, at a depth that is not less than the given one.
def Passes (back : Bool) (low : Nat) (ls : List Lexeme) : Prop :=
  ∀ n, low ≤ n → ∀ rest, scan back n (ls ++ rest) = ls ++ scan back n rest

variable {back : Bool} {low n : Nat} {l : Lexeme} {ls ms rest : List Lexeme} {q : Punct}

theorem Passes.append (h : Passes back low ls) (hm : Passes back low ms) :
    Passes back low (ls ++ ms) := by
  intro n hn rest
  rw [List.append_assoc, h n hn, hm n hn, List.append_assoc]

theorem passes_plain (ho : l.isOpener = false) (hc : l.isCloser = false)
    (hb : low = 0 → l.isOperandBoundary = false) : Passes back low [l] := by
  intro n hn rest
  have hstop : (n = 0 && l.isOperandBoundary) = false := by
    cases n with
    | zero => simpa using hb (Nat.le_zero.mp hn)
    | succ n => rfl
  cases back <;> simp [scan, extent, ho, hc, hstop]

-- The parentheses in the order in which they are met.
def entering (back : Bool) : Lexeme :=
  .punct (if back then .rparen else .lparen)

def leaving (back : Bool) : Lexeme :=
  .punct (if back then .lparen else .rparen)

theorem Passes.enclosed (h : Passes back 1 ls) :
    Passes back low (entering back :: ls ++ [leaving back]) := by
  intro n _ rest
  have hin := h (n + 1) (Nat.le_add_left 1 n) (leaving back :: rest)
  cases back <;> simp_all [scan, extent, entering, leaving, Lexeme.isOpener, Lexeme.isCloser]

theorem scan_stop (h : l = leaving back ∨ l.isOperandBoundary) (rest : List Lexeme) :
    scan back 0 (l :: rest) = [] := by
  rcases h with rfl | hb
  · cases back <;> rfl
  · obtain ⟨ho, hc⟩ := l.not_bracket_of_isOperandBoundary hb
    cases back <;> simp [scan, extent, hb, ho, hc]

-- Code that a scan passes over, or in which it stops at an operator of at least the given level.
def Meets (back : Bool) (level : Nat) (ls : List Lexeme) : Prop :=
  Passes back 0 ls ∨ ∃ front q rest, ls = front ++ .punct q :: rest ∧ Passes back 0 front ∧
    (Lexeme.punct q).isOperandBoundary ∧ level ≤ q.level

theorem Meets.append {level : Nat} (h : Meets back level ls) (hm : Meets back level ms) :
    Meets back level (ls ++ ms) := by
  rcases h with h | ⟨front, q, rest, rfl, hf, hq⟩
  · rcases hm with hm | ⟨front, q, rest, rfl, hf, hq⟩
    · exact .inl (h.append hm)
    · exact .inr ⟨ls ++ front, q, rest, by simp, h.append hf, hq⟩
  · exact .inr ⟨front, q, rest ++ ms, by simp, hf, hq⟩

theorem Meets.mono {level level' : Nat} (h : Meets back level ls) (hle : level' ≤ level) :
    Meets back level' ls :=
  h.imp_right fun ⟨front, q, rest, hls, hf, hb, hq⟩ =>
    ⟨front, q, rest, hls, hf, hb, Nat.le_trans hle hq⟩

-- What is passed backwards opens no more brackets than are open behind it.
theorem depth_le_of_scan (hp : ∀ l ∈ ls, l.breaksOff = false)
    (h : scan true n (ls ++ rest) = ls) : Code.depth 0 ls.reverse ≤ n := by
  induction ls generalizing n with
  | nil => exact Nat.zero_le n
  | cons l ls ih =>
    obtain ⟨hl, hls⟩ := List.forall_mem_cons.mp hp
    rw [List.reverse_cons, Code.depth_append, Code.depth_singleton hl]
    simp only [scan, if_true, List.cons_append, extent] at h ih
    split at h
    case isTrue hc =>
      have ho : l.isOpener = false := by
        unfold Lexeme.isCloser at hc
        split at hc <;> first | rfl | cases hc
      have := ih hls (List.cons.inj h).2
      simp only [ho, hc, Bool.false_eq_true, if_false, if_true]
      omega
    case isFalse hc =>
      split at h
      case isTrue ho =>
        cases n with
        | zero => cases h
        | succ n =>
          have := ih hls (List.cons.inj h).2
          simp only [ho, if_true]
          omega
      case isFalse ho =>
        split at h
        case isTrue => cases h
        case isFalse =>
          have := ih hls (List.cons.inj h).2
          simpa only [ho, hc, Bool.false_eq_true, if_false] using this

end Operand

namespace Formula

open Operand

variable {e : Formula} {back : Bool} {op : Punct}

-- The lexemes of an expression in the order in which they are met.
def seen (back : Bool) (e : Formula) : List Lexeme :=
  if back then e.lexemes.reverse else e.lexemes

theorem seen_parens (back : Bool) (e : Formula) :
    (parens e).seen back = entering back :: e.seen back ++ [leaving back] := by
  cases back <;> simp [seen, lexemes, entering, leaving]

-- Within brackets, an expression is passed as a whole.
theorem passes_seen (h : e.isProper) : Passes back 1 (e.seen back) := by
  induction e with
  | name n | number t => cases back <;> exact passes_plain rfl rfl nofun
  | parens e ih =>
    rw [seen_parens]
    exact (ih h).enclosed
  | binary l op r ihl ihr =>
    obtain ⟨hop, -, -, hpl, hpr⟩ := isProper_binary.mp h
    obtain ⟨ho, hc, -⟩ := Lexeme.plain_of_level_pos (l := .punct op) hop
    have hmid : Passes back 1 [.punct op] := passes_plain ho hc nofun
    cases back with
    | true => simpa [seen, lexemes] using ((ihr hpr).append hmid).append (ihl hpl)
    | false => simpa [seen, lexemes] using ((ihl hpl).append hmid).append (ihr hpr)

-- Outside of brackets, each operator in an expression binds at least as tightly as the whole does.
theorem meets_seen (h : e.isProper) : Meets back e.level (e.seen back) := by
  induction e with
  | name n | number t => cases back <;> exact .inl (passes_plain rfl rfl fun _ => rfl)
  | parens e ih =>
    rw [seen_parens]
    exact .inl (passes_seen (e := e) h).enclosed
  | binary l op r ihl ihr =>
    obtain ⟨hop, hl, hr, hpl, hpr⟩ := isProper_binary.mp h
    obtain ⟨ho, hc, -⟩ := Lexeme.plain_of_level_pos (l := .punct op) hop
    have hmid : Meets back op.level [.punct op] := by
      cases hb : (Lexeme.punct op).isOperandBoundary with
      | true => exact .inr ⟨[], op, [], rfl, fun _ _ _ => rfl, hb, Nat.le_refl _⟩
      | false => exact .inl (passes_plain ho hc fun _ => hb)
    have hleft := (ihl hpl).mono hl
    have hright := (ihr hpr).mono (Nat.le_of_lt hr)
    rw [level_binary]
    cases back with
    | true => simpa [seen, lexemes] using (hright.append hmid).append hleft
    | false => simpa [seen, lexemes] using (hleft.append hmid).append hright

-- A scan that starts at an expression takes that expression and nothing else, if no operator that
-- it takes binds as loosely as `low`, and what stands behind it and behind the expression binds no
-- more tightly than that.
theorem scan_seen {low : Nat} {taken left rest : List Lexeme} (h : e.isProper)
    (hlow : low < e.level) (htaken : scan back 0 (e.seen back ++ rest) = taken)
    (hleft : e.seen back ++ rest = taken ++ left) (hnext : ∀ l ∈ left.head?, l.level ≤ low)
    (hrest : ∀ l ∈ rest.head?, l = leaving back ∨ 0 < l.level ∧ l.level ≤ low)
    (hmore : ∀ l more, taken = e.seen back ++ l :: more → scan back 0 (more ++ left) = more →
      0 < l.level → low < l.level) : taken = e.seen back := by
  rcases meets_seen h with hpass | ⟨front, q, behind, hseen, hf, hb, hq⟩
  · rw [hpass 0 (Nat.le_refl 0)] at htaken
    cases rest with
    | nil => simpa [scan, extent] using htaken.symm
    | cons l rest =>
      by_cases hstop : l = leaving back ∨ l.isOperandBoundary
      case pos => simpa [scan_stop hstop] using htaken.symm
      case neg =>
        obtain ⟨hne, hb⟩ := not_or.mp hstop
        obtain ⟨hpos, hle⟩ := (hrest l rfl).resolve_left hne
        obtain ⟨ho, hc, -⟩ := Lexeme.plain_of_level_pos hpos
        have hpast : scan back 0 (l :: rest) = l :: scan back 0 rest :=
          passes_plain ho hc (fun _ => eq_false_of_ne_true hb) 0 (Nat.le_refl 0) rest
        rw [hpast] at htaken
        subst htaken
        have hmid : rest = scan back 0 rest ++ left := by simpa using hleft
        have := hmore l _ rfl (by rw [← hmid]) hpos
        omega
  · rw [hseen, List.append_assoc, hf 0 (Nat.le_refl 0), List.cons_append, scan_stop (.inr hb),
      List.append_nil] at htaken
    subst htaken
    have hstop : .punct q :: (behind ++ rest) = left := by simpa [hseen] using hleft
    have hnext : q.level ≤ low := hnext (.punct q) (by simp [← hstop])
    omega

-- All brackets that are opened in an expression are closed in it.
theorem depth_lexemes (h : e.isProper) (n : Nat) : Code.depth n e.lexemes = n := by
  induction e generalizing n with
  | name m | number t => rfl
  | parens e ih =>
    have hopen : Code.depth n [.punct .lparen] = n + 1 := rfl
    have hclose : Code.depth (n + 1) [.punct .rparen] = n := rfl
    rw [lexemes, ← List.singleton_append, Code.depth_append, Code.depth_append, hopen, ih h,
      hclose]
  | binary l op r ihl ihr =>
    obtain ⟨hop, -, -, hpl, hpr⟩ := isProper_binary.mp h
    obtain ⟨-, -, hc, hcl⟩ := Lexeme.plain_of_level_pos (l := .punct op) hop
    have hmid : Code.depth n [.punct op] = n := by simp [Code.depth, hc, hcl]
    rw [lexemes, ← List.singleton_append, Code.depth_append, Code.depth_append, ihl hpl, hmid,
      ihr hpr]

-- What stands behind code whose brackets are closed is outside of brackets.
theorem mem_outer_of_depth {l : Lexeme} {front rest : List Lexeme} (hl : 0 < l.level)
    (hf : Code.depth 0 front = 0) : l ∈ Code.outer 0 (front ++ l :: rest) := by
  obtain ⟨-, -, hc, hcl⟩ := Lexeme.plain_of_level_pos hl
  rw [Code.outer_append, hf]
  simp [Code.outer, hc, hcl]

-- The operands that are found are those that C takes.
theorem exists_fill_of_binds {before left right after : List Lexeme} (he : e.isProper)
    (h : e.lexemes = before ++ left ++ .punct op :: (right ++ after)) (hop : 0 < op.level)
    (hl : backward (before ++ left).reverse = left.reverse)
    (hr : forward (right ++ after) = right) (hb : Comparison.Binds op before left right after) :
    ∃ c l r, e = Context.fill c (binary l op r) ∧ c.before = before ∧ l.lexemes = left ∧
      r.lexemes = right ∧ c.after = after := by
  obtain ⟨c, l, r, rfl, hfront, hrest⟩ := exists_fill h hop
  obtain ⟨-, hll, hlr, hpl, hpr⟩ := isProper_binary.mp (Context.isProper_of_fill he)
  have hright : right = r.seen false := by
    have htaken : scan false 0 (r.seen false ++ c.after) = right := by
      rw [seen, if_neg Bool.false_ne_true, ← hrest]
      exact hr
    have hsplit : r.seen false ++ c.after = right ++ after := hrest.symm
    refine scan_seen hpr hlr htaken hsplit hb.after ?_ ?_
    · intro m hm
      obtain ⟨q, rfl, hq, hle⟩ := Context.level_le_of_head?_after he m hm
      exact hq.imp (congrArg _) fun hq => ⟨hq, hle⟩
    · intro m more hm _ hpos
      refine hb.right m ?_
      rw [hm]
      exact mem_outer_of_depth hpos (depth_lexemes hpr 0)
  have hleft : left.reverse = l.seen true := by
    have hfront' := congrArg List.reverse hfront
    rw [List.reverse_append, List.reverse_append] at hfront'
    have hlow : op.level - 1 < l.level := by omega
    have htaken : scan true 0 (l.seen true ++ c.before.reverse) = left.reverse := by
      rw [seen, if_pos rfl, ← List.reverse_append, ← hfront]
      exact hl
    have hsplit : l.seen true ++ c.before.reverse = left.reverse ++ before.reverse := hfront'.symm
    refine scan_seen hpl hlow htaken hsplit ?_ ?_ ?_
    · intro m hm
      rw [List.head?_reverse] at hm
      have := hb.before m hm
      omega
    · intro m hm
      rw [List.head?_reverse] at hm
      obtain ⟨q, rfl, hq, hlt⟩ := Context.level_lt_of_getLast?_before he hop m hm
      rw [level_binary] at hlt
      exact hq.imp (congrArg _) fun hq => ⟨hq, Nat.le_sub_one_of_lt hlt⟩
    · intro m more hm hscan hpos
      have hsplit : left = more.reverse ++ m :: l.lexemes := by
        simpa [seen] using congrArg List.reverse hm
      have hplain : ∀ p ∈ more, p.breaksOff = false := fun p hp =>
        Lexeme.breaksOff_of_isArithmetic
          (isArithmetic_of_mem_lexemes he (by simp [h, hsplit, hp]))
      have hmem : m ∈ Code.outer 0 (more.reverse ++ m :: l.lexemes) :=
        mem_outer_of_depth hpos (Nat.le_zero.mp (depth_le_of_scan hplain hscan))
      have := hb.left m (hsplit ▸ hmem)
      omega
  have hleft : l.lexemes = left := by simpa [seen] using congrArg List.reverse hleft.symm
  have hright : r.lexemes = right := hright.symm
  subst hleft hright
  exact ⟨c, l, r, rfl, List.append_cancel_right hfront.symm, rfl, rfl,
    List.append_cancel_left hrest.symm⟩

-- A comparison and the one with its operands exchanged.

theorem apply_flipped {arith : Punct → Int → Int → Option Int} (h : op.isComparison)
    (a b : Int) : apply arith op.flipped b a = apply arith op a b := by
  cases op <;> cases h <;> simp [apply, Punct.flipped, eq_comm]

theorem isComparison_flipped (h : op.isComparison) : op.flipped.isComparison := by
  cases op <;> first | rfl | cases h

theorem level_flipped (op : Punct) : op.flipped.level = op.level := by
  cases op <;> rfl

theorem ne_logical_of_isComparison (h : op.isComparison) : op ≠ .orOr ∧ op ≠ .andAnd := by
  constructor <;> rintro rfl <;> cases h

theorem value_flipped {arith : Punct → Int → Int → Option Int} {env : String → Int}
    (h : op.isComparison) (l r : Formula) :
    (binary r op.flipped l).value arith env = (binary l op r).value arith env := by
  obtain ⟨ho, ha⟩ := ne_logical_of_isComparison h
  obtain ⟨ho', ha'⟩ := ne_logical_of_isComparison (isComparison_flipped h)
  simp only [value, ho, ha, ho', ha', decide_false, Bool.false_and, Bool.false_eq_true, if_false]
  cases l.value arith env <;> cases r.value arith env <;> simp [apply_flipped h]

-- What an operation is made of binds more tightly than any number by which its operators do.
theorem lt_level_of_outer {n : Nat} (h : e.isProper) (hn : n ≤ 10)
    (ho : ∀ l ∈ Code.outer 0 e.lexemes, n < l.level) : n < e.level := by
  cases e with
  | binary l q r =>
    obtain ⟨hq, -, -, hpl, -⟩ := isProper_binary.mp h
    exact ho (.punct q) (mem_outer_of_depth hq (depth_lexemes hpl 0))
  | _ => exact Nat.lt_succ_of_le hn

-- If C takes the operands that are found, then they can be exchanged.
theorem exists_flipped {before left right after : List Lexeme} (he : e.isProper)
    (h : e.lexemes = before ++ left ++ .punct op :: (right ++ after)) (hop : op.isComparison)
    (hl : backward (before ++ left).reverse = left.reverse)
    (hr : forward (right ++ after) = right) (hb : Comparison.Binds op before left right after) :
    (∃ l r : Formula, l.lexemes = left ∧ r.lexemes = right) ∧ ∃ e' : Formula, e'.isProper ∧
      e'.lexemes = before ++ right ++ .punct op.flipped :: (left ++ after) ∧
      ∀ arith env, e'.value arith env = e.value arith env := by
  have hpos : 0 < op.level := by cases op <;> first | exact Nat.succ_pos _ | cases hop
  obtain ⟨c, l, r, rfl, rfl, rfl, rfl, rfl⟩ := exists_fill_of_binds he h hpos hl hr hb
  obtain ⟨-, -, hlt, hpl, hpr⟩ := isProper_binary.mp (Context.isProper_of_fill he)
  have hlt' := lt_level_of_outer hpl op.level_le hb.left
  have hproper : (binary r op.flipped l).isProper := by
    rw [isProper_binary, level_flipped]
    exact ⟨hpos, Nat.le_of_lt hlt, hlt', hpr, hpl⟩
  have hlevel : (binary r op.flipped l).level = (binary l op r).level := level_flipped op
  refine ⟨⟨l, r, rfl, rfl⟩, c.fill (binary r op.flipped l), ?_, ?_, fun arith env => ?_⟩
  · exact (Context.fill_congr hlevel hproper he).2
  · simp [Context.lexemes_fill, lexemes]
  · exact Context.value_fill_congr (value_flipped hop l r) c

end Formula

end CLint
