import CLint.Numeral.Basic
import CLint.Proofs.Nesting
import CLint.Rule.Control
import Mathlib.Data.Int.Bitwise

namespace CLint

-- How tightly an operator with two operands binds in C. All others have the level zero.
def Punct.level : Punct → Nat
  | .orOr => 1
  | .andAnd => 2
  | .bar => 3
  | .caret => 4
  | .amp => 5
  | .eqEq | .notEq => 6
  | .lt | .gt | .le | .ge => 7
  | .shl | .shr => 8
  | .plus | .minus => 9
  | .star | .slash => 10
  | _ => 0

theorem Punct.level_le (p : Punct) : p.level ≤ 10 := by
  cases p <;> decide

namespace Lexeme

-- What is no mark holds together more tightly than all operators bind.
def level : Lexeme → Nat
  | punct p => p.level
  | _ => 11

-- What integer expressions are made of.
def isArithmetic : Lexeme → Bool
  | identifier _ | number _ => true
  | punct p => p = .lparen || p = .rparen || 0 < p.level
  | _ => false

def startsOperand : Lexeme → Bool
  | identifier _ | number _ => true
  | l => l.isMark .lparen

def endsOperand : Lexeme → Bool
  | identifier _ | number _ => true
  | l => l.isMark .rparen

theorem breaksOff_of_isArithmetic {l : Lexeme} (h : l.isArithmetic) : l.breaksOff = false := by
  cases l with
  | punct p => cases p <;> first | rfl | cases h
  | _ => rfl

end Lexeme

-- An integer expression of C, where its parentheses are kept.
inductive Formula
  | name (name : String)
  | number (text : String)
  | parens (inner : Formula)
  | binary (left : Formula) (op : Punct) (right : Formula)
  deriving DecidableEq, Repr

namespace Formula

-- What is no operation with two operands holds together more tightly than all that are.
def level : Formula → Nat
  | binary _ op _ => op.level
  | _ => 11

-- Is it the expression that C reads in its lexemes? Operators of the same level are taken from the
-- left.
def isProper : Formula → Bool
  | name _ => true
  | number text => (Numeral.integer? text.toList).isSome
  | parens e => e.isProper
  | binary l op r =>
    0 < op.level && op.level ≤ l.level && op.level < r.level && l.isProper && r.isProper

variable {l r : Formula} {op : Punct}

theorem level_binary : (binary l op r).level = op.level :=
  rfl

theorem isProper_binary : (binary l op r).isProper ↔
    0 < op.level ∧ op.level ≤ l.level ∧ op.level < r.level ∧ l.isProper ∧ r.isProper := by
  simp [isProper, and_assoc]

def lexemes : Formula → List Lexeme
  | name n => [.identifier n]
  | number t => [.number t]
  | parens e => .punct .lparen :: e.lexemes ++ [.punct .rparen]
  | binary l op r => l.lexemes ++ .punct op :: r.lexemes

def truth (p : Bool) : Int :=
  if p then 1 else 0

-- The value of an operation, where `arith` is what is computed by those that are neither logical
-- nor compare. It may be undefined.
def apply (arith : Punct → Int → Int → Option Int) : Punct → Int → Int → Option Int
  | .orOr, _, b | .andAnd, _, b => some (truth (b ≠ 0))
  | .eqEq, a, b => some (truth (a = b))
  | .notEq, a, b => some (truth (a ≠ b))
  | .lt, a, b => some (truth (a < b))
  | .gt, a, b => some (truth (b < a))
  | .le, a, b => some (truth (a ≤ b))
  | .ge, a, b => some (truth (b ≤ a))
  | op, a, b => arith op a b

-- The value of an expression, if it is defined. The second operand of a logical operator is left
-- alone where the first one decides.
def value (arith : Punct → Int → Int → Option Int) (env : String → Int) : Formula → Option Int
  | name n => some (env n)
  | number t => (Numeral.integer? t.toList).map fun (base, digits) => Numeral.ofDigits base digits
  | parens e => e.value arith env
  | binary l op r =>
    (l.value arith env).bind fun a =>
      if op = .orOr && a ≠ 0 then some 1
      else if op = .andAnd && a = 0 then some 0
      else (r.value arith env).bind (apply arith op a)

-- Arithmetic on integers of any size.
def exact : Punct → Int → Int → Option Int
  | .plus, a, b => some (a + b)
  | .minus, a, b => some (a - b)
  | .star, a, b => some (a * b)
  | .slash, a, b => if b = 0 then none else some (a.tdiv b)
  | .amp, a, b => some (a.land b)
  | .caret, a, b => some (a.xor b)
  | .bar, a, b => some (a.lor b)
  | .shl, a, b => if 0 ≤ a && 0 ≤ b then some (a * 2 ^ b.toNat) else none
  | .shr, a, b => if 0 ≤ b then some (a / 2 ^ b.toNat) else none
  | _, _, _ => none

-- An expression with a hole.
inductive Context
  | hole
  | parens (inner : Context)
  | left (inner : Context) (op : Punct) (right : Formula)
  | right (left : Formula) (op : Punct) (inner : Context)

namespace Context

def fill : Context → Formula → Formula
  | hole, e => e
  | parens c, e => .parens (c.fill e)
  | left c op r, e => .binary (c.fill e) op r
  | right l op c, e => .binary l op (c.fill e)

-- The lexemes before the hole, and those behind it.

def before : Context → List Lexeme
  | hole => []
  | parens c => .punct .lparen :: c.before
  | left c _ _ => c.before
  | right l op c => l.lexemes ++ .punct op :: c.before

def after : Context → List Lexeme
  | hole => []
  | parens c => c.after ++ [.punct .rparen]
  | left c op r => c.after ++ .punct op :: r.lexemes
  | right _ _ c => c.after

-- How many parentheses there are around the hole.
def depth : Context → Nat
  | hole => 0
  | parens c => c.depth + 1
  | left c _ _ | right _ _ c => c.depth

variable {c : Context} {e e' : Formula}

theorem lexemes_fill (c : Context) (e : Formula) :
    (c.fill e).lexemes = c.before ++ e.lexemes ++ c.after := by
  induction c with
  | hole => simp [fill, before, after]
  | parens c ih | left c op r ih | right l op c ih => simp [fill, before, after, lexemes, ih]

-- In a context, an expression can be exchanged for one of the same level.
theorem fill_congr (h : e'.level = e.level) (he : e'.isProper) (hc : (c.fill e).isProper) :
    (c.fill e').level = (c.fill e).level ∧ (c.fill e').isProper := by
  induction c with
  | hole => exact ⟨h, he⟩
  | parens c ih => exact ⟨rfl, (ih hc).2⟩
  | left c op r ih =>
    obtain ⟨hop, hl, hr, hc, hr'⟩ := isProper_binary.mp hc
    obtain ⟨hlevel, hproper⟩ := ih hc
    exact ⟨rfl, isProper_binary.mpr ⟨hop, hlevel ▸ hl, hr, hproper, hr'⟩⟩
  | right l op c ih =>
    obtain ⟨hop, hl, hr, hl', hc⟩ := isProper_binary.mp hc
    obtain ⟨hlevel, hproper⟩ := ih hc
    exact ⟨rfl, isProper_binary.mpr ⟨hop, hl, hlevel ▸ hr, hl', hproper⟩⟩

theorem value_fill_congr {arith : Punct → Int → Int → Option Int} {env : String → Int}
    (h : e'.value arith env = e.value arith env) (c : Context) :
    (c.fill e').value arith env = (c.fill e).value arith env := by
  induction c with
  | hole => exact h
  | parens c ih | left c op r ih | right l op c ih => simp only [fill, value, ih]

theorem isProper_of_fill (h : (c.fill e).isProper) : e.isProper := by
  induction c with
  | hole => exact h
  | parens c ih => exact ih h
  | left c op r ih | right l op c ih =>
    simp only [fill, isProper_binary] at h
    exact ih (by simp only [h])

-- What is in no parentheses binds at least as tightly as the whole does.
theorem level_fill_le (h : (c.fill e).isProper) (hc : c.depth = 0) :
    (c.fill e).level ≤ e.level := by
  induction c with
  | hole => exact Nat.le_refl _
  | parens c ih => cases hc
  | left c op r ih | right l op c ih =>
    simp only [fill, isProper_binary, level_binary] at h ⊢
    have ih := ih (by simp only [h]) hc
    omega

theorem depth_of_before_eq_nil (h : c.before = []) : c.depth = 0 := by
  induction c with
  | hole => rfl
  | parens c ih => cases h
  | left c op r ih => exact ih h
  | right l op c ih => exact absurd h (by simp [before])

theorem depth_of_after_eq_nil (h : c.after = []) : c.depth = 0 := by
  induction c with
  | hole => rfl
  | parens c ih | left c op r ih => exact absurd h (by simp [after])
  | right l op c ih => exact ih h

-- What stands before the hole ends in something that binds less tightly than what fills it.
theorem level_lt_of_getLast?_before (h : (c.fill e).isProper) (he : 0 < e.level) :
    ∀ l ∈ c.before.getLast?, ∃ q, l = .punct q ∧ (q = .lparen ∨ 0 < q.level) ∧
      q.level < e.level := by
  induction c with
  | hole => nofun
  | parens c ih =>
    intro l hl
    rw [before, List.getLast?_cons] at hl
    cases hb : c.before.getLast? with
    | some m => exact ih h l (by simpa [hb] using hl)
    | none =>
      cases hl.symm.trans (congrArg some (congrArg (Option.getD · _) hb))
      exact ⟨_, rfl, .inl rfl, he⟩
  | left c op r ih => exact ih (isProper_binary.mp h).2.2.2.1
  | right l op c ih =>
    obtain ⟨hop, -, hr, -, hc⟩ := isProper_binary.mp h
    intro m hm
    rw [before, List.getLast?_append, List.getLast?_cons] at hm
    cases hb : c.before.getLast? with
    | some m' => exact ih hc m (by simpa [hb] using hm)
    | none =>
      have hle := level_fill_le hc (depth_of_before_eq_nil (List.getLast?_eq_none_iff.mp hb))
      cases (by simpa [hb] using hm : Lexeme.punct op = m)
      exact ⟨_, rfl, .inr hop, by omega⟩

-- What stands behind the hole begins with something that does not bind more tightly.
theorem level_le_of_head?_after (h : (c.fill e).isProper) :
    ∀ l ∈ c.after.head?, ∃ q, l = .punct q ∧ (q = .rparen ∨ 0 < q.level) ∧
      q.level ≤ e.level := by
  induction c with
  | hole => nofun
  | parens c ih =>
    intro l hl
    rw [after, List.head?_append] at hl
    cases hb : c.after.head? with
    | some m => exact ih h l (by simpa [hb] using hl)
    | none =>
      cases (by simpa [hb] using hl : Lexeme.punct .rparen = l)
      exact ⟨_, rfl, .inl rfl, Nat.zero_le _⟩
  | left c op r ih =>
    obtain ⟨hop, hl, -, hc, -⟩ := isProper_binary.mp h
    intro m hm
    rw [after, List.head?_append] at hm
    cases hb : c.after.head? with
    | some m' => exact ih hc m (by simpa [hb] using hm)
    | none =>
      have hle := level_fill_le hc (depth_of_after_eq_nil (List.head?_eq_none_iff.mp hb))
      cases (by simpa [hb] using hm : Lexeme.punct op = m)
      exact ⟨_, rfl, .inr hop, by omega⟩
  | right l op c ih => exact ih (isProper_binary.mp h).2.2.2.2

end Context

variable {e : Formula} {front rest : List Lexeme}

-- Each operator in the lexemes of an expression is that of an operation in it.
theorem exists_fill (h : e.lexemes = front ++ .punct op :: rest) (hop : 0 < op.level) :
    ∃ c l r, e = Context.fill c (binary l op r) ∧ front = c.before ++ l.lexemes ∧
      rest = r.lexemes ++ c.after := by
  induction e generalizing front rest with
  | name n => cases front <;> simp [lexemes] at h
  | number t => cases front <;> simp [lexemes] at h
  | parens e ih =>
    cases front with
    | nil =>
      cases h
      cases hop
    | cons p front =>
      simp only [lexemes, List.cons_append, List.cons.injEq] at h
      obtain ⟨rfl, h⟩ := h
      rcases List.eq_nil_or_concat rest with rfl | ⟨rest, q, rfl⟩
      · cases (List.append_inj' h rfl).2
        cases hop
      · have h : e.lexemes ++ [.punct .rparen] = (front ++ .punct op :: rest) ++ [q] := by
          simpa using h
        obtain ⟨hinner, hq⟩ := List.append_inj' h rfl
        cases hq
        obtain ⟨c, l, r, rfl, rfl, rfl⟩ := ih hinner
        exact ⟨.parens c, l, r, rfl, rfl, by simp [Context.after]⟩
  | binary l q r ihl ihr =>
    rw [lexemes, List.append_eq_append_iff] at h
    -- The operator is behind that of the operation, or it is not.
    obtain ⟨mid, rfl, h⟩ | ⟨mid, hl, h⟩ := h
    · cases mid with
      | nil =>
        cases h
        exact ⟨.hole, l, r, rfl, by simp [Context.before], by simp [Context.after]⟩
      | cons m mid =>
        simp only [List.cons_append, List.cons.injEq] at h
        obtain ⟨rfl, h⟩ := h
        obtain ⟨c, l', r', rfl, rfl, rfl⟩ := ihr h
        exact ⟨.right l q c, l', r', rfl, by simp [Context.before], rfl⟩
    · cases mid with
      | nil =>
        cases h
        exact ⟨.hole, l, r, rfl, by simpa [Context.before] using hl.symm, by simp [Context.after]⟩
      | cons m mid =>
        simp only [List.cons_append, List.cons.injEq] at h
        obtain ⟨rfl, rfl⟩ := h
        obtain ⟨c, l', r', rfl, rfl, rfl⟩ := ihl hl
        exact ⟨.left c q r, l', r', rfl, rfl, by simp [Context.after]⟩

theorem isArithmetic_of_mem_lexemes (h : e.isProper) {l : Lexeme} (hl : l ∈ e.lexemes) :
    l.isArithmetic := by
  induction e with
  | name m | number t =>
    cases List.mem_singleton.mp hl
    rfl
  | parens e ih =>
    simp only [lexemes, List.cons_append, List.mem_cons, List.mem_append, List.not_mem_nil,
      or_false] at hl
    rcases hl with rfl | hl | rfl
    · rfl
    · exact ih h hl
    · rfl
  | binary l op r ihl ihr =>
    obtain ⟨hop, -, -, hpl, hpr⟩ := isProper_binary.mp h
    rcases List.mem_append.mp hl with hl | hl
    · exact ihl hpl hl
    · rcases List.mem_cons.mp hl with rfl | hl
      · simp [Lexeme.isArithmetic, hop]
      · exact ihr hpr hl

-- An expression begins with an operand, and ends with one.

theorem startsOperand_of_head? (e : Formula) :
    ∃ l ∈ e.lexemes.head?, l.startsOperand := by
  induction e with
  | name n | number t => exact ⟨_, rfl, rfl⟩
  | parens e ih => exact ⟨.punct .lparen, rfl, rfl⟩
  | binary l op r ihl ihr =>
    obtain ⟨m, hm, hstart⟩ := ihl
    exact ⟨m, by simp [lexemes, List.head?_append, Option.mem_def.mp hm], hstart⟩

theorem endsOperand_of_getLast? (e : Formula) :
    ∃ l ∈ e.lexemes.getLast?, l.endsOperand := by
  induction e with
  | name n | number t => exact ⟨_, rfl, rfl⟩
  | parens e ih => exact ⟨.punct .rparen, List.getLast?_concat, rfl⟩
  | binary l op r ihl ihr =>
    obtain ⟨m, hm, hend⟩ := ihr
    refine ⟨m, ?_, hend⟩
    rw [lexemes, List.getLast?_append, List.getLast?_cons, Option.mem_def.mp hm]
    rfl

theorem ne_paren_of_level_pos (h : 0 < op.level) : op ≠ .lparen ∧ op ≠ .rparen := by
  constructor <;> rintro rfl <;> cases h

theorem count_parens (h : e.isProper) :
    e.lexemes.count (.punct .lparen) = e.lexemes.count (.punct .rparen) := by
  induction e with
  | name n | number t => simp [lexemes]
  | parens e ih => simp [lexemes, ih h]
  | binary l op r ihl ihr =>
    obtain ⟨hop, -, -, hl, hr⟩ := isProper_binary.mp h
    obtain ⟨ho, hc⟩ := ne_paren_of_level_pos hop
    simp [lexemes, ihl hl, ihr hr, ho, hc]

namespace Context

variable {c : Context}

theorem count_parens_before (h : (c.fill e).isProper) :
    c.before.count (.punct .lparen) = c.before.count (.punct .rparen) + c.depth := by
  induction c with
  | hole => rfl
  | parens c ih => simp [before, depth, ih h, Nat.add_assoc]
  | left c op r ih => exact ih (isProper_binary.mp h).2.2.2.1
  | right l op c ih =>
    obtain ⟨hop, -, -, hl, hc⟩ := isProper_binary.mp h
    obtain ⟨hopen, hclose⟩ := ne_paren_of_level_pos hop
    simp [before, depth, ih hc, count_parens hl, hopen, hclose, Nat.add_assoc]

theorem count_parens_after (h : (c.fill e).isProper) :
    c.after.count (.punct .rparen) = c.after.count (.punct .lparen) + c.depth := by
  have hwhole := count_parens h
  rw [lexemes_fill] at hwhole
  have hbefore := count_parens_before h
  have hfilled := count_parens (isProper_of_fill h)
  simp only [List.count_append] at hwhole
  omega

end Context

-- An operator before which all parentheses are closed binds at least as tightly as the whole does.
theorem level_le_of_lexemes_eq (he : e.isProper) (hop : 0 < op.level)
    (h : e.lexemes = front ++ .punct op :: rest)
    (hf : front.count (.punct .lparen) = front.count (.punct .rparen)) : e.level ≤ op.level := by
  obtain ⟨c, l, r, rfl, rfl, rfl⟩ := exists_fill h hop
  have hbefore := Context.count_parens_before he
  have hl := count_parens (isProper_binary.mp (Context.isProper_of_fill he)).2.2.2.1
  simp only [List.count_append] at hf
  exact Context.level_fill_le he (by omega)

-- What is no operation is not read as one.
theorem lexemes_ne_binary (he : e.isProper) (hl : e.level = 11) (h : (binary l op r).isProper) :
    e.lexemes ≠ (binary l op r).lexemes := by
  intro heq
  obtain ⟨hop, -, -, hpl, -⟩ := isProper_binary.mp h
  have hle := level_le_of_lexemes_eq he hop heq (count_parens hpl)
  have := op.level_le
  omega

-- No other operation stands where the operator of this one does, with the same lexemes around it.
theorem eq_hole_of_fill {c : Context} {l' r' : Formula} (hc : (c.fill (binary l op r)).isProper)
    (h' : (binary l' op r').isProper) (hl : l'.lexemes = c.before ++ l.lexemes)
    (hr : r'.lexemes = r.lexemes ++ c.after) : c = .hole := by
  obtain ⟨hop, hl', hr', hpl', hpr'⟩ := isProper_binary.mp h'
  obtain ⟨-, -, -, hpl, hpr⟩ := isProper_binary.mp (Context.isProper_of_fill hc)
  have hcountl := count_parens hpl
  have hcountr := count_parens hpr
  have hcountl' := count_parens hpl'
  have hcountr' := count_parens hpr'
  have hbefore := Context.count_parens_before hc
  have hdepth : c.depth = 0 := by
    rw [hl, List.count_append, List.count_append] at hcountl'
    omega
  cases c with
  | hole => rfl
  | parens c => cases hdepth
  | left c q s =>
    obtain ⟨hq, hle, -, hfill, hs⟩ := isProper_binary.mp hc
    have hinner := Context.level_fill_le hfill hdepth
    have hafter := Context.count_parens_after hfill
    have hsplit : r'.lexemes = (r.lexemes ++ c.after) ++ .punct q :: s.lexemes := by
      rw [hr, Context.after, List.append_assoc]
    have hlevel := level_le_of_lexemes_eq hpr' hq hsplit (by
      simp only [Context.depth] at hdepth
      simp only [List.count_append]
      omega)
    rw [level_binary] at hinner
    omega
  | right s q c =>
    obtain ⟨hq, -, hlt, hs, hfill⟩ := isProper_binary.mp hc
    have hinner := Context.level_fill_le hfill hdepth
    have hsplit : l'.lexemes = s.lexemes ++ .punct q :: (c.before ++ l.lexemes) := by
      rw [hl, Context.before, List.append_assoc, List.cons_append]
    have hlevel := level_le_of_lexemes_eq hpl' hq hsplit (count_parens hs)
    rw [level_binary] at hinner
    omega

-- There is only one way to read an expression.
theorem eq_of_lexemes_eq {e' : Formula} (h : e.isProper) (h' : e'.isProper)
    (heq : e.lexemes = e'.lexemes) : e = e' := by
  induction e generalizing e' with
  | name n =>
    cases e' with
    | name n' => cases heq; rfl
    | number t' | parens e' => cases heq
    | binary l op r => exact absurd heq (lexemes_ne_binary h rfl h')
  | number t =>
    cases e' with
    | number t' => cases heq; rfl
    | name n' | parens e' => cases heq
    | binary l op r => exact absurd heq (lexemes_ne_binary h rfl h')
  | parens e ih =>
    cases e' with
    | name n' | number t' => cases heq
    | parens e' =>
      simp only [lexemes, List.cons_append, List.cons.injEq, true_and] at heq
      exact congrArg parens (ih h h' (List.append_inj' heq rfl).1)
    | binary l op r => exact absurd heq (lexemes_ne_binary h rfl h')
  | binary l op r ihl ihr =>
    obtain ⟨hop, -, -, hl, hr⟩ := isProper_binary.mp h
    obtain ⟨c, l', r', rfl, hleft, hright⟩ := exists_fill heq.symm hop
    cases eq_hole_of_fill h' h hleft hright
    obtain ⟨-, -, -, hl', hr'⟩ := isProper_binary.mp h'
    rw [ihl hl hl' (by simpa [Context.before] using hleft),
      ihr hr hr' (by simpa [Context.after] using hright)]
    rfl

end Formula

end CLint
