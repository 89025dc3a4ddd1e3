import CLint.Proofs.Reading
import CLint.Proofs.Tidy

namespace CLint

open Cut

-- What some code leaves unmatched of one kind of brackets: how many closing ones have no opening
-- one before them, and how many opening ones are never closed.
structure Unmatched where
  closing : Nat := 0
  opening : Nat := 0
  deriving DecidableEq, Repr

namespace Unmatched

-- A closing bracket matches the last opening one that is still to be matched.
def step (opener closer : Punct) (u : Unmatched) (l : Lexeme) : Unmatched :=
  if l.isMark opener then { u with opening := u.opening + 1 }
  else if l.isMark closer then
    match u.opening with
    | 0 => { u with closing := u.closing + 1 }
    | n + 1 => { u with opening := n }
  else u

-- What is unmatched in two pieces of code, one behind the other.
def join (u v : Unmatched) : Unmatched where
  closing := u.closing + (v.closing - u.opening)
  opening := v.opening + (u.opening - v.closing)

end Unmatched

namespace Code

def unmatched (opener closer : Punct) (ls : List Lexeme) : Unmatched :=
  ls.foldl (Unmatched.step opener closer) {}

def parens (ls : List Lexeme) : Unmatched :=
  unmatched .lparen .rparen ls

def braces (ls : List Lexeme) : Unmatched :=
  unmatched .lbrace .rbrace ls

end Code

namespace Unmatched

variable {opener closer : Punct} {u v : Unmatched} {l : Lexeme} {as bs ls : List Lexeme}

@[simp]
theorem join_empty (u : Unmatched) : u.join {} = u := by
  simp [join]

theorem step_join (u v : Unmatched) (l : Lexeme) :
    step opener closer (u.join v) l = u.join (step opener closer v l) := by
  unfold step
  split
  · simp only [join, mk.injEq, true_and]
    omega
  · split
    · cases hv : v.opening with
      | zero =>
        simp only [join, hv, Nat.zero_add]
        split <;> simp only [mk.injEq] <;> omega
      | succ n =>
        have : n + 1 + (u.opening - v.closing) = n + (u.opening - v.closing) + 1 := by omega
        simp only [join, hv, this]
    · rfl

theorem foldl_step_join (opener closer : Punct) (u v : Unmatched) (ls : List Lexeme) :
    ls.foldl (step opener closer) (u.join v) = u.join (ls.foldl (step opener closer) v) := by
  induction ls generalizing v with
  | nil => rfl
  | cons l ls ih => rw [List.foldl_cons, step_join, ih, List.foldl_cons]

theorem unmatched_append (as bs : List Lexeme) :
    Code.unmatched opener closer (as ++ bs) =
      (Code.unmatched opener closer as).join (Code.unmatched opener closer bs) := by
  have h := foldl_step_join opener closer (Code.unmatched opener closer as) {} bs
  rw [join_empty] at h
  rw [Code.unmatched, List.foldl_append]
  exact h

theorem closing_join (hu : u.closing = 0) (hv : v.closing = 0) : (u.join v).closing = 0 := by
  simp [join, hu, hv]

theorem opening_join (hu : u.opening = 0) (hv : v.opening = 0) : (u.join v).opening = 0 := by
  simp [join, hu, hv]

theorem opening_step (opener closer : Punct) (u : Unmatched) (l : Lexeme) :
    (u.step opener closer l).opening =
      if l.isMark opener then u.opening + 1
      else if l.isMark closer then u.opening - 1 else u.opening := by
  unfold step
  split
  · rfl
  · split
    · cases u.opening <;> rfl
    · rfl

-- Only a closing bracket can be without an opening one.
theorem closing_step (h : l = .punct closer → u.opening ≠ 0) :
    (u.step opener closer l).closing = u.closing := by
  unfold step
  split
  · rfl
  · split
    case isTrue hl =>
      have := h (of_decide_eq_true hl)
      split
      case h_1 hz => exact absurd hz this
      case h_2 => rfl
    · rfl

theorem step_of_ne (ho : l ≠ .punct opener) (hc : l ≠ .punct closer) :
    step opener closer u l = u := by
  simp [step, Lexeme.isMark, ho, hc]

end Unmatched

namespace Scan

variable {s : Scan} {p b : Unmatched} {l : Lexeme} {ls : List Lexeme}

-- The parentheses and braces that a scan counts are those that were opened and not closed yet.
structure Counts (s : Scan) (p b : Unmatched) : Prop where
  parens : s.parens = p.opening
  braces : s.braces = b.opening

theorem Counts.step (h : s.Counts p b) (l : Lexeme) :
    (s.step l).Counts (p.step .lparen .rparen l) (b.step .lbrace .rbrace l) := by
  unfold Scan.step
  constructor <;> rw [Unmatched.opening_step] <;> split <;>
    simp_all [Lexeme.isMark, h.parens, h.braces]

-- A scan stops before a brace that closes nothing, and it ends outside of all brackets if it
-- stops before anything else.
theorem Counts.read (h : s.Counts p b) (ls : List Lexeme) :
    ((s.read ls).1.foldl (Unmatched.step .lbrace .rbrace) b).closing = b.closing ∧
    ∀ l ∈ (s.read ls).2.head?, l ≠ .punct .rbrace →
      ((s.read ls).1.foldl (Unmatched.step .lparen .rparen) p).opening = 0 ∧
      ((s.read ls).1.foldl (Unmatched.step .lbrace .rbrace) b).opening = 0 := by
  fun_induction Scan.read s ls generalizing p b with
  | case1 => exact ⟨rfl, fun l hl => absurd hl (Option.not_mem_none l)⟩
  | case2 s l ls hs =>
    refine ⟨rfl, fun m hm hne => ?_⟩
    cases Option.some.inj hm
    rw [List.foldl_nil, List.foldl_nil, ← h.parens, ← h.braces]
    unfold stopsAt at hs
    split at hs <;> simp_all [isTop]
  | case3 s l ls hs ih =>
    have hclosing : (b.step .lbrace .rbrace l).closing = b.closing := by
      refine Unmatched.closing_step fun hl => ?_
      subst hl
      simpa [stopsAt, h.braces] using hs
    obtain ⟨hread, hstop⟩ := ih (h.step l)
    exact ⟨hread.trans hclosing, hstop⟩

end Scan

namespace Lexeme

variable {l : Lexeme}

theorem ne_brace_of_isOpener (h : l.isOpener) : l ≠ .punct .lbrace ∧ l ≠ .punct .rbrace := by
  constructor <;> rintro rfl <;> cases h

theorem ne_brace_of_isCloser (h : l.isCloser) : l ≠ .punct .lbrace ∧ l ≠ .punct .rbrace := by
  constructor <;> rintro rfl <;> cases h

theorem ne_rbrace_of_isPlain (h : l.isPlain) : l ≠ .punct .rbrace := by
  rintro rfl
  cases h

end Lexeme

-- A group ends before a brace that closes nothing in it.
theorem Group.closing_read {semicolons : Bool} {depth braces : Nat} {b : Unmatched}
    (h : braces = b.opening) (ls : List Lexeme) :
    let g := (read semicolons depth braces ls).1
    ((g.inner ++ g.close.toList).foldl (Unmatched.step .lbrace .rbrace) b).closing =
      b.closing := by
  fun_induction read semicolons depth braces ls generalizing b with
  | case1 => rfl
  | case2 depth braces l ls ho ih =>
    obtain ⟨hl, hr⟩ := Lexeme.ne_brace_of_isOpener ho
    simpa only [push, List.cons_append, List.foldl_cons, Unmatched.step_of_ne hl hr] using ih h
  | case3 braces l ls ho hc =>
    obtain ⟨hl, hr⟩ := Lexeme.ne_brace_of_isCloser hc
    exact Unmatched.closing_step fun he => absurd he hr
  | case4 braces l ls ho hc depth ih =>
    obtain ⟨hl, hr⟩ := Lexeme.ne_brace_of_isCloser hc
    simpa only [push, List.cons_append, List.foldl_cons, Unmatched.step_of_ne hl hr] using ih h
  | case5 depth braces l ls ho hc hm ih =>
    cases of_decide_eq_true hm
    exact ih (congrArg (· + 1) h)
  | case6 => rfl
  | case7 depth l ls ho hc hm hm' braces ih =>
    cases of_decide_eq_true hm'
    have hstep : b.step .lbrace .rbrace (.punct .rbrace) = { b with opening := braces } := by
      simp [Unmatched.step, Lexeme.isMark, ← h]
    simp only [push, List.cons_append, List.foldl_cons, hstep]
    exact ih rfl
  | case8 => rfl
  | case9 depth braces l ls ho hc hl hr hs ih =>
    have hl := of_decide_eq_false (eq_false_of_ne_true hl)
    have hr := of_decide_eq_false (eq_false_of_ne_true hr)
    simpa only [push, List.cons_append, List.foldl_cons, Unmatched.step_of_ne hl hr] using ih h

namespace Stmt

-- A label has no braces in it.
theorem ne_brace_of_mem_readLabel {depth : Int} {pending : Nat} {ls : List Lexeme} :
    ∀ l ∈ (readLabel depth pending ls).1, l ≠ .punct .lbrace ∧ l ≠ .punct .rbrace := by
  have hkeep : ∀ {l : Lexeme} {r : List Lexeme × List Lexeme},
      (l ≠ .punct .lbrace ∧ l ≠ .punct .rbrace) →
      (∀ m ∈ r.1, m ≠ .punct .lbrace ∧ m ≠ .punct .rbrace) →
      ∀ m ∈ (keep l r).1, m ≠ .punct .lbrace ∧ m ≠ .punct .rbrace :=
    fun hl hr => List.forall_mem_cons.mpr ⟨hl, hr⟩
  fun_induction readLabel depth pending ls with
  | case1 => exact fun l hl => absurd hl List.not_mem_nil
  | case2 depth pending l ls ho ih => exact hkeep (Lexeme.ne_brace_of_isOpener ho) ih
  | case3 depth pending l ls ho hc ih => exact hkeep (Lexeme.ne_brace_of_isCloser hc) ih
  | case4 depth pending l ls ho hc hq ih => exact hkeep (of_decide_eq_true hq ▸ by decide) ih
  | case5 depth l ls ho hc hq hm =>
    refine List.forall_mem_singleton.mpr ?_
    rw [of_decide_eq_true (Bool.and_eq_true_iff.mp hm).1]
    decide
  | case6 depth l ls ho hc hq hm pending ih =>
    refine hkeep ?_ ih
    rw [of_decide_eq_true (Bool.and_eq_true_iff.mp hm).1]
    decide
  | case7 => exact fun l hl => absurd hl List.not_mem_nil
  | case8 depth pending l ls ho hc hq hm hb ih =>
    refine hkeep ?_ ih
    constructor <;> rintro rfl <;> exact hb rfl

-- The code of a statement apart from the statements in it, without its semicolon.
def text : Stmt → List Lexeme
  | label word text => word :: text
  | jump word text _ => .keyword word :: text
  | simple _ first text _ => first :: text
  | function header _ => header
  | control _ group _ | doWhile group _ => groupLexemes group
  | _ => []

-- Is it known by a semicolon or a brace where the text of a statement ends?
def isEnded : Stmt → Bool
  | jump _ _ ended | simple _ _ _ ended => ended
  | function _ _ => true
  | _ => false

-- The text of a statement closes no brace that it does not open, and as long as its end is known
-- it leaves nothing open.
structure IsContained (s : Stmt) : Prop where
  closing : (Code.braces s.text).closing = 0
  parens : s.isEnded → (Code.parens s.text).opening = 0
  braces : s.isEnded → (Code.braces s.text).opening = 0

theorem closing_of_readText {l : Lexeme} {ls text rest : List Lexeme} {ended : Bool}
    (h : readText l ls = (text, ended, rest)) (hl : l ≠ .punct .rbrace) :
    (Code.braces (l :: text)).closing = 0 ∧
      ∀ m ∈ (semicolonIf ended ++ rest).head?, m ≠ .punct .rbrace →
        (Code.parens (l :: text)).opening = 0 ∧ (Code.braces (l :: text)).opening = 0 := by
  obtain ⟨rfl, hsemi⟩ := Prod.ext_iff.mp h
  have hrest := semicolon_append ((Scan.step {} l).read ls).2
  rw [show semicolon ((Scan.step {} l).read ls).2 = (ended, rest) from hsemi] at hrest
  have hcounts : Scan.Counts {} {} {} := ⟨rfl, rfl⟩
  obtain ⟨hclosing, hopening⟩ := (hcounts.step l).read ls
  exact ⟨hclosing.trans (Unmatched.closing_step fun he => absurd he hl), hrest ▸ hopening⟩

-- A group closes no brace that it does not open.
theorem closing_of_readGroup {semicolons : Bool} {ls rest : List Lexeme} {group : Option Group}
    (h : readGroup semicolons ls = (group, rest)) :
    (Code.braces (groupLexemes group)).closing = 0 := by
  unfold readGroup at h
  split at h <;> cases h
  case h_1 ls =>
    exact Group.closing_read (b := {}) rfl ls
  case h_2 => rfl

theorem braces_of_forall_ne {ls : List Lexeme}
    (h : ∀ l ∈ ls, l ≠ .punct .lbrace ∧ l ≠ .punct .rbrace) : Code.braces ls = {} := by
  rw [Code.braces, Code.unmatched]
  induction ls with
  | nil => rfl
  | cons l ls ih =>
    obtain ⟨hl, hls⟩ := List.forall_mem_cons.mp h
    rw [List.foldl_cons, Unmatched.step_of_ne hl.1 hl.2, ih hls]

-- What the text of a control statement has to fulfil does not depend on the statements in it.
theorem isContained_control {head : Head} {group : Option Group} {parts : List Stmt}
    (h : (Code.braces (groupLexemes group)).closing = 0) :
    (control head group parts).IsContained :=
  ⟨h, nofun, nofun⟩

theorem isContained_block (items : List Stmt) (closed : Bool) :
    (block items closed).IsContained :=
  ⟨rfl, nofun, nofun⟩

theorem isContained_label {word : Lexeme} {text : List Lexeme}
    (h : ∀ l ∈ word :: text, l ≠ .punct .lbrace ∧ l ≠ .punct .rbrace) :
    (label word text).IsContained :=
  ⟨congrArg Unmatched.closing (braces_of_forall_ne h), nofun, nofun⟩

-- The text of a statement that ends in a semicolon, before which nothing is open.
theorem isContained_of_readText {s : Stmt} {l : Lexeme} {ls text rest : List Lexeme} {ended : Bool}
    (h : readText l ls = (text, ended, rest)) (hl : l ≠ .punct .rbrace)
    (ht : s.text = l :: text) (he : s.isEnded = ended) : s.IsContained := by
  obtain ⟨hclosing, hopening⟩ := closing_of_readText h hl
  have hsemi : s.isEnded → (Code.parens (l :: text)).opening = 0 ∧
      (Code.braces (l :: text)).opening = 0 := fun hs => by
    rw [he] at hs
    exact hopening (.punct .semicolon) (by rw [hs]; rfl) (by decide)
  constructor <;> rw [ht]
  · exact hclosing
  · exact fun hs => (hsemi hs).1
  · exact fun hs => (hsemi hs).2

-- The texts of all statements in some statements are contained.
def AreContained (start : Nat) (ss : List Stmt) : Prop :=
  ∀ t ∈ listSites start ss, t.stmt.IsContained

section

variable {start : Nat} {ss ts parts items : List Stmt} {head : Head} {group : Option Group}

theorem areContained_nil (start : Nat) : AreContained start [] :=
  fun _ ht => absurd ht List.not_mem_nil

theorem areContained_append : AreContained start (ss ++ ts) ↔
    AreContained start ss ∧ AreContained (start + listSize ss) ts := by
  rw [AreContained, listSites_append, List.forall_mem_append]
  rfl

theorem areContained_cons {s : Stmt} : AreContained start (s :: ss) ↔
    AreContained start [s] ∧ AreContained (start + s.size) ss := by
  rw [← List.singleton_append, areContained_append]
  rfl

-- A statement without other statements in it.
theorem areContained_leaf {s : Stmt} (hs : sites start s = [⟨start, s⟩]) :
    AreContained start [s] ↔ s.IsContained := by
  rw [AreContained, listSites, listSites, List.append_nil, hs, List.forall_mem_singleton]

theorem areContained_control : AreContained start [control head group parts] ↔
    (control head group parts).IsContained ∧
      AreContained (partsStart start head group) parts := by
  rw [AreContained, listSites, listSites, List.append_nil, sites, List.forall_mem_cons]
  rfl

theorem areContained_block {closed : Bool} :
    AreContained start [block items closed] ↔ AreContained (start + 1) items := by
  rw [AreContained, listSites, listSites, List.append_nil, sites, List.forall_mem_cons]
  exact and_iff_right (isContained_block items closed)

theorem areContained_function {header : List Lexeme} {body : Stmt} :
    AreContained start [function header body] ↔
      AreContained (start + header.length) [body] ∧ (function header body).IsContained := by
  rw [AreContained, listSites, listSites, List.append_nil, sites, List.forall_mem_append,
    List.forall_mem_singleton, AreContained, listSites, listSites, List.append_nil]

end

theorem areContained_of_readDoWhile {ls rest : List Lexeme} {ss : List Stmt} {start : Nat}
    (h : readDoWhile ls = (ss, rest)) : AreContained start ss := by
  unfold readDoWhile at h
  split at h <;> cases h
  case h_1 ls =>
    exact (areContained_leaf rfl).mpr ⟨closing_of_readGroup (Prod.ext rfl rfl), nofun, nofun⟩
  case h_2 => exact areContained_nil start

-- By induction on how the statements are read: the texts of all of them are contained.
theorem Reads.areContained {p : Part} {ls rest : List Lexeme} {ss : List Stmt}
    (h : Reads p ls ss rest) {start : Nat} : AreContained start ss := by
  induction h generalizing start with
  | bodyEnd | bodyClose | noTail => exact areContained_nil start
  | block _ ih | body _ _ ih => exact ih
  | stray | empty => exact (areContained_leaf rfl).mpr ⟨rfl, nofun, nofun⟩
  | branch hg _ _ ihb iht =>
    refine areContained_control.mpr ⟨isContained_control (closing_of_readGroup hg), ?_⟩
    exact areContained_append.mpr ⟨ihb, iht⟩
  | headed hk hg _ ih =>
    exact areContained_control.mpr ⟨isContained_control (closing_of_readGroup hg), ih⟩
  | loneElse _ ih | elseBody _ _ ih =>
    exact areContained_control.mpr ⟨isContained_control rfl, ih⟩
  | elseIf _ ih =>
    -- The words `else if` are one head, of which the `if` was read as a head of its own.
    obtain ⟨hif, hparts⟩ := areContained_control.mp (@ih (start + 1))
    exact areContained_control.mpr ⟨isContained_control hif.closing, hparts⟩
  | doLoop _ hw ih =>
    refine areContained_control.mpr ⟨isContained_control rfl, ?_⟩
    exact areContained_append.mpr ⟨ih, areContained_of_readDoWhile hw⟩
  | caseLabel hk ht =>
    obtain ⟨rfl, _⟩ := Prod.ext_iff.mp ht
    refine (areContained_leaf rfl).mpr (isContained_label ?_)
    exact List.forall_mem_cons.mpr ⟨by simp, ne_brace_of_mem_readLabel⟩
  | nameLabel hl =>
    refine (areContained_leaf rfl).mpr (isContained_label ?_)
    refine List.forall_mem_cons.mpr ⟨?_, by decide⟩
    constructor <;> rintro rfl <;> cases hl
  | jump hk ht =>
    exact (areContained_leaf rfl).mpr (isContained_of_readText ht (by simp) rfl rfl)
  | simple hp _ ht _ =>
    have hl := Lexeme.ne_rbrace_of_isPlain hp
    exact (areContained_leaf rfl).mpr (isContained_of_readText ht hl rfl rfl)
  | function hp ht _ _ ih =>
    obtain ⟨hclosing, hopening⟩ := closing_of_readText ht (Lexeme.ne_rbrace_of_isPlain hp)
    obtain ⟨hparens, hbraces⟩ := hopening (.punct .lbrace) rfl (by decide)
    exact areContained_function.mpr ⟨ih, hclosing, fun _ => hparens, fun _ => hbraces⟩
  | blockEnd | blockClose => exact areContained_block.mpr (areContained_nil _)
  | blockItem _ _ _ ihi ihb =>
    refine areContained_block.mpr (areContained_cons.mpr ⟨ihi, ?_⟩)
    rw [Nat.add_right_comm]
    exact areContained_block.mp ihb

end Stmt
end CLint
