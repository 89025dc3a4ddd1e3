import CLint.Control.Block

namespace CLint

namespace Lexeme

-- The bracket that closes what is opened by a lexeme.
def closer? : Lexeme → Option Lexeme
  | punct .lparen => some (punct .rparen)
  | punct .lbracket => some (punct .rbracket)
  | punct .lbrace => some (punct .rbrace)
  | _ => none

def closes (l : Lexeme) : Bool :=
  l.isCloser || l.isMark .rbrace

-- What ends an expression, whatever it is nested in.
def breaksOff : Lexeme → Bool
  | punct .semicolon | punct .lbrace | punct .rbrace => true
  | _ => false

end Lexeme

namespace Code

-- Is some code nested properly, if the brackets in `awaited` have been opened before it and are to
-- be closed by it, the last one first?
def closesAll (awaited : List Lexeme) : List Lexeme → Bool
  | [] => awaited.isEmpty
  | l :: ls =>
    match l.closer? with
    | some c => closesAll (c :: awaited) ls
    | none =>
      if l.closes then
        match awaited with
        | [] => false
        | c :: awaited => l = c && closesAll awaited ls
      else closesAll awaited ls

def isNested (ls : List Lexeme) : Bool :=
  closesAll [] ls

-- What is open before some code may be closed by it and by what follows it.
theorem closesAll_append_append {as bs ls ms : List Lexeme} (h : closesAll as ls)
    (hm : closesAll bs ms) : closesAll (as ++ bs) (ls ++ ms) := by
  fun_induction closesAll as ls with
  | case1 as =>
    cases List.isEmpty_iff.mp h
    exact hm
  | case2 as l ls c hc ih => simpa [closesAll, hc] using ih h
  | case3 => cases h
  | case4 l ls hc hl c as ih =>
    simp only [Bool.and_eq_true] at h
    simpa [closesAll, hc, hl, h.1] using ih h.2
  | case5 as l ls hc hl ih => simpa [closesAll, hc, hl] using ih h

end Code

namespace Lexeme

variable {l c : Lexeme}

theorem isOpener_of_closer? (h : l.closer? = some c) : l.isOpener = !l.isMark .lbrace := by
  unfold closer? at h
  split at h <;> first | rfl | cases h

theorem not_opener_of_closer? (h : l.closer? = none) :
    l.isOpener = false ∧ l.isMark .lbrace = false := by
  unfold closer? at h
  split at h <;> cases h
  constructor
  · unfold isOpener
    split <;> simp_all
  · simp_all [isMark]

theorem isMark_of_not_breaksOff (h : l.breaksOff = false) :
    l.isMark .semicolon = false ∧ l.isMark .lbrace = false ∧ l.isMark .rbrace = false := by
  refine ⟨?_, ?_, ?_⟩ <;>
  · rw [isMark, decide_eq_false_iff_not]
    rintro rfl
    cases h

theorem closes_iff : l.closes ↔ l = .punct .rparen ∨ l = .punct .rbracket ∨ l = .punct .rbrace := by
  constructor
  · intro h
    unfold closes isCloser isMark at h
    split at h <;> simp_all
  · rintro (rfl | rfl | rfl) <;> rfl

theorem closes_eq_false_iff : l.closes = false ↔ l.isCloser = false ∧ l.isMark .rbrace = false := by
  simp [closes]

end Lexeme

variable {awaited ls rest : List Lexeme}

-- Properly nested code without braces is read as a part of the group around it.
theorem Group.read_nested {semicolons : Bool} (hn : Code.closesAll awaited ls)
    (hs : ∀ l ∈ ls, l.breaksOff → semicolons ∧ l = .punct .semicolon) (rest : List Lexeme)
    (depth : Nat) : read semicolons (depth + awaited.length) 0 (ls ++ rest) =
      (⟨ls ++ (read semicolons depth 0 rest).1.inner, (read semicolons depth 0 rest).1.close⟩,
        (read semicolons depth 0 rest).2) := by
  fun_induction Code.closesAll awaited ls with
  | case1 awaited =>
    cases List.isEmpty_iff.mp hn
    rfl
  | case2 awaited l ls c hc ih =>
    have ih := ih hn fun m hm => hs m (List.mem_cons_of_mem l hm)
    have hbrace : l.isMark .lbrace = false := by
      rw [Lexeme.isMark, decide_eq_false_iff_not]
      rintro rfl
      cases (hs _ List.mem_cons_self rfl).2
    have hopen : l.isOpener := by simp [Lexeme.isOpener_of_closer? hc, hbrace]
    simp only [List.cons_append, read, hopen, if_true]
    rw [Nat.add_assoc, ← List.length_cons (a := c), ih]
    rfl
  | case3 l ls hc hl => cases hn
  | case4 l ls hc hl c awaited ih =>
    simp only [Bool.and_eq_true, decide_eq_true_eq] at hn
    have ih := ih hn.2 fun m hm => hs m (List.mem_cons_of_mem l hm)
    have hbrace : l.isMark .rbrace = false := by
      rw [Lexeme.isMark, decide_eq_false_iff_not]
      rintro rfl
      cases (hs _ List.mem_cons_self rfl).2
    have hopen := (Lexeme.not_opener_of_closer? hc).1
    have hclose : l.isCloser := by simpa [Lexeme.closes, hbrace] using hl
    simp only [List.cons_append, read, hopen, hclose, if_true, Bool.false_eq_true, if_false,
      List.length_cons, ← Nat.add_assoc, ih]
    rfl
  | case5 awaited l ls hc hl ih =>
    have ih := ih hn fun m hm => hs m (List.mem_cons_of_mem l hm)
    obtain ⟨hopen, hbrace⟩ := Lexeme.not_opener_of_closer? hc
    obtain ⟨hclose, hrbrace⟩ := Lexeme.closes_eq_false_iff.mp (Bool.not_eq_true _ ▸ hl)
    have hsemi : (l.isMark .semicolon && !semicolons) = false := by
      cases hm : l.isMark .semicolon
      case false => rfl
      case true =>
        cases of_decide_eq_true hm
        simp [(hs _ List.mem_cons_self rfl).1]
    simp only [List.cons_append, read, hopen, hclose, hbrace, hrbrace, decide_true, Bool.and_true,
      hsemi, Bool.false_eq_true, if_false, ih]
    rfl

namespace Scan

-- A scan takes all code up to where it stops.
theorem read_append_of_not_stopsAt {s : Scan} (h : ∀ l ∈ ls, l.breaksOff = false) :
    s.read (ls ++ rest) =
      (ls ++ ((ls.foldl step s).read rest).1, ((ls.foldl step s).read rest).2) := by
  induction ls generalizing s with
  | nil => rfl
  | cons l ls ih =>
    have hl : s.stopsAt l = false := by
      have := h l List.mem_cons_self
      unfold stopsAt
      split <;> first | rfl | cases this
    have ih := ih (s := s.step l) fun m hm => h m (List.mem_cons_of_mem l hm)
    simp [read, hl, ih, Cut.keep]

-- The open brackets that a scan counts are those that are still to be closed.
structure Awaits (s : Scan) (awaited : List Lexeme) : Prop where
  parens : s.parens = awaited.count (.punct .rparen)
  brackets : s.brackets = awaited.count (.punct .rbracket)
  braces : s.braces = awaited.count (.punct .rbrace)

theorem Awaits.isTop {s : Scan} (h : s.Awaits []) : s.isTop := by
  simp [Scan.isTop, h.parens, h.brackets, h.braces]

section

variable {s : Scan} {l c : Lexeme}

theorem Awaits.opened (h : s.Awaits awaited) (hc : l.closer? = some c) :
    (s.step l).Awaits (c :: awaited) := by
  unfold Lexeme.closer? at hc
  split at hc <;> cases hc <;>
    constructor <;> simp [step, h.parens, h.brackets, h.braces]

theorem Awaits.closed (h : s.Awaits (l :: awaited)) (hl : l.closes) :
    (s.step l).Awaits awaited := by
  rcases Lexeme.closes_iff.mp hl with rfl | rfl | rfl <;>
    constructor <;> simp [step, h.parens, h.brackets, h.braces]

theorem Awaits.passed (h : s.Awaits awaited) (hc : l.closer? = none) (hl : l.closes = false) :
    (s.step l).Awaits awaited := by
  unfold step
  split
  case h_1 | h_3 | h_5 => cases hc
  case h_2 | h_4 | h_6 => cases hl
  case h_7 | h_8 => exact ⟨h.parens, h.brackets, h.braces⟩

theorem Awaits.foldl_step (h : s.Awaits awaited) (hn : Code.closesAll awaited ls) :
    (ls.foldl step s).Awaits [] := by
  fun_induction Code.closesAll awaited ls generalizing s with
  | case1 awaited =>
    cases List.isEmpty_iff.mp hn
    exact h
  | case2 awaited l ls c hc ih => exact ih (h.opened hc) hn
  | case3 l ls hc hl => cases hn
  | case4 l ls hc hl c awaited ih =>
    simp only [Bool.and_eq_true, decide_eq_true_eq] at hn
    obtain ⟨rfl, hn⟩ := hn
    exact ih (h.closed hl) hn
  | case5 awaited l ls hc hl ih => exact ih (h.passed hc (Bool.not_eq_true _ ▸ hl)) hn

end

end Scan

theorem Stmt.readText_flat {l : Lexeme} (hb : ∀ m ∈ ls, m.breaksOff = false)
    (ha : ((ls.foldl Scan.step (Scan.step {} l))).isTop) :
    readText l (ls ++ .punct .semicolon :: rest) = (ls, true, rest) := by
  have hread : (ls.foldl Scan.step (Scan.step {} l)).read (.punct .semicolon :: rest) =
      ([], .punct .semicolon :: rest) := by
    simp [Scan.read, Scan.stopsAt, ha]
  simp only [readText, Scan.read_append_of_not_stopsAt hb, hread, List.append_nil]
  rfl

namespace Code

theorem exists_cut (nest : Lexeme → Int) (mark : Punct) (depth : Int) (ls : List Lexeme) :
    ∃ piece pieces, cut nest mark depth ls = piece :: pieces := by
  unfold cut
  split
  · exact ⟨_, _, rfl⟩
  · split
    · exact ⟨_, _, rfl⟩
    · split <;> exact ⟨_, _, rfl⟩

-- Code that is properly nested is not cut within its brackets.
theorem cut_nested {piece : List Lexeme} {pieces : List (List Lexeme)}
    (hn : closesAll awaited ls) (hb : ∀ l ∈ ls, l.breaksOff = false)
    (hr : cut Lexeme.nestingFlat .semicolon 0 rest = piece :: pieces) :
    cut Lexeme.nestingFlat .semicolon awaited.length (ls ++ rest) = (ls ++ piece) :: pieces := by
  fun_induction Code.closesAll awaited ls with
  | case1 awaited =>
    cases List.isEmpty_iff.mp hn
    exact hr
  | case2 awaited l ls c hc ih =>
    obtain ⟨hsemi, hbrace, _⟩ := Lexeme.isMark_of_not_breaksOff (hb l List.mem_cons_self)
    have ih := ih hn fun m hm => hb m (List.mem_cons_of_mem l hm)
    have hopen : l.isOpener := by simp [Lexeme.isOpener_of_closer? hc, hbrace]
    rw [List.length_cons, Int.natCast_succ] at ih
    simp [cut, hsemi, Lexeme.nestingFlat, hopen, ih]
  | case3 l ls hc hl => cases hn
  | case4 l ls hc hl c awaited ih =>
    simp only [Bool.and_eq_true, decide_eq_true_eq] at hn
    obtain ⟨hsemi, _, hbrace⟩ := Lexeme.isMark_of_not_breaksOff (hb l List.mem_cons_self)
    have ih := ih hn.2 fun m hm => hb m (List.mem_cons_of_mem l hm)
    have hopen := (Lexeme.not_opener_of_closer? hc).1
    have hclose : l.isCloser := by simpa [Lexeme.closes, hbrace] using hl
    have hdepth : ((c :: awaited).length : Int) + Lexeme.nestingFlat l = awaited.length := by
      have hnest : Lexeme.nestingFlat l = -1 := by simp [Lexeme.nestingFlat, hopen, hclose]
      rw [hnest, List.length_cons]
      omega
    rw [List.cons_append, cut, hsemi, Bool.false_and, if_neg Bool.false_ne_true, hdepth, ih]
    rfl
  | case5 awaited l ls hc hl ih =>
    obtain ⟨hsemi, _, _⟩ := Lexeme.isMark_of_not_breaksOff (hb l List.mem_cons_self)
    have ih := ih hn fun m hm => hb m (List.mem_cons_of_mem l hm)
    have hopen := (Lexeme.not_opener_of_closer? hc).1
    have hclose := (Lexeme.closes_eq_false_iff.mp (Bool.not_eq_true _ ▸ hl)).1
    simp [cut, hsemi, Lexeme.nestingFlat, hopen, hclose, ih]

end Code

end CLint
