import CLint.Proofs.Imbalance
import Mathlib.Data.List.Chain

namespace CLint

-- A bracket that is open at some place in the code. The header of a loop is told apart, since only
-- there do semicolons stand in parentheses.
inductive Bracket
  | header | paren | square | brace
  deriving DecidableEq, Repr

namespace Bracket

def closer : Bracket → Lexeme
  | header | paren => .punct .rparen
  | square => .punct .rbracket
  | brace => .punct .rbrace

theorem eq_brace_of_closer {b : Bracket} (h : b.closer = .punct .rbrace) : b = brace := by
  cases b <;> first | rfl | cases h

-- What is left of some open brackets without those in the innermost braces.
def floor (bs : List Bracket) : List Bracket :=
  bs.dropWhile (· ≠ brace)

end Bracket

-- What is known of the code before a place: which brackets are open, the last one first, and what
-- the last lexeme is.
structure Surroundings where
  brackets : List Bracket := []
  last : Option Lexeme := none
  deriving DecidableEq, Repr

theorem Lexeme.breaksOff_of_isPlain {l : Lexeme} (h : l.isPlain) : l.breaksOff = false := by
  unfold Lexeme.breaksOff
  split <;> first | rfl | cases h

theorem Keyword.ne_forKw_of_groupHead? {k : Keyword} {head : Head}
    (hk : k.groupHead? = some head) (hfor : decide (head = .forHead) = false) : k ≠ .forKw := by
  rintro rfl
  cases hk
  cases hfor

namespace Surroundings

-- Does a place lie in no parentheses but those that have braces around the place in them?
def isOnFloor (s : Surroundings) : Bool :=
  s.brackets.head?.all (· = .brace)

def opened? (s : Surroundings) : Lexeme → Option Bracket
  | .punct .lparen =>
    some (if s.last = some (.keyword .forKw) && s.isOnFloor then .header else .paren)
  | .punct .lbracket => some .square
  | .punct .lbrace => some .brace
  | _ => none

def step (s : Surroundings) (l : Lexeme) : Surroundings where
  brackets :=
    match s.opened? l with
    | some b => b :: s.brackets
    | none => if l.closes then s.brackets.tail else s.brackets
  last := some l

-- A semicolon may stand outside of parentheses and directly in those of a `for`.
def admitsSemicolon (s : Surroundings) : Bool :=
  s.isOnFloor || s.brackets.head? = some .header

end Surroundings

-- Does each semicolon of some code stand where one may, if `s` is what is before the code?
def Code.semicolonsFit (s : Surroundings) : List Lexeme → Bool
  | [] => true
  | l :: ls => (!l.isMark .semicolon || s.admitsSemicolon) && semicolonsFit (s.step l) ls

-- The code fits to what is before it: it closes what is open there, and its semicolons stand where
-- they may.
structure Surroundings.Admits (s : Surroundings) (ls : List Lexeme) : Prop where
  nested : Code.closesAll (s.brackets.map Bracket.closer) ls
  semicolons : Code.semicolonsFit s ls
  headers : s.brackets.IsChain fun b around => b = .header → around = .brace

variable {s : Surroundings} {l : Lexeme} {ls as rest : List Lexeme} {b : Bracket}
  {inner outer : List Bracket}

namespace Surroundings

theorem closer?_of_opened? (h : s.opened? l = some b) : l.closer? = some b.closer := by
  unfold opened? at h
  split at h <;> cases h
  case h_1 => split <;> rfl
  case h_2 | h_3 => rfl

theorem closer?_eq_none (h : s.opened? l = none) : l.closer? = none := by
  unfold opened? at h
  split at h <;> simp_all [Lexeme.closer?]

theorem eq_lbrace_of_opened? (h : s.opened? l = some .brace) : l = .punct .lbrace := by
  unfold opened? at h
  split at h <;> try cases h
  case h_1 => split at h <;> cases h
  case h_3 => rfl

theorem brackets_step_of_opened? (h : s.opened? l = some b) :
    (s.step l).brackets = b :: s.brackets := by
  simp only [step, h]

theorem brackets_step_of_closes (h : l.closes) : (s.step l).brackets = s.brackets.tail := by
  have : s.opened? l = none := by
    rcases Lexeme.closes_iff.mp h with rfl | rfl | rfl <;> rfl
  simp only [step, this, h, if_true]

theorem brackets_step_of_neither (ho : s.opened? l = none) (hc : l.closes = false) :
    (s.step l).brackets = s.brackets := by
  simp only [step, ho, hc, Bool.false_eq_true, if_false]

namespace Admits

theorem brackets_of_nil (h : s.Admits []) : s.brackets = [] := by
  simpa [Code.closesAll] using h.nested

-- A bracket only closes what was opened last.
theorem exists_of_closes (h : s.Admits (l :: ls)) (hl : l.closes) :
    ∃ b bs, s.brackets = b :: bs ∧ b.closer = l := by
  have hn := h.nested
  have hc : l.closer? = none := by
    rcases Lexeme.closes_iff.mp hl with rfl | rfl | rfl <;> rfl
  cases hb : s.brackets with
  | nil => simp [Code.closesAll, hb, hc, hl] at hn
  | cons b bs =>
    simp only [Code.closesAll, hb, hc, hl, List.map_cons, if_true, Bool.and_eq_true,
      decide_eq_true_eq] at hn
    exact ⟨b, bs, rfl, hn.1.symm⟩

theorem step (h : s.Admits (l :: ls)) : (s.step l).Admits ls := by
  obtain ⟨hn, hs, hh⟩ := h
  rw [Code.semicolonsFit, Bool.and_eq_true] at hs
  cases ho : s.opened? l with
  | some b =>
    refine ⟨?_, hs.2, ?_⟩ <;> rw [brackets_step_of_opened? ho]
    · simpa [Code.closesAll, closer?_of_opened? ho] using hn
    · refine List.isChain_cons.mpr ⟨fun c hc hb => ?_, hh⟩
      subst hb
      unfold opened? at ho
      split at ho <;> try cases ho
      split at ho <;> cases ho
      case h_1.isTrue.refl hf =>
        have hfloor := (Bool.and_eq_true_iff.mp hf).2
        rw [isOnFloor, Option.mem_def.mp hc] at hfloor
        exact of_decide_eq_true hfloor
  | none =>
    have hc := closer?_eq_none ho
    by_cases hl : l.closes
    case pos =>
      refine ⟨?_, hs.2, ?_⟩ <;> rw [brackets_step_of_closes hl]
      · cases hb : s.brackets <;> simp_all [Code.closesAll]
      · exact hh.tail
    case neg =>
      rw [Bool.not_eq_true] at hl
      refine ⟨?_, hs.2, ?_⟩ <;> rw [brackets_step_of_neither ho hl]
      · simpa [Code.closesAll, hc, hl] using hn
      · exact hh

-- What is opened and closed without braces does not reach out of the innermost ones.
theorem floor_step (h : s.Admits (l :: ls)) (hl : l ≠ .punct .lbrace ∧ l ≠ .punct .rbrace) :
    Bracket.floor (s.step l).brackets = Bracket.floor s.brackets := by
  by_cases hc : l.closes
  case pos =>
    obtain ⟨b, bs, hb, hcloser⟩ := h.exists_of_closes hc
    have hne : b ≠ .brace := by
      rintro rfl
      exact hl.2 hcloser.symm
    simp [brackets_step_of_closes hc, hb, Bracket.floor, hne]
  case neg =>
    cases ho : s.opened? l with
    | none => rw [brackets_step_of_neither ho (Bool.not_eq_true _ ▸ hc)]
    | some b =>
      have hne : b ≠ .brace := by
        rintro rfl
        exact hl.1 (eq_lbrace_of_opened? ho)
      simp [brackets_step_of_opened? ho, Bracket.floor, hne]

theorem floor_foldl (h : s.Admits (as ++ rest))
    (hb : ∀ l ∈ as, l ≠ .punct .lbrace ∧ l ≠ .punct .rbrace) :
    (as.foldl Surroundings.step s).Admits rest ∧
      Bracket.floor (as.foldl Surroundings.step s).brackets = Bracket.floor s.brackets := by
  induction as generalizing s with
  | nil => exact ⟨h, rfl⟩
  | cons l as ih =>
    obtain ⟨hl, has⟩ := List.forall_mem_cons.mp hb
    obtain ⟨hadmits, hfloor⟩ := ih h.step has
    exact ⟨hadmits, hfloor.trans (h.floor_step hl)⟩

end Admits
end Surroundings

namespace Scan

variable {scan : Scan}

-- A scan counts the brackets that it has seen opened and not closed. Those that were open before
-- may be closed on the way, but no braces among them.
theorem Awaits.step (ha : scan.Awaits (inner.map Bracket.closer)) (h : s.Admits (l :: ls))
    (hs : s.brackets = inner ++ outer) (hstop : scan.stopsAt l = false) :
    ∃ inner' outer', (s.step l).brackets = inner' ++ outer' ∧
      (scan.step l).Awaits (inner'.map Bracket.closer) ∧
      Bracket.floor outer' = Bracket.floor outer := by
  obtain ⟨hparens, hbrackets, hbraces⟩ := ha
  by_cases hc : l.closes
  case pos =>
    obtain ⟨b, bs, hb, rfl⟩ := h.exists_of_closes hc
    rw [Surroundings.brackets_step_of_closes hc]
    cases inner with
    | nil =>
      have hne : b ≠ .brace := by
        rintro rfl
        simp [stopsAt, Bracket.closer, hbraces] at hstop
      rw [List.nil_append] at hs
      refine ⟨[], outer.tail, by rw [hs]; rfl, ?_, ?_⟩
      · cases b <;> constructor <;> simp_all [Scan.step, Bracket.closer]
      · rw [← hs, hb]
        simp [Bracket.floor, hne]
    | cons c inner =>
      rw [hs, List.cons_append] at hb
      cases hb
      refine ⟨inner, outer, by rw [hs]; rfl, ?_, rfl⟩
      cases b <;> constructor <;> simp_all [Scan.step, Bracket.closer]
  case neg =>
    cases ho : s.opened? l with
    | some b =>
      refine ⟨b :: inner, outer, ?_, ?_, rfl⟩
      · rw [Surroundings.brackets_step_of_opened? ho, hs, List.cons_append]
      · have hcloser := Surroundings.closer?_of_opened? ho
        unfold Lexeme.closer? at hcloser
        split at hcloser <;> cases b <;> cases hcloser <;> constructor <;>
          simp_all [Scan.step, Bracket.closer]
    | none =>
      refine ⟨inner, outer, ?_, ?_, rfl⟩
      · rw [Surroundings.brackets_step_of_neither ho (Bool.not_eq_true _ ▸ hc), hs]
      · unfold Scan.step
        split
        case h_1 | h_3 | h_5 => cases ho
        case h_2 | h_4 | h_6 => exact absurd rfl hc
        case h_7 | h_8 => exact ⟨hparens, hbrackets, hbraces⟩

-- By induction on the code that is scanned. Where the scan stops, nothing is open but what was
-- open before.
theorem floor_read (h : s.Admits ls) (hs : s.brackets = inner ++ outer)
    (ha : scan.Awaits (inner.map Bracket.closer)) :
    ∃ s' : Surroundings, s'.Admits (scan.read ls).2 ∧
      Bracket.floor s'.brackets = Bracket.floor outer := by
  fun_induction Scan.read scan ls generalizing s inner outer with
  | case1 scan =>
    have hnil := h.brackets_of_nil
    rw [hs, List.append_eq_nil_iff] at hnil
    exact ⟨s, h, by rw [hs, hnil.1]; rfl⟩
  | case2 scan l ls hstop =>
    refine ⟨s, h, ?_⟩
    cases inner with
    | nil => rw [hs, List.nil_append]
    | cons b inner =>
      -- All brackets are counted, so that a scan that stops has none left to count.
      obtain ⟨hparens, hbrackets, hbraces⟩ := ha
      unfold stopsAt at hstop
      split at hstop
      case h_1 | h_3 => cases b <;> simp_all [isTop, Bracket.closer]
      case h_2 =>
        obtain ⟨c, cs, hc, hcloser⟩ := h.exists_of_closes rfl
        rw [hs, List.cons_append] at hc
        cases hc
        simp [hcloser, hbraces] at hstop
      case h_4 => cases hstop
  | case3 scan l ls hstop ih =>
    obtain ⟨inner', outer', hs', ha', hfloor⟩ := ha.step h hs (Bool.not_eq_true _ ▸ hstop)
    obtain ⟨s', hadmits, hs'⟩ := ih h.step hs' ha'
    exact ⟨s', hadmits, hs'.trans hfloor⟩

end Scan

namespace Surroundings

theorem exists_opened?_of_isOpener (s : Surroundings) (h : l.isOpener) :
    ∃ b, s.opened? l = some b ∧ b ≠ .brace := by
  unfold Lexeme.isOpener at h
  split at h
  case h_1 =>
    refine ⟨_, rfl, ?_⟩
    split <;> nofun
  case h_2 => exact ⟨_, rfl, nofun⟩
  case h_3 => cases h

theorem opened?_eq_none (ho : l.isOpener = false) (hl : l.isMark .lbrace = false) :
    s.opened? l = none := by
  unfold opened?
  split
  case h_1 | h_2 => cases ho
  case h_3 => cases hl
  case h_4 => rfl

-- A semicolon among parentheses stands directly in the header of a loop, which is not in other
-- parentheses itself.
theorem Admits.header_of_semicolon (h : s.Admits (.punct .semicolon :: ls))
    (hs : s.brackets = inner ++ b :: outer) (hb : b ≠ .brace) (hi : .brace ∉ inner) :
    b = .header := by
  have hadmits : s.admitsSemicolon := by
    have := h.semicolons
    simp only [Code.semicolonsFit, Bool.and_eq_true] at this
    simpa [Lexeme.isMark] using this.1
  have hheaders := h.headers
  rw [admitsSemicolon, isOnFloor, hs] at hadmits
  rw [hs] at hheaders
  rcases inner with _ | ⟨c, _ | ⟨d, inner⟩⟩
  case nil => simpa [hb] using hadmits
  case cons.nil =>
    have hc : c ≠ .brace := fun he => hi (he ▸ List.mem_cons_self)
    have hheader : c = .header := by simpa [hc] using hadmits
    exact absurd ((List.isChain_cons_cons.mp hheaders).1 hheader) hb
  case cons.cons =>
    have hc : c ≠ .brace := fun he => hi (he ▸ List.mem_cons_self)
    have hd : d ≠ .brace := fun he => hi (he ▸ List.mem_cons_of_mem c List.mem_cons_self)
    have hheader : c = .header := by simpa [hc] using hadmits
    exact absurd ((List.isChain_cons_cons.mp hheaders).1 hheader) hd

theorem Admits.semicolon (h : s.Admits ls) :
    ∃ s' : Surroundings, s'.Admits (Stmt.semicolon ls).2 ∧ s'.brackets = s.brackets := by
  unfold Stmt.semicolon
  split
  case h_1 => exact ⟨_, h.step, rfl⟩
  case h_2 => exact ⟨s, h, rfl⟩

theorem Admits.readText {text : List Lexeme} {ended : Bool} (h : s.Admits (l :: ls))
    (hl : l.breaksOff = false) (ht : Stmt.readText l ls = (text, ended, rest)) :
    ∃ s' : Surroundings, s'.Admits rest ∧
      Bracket.floor s'.brackets = Bracket.floor s.brackets := by
  have hstop : Scan.stopsAt {} l = false := by
    unfold Scan.stopsAt
    split <;> first | rfl | cases hl
  have hempty : Scan.Awaits {} (([] : List Bracket).map Bracket.closer) := ⟨rfl, rfl, rfl⟩
  obtain ⟨inner, outer, hs, ha, hfloor⟩ := hempty.step h (List.nil_append _).symm hstop
  obtain ⟨s', hadmits, hs'⟩ := Scan.floor_read h.step hs ha
  obtain ⟨s'', hadmits, hs''⟩ := hadmits.semicolon
  have hrest : (Stmt.semicolon ((Scan.step {} l).read ls).2).2 = rest :=
    congrArg (·.2.2) ht
  exact ⟨s'', hrest ▸ hadmits, hs'' ▸ hs'.trans hfloor⟩

-- What is closed next is the last of the inner brackets, or else the one around them.
theorem Admits.closed_of_closes (h : s.Admits (l :: ls)) (hs : s.brackets = inner ++ b :: outer)
    (hl : l.closes) :
    (inner = [] ∧ b.closer = l) ∨ ∃ c cs, inner = c :: cs ∧ c.closer = l ∧
      (s.step l).brackets = cs ++ b :: outer := by
  obtain ⟨c, cs, hcs, hcloser⟩ := h.exists_of_closes hl
  rw [hs] at hcs
  cases inner with
  | nil => exact .inl ⟨rfl, (List.cons_eq_cons.mp hcs).1 ▸ hcloser⟩
  | cons d ds =>
    refine .inr ⟨d, ds, rfl, (List.cons_eq_cons.mp hcs).1 ▸ hcloser, ?_⟩
    rw [brackets_step_of_closes hl, hs]
    rfl

end Surroundings

namespace Group

-- A group that is opened is closed before the code around it ends. Only the header of a loop has
-- semicolons directly in it.
theorem isClosed_read {semicolons : Bool} {depth braces : Nat} (h : s.Admits ls)
    (hs : s.brackets = inner ++ b :: outer) (hb : b ≠ .brace)
    (hsemi : semicolons = false → b ≠ .header) (hdepth : depth = inner.countP (· ≠ .brace))
    (hbraces : braces = inner.count .brace) :
    (read semicolons depth braces ls).1.isClosed ∧
      ∃ s' : Surroundings, s'.Admits (read semicolons depth braces ls).2 ∧
        s'.brackets = outer := by
  fun_induction read semicolons depth braces ls generalizing s inner with
  | case1 =>
    have hnil := h.brackets_of_nil
    simp [hs] at hnil
  | case2 depth braces l ls ho ih =>
    obtain ⟨c, hc, hne⟩ := s.exists_opened?_of_isOpener ho
    have hstep : (s.step l).brackets = (c :: inner) ++ b :: outer := by
      rw [Surroundings.brackets_step_of_opened? hc, hs, List.cons_append]
    refine ih h.step hstep ?_ ?_
    · simp [hne, hdepth]
    · simp [hne, hbraces]
  | case3 braces l ls ho hc =>
    have hcloses : l.closes := by simp [Lexeme.closes, hc]
    rcases h.closed_of_closes hs hcloses with ⟨rfl, rfl⟩ | ⟨c, cs, rfl, rfl, _⟩
    · refine ⟨rfl, s.step b.closer, h.step, ?_⟩
      rw [Surroundings.brackets_step_of_closes hcloses, hs]
      rfl
    · have hbrace : c = .brace := by
        have := List.countP_eq_zero.mp hdepth.symm c List.mem_cons_self
        simpa using this
      subst hbrace
      cases hc
  | case4 braces l ls ho hc depth ih =>
    have hcloses : l.closes := by simp [Lexeme.closes, hc]
    rcases h.closed_of_closes hs hcloses with ⟨rfl, rfl⟩ | ⟨c, cs, rfl, rfl, hstep⟩
    · cases hdepth
    · have hne : c ≠ .brace := by
        rintro rfl
        cases hc
      exact ih h.step hstep (by simpa [hne] using hdepth) (by simpa [hne] using hbraces)
  | case5 depth braces l ls ho hc hm ih =>
    cases of_decide_eq_true hm
    have hstep : (s.step (.punct .lbrace)).brackets = (.brace :: inner) ++ b :: outer := by
      rw [Surroundings.brackets_step_of_opened? rfl, hs, List.cons_append]
    refine ih h.step hstep ?_ ?_
    · simpa using hdepth
    · simp [hbraces]
  | case6 depth l ls ho hc hm hm' =>
    cases of_decide_eq_true hm'
    rcases h.closed_of_closes hs rfl with ⟨rfl, hcloser⟩ | ⟨c, cs, rfl, hcloser, _⟩
    · exact absurd (Bracket.eq_brace_of_closer hcloser) hb
    · cases Bracket.eq_brace_of_closer hcloser
      simp at hbraces
  | case7 depth l ls ho hc hm hm' braces ih =>
    cases of_decide_eq_true hm'
    rcases h.closed_of_closes hs rfl with ⟨rfl, hcloser⟩ | ⟨c, cs, rfl, hcloser, hstep⟩
    · cases hbraces
    · cases Bracket.eq_brace_of_closer hcloser
      exact ih h.step hstep (by simpa using hdepth) (by simpa using hbraces)
  | case8 depth braces l ls ho hc hm hm' hstop =>
    simp only [Bool.and_eq_true, decide_eq_true_eq, Bool.not_eq_true'] at hstop
    obtain ⟨⟨hl, rfl⟩, hfalse⟩ := hstop
    cases of_decide_eq_true hl
    exact absurd (h.header_of_semicolon hs hb (List.count_eq_zero.mp hbraces.symm)) (hsemi hfalse)
  | case9 depth braces l ls ho hc hl hr hstop ih =>
    rw [Bool.not_eq_true] at ho hc hr hl
    have hcloses : l.closes = false := Lexeme.closes_eq_false_iff.mpr ⟨hc, hr⟩
    refine ih h.step ?_ hdepth hbraces
    rw [Surroundings.brackets_step_of_neither (Surroundings.opened?_eq_none ho hl) hcloses, hs]

end Group

namespace Stmt

theorem isClosed_readGroup {semicolons : Bool} {group : Option Group} (h : s.Admits ls)
    (hsemi : semicolons = false → s.last ≠ some (.keyword .forKw))
    (hg : readGroup semicolons ls = (group, rest)) :
    group.all Group.isClosed ∧ ∃ s' : Surroundings, s'.Admits rest ∧ s'.brackets = s.brackets := by
  unfold readGroup at hg
  split at hg <;> cases hg
  case h_1 ls =>
    have ho : s.opened? (.punct .lparen) = some
        (if s.last = some (.keyword .forKw) && s.isOnFloor then .header else .paren) := rfl
    have hstep := Surroundings.brackets_step_of_opened? ho
    rw [← List.nil_append (_ :: s.brackets)] at hstep
    refine Group.isClosed_read h.step hstep ?_ ?_ rfl rfl
    · split <;> nofun
    · intro hs
      simp [hsemi hs]
  case h_2 => exact ⟨rfl, s, h, rfl⟩

theorem tidy_readDoWhile {ss : List Stmt} (h : s.Admits ls) (hw : readDoWhile ls = (ss, rest)) :
    listTidy ss ∧ ∃ s' : Surroundings, s'.Admits rest ∧ s'.brackets = s.brackets := by
  unfold readDoWhile at hw
  split at hw <;> cases hw
  case h_1 ls =>
    have hg : readGroup false ls = ((readGroup false ls).1, (readGroup false ls).2) := rfl
    obtain ⟨hclosed, s₁, ha₁, hs₁⟩ := isClosed_readGroup h.step (fun _ => nofun) hg
    obtain ⟨s₂, ha₂, hs₂⟩ := ha₁.semicolon
    exact ⟨by simpa [listTidy, isTidy] using hclosed, s₂, ha₂, hs₂.trans hs₁⟩
  case h_2 => exact ⟨rfl, s, h, rfl⟩

-- What is to be known of the brackets before a part of the code is read.
def Part.Fits : Part → Surroundings → List Lexeme → Prop
  | stmt _, s, ls => ls.head? = some (.punct .rbrace) → Bracket.floor s.brackets = []
  | block, s, _ => Bracket.floor s.brackets ≠ []
  | _, _, _ => True

-- A block ends with the braces in which it is read, all else stays in them.
def Part.Leaves : Part → Surroundings → Surroundings → Prop
  | block, s, s' => Bracket.floor s.brackets = .brace :: s'.brackets
  | _, s, s' => Bracket.floor s'.brackets = Bracket.floor s.brackets

-- By induction on how code is read: if it fits to what is before it, nothing is wrong with it.
theorem Reads.tidy {p : Part} {ss : List Stmt} (h : Reads p ls ss rest) (ha : s.Admits ls)
    (hf : p.Fits s ls) :
    listTidy ss ∧ ∃ s' : Surroundings, s'.Admits rest ∧ p.Leaves s s' := by
  induction h generalizing s with
  | stray =>
    obtain ⟨b, bs, hb, hcloser⟩ := ha.exists_of_closes rfl
    cases Bracket.eq_brace_of_closer hcloser
    have hnil := hf rfl
    simp [hb, Bracket.floor] at hnil
  | empty => exact ⟨rfl, _, ha.step, rfl⟩
  | block _ ih =>
    obtain ⟨htidy, s', ha', hs'⟩ := ih ha.step (List.cons_ne_nil _ _)
    have hbrackets : s'.brackets = s.brackets := (List.cons_eq_cons.mp hs').2.symm
    exact ⟨htidy, s', ha', congrArg Bracket.floor hbrackets⟩
  | branch hg _ _ ihb iht =>
    obtain ⟨hclosed, s₁, ha₁, hs₁⟩ := isClosed_readGroup ha.step (fun _ => nofun) hg
    obtain ⟨hbody, s₂, ha₂, hs₂⟩ := ihb ha₁ trivial
    obtain ⟨htail, s₃, ha₃, hs₃⟩ := iht ha₂ trivial
    refine ⟨?_, s₃, ha₃, hs₃.trans (hs₂.trans (congrArg Bracket.floor hs₁))⟩
    simp [listTidy, isTidy, hclosed, listTidy_append, hbody, htail]
  | loneElse _ ih | elseBody _ _ ih =>
    obtain ⟨hbody, s₁, ha₁, hs₁⟩ := ih ha.step trivial
    exact ⟨by simpa [listTidy, isTidy] using hbody, s₁, ha₁, hs₁⟩
  | headed hk hg _ ih =>
    have hlast hfor := fun h =>
      Keyword.ne_forKw_of_groupHead? hk hfor (Lexeme.keyword.inj (Option.some.inj h))
    obtain ⟨hclosed, s₁, ha₁, hs₁⟩ := isClosed_readGroup ha.step hlast hg
    obtain ⟨hbody, s₂, ha₂, hs₂⟩ := ih ha₁ trivial
    refine ⟨?_, s₂, ha₂, hs₂.trans (congrArg Bracket.floor hs₁)⟩
    simp [listTidy, isTidy, hclosed, hbody]
  | doLoop _ hw ih =>
    obtain ⟨hbody, s₁, ha₁, hs₁⟩ := ih ha.step trivial
    obtain ⟨htail, s₂, ha₂, hs₂⟩ := tidy_readDoWhile ha₁ hw
    refine ⟨?_, s₂, ha₂, (congrArg Bracket.floor hs₂).trans hs₁⟩
    simp [listTidy, isTidy, listTidy_append, hbody, htail]
  | caseLabel hk ht =>
    have ha₁ := ha.step
    rw [← append_of_readLabel ht] at ha₁
    obtain ⟨rfl, _⟩ := Prod.ext_iff.mp ht
    obtain ⟨ha₂, hs₂⟩ := ha₁.floor_foldl ne_brace_of_mem_readLabel
    exact ⟨rfl, _, ha₂, hs₂⟩
  | jump hk ht =>
    obtain ⟨s₁, ha₁, hs₁⟩ := ha.readText rfl ht
    exact ⟨rfl, s₁, ha₁, hs₁⟩
  | @nameLabel l _ hl =>
    have hne : ∀ m ∈ [l, .punct .colon], m ≠ .punct .lbrace ∧ m ≠ .punct .rbrace := by
      refine List.forall_mem_cons.mpr ⟨?_, by decide⟩
      constructor <;> rintro rfl <;> cases hl
    obtain ⟨ha₁, hs₁⟩ := ha.floor_foldl hne
    exact ⟨rfl, _, ha₁, hs₁⟩
  | simple hp hl ht _ =>
    obtain ⟨s₁, ha₁, hs₁⟩ := ha.readText (Lexeme.breaksOff_of_isPlain hp) ht
    exact ⟨rfl, s₁, ha₁, hs₁⟩
  | function hp ht hd _ ih =>
    obtain ⟨s₁, ha₁, hs₁⟩ := ha.readText (Lexeme.breaksOff_of_isPlain hp) ht
    obtain ⟨hbody, s₂, ha₂, hs₂⟩ := ih ha₁.step (List.cons_ne_nil _ _)
    have hbrackets : s₂.brackets = s₁.brackets := (List.cons_eq_cons.mp hs₂).2.symm
    refine ⟨?_, s₂, ha₂, (congrArg Bracket.floor hbrackets).trans hs₁⟩
    simpa [listTidy, isTidy] using hbody
  | blockEnd =>
    have hnil := ha.brackets_of_nil
    simp [Part.Fits, hnil, Bracket.floor] at hf
  | blockClose =>
    obtain ⟨b, bs, hb, hcloser⟩ := ha.exists_of_closes rfl
    cases Bracket.eq_brace_of_closer hcloser
    refine ⟨rfl, _, ha.step, ?_⟩
    rw [Part.Leaves, Surroundings.brackets_step_of_closes rfl, hb]
    rfl
  | blockItem hl _ _ ihi ihb =>
    obtain ⟨hitem, s₁, ha₁, hs₁⟩ := ihi ha fun hhead => absurd (Option.some.inj hhead) hl
    obtain ⟨hitems, s₂, ha₂, hs₂⟩ := ihb ha₁ (by rw [Part.Fits, hs₁]; exact hf)
    refine ⟨?_, s₂, ha₂, hs₁.symm.trans hs₂⟩
    simp_all [listTidy, isTidy]
  | bodyEnd | bodyClose | noTail => exact ⟨rfl, s, ha, rfl⟩
  | body hl _ ih => exact ih ha fun hhead => absurd (Option.some.inj hhead) hl
  | elseIf _ ih =>
    obtain ⟨hbranch, s₁, ha₁, hs₁⟩ := ih ha.step nofun
    exact ⟨hbranch, s₁, ha₁, hs₁⟩

-- The statements of a file are not in any braces.
theorem tidy_readFile (ha : s.Admits ls) (hs : Bracket.floor s.brackets = []) :
    listTidy (readFile ls) := by
  induction ls using readFile.induct generalizing s with
  | case1 =>
    rw [readFile]
    rfl
  | case2 l ls r =>
    rename_i ih
    obtain ⟨hstmt, s₁, ha₁, hs₁⟩ := (reads_read true l ls).tidy ha fun _ => hs
    have hfirst : isTidy (read true l ls).value := by simpa [listTidy] using hstmt
    rw [readFile, listTidy, hfirst, ih ha₁ (hs₁.trans hs)]
    rfl

end Stmt

-- Nothing is wrong with the structure of a file of which all comments are terminated, all brackets
-- are matched, and semicolons stand in no parentheses but the headers of loops.
theorem Outline.diagnostics_eq_nil {source : Source}
    (hc : ∀ c ∈ (ofSource source).comments, c.terminated)
    (hn : Code.isNested (ofSource source).lexemes)
    (hs : Code.semicolonsFit {} (ofSource source).lexemes) :
    (ofSource source).diagnostics = [] := by
  have ha : Surroundings.Admits {} (ofSource source).lexemes := ⟨hn, hs, .nil⟩
  have htidy := Stmt.tidy_readFile ha rfl
  rw [lexemes_ofSource] at htidy
  refine diagnosticsOf_eq_nil_iff.mpr ⟨fun c hmem => ?_, ?_⟩
  · obtain ⟨n, hn, rfl⟩ := List.mem_iff_getElem.mp hmem
    have hmk : (((Parts.ofTokens source.tokens).comments[n], n) : Comment × Nat) ∈
        (Parts.ofTokens source.tokens).comments.zipIdx :=
      List.mk_mem_zipIdx_iff_getElem?.mpr (List.getElem?_eq_getElem hn)
    have hterminated := hc _ (List.mem_map.mpr ⟨_, hmk, rfl⟩)
    exact hterminated
  · exact List.map_eq_nil_iff.mpr (Stmt.problemsOf_listSites_eq_nil_iff.mpr htidy)

-- A loop with semicolons in its header and a block as its body.
theorem Outline.diagnostics_eq_nil_forLoop :
    let source := Source.ofText "a.c"
      "void f(void)\n\x7b\n  for (i = 0; i < 3; i++) \x7b\n    g(i);\n  \x7d\n\x7d\n"
    (∀ c ∈ (ofSource source).comments, c.terminated) ∧
      Code.isNested (ofSource source).lexemes ∧
      Code.semicolonsFit {} (ofSource source).lexemes ∧
      (ofSource source).diagnostics = [] := by
  intro source
  have hc : ∀ c ∈ (ofSource source).comments, c.terminated := by decide +kernel
  have hn : Code.isNested (ofSource source).lexemes := by decide +kernel
  have hs : Code.semicolonsFit {} (ofSource source).lexemes := by decide +kernel
  exact ⟨hc, hn, hs, diagnostics_eq_nil hc hn hs⟩

end CLint
