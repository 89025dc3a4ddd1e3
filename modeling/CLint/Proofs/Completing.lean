import CLint.Proofs.Shapes
import Mathlib.Data.List.Forall2

namespace CLint

namespace Code

-- Is each question mark outside of brackets answered by a colon outside of brackets, and is there
-- none in brackets? `depth` brackets and `pending` question marks are open before the code.
def choosesOpenly (depth pending : Nat) : List Lexeme → Bool
  | [] => depth = 0 && pending = 0
  | l :: ls =>
    if l.isOpener then choosesOpenly (depth + 1) pending ls
    else if l.isCloser then
      match depth with
      | 0 => false
      | depth + 1 => choosesOpenly depth pending ls
    else if l.isMark .question then depth = 0 && choosesOpenly depth (pending + 1) ls
    else if l.isMark .colon && depth = 0 then
      match pending with
      | 0 => false
      | pending + 1 => choosesOpenly depth pending ls
    else choosesOpenly depth pending ls

end Code

variable {ls rest : List Lexeme}

-- A label ends with its own colon if all conditionals in it stand outside of brackets.
theorem Stmt.readLabel_of_choosesOpenly {depth pending : Nat}
    (h : Code.choosesOpenly depth pending ls) (hb : ∀ l ∈ ls, l.breaksOff = false) :
    readLabel depth pending (ls ++ .punct .colon :: rest) = (ls ++ [.punct .colon], rest) := by
  fun_induction Code.choosesOpenly depth pending ls with
  | case1 depth pending =>
    simp only [Bool.and_eq_true, decide_eq_true_eq] at h
    obtain ⟨rfl, rfl⟩ := h
    simp [readLabel, Lexeme.isOpener, Lexeme.isCloser, Lexeme.isMark]
  | case2 depth pending l ls ho ih =>
    have ih := ih h fun m hm => hb m (List.mem_cons_of_mem l hm)
    rw [Int.natCast_succ] at ih
    simp [readLabel, ho, ih, Cut.keep]
  | case3 => cases h
  | case4 pending l ls ho hc depth ih =>
    have ih := ih h fun m hm => hb m (List.mem_cons_of_mem l hm)
    simp [readLabel, ho, hc, ih, Cut.keep]
  | case5 depth pending l ls ho hc hq ih =>
    have ih := ih (Bool.and_eq_true_iff.mp h).2 fun m hm => hb m (List.mem_cons_of_mem l hm)
    simp [readLabel, ho, hc, hq, ih, Cut.keep]
  | case6 => cases h
  | case7 depth l ls ho hc hq hcolon pending ih =>
    have ih := ih h fun m hm => hb m (List.mem_cons_of_mem l hm)
    simp only [Bool.and_eq_true, decide_eq_true_eq] at hcolon
    obtain ⟨hcolon, rfl⟩ := hcolon
    rw [Int.natCast_zero] at ih
    simp [readLabel, ho, hc, hq, hcolon, ih, Cut.keep]
  | case8 depth pending l ls ho hc hq hcolon ih =>
    have ih := ih h fun m hm => hb m (List.mem_cons_of_mem l hm)
    obtain ⟨hsemi, hl, hr⟩ := Lexeme.isMark_of_not_breaksOff (hb l List.mem_cons_self)
    have hcolon : ¬ (l.isMark .colon && decide ((depth : Int) ≤ 0)) = true := by
      simpa using hcolon
    simp only [List.cons_append, readLabel, if_neg ho, if_neg hc, if_neg hq, if_neg hcolon, hsemi,
      hl, hr, Bool.or_self, Bool.false_eq_true, if_false, ih, Cut.keep]

-- A label of a `switch` with any expression.
inductive SwitchLabel
  | caseOf (value : Expr)
  | default

namespace SwitchLabel

def word : SwitchLabel → Keyword
  | caseOf _ => .caseKw
  | default => .defaultKw

def text : SwitchLabel → List Lexeme
  | caseOf value => value.lexemes ++ [.punct .colon]
  | default => [.punct .colon]

def stmt (l : SwitchLabel) : Stmt :=
  .label (.keyword l.word) l.text

-- Do all conditionals in the label stand outside of brackets?
def choosesOpenly : SwitchLabel → Bool
  | caseOf value => Code.choosesOpenly 0 0 value.lexemes
  | default => true

theorem isCaseWord_word (l : SwitchLabel) : Stmt.isCaseWord l.word := by
  cases l <;> rfl

theorem readLabel_text {l : SwitchLabel} (h : l.choosesOpenly) (rest : List Lexeme) :
    Stmt.readLabel 0 0 (l.text ++ rest) = (l.text, rest) := by
  cases l with
  | caseOf value =>
    rw [text, List.append_assoc]
    exact Stmt.readLabel_of_choosesOpenly h value.flat
  | default =>
    have hempty : Code.choosesOpenly 0 0 [] := rfl
    exact Stmt.readLabel_of_choosesOpenly hempty nofun

end SwitchLabel

-- What a `switch` has for one of its labels: the statements up to the next one.
structure Alternative where
  label : SwitchLabel
  items : List Stmt

def Alternative.stmts (a : Alternative) : List Stmt :=
  a.label.stmt :: a.items

namespace Stmt

def enclosed (ls : List Lexeme) : Option Group :=
  some ⟨ls, some (.punct .rparen)⟩

def switchOn (subject : Expr) (as : List Alternative) : Stmt :=
  control .switchHead (enclosed subject.lexemes) [block (as.flatMap Alternative.stmts) true]

mutual

-- Does a statement end in an `if` that an `else` behind it would continue?
def endsOpen : Stmt → Bool
  | control head _ parts =>
    match head, parts with
    | .ifHead, [_] | .elseIf, [_] => true
    | _, _ => lastEndsOpen parts
  | _ => false

def lastEndsOpen : List Stmt → Bool
  | [] => false
  | [s] => endsOpen s
  | _ :: s :: ss => lastEndsOpen (s :: ss)

end

-- The statements that are written as a grammar has it, with labels of which `P` holds. Each `else`
-- belongs to the `if` that the statement has it with.
inductive IsRegular (P : SwitchLabel → Prop) : Stmt → Prop
  | empty : IsRegular P empty
  | expr (e : Expr) (h : e.standsAlone) :
      IsRegular P (simple false (e.lexemes.head e.ne_nil) e.lexemes.tail true)
  | jump (word : Keyword) (h : word.isJump) (value : Option Expr) :
      IsRegular P (jump word (Expr.optional value) true)
  | block (items : List Stmt) (h : ∀ s ∈ items, IsRegular P s) : IsRegular P (block items true)
  | ifThen (condition : Expr) {body : Stmt} (b : IsRegular P body) :
      IsRegular P (control .ifHead (enclosed condition.lexemes) [body])
  | ifElse (condition : Expr) {body other : Stmt} (hb : body.endsOpen = false)
      (b : IsRegular P body) (o : IsRegular P other) :
      IsRegular P (control .ifHead (enclosed condition.lexemes) [body, Phrase.elseOf other])
  | whileDo (condition : Expr) {body : Stmt} (b : IsRegular P body) :
      IsRegular P (control .whileHead (enclosed condition.lexemes) [body])
  | doWhile (condition : Expr) {body : Stmt} (b : IsRegular P body) :
      IsRegular P (control .doHead none [body, doWhile (enclosed condition.lexemes) true])
  | forDo (init condition step : Option Expr) {body : Stmt} (b : IsRegular P body) :
      IsRegular P (control .forHead (enclosed (Phrase.forHeader init condition step)) [body])
  | switchOn (subject : Expr) (as : List Alternative) (hl : ∀ a ∈ as, P a.label)
      (h : ∀ a ∈ as, ∀ s ∈ a.items, IsRegular P s) : IsRegular P (switchOn subject as)

mutual

-- Can the code behind a statement be reached from its end? A jump never gets there. A block does if
-- all its statements do, and an `if` with an `else` if one of the two does. All other control
-- statements count as if they may be left or passed by.
def completes : Stmt → Bool
  | jump _ _ _ => false
  | block items _ => listCompletes items
  | control head _ parts =>
    match head with
    | .ifHead | .elseIf => eitherCompletes parts
    | .elseHead => listCompletes parts
    | _ => true
  | _ => true

def listCompletes : List Stmt → Bool
  | [] => true
  | s :: ss => completes s && listCompletes ss

def eitherCompletes : List Stmt → Bool
  | [body, other] => completes body || completes other
  | _ => true

end

mutual

-- A statement that ends by a jump does not complete, whatever it is.
theorem completes_eq_false (s : Stmt) (h : s.jumps) : s.completes = false := by
  cases s with
  | jump => rfl
  | block items => exact listCompletes_eq_false items h
  | control head group parts =>
    cases head with
    | ifHead | elseIf => exact eitherCompletes_eq_false parts h
    | elseHead => exact listCompletes_eq_false parts h
    | _ => cases h
  | _ => cases h

theorem listCompletes_eq_false (ss : List Stmt) (h : lastJumps ss) : listCompletes ss = false := by
  match ss with
  | [] => cases h
  | [s] => rw [listCompletes, completes_eq_false s h, Bool.false_and]
  | s :: t :: ss => rw [listCompletes, listCompletes_eq_false (t :: ss) h, Bool.and_false]

theorem eitherCompletes_eq_false (ss : List Stmt) (h : bothJump ss) :
    eitherCompletes ss = false := by
  match ss with
  | [] | [_] | _ :: _ :: _ :: _ => cases h
  | [body, other] =>
    obtain ⟨hb, ho⟩ := Bool.and_eq_true_iff.mp h
    rw [eitherCompletes, completes_eq_false body hb, completes_eq_false other ho, Bool.false_or]

end

variable {P : SwitchLabel → Prop} {s : Stmt} {ss ts : List Stmt} {more : List Lexeme}

theorem groupLexemes_none : groupLexemes none = [] :=
  rfl

theorem groupLexemes_some (ls : List Lexeme) :
    groupLexemes (some ⟨ls, some (.punct .rparen)⟩) = Phrase.inParens ls :=
  rfl

theorem endsOpen_elseOf (s : Stmt) : (Phrase.elseOf s).endsOpen = s.endsOpen := by
  unfold Phrase.elseOf
  split
  case h_1 group parts =>
    rcases parts with _ | ⟨_, _ | _⟩ <;> rfl
  case h_2 => rfl

namespace IsRegular

-- A regular statement begins with a lexeme that neither closes a block nor continues an `if`, and
-- only an `if` begins with this word.
theorem exists_lexemes (h : s.IsRegular P) :
    ∃ l ls, s.lexemes = l :: ls ∧ l ≠ .punct .rbrace ∧ l ≠ .keyword .elseKw ∧
      (l = .keyword .ifKw → ∃ group parts, s = control .ifHead group parts) := by
  cases h with
  | expr e h =>
    have hp := Expr.isPlain_of_standsAlone h (List.cons_head_tail e.ne_nil).symm
    refine ⟨_, _, rfl, ?_, ?_, ?_⟩ <;>
    · intro hl
      rw [hl] at hp
      cases hp
  | jump word h =>
    refine ⟨_, _, rfl, by simp, ?_, ?_⟩ <;>
    · rintro ⟨⟩
      cases h
  | ifThen | ifElse => exact ⟨_, _, rfl, by simp, by simp, fun _ => ⟨_, _, rfl⟩⟩
  | _ => exact ⟨_, _, rfl, by simp, by simp, by simp⟩

theorem head?_ne_else (h : s.IsRegular P) (rest : List Lexeme) :
    (s.lexemes ++ rest).head? ≠ some (.keyword .elseKw) := by
  obtain ⟨l, ls, hs, _, hl, _⟩ := h.exists_lexemes
  rw [hs]
  exact fun h => hl (Option.some.inj h)

theorem reads_body (h : s.IsRegular P) (hr : Reads (.stmt false) (s.lexemes ++ rest) [s] more) :
    Reads .body (s.lexemes ++ rest) [s] more := by
  obtain ⟨l, ls, hs, hl, _⟩ := h.exists_lexemes
  rw [hs] at hr ⊢
  exact .body hl hr

-- The part that continues an `if`.
theorem reads_tail (h : s.IsRegular P) (hr : Reads (.stmt false) (s.lexemes ++ rest) [s] rest) :
    Reads .tail ((Phrase.elseOf s).lexemes ++ rest) [Phrase.elseOf s] rest := by
  obtain ⟨l, ls, hs, _, _, hif⟩ := h.exists_lexemes
  have hbody := h.reads_body hr
  unfold Phrase.elseOf
  split
  case h_1 => exact .elseIf hr
  case h_2 hne =>
    have hhead : (s.lexemes ++ rest).head? ≠ some (.keyword .ifKw) := by
      rw [hs]
      intro hl
      obtain ⟨group, parts, rfl⟩ := hif (Option.some.inj hl)
      exact hne _ _ rfl
    simpa [lexemes, Head.lexemes, groupLexemes] using Reads.elseBody hhead hbody

end IsRegular

-- How statements are read of which it is known how each is read by itself.
theorem reads_items {closed : Bool} (hs : ∀ s ∈ ss, s.IsRegular P)
    (hr : ∀ s ∈ ss, ∀ rest : List Lexeme, (s.endsOpen → rest.head? ≠ some (.keyword .elseKw)) →
      Reads (.stmt false) (s.lexemes ++ rest) [s] rest)
    (hm : more.head? ≠ some (.keyword .elseKw)) (h : Reads .block more [block ts closed] rest) :
    Reads .block (listLexemes ss ++ more) [block (ss ++ ts) closed] rest := by
  induction ss with
  | nil => exact h
  | cons s ss ih =>
    obtain ⟨hs, hss⟩ := List.forall_mem_cons.mp hs
    obtain ⟨hr, hrs⟩ := List.forall_mem_cons.mp hr
    have hfirst := hr (listLexemes ss ++ more) fun _ => by
      cases ss with
      | nil => exact hm
      | cons t ss =>
        rw [listLexemes, List.append_assoc]
        exact (hss t List.mem_cons_self).head?_ne_else _
    obtain ⟨l, ls, hl, hbrace, _⟩ := hs.exists_lexemes
    rw [hl] at hfirst
    rw [listLexemes, List.append_assoc, hl]
    exact .blockItem hbrace hfirst (ih hss hrs)

theorem reads_alternatives {as : List Alternative} (hl : ∀ a ∈ as, a.label.choosesOpenly)
    (hs : ∀ a ∈ as, ∀ s ∈ a.items, s.IsRegular P)
    (hr : ∀ a ∈ as, ∀ s ∈ a.items, ∀ rest : List Lexeme,
      (s.endsOpen → rest.head? ≠ some (.keyword .elseKw)) →
        Reads (.stmt false) (s.lexemes ++ rest) [s] rest) (rest : List Lexeme) :
    Reads .block (listLexemes (as.flatMap Alternative.stmts) ++ .punct .rbrace :: rest)
      [block (as.flatMap Alternative.stmts) true] rest := by
  induction as with
  | nil => exact .blockClose
  | cons a as ih =>
    obtain ⟨hl, hls⟩ := List.forall_mem_cons.mp hl
    obtain ⟨hs, hss⟩ := List.forall_mem_cons.mp hs
    obtain ⟨hr, hrs⟩ := List.forall_mem_cons.mp hr
    have hm : (listLexemes (as.flatMap Alternative.stmts) ++ .punct .rbrace :: rest).head? ≠
        some (.keyword .elseKw) := by
      rcases as with _ | ⟨⟨_ | _, _⟩, _⟩ <;>
        simp [Alternative.stmts, SwitchLabel.stmt, SwitchLabel.word, listLexemes, lexemes]
    have hitems := reads_items hs hr hm (ih hls hss hrs)
    have hlabel := Reads.blockItem (l := .keyword a.label.word) (by simp)
      (.caseLabel a.label.isCaseWord_word (SwitchLabel.readLabel_text hl _)) hitems
    simpa [Alternative.stmts, SwitchLabel.stmt, listLexemes, lexemes] using hlabel

-- By induction on regular statements: each is read as itself, as long as its labels can be read and
-- no `else` is behind it that would belong to an `if` in it.
theorem IsRegular.reads (h : s.IsRegular (·.choosesOpenly)) (rest : List Lexeme)
    (hr : s.endsOpen → rest.head? ≠ some (.keyword .elseKw)) :
    Reads (.stmt false) (s.lexemes ++ rest) [s] rest := by
  induction h generalizing rest with
  | empty => exact .empty
  | expr e he =>
    have hl := List.cons_head_tail e.ne_nil
    rw [lexemes, List.append_assoc]
    refine .simple (Expr.isPlain_of_standsAlone he hl.symm) ?_ (readText_nested ?_ ?_) rfl
    · exact Expr.not_startsLabel he hl.symm
    · rw [hl]
      exact e.nested
    · exact fun m hm => e.flat m (List.mem_of_mem_tail hm)
  | jump word hw value =>
    rw [lexemes, List.append_assoc]
    refine .jump hw (readText_nested ?_ fun m hm => Expr.flat_of_mem_optional hm)
    exact (Code.isNested_cons rfl rfl).trans (Expr.isNested_optional value)
  | block items hs ih =>
    have hend : Reads .block (.punct .rbrace :: rest) [Stmt.block [] true] rest := .blockClose
    have hi := reads_items hs ih (by simp) hend
    rw [List.append_nil] at hi
    simpa [lexemes] using Reads.block hi
  | ifThen condition b ih =>
    have hb := b.reads_body (ih rest fun _ => hr rfl)
    simpa [lexemes, Head.lexemes, enclosed, groupLexemes_some] using
      Reads.branch condition.readGroup_inParens hb (.noTail (hr rfl))
  | @ifElse condition body other hopen b o ihb iho =>
    have ho := o.reads_tail (iho rest fun h => hr ((endsOpen_elseOf other).trans h))
    have hb := b.reads_body <| ihb ((Phrase.elseOf other).lexemes ++ rest) fun h => by
      simp [hopen] at h
    simpa [lexemes, listLexemes, Head.lexemes, enclosed, groupLexemes_some] using
      Reads.branch condition.readGroup_inParens hb ho
  | whileDo condition b ih =>
    have hb := b.reads_body (ih rest hr)
    simpa [lexemes, Head.lexemes, enclosed, groupLexemes_some] using
      Reads.headed (k := .whileKw) rfl condition.readGroup_inParens hb
  | doWhile condition b ih =>
    have hb := b.reads_body (ih
      (.keyword .whileKw :: (Phrase.inParens condition.lexemes ++ .punct .semicolon :: rest))
      fun _ => by simp)
    simpa [lexemes, listLexemes, Head.lexemes, enclosed, groupLexemes_some, groupLexemes_none,
      semicolonIf] using Reads.doLoop hb (Phrase.readDoWhile_inParens condition rest)
  | forDo init condition step b ih =>
    have hb := b.reads_body (ih rest hr)
    simpa [lexemes, Head.lexemes, enclosed, groupLexemes_some] using
      Reads.headed (k := .forKw) rfl (Expr.readGroup_forHeader init condition step) hb
  | switchOn subject as hl hs ih =>
    have hc := reads_alternatives hl hs ih rest
    simpa [Stmt.switchOn, lexemes, Head.lexemes, enclosed, groupLexemes_some] using
      Reads.headed (k := .switchKw) rfl subject.readGroup_inParens
        (.body (l := .punct .lbrace) (by simp) (.block hc))

theorem IsRegular.ne_label (h : s.IsRegular P) (word : Lexeme) (text : List Lexeme) :
    s ≠ label word text := by
  rintro rfl
  cases h

end Stmt

theorem Site.map_stmt_placed (start : Nat) (ss : List Stmt) :
    (placed start ss).map (·.stmt) = ss := by
  induction ss generalizing start with
  | nil => rfl
  | cons s ss ih => rw [placed, List.map_cons, ih]

namespace Section

theorem split_cons_of_ne_label {s : Site} (h : ∀ word text, s.stmt ≠ .label word text)
    (ss : List Site) : split (s :: ss) = (s :: (split ss).1, (split ss).2) := by
  rw [split]
  split
  case h_1 word text hs => exact absurd hs (h _ _)
  case h_2 => rfl

theorem split_append {ss : List Site} (h : ∀ s ∈ ss, ∀ word text, s.stmt ≠ .label word text)
    (ts : List Site) : split (ss ++ ts) = (ss ++ (split ts).1, (split ts).2) := by
  induction ss with
  | nil => rfl
  | cons s ss ih =>
    obtain ⟨hs, hss⟩ := List.forall_mem_cons.mp h
    rw [List.cons_append, split_cons_of_ne_label hs, ih hss]
    rfl

-- The labels of a `switch` and what is behind each of them are found again.
theorem split_alternatives {P : SwitchLabel → Prop} {as : List Alternative}
    (h : ∀ a ∈ as, ∀ s ∈ a.items, s.IsRegular P) (start : Nat) :
    let r := split (Site.placed start (as.flatMap Alternative.stmts))
    r.1 = [] ∧ List.Forall₂ (fun c a => c.items.map (·.stmt) = a.items) r.2 as := by
  induction as generalizing start with
  | nil => exact ⟨rfl, .nil⟩
  | cons a as ih =>
    obtain ⟨ha, has⟩ := List.forall_mem_cons.mp h
    have hitems : ∀ s ∈ Site.placed (start + a.label.stmt.size) a.items,
        ∀ word text, s.stmt ≠ .label word text := by
      intro s hs
      refine (ha s.stmt ?_).ne_label
      rw [← Site.map_stmt_placed (start + a.label.stmt.size) a.items]
      exact List.mem_map_of_mem hs
    obtain ⟨hfirst, hrest⟩ :=
      ih has (start + a.label.stmt.size + Stmt.listSize a.items)
    have hsplit : split (Site.placed start ((a :: as).flatMap Alternative.stmts)) =
        ([], ⟨⟨start, a.label.stmt⟩, a.label.word = .defaultKw,
          Site.placed (start + a.label.stmt.size) a.items⟩ ::
            (split (Site.placed (start + a.label.stmt.size + Stmt.listSize a.items)
              (as.flatMap Alternative.stmts))).2) := by
      rw [List.flatMap_cons, Alternative.stmts, List.cons_append, Site.placed, Site.placed_append,
        split, split_append hitems, hfirst, List.append_nil]
      simp [SwitchLabel.stmt, SwitchLabel.isCaseWord_word]
    rw [hsplit]
    exact ⟨rfl, .cons (Site.map_stmt_placed _ _) hrest⟩

theorem lastJumps_map_stmt (ss : List Site) :
    Stmt.lastJumps (ss.map (·.stmt)) = ss.getLast?.any (·.stmt.jumps) := by
  induction ss with
  | nil => rfl
  | cons s ss ih =>
    cases ss with
    | nil => rfl
    | cons t ss =>
      rw [List.getLast?_cons_cons, ← ih]
      rfl

theorem listCompletes_eq_false {c : Section} (h : c.endsWithJump) :
    Stmt.listCompletes (c.items.map (·.stmt)) = false :=
  Stmt.listCompletes_eq_false _ ((lastJumps_map_stmt c.items).trans h)

end Section

namespace Stmt

variable {P : SwitchLabel → Prop} {s : Stmt} {ss : List Stmt}

theorem exists_of_mem_listSites {start : Nat} {t : Site} (h : t ∈ listSites start ss) :
    ∃ s ∈ ss, ∃ place, t ∈ sites place s := by
  induction ss generalizing start with
  | nil => cases h
  | cons s ss ih =>
    rw [listSites, List.mem_append] at h
    rcases h with h | h
    · exact ⟨s, List.mem_cons_self, start, h⟩
    · obtain ⟨s', hs', place, ht⟩ := ih h
      exact ⟨s', List.mem_cons_of_mem s hs', place, ht⟩

-- Is a statement made of labels with regular statements behind them, if it is a `switch`?
def HasAlternatives (P : SwitchLabel → Prop) (s : Stmt) : Prop :=
  ∀ group parts, s = control .switchHead group parts →
    ∃ subject as, s = switchOn subject as ∧ ∀ a ∈ as, ∀ s ∈ a.items, s.IsRegular P

theorem HasAlternatives.of_ne (h : ∀ group parts, s ≠ control .switchHead group parts) :
    s.HasAlternatives P :=
  fun group parts he => absurd he (h group parts)

-- The statements that an `else` is made of are those behind it, apart from itself.
theorem hasAlternatives_of_mem_sites_elseOf {start : Nat} {t : Site}
    (ht : t ∈ sites start (Phrase.elseOf s))
    (h : ∀ place, t ∈ sites place s → t.stmt.HasAlternatives P) : t.stmt.HasAlternatives P := by
  unfold Phrase.elseOf at ht
  split at ht <;> rw [sites, List.mem_cons] at ht
  case h_1 group parts =>
    rcases ht with rfl | ht
    · exact .of_ne fun _ _ => by simp
    · refine h (start + 1) (List.mem_cons_of_mem _ ?_)
      rwa [partsStart, Nat.add_assoc start 1]
  case h_2 =>
    rcases ht with rfl | ht
    · exact .of_ne fun _ _ => by simp
    · obtain ⟨s', hs', place, ht⟩ := exists_of_mem_listSites ht
      cases List.mem_singleton.mp hs'
      exact h place ht

-- By induction on regular statements: what stands in them is made like them.
theorem IsRegular.hasAlternatives (h : s.IsRegular P) {start : Nat} {t : Site}
    (ht : t ∈ sites start s) : t.stmt.HasAlternatives P := by
  induction h generalizing start with
  | empty | expr | jump =>
    cases List.mem_singleton.mp ht
    exact .of_ne fun _ _ => by simp
  | block items _ ih =>
    rcases List.mem_cons.mp ht with rfl | ht
    · exact .of_ne fun _ _ => by simp
    · obtain ⟨s, hs, place, ht⟩ := exists_of_mem_listSites ht
      exact ih s hs ht
  | ifThen condition b ih | whileDo condition b ih | forDo init condition step b ih =>
    rcases List.mem_cons.mp ht with rfl | ht
    · exact .of_ne fun _ _ => by simp
    · obtain ⟨s, hs, place, ht⟩ := exists_of_mem_listSites ht
      cases List.mem_singleton.mp hs
      exact ih ht
  | ifElse condition _ b o ihb iho =>
    rcases List.mem_cons.mp ht with rfl | ht
    · exact .of_ne fun _ _ => by simp
    · obtain ⟨s, hs, place, hmem⟩ := exists_of_mem_listSites ht
      rcases List.mem_pair.mp hs with rfl | rfl
      · exact ihb hmem
      · exact hasAlternatives_of_mem_sites_elseOf hmem fun _ => iho
  | doWhile condition b ih =>
    rcases List.mem_cons.mp ht with rfl | ht
    · exact .of_ne fun _ _ => by simp
    · obtain ⟨s, hs, place, hmem⟩ := exists_of_mem_listSites ht
      rcases List.mem_pair.mp hs with rfl | rfl
      · exact ih hmem
      · cases List.mem_singleton.mp hmem
        exact .of_ne fun _ _ => by simp
  | switchOn subject as _ hs ih =>
    rcases List.mem_cons.mp ht with rfl | ht
    · exact fun _ _ _ => ⟨subject, as, rfl, hs⟩
    · obtain ⟨s, hs, place, ht⟩ := exists_of_mem_listSites ht
      cases List.mem_singleton.mp hs
      rcases List.mem_cons.mp ht with rfl | ht
      · exact .of_ne fun _ _ => by simp
      · obtain ⟨s, hs, place, ht⟩ := exists_of_mem_listSites ht
        obtain ⟨a, ha, hs⟩ := List.mem_flatMap.mp hs
        rcases List.mem_cons.mp hs with rfl | hs
        · cases List.mem_singleton.mp ht
          exact .of_ne fun _ _ => by simp [SwitchLabel.stmt]
        · exact ih a ha s hs ht

end Stmt

namespace Site

variable {constants : List String} {announced : List Nat}

-- Only a `switch` makes a block for a `switch`.
theorem exists_of_switchBlock {t : Site} {b : ControlBlock Run}
    (hb : b ∈ t.controlBlocks constants announced) (hk : b.kind = .switchBlock) :
    ∃ group parts, t.stmt = .control .switchHead group parts ∧
      b.clauses = (Control.sections t.start .switchHead group parts).map (·.clause announced) := by
  unfold controlBlocks at hb
  split at hb
  case h_1 head group parts hs =>
    rcases List.mem_cons.mp hb with rfl | hb
    · cases head <;> cases hk
      exact ⟨group, parts, hs, rfl⟩
    · obtain ⟨c, _, rfl⟩ := List.mem_map.mp hb
      unfold Section.block at hk
      split at hk <;> cases hk
  case h_2 => cases hb

end Site

namespace Stmt

-- A regular statement is read as it is written, and whatever `switch` there is in it, no clause
-- has its flag set if its statements can be left by their end.
theorem IsRegular.listCompletes_of_endsWithJump {s : Stmt} (h : s.IsRegular (·.choosesOpenly))
    (rest : List Lexeme) (hr : s.endsOpen → rest.head? ≠ some (.keyword .elseKw)) (start : Nat)
    (constants : List String) (announced : List Nat) :
    ∃ l ls, s.lexemes ++ rest = l :: ls ∧ (read false l ls).value = s ∧
      (read false l ls).rest = rest ∧
      ∀ t ∈ sites start (read false l ls).value, ∀ b ∈ t.controlBlocks constants announced,
        b.kind = .switchBlock → ∃ subject as, t.stmt = Stmt.switchOn subject as ∧
          (∀ a ∈ as, ∀ s ∈ a.items, s.IsRegular (·.choosesOpenly)) ∧
          List.Forall₂ (fun c a => c.endsWithJump → listCompletes a.items = false)
            b.clauses as := by
  have hreads := h.reads rest hr
  obtain ⟨l, ls, hl, _⟩ := h.exists_lexemes
  rw [hl, List.cons_append] at hreads ⊢
  obtain ⟨hvalue, hrest⟩ := reads_iff.mp hreads
  refine ⟨l, ls ++ rest, rfl, hvalue, hrest, fun t ht b hb hk => ?_⟩
  rw [hvalue] at ht
  obtain ⟨group, parts, hs, hclauses⟩ := Site.exists_of_switchBlock hb hk
  obtain ⟨subject, as, hswitch, has⟩ := h.hasAlternatives ht group parts hs
  cases hs.symm.trans hswitch
  refine ⟨subject, as, hswitch, has, ?_⟩
  rw [hclauses]
  have hsections := (Section.split_alternatives has (partsStart t.start .switchHead
    (enclosed subject.lexemes) + 1)).2
  refine List.forall₂_map_left_iff.mpr (hsections.imp fun c a hitems hjump => ?_)
  rw [← hitems]
  exact Section.listCompletes_eq_false hjump

-- A conditional without parentheses in a label, and a loop with a jump behind it.
theorem listCompletes_of_endsWithJump_loop :
    let x : Expr := ⟨[.identifier "x"], nofun, rfl, by decide⟩
    let choice : Expr :=
      ⟨[.identifier "a", .punct .question, .identifier "b", .punct .colon, .identifier "c"], nofun,
        rfl, by decide⟩
    let leave : Stmt := jump .breakKw [] true
    let loop : Stmt := control .whileHead (enclosed x.lexemes) [block [leave] true]
    let as : List Alternative := [⟨.caseOf choice, [loop]⟩, ⟨.default, [leave]⟩]
    let s := Stmt.switchOn x as
    s.IsRegular (·.choosesOpenly) ∧
      ((Site.controlBlocks [] [] ⟨0, s⟩).flatMap (·.clauses)).map (·.endsWithJump) = [false, true] ∧
      ∃ l ls, s.lexemes ++ [.punct .rbrace] = l :: ls ∧ (read false l ls).value = s ∧
        (read false l ls).rest = [.punct .rbrace] ∧
        ∀ t ∈ sites 0 (read false l ls).value, ∀ b ∈ t.controlBlocks [] [],
          b.kind = .switchBlock → ∃ subject as, t.stmt = Stmt.switchOn subject as ∧
            (∀ a ∈ as, ∀ s ∈ a.items, s.IsRegular (·.choosesOpenly)) ∧
            List.Forall₂ (fun c a => c.endsWithJump → listCompletes a.items = false)
              b.clauses as := by
  intro x choice leave loop as s
  have hleave : leave.IsRegular (·.choosesOpenly) := .jump .breakKw rfl none
  have hloop : loop.IsRegular (·.choosesOpenly) :=
    .whileDo x (.block [leave] fun t ht => List.mem_singleton.mp ht ▸ hleave)
  have hs : s.IsRegular (·.choosesOpenly) := by
    refine .switchOn x as (by decide) ?_
    simp only [as, List.forall_mem_cons, List.not_mem_nil, false_imp_iff, implies_true, and_true]
    exact ⟨hloop, hleave⟩
  exact ⟨hs, by decide, hs.listCompletes_of_endsWithJump [.punct .rbrace] nofun 0 [] []⟩

-- A label with a conditional in parentheses is not read to its own colon but up to the braces of
-- the loop behind it, which leave the clause no statement but their jump.
theorem endsWithJump_of_enclosedConditional :
    let y : Expr := ⟨[.identifier "y"], nofun, rfl, by decide⟩
    let choice : Expr :=
      ⟨Phrase.inParens
          [.identifier "a", .punct .question, .identifier "b", .punct .colon, .identifier "c"],
        nofun, rfl, by decide⟩
    let loop : Stmt := control .whileHead (enclosed y.lexemes) [block [jump .breakKw [] true] true]
    let s := Stmt.switchOn y [⟨.caseOf choice, [loop]⟩]
    s.IsRegular (fun _ => True) ∧ listCompletes [loop] = true ∧
      ∃ l ls, s.lexemes = l :: ls ∧
        ((Site.controlBlocks [] [] ⟨0, (read false l ls).value⟩).flatMap (·.clauses)).map
          (·.endsWithJump) = [true] := by
  intro y choice loop s
  have hloop : loop.IsRegular (fun _ => True) :=
    .whileDo y (.block _ fun t ht => List.mem_singleton.mp ht ▸ .jump .breakKw rfl none)
  have hs : s.IsRegular (fun _ => True) := by
    refine .switchOn y _ (fun _ _ => trivial) ?_
    simp only [List.forall_mem_cons, List.not_mem_nil, false_imp_iff, implies_true, and_true]
    exact hloop
  exact ⟨hs, by decide, _, _, rfl, by decide +kernel⟩

end Stmt
end CLint
