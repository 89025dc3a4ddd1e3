import CLint.Proofs.Join.Placing
import Mathlib.Data.List.Chain

namespace CLint

namespace Source

-- Where the line breaks of a text end, from its front on. A carriage return and the line feed
-- behind it are one break.
def breakEnds (start : Nat) : List Char → List Nat
  | [] => []
  | '\r' :: '\n' :: cs => (start + 2) :: breakEnds (start + 2) cs
  | '\r' :: cs => (start + 1) :: breakEnds (start + 1) cs
  | '\n' :: cs => (start + 1) :: breakEnds (start + 1) cs
  | _ :: cs => breakEnds (start + 1) cs

-- The line breaks of a text that end at an offset or before it.
def breaksUpTo (cs : List Char) (offset : Nat) : List Nat :=
  (breakEnds 0 cs).filter (· ≤ offset)

-- The place of an offset as the line breaks give it: its line is counted by the breaks before it,
-- its column from the end of the last of them.
def placeAt (cs : List Char) (offset : Nat) : Place where
  line := (breaksUpTo cs offset).length + 1
  column := offset - (breaksUpTo cs offset).getLast?.getD 0 + 1
  offset := offset

-- The tokens of a source are its text, one behind the other. Where they begin and end is what the
-- line breaks say, and the lines of the source have the characters where the places say so.
structure Faithful (s : Source) : Prop where
  text : String.join (s.tokens.map Token.text) = s.text
  nonempty : ∀ t ∈ s.tokens, t.text ≠ ""
  first : ∀ t ∈ s.tokens.head?, t.offset = 0
  adjoining : s.tokens.IsChain fun t u => u.offset = t.endOffset
  extent : ∀ t ∈ s.tokens, t.endOffset = t.offset + t.text.length
  start : ∀ t ∈ s.tokens, t.span.start = placeAt s.text.toList t.offset
  stop : ∀ t ∈ s.tokens, t.span.stop = (placeAt s.text.toList (t.endOffset - 1)).right
  lines : s.lines.length = (breakEnds 0 s.text.toList).length + 1
  shown : ∀ t ∈ s.tokens, ∀ c ∈ t.text.toList.head?, Lexer.isBreak c = false →
    ∃ l, s.lines[t.line - 1]? = some l ∧ l.toList[t.column - 1]? = some c

variable {cs ds : List Char}

-- The three kinds of line breaks, one behind the other.
example : breakEnds 0 ['a', '\r', '\n', '\r', 'b', '\n'] = [3, 4, 6] :=
  rfl

theorem breakEnds_cons (start : Nat) (c : Char) (cs : List Char) :
    breakEnds start (c :: cs) =
      if Place.endsLine c cs.head? then (start + 1) :: breakEnds (start + 1) cs
      else breakEnds (start + 1) cs := by
  by_cases hr : c = '\r'
  case pos =>
    subst hr
    rcases cs with _ | ⟨d, cs⟩
    · rfl
    by_cases hd : d = '\n'
    case pos =>
      subst hd
      rfl
    case neg => simp [breakEnds, Place.endsLine, hd]
  case neg =>
    by_cases hn : c = '\n'
    case pos =>
      subst hn
      rfl
    case neg => simp [breakEnds, Place.endsLine, hr, hn]

theorem lt_of_mem_breakEnds {start n : Nat} (h : n ∈ breakEnds start cs) : start < n := by
  induction cs generalizing start with
  | nil => cases h
  | cons c cs ih =>
    rw [breakEnds_cons] at h
    split at h
    case isTrue =>
      cases List.mem_cons.mp h
      case inl h => exact h ▸ Nat.lt_succ_self _
      case inr h => exact Nat.lt_of_succ_lt (ih h)
    case isFalse => exact Nat.lt_of_succ_lt (ih h)

theorem length_splitLines (start : Nat) (cs : List Char) :
    (splitLines cs).length = (breakEnds start cs).length + 1 := by
  fun_induction splitLines cs generalizing start with
  | case1 => rfl
  | case2 cs ih => simp [breakEnds, ih (start + 2)]
  | case3 cs h ih => simp [breakEnds, ih (start + 1)]
  | case4 cs ih => simp [breakEnds, ih (start + 1)]
  | case5 c cs _ _ _ hs ih =>
    have := ih start
    simp [hs] at this
  | case6 c cs h₁ h₂ h₃ l ls hs ih =>
    simp_all [breakEnds]
    exact ih (start + 1)

end Source

namespace Place

variable {p : Place} {cs ds : List Char} {n : Nat}

-- The place of an offset behind `p`, if line breaks end at the offsets `ends`.
def behind (p : Place) (ends : List Nat) (n : Nat) : Place where
  line := p.line + (ends.filter (· ≤ n)).length
  column := ((ends.filter (· ≤ n)).getLast?.map (n - · + 1)).getD (p.column + (n - p.offset))
  offset := n

theorem behind_origin (cs : List Char) (n : Nat) :
    origin.behind (Source.breakEnds 0 cs) n = Source.placeAt cs n := by
  rw [behind, Source.placeAt, ← Source.breaksUpTo]
  congr 1
  case e_line => exact Nat.add_comm ..
  case e_column =>
    cases (Source.breaksUpTo cs n).getLast? with
    | none => exact Nat.add_comm ..
    | some b => rfl

-- One step over a character changes nothing about the places behind it.
theorem behind_step (c : Char) (cs : List Char) (h : p.offset < n) :
    (p.step c cs.head?).behind (Source.breakEnds (p.offset + 1) cs) n =
      p.behind (Source.breakEnds p.offset (c :: cs)) n := by
  rw [Source.breakEnds_cons, step]
  generalize Source.breakEnds (p.offset + 1) cs = ends
  split
  case isTrue =>
    have hends : ((p.offset + 1) :: ends).filter (· ≤ n) = (p.offset + 1) :: ends.filter (· ≤ n) :=
      List.filter_cons_of_pos (decide_eq_true h)
    simp only [behind, newLine, hends, List.length_cons, List.getLast?_cons]
    congr 1
    · exact Nat.add_right_comm ..
    · cases (ends.filter (· ≤ n)).getLast? with
      | none => exact Nat.add_comm ..
      | some b => rfl
  case isFalse =>
    simp only [behind, right]
    congr 2
    omega

-- By induction on the characters that are passed: so it is with any number of them.
theorem behind_advance (cs ds : List Char) (h : p.offset + cs.length ≤ n) :
    (p.advance cs ds.head?).behind (Source.breakEnds (p.offset + cs.length) ds) n =
      p.behind (Source.breakEnds p.offset (cs ++ ds)) n := by
  induction cs generalizing p with
  | nil => rfl
  | cons c cs ih =>
    rw [List.length_cons, Nat.add_comm cs.length, ← Nat.add_assoc] at h
    have hstep : (p.step c (cs ++ ds).head?).offset = p.offset + 1 := offset_step ..
    have ih := ih (p := p.step c (cs ++ ds).head?) (by rwa [hstep])
    rw [hstep, behind_step c (cs ++ ds) (by omega)] at ih
    rw [advance_cons, ← List.head?_append, List.cons_append, ← ih, List.length_cons]
    congr 2
    omega

theorem advance_eq_behind (p : Place) (cs ds : List Char) :
    p.advance cs ds.head? =
      p.behind (Source.breakEnds p.offset (cs ++ ds)) (p.offset + cs.length) := by
  rw [← behind_advance cs ds (Nat.le_refl _)]
  generalize hq : p.advance cs ds.head? = q
  have hoffset : q.offset = p.offset + cs.length := hq ▸ offset_advance ..
  have hnone : (Source.breakEnds (p.offset + cs.length) ds).filter (· ≤ q.offset) = [] := by
    refine List.filter_eq_nil_iff.mpr fun b hb => ?_
    have := Source.lt_of_mem_breakEnds hb
    simp only [decide_eq_true_eq]
    omega
  rw [← hoffset] at hnone ⊢
  simp [behind, hnone]

-- The place of the last character of a text is the one behind all others.
theorem last_concat (p : Place) (cs : List Char) (c : Char) :
    p.last (cs ++ [c]) = p.advance cs (some c) := by
  induction cs generalizing p with
  | nil => rfl
  | cons d cs ih =>
    rw [advance_cons, ← ih]
    cases cs <;> rfl

theorem last_eq_behind (p : Place) {cs : List Char} (h : cs ≠ []) (ds : List Char) :
    p.last cs =
      p.behind (Source.breakEnds p.offset (cs ++ ds)) (p.offset + cs.length - 1) := by
  obtain ⟨cs, c, rfl⟩ := List.eq_nil_or_concat cs |>.resolve_left h
  have hadvance := advance_eq_behind p cs (c :: ds)
  rw [List.concat_eq_append, last_concat, List.append_assoc, List.length_append]
  exact hadvance

end Place

namespace Source

variable {p : Place} {ls : List Lexeme} {t : Token} {cs ds : List Char} {c : Char}

-- A token has its text somewhere in the text that is cut into lexemes, and its place there.
theorem exists_append_of_mem_placed (hne : ∀ l ∈ ls, l.text.toList ≠ []) (h : t ∈ placed p ls) :
    ∃ before after, spelled ls = before ++ t.text.toList ++ after ∧
      t.span.start = p.advance before (t.text.toList ++ after).head? ∧
      t.span.stop = (t.span.start.last t.text.toList).right := by
  induction ls generalizing p with
  | nil => cases h
  | cons l ls ih =>
    cases List.mem_cons.mp h
    case inl h =>
      subst h
      exact ⟨[], spelled ls, rfl, rfl, rfl⟩
    case inr h =>
      have htail := fun m hm => hne m (List.mem_cons_of_mem l hm)
      obtain ⟨before, after, hs, hstart, hstop⟩ := ih htail h
      refine ⟨l.text.toList ++ before, after, ?_, ?_, hstop⟩
      · rw [spelled, List.flatMap_cons, ← spelled, hs]
        simp
      · have hhead : ls.head?.bind (·.text.toList.head?) = (spelled ls).head? := by
          cases ls with
          | nil => rfl
          | cons m ls =>
            obtain ⟨d, ds, hd⟩ := List.exists_cons_of_ne_nil (htail m List.mem_cons_self)
            simp [spelled, hd]
        rw [hstart, Place.advance_append, ← List.head?_append, hhead, hs, List.append_assoc]

theorem splitLines_ne_nil (cs : List Char) : splitLines cs ≠ [] := by
  intro h
  have := length_splitLines 0 cs
  simp [h] at this

theorem splitLines_cons (c : Char) (cs : List Char) :
    splitLines (c :: cs) =
      if Place.endsLine c cs.head? then [] :: splitLines cs
      else if c = '\r' then splitLines cs
      else (splitLines cs).modifyHead (c :: ·) := by
  by_cases hr : c = '\r'
  case pos =>
    subst hr
    rcases cs with _ | ⟨d, cs⟩
    · rfl
    by_cases hd : d = '\n'
    case pos =>
      subst hd
      rfl
    case neg => simp [splitLines, Place.endsLine, hd]
  case neg =>
    by_cases hn : c = '\n'
    case pos =>
      subst hn
      rfl
    case neg =>
      have hends : Place.endsLine c cs.head? = false := by simp [Place.endsLine, hr, hn]
      obtain ⟨l, ls, hl⟩ := List.exists_cons_of_ne_nil (splitLines_ne_nil cs)
      rw [hends, if_neg Bool.false_ne_true, if_neg hr, splitLines, hl]
      · rfl
      · exact fun _ h _ => hr h
      · exact hr
      · exact hn

-- By induction on the characters before `c`: the lines of a text have `c` where its place says.
-- On the line on which the text starts, columns are counted from `p`.
theorem exists_shown (hc : Lexer.isBreak c = false) (p : Place) (cs ds : List Char) :
    ∃ n k l, (p.advance cs (some c)).line = p.line + n ∧
      (p.advance cs (some c)).column = (if n = 0 then p.column else 1) + k ∧
      (splitLines (cs ++ c :: ds))[n]? = some l ∧ l[k]? = some c := by
  obtain ⟨hr, hn⟩ : c ≠ '\r' ∧ c ≠ '\n' := by simpa [Lexer.isBreak] using hc
  induction cs generalizing p with
  | nil =>
    obtain ⟨l, ls, hl⟩ := List.exists_cons_of_ne_nil (splitLines_ne_nil ds)
    refine ⟨0, 0, c :: l, rfl, rfl, ?_, rfl⟩
    simp [splitLines_cons, Place.endsLine, hr, hn, hl]
  | cons d cs ih =>
    obtain ⟨n, k, l, hline, hcolumn, hl, hk⟩ := ih (p.step d (cs.head?.or (some c)))
    have hhead : (cs ++ c :: ds).head? = cs.head?.or (some c) := List.head?_append
    rw [Place.advance_cons, hline, hcolumn, List.cons_append, splitLines_cons, hhead]
    generalize hnext : cs.head?.or (some c) = next at *
    by_cases hends : Place.endsLine d next
    case pos =>
      have hstep : p.step d next = p.newLine := if_pos hends
      rw [hstep, if_pos hends]
      refine ⟨n + 1, k, l, Nat.add_right_comm .., ?_, hl, hk⟩
      rw [if_neg (Nat.succ_ne_zero n)]
      split <;> rfl
    case neg =>
      have hstep : p.step d next = p.right := if_neg hends
      rw [hstep] at hline ⊢
      rw [if_neg hends]
      by_cases hd : d = '\r'
      case pos =>
        -- The line feed behind `d` is still to come before `c`.
        have hfeed : next = some '\n' := by simpa [Place.endsLine, hd] using hends
        have hn0 : n ≠ 0 := by
          obtain ⟨cs, rfl⟩ : ∃ cs', cs = '\n' :: cs' := by
            cases cs with
            | nil => exact absurd (Option.some.inj (hnext.trans hfeed)) hn
            | cons e cs => exact ⟨cs, by rw [Option.some.inj (hnext.trans hfeed)]⟩
          have hle := Place.line_le_advance (p.right.step '\n' (cs.head?.or (some c))) cs (some c)
          have hends : Place.endsLine '\n' (cs.head?.or (some c)) = true := by
            simp [Place.endsLine]
          rw [← Place.advance_cons, hline, Place.line_step, hends] at hle
          rintro rfl
          exact Nat.not_succ_le_self p.right.line hle
        rw [if_pos hd]
        refine ⟨n, k, l, rfl, ?_, hl, hk⟩
        rw [if_neg hn0, if_neg hn0]
      case neg =>
        rw [if_neg hd]
        cases n with
        | zero =>
          refine ⟨0, k + 1, d :: l, rfl, ?_, ?_, hk⟩
          · simp [Place.right, Nat.add_comm, Nat.add_left_comm]
          · simp [hl]
        | succ n =>
          refine ⟨n + 1, k, l, rfl, rfl, ?_, hk⟩
          simp [hl]

theorem isChain_placed (hne : ∀ l ∈ ls, l.text.toList ≠ []) :
    (placed p ls).IsChain fun t u => u.offset = t.endOffset := by
  induction ls generalizing p with
  | nil => exact .nil
  | cons l ls ih =>
    refine List.isChain_cons.mpr ⟨fun u hu => ?_, ih fun m hm => hne m (List.mem_cons_of_mem l hm)⟩
    cases ls with
    | nil => cases hu
    | cons m ls =>
      cases hu
      exact (Place.offset_advance ..).trans (Place.offset_last p (hne l List.mem_cons_self)).symm

variable {path text : String}

theorem mem_lexemes_of_mem_tokens (h : t ∈ (ofText path text).tokens) :
    t.lexeme ∈ Lexer.lexemes text.toList := by
  rw [← map_lexeme_placed .origin (Lexer.lexemes text.toList)]
  exact List.mem_map_of_mem h

theorem text_ne_nil_of_mem_tokens (h : t ∈ (ofText path text).tokens) : t.text.toList ≠ [] :=
  Lexer.text_ne_nil_of_mem_lexemes (mem_lexemes_of_mem_tokens h)

-- A token of a text with what stands before and behind it.
theorem exists_append_of_mem_tokens (h : t ∈ (ofText path text).tokens) :
    ∃ before after, text.toList = before ++ t.text.toList ++ after ∧
      t.span.start = Place.origin.advance before (t.text.toList ++ after).head? ∧
      t.span.stop = (t.span.start.last t.text.toList).right := by
  have h := exists_append_of_mem_placed (fun _ => Lexer.text_ne_nil_of_mem_lexemes) h
  rwa [spelled, Lexer.flatMap_text_lexemes] at h

theorem start_eq_placeAt (h : t ∈ (ofText path text).tokens) :
    t.span.start = placeAt text.toList t.offset := by
  obtain ⟨before, after, hs, hstart, _⟩ := exists_append_of_mem_tokens h
  have hplace : t.span.start = placeAt text.toList before.length := by
    rw [hstart, Place.advance_eq_behind, ← List.append_assoc, ← hs, ← Place.behind_origin]
    exact congrArg _ (Nat.zero_add _)
  have hoffset : t.offset = before.length := congrArg Place.offset hplace
  rw [hplace, hoffset]

theorem endOffset_of_mem_tokens (h : t ∈ (ofText path text).tokens) :
    t.endOffset = t.offset + t.text.length := by
  obtain ⟨_, _, _, _, hstop⟩ := exists_append_of_mem_tokens h
  rw [Token.endOffset, hstop, ← String.length_toList]
  exact Place.offset_last _ (text_ne_nil_of_mem_tokens h)

theorem stop_eq_placeAt (h : t ∈ (ofText path text).tokens) :
    t.span.stop = (placeAt text.toList (t.endOffset - 1)).right := by
  obtain ⟨before, after, hs, hstart, hstop⟩ := exists_append_of_mem_tokens h
  have hne := text_ne_nil_of_mem_tokens h
  have hoffset : t.span.start.offset = before.length := by
    rw [hstart, Place.offset_advance]
    exact Nat.zero_add _
  have hplace : t.span.start.last t.text.toList =
      placeAt text.toList (before.length + t.text.toList.length - 1) := by
    have hadvance : t.span.start.last t.text.toList =
        Place.origin.last (before ++ t.text.toList) := by
      obtain ⟨cs, c, hc⟩ := List.eq_nil_or_concat t.text.toList |>.resolve_left hne
      rw [hstart, hc, List.concat_eq_append, Place.last_concat, ← List.append_assoc,
        Place.last_concat, Place.advance_append]
      cases cs <;> rfl
    rw [hadvance, Place.last_eq_behind _ (by simp [hne]) after, ← hs, ← Place.behind_origin,
      List.length_append]
    exact congrArg _ (congrArg (· - 1) (Nat.zero_add _))
  rw [endOffset_of_mem_tokens h, hstop, hplace, Token.offset, hoffset, String.length_toList]

theorem exists_line_of_mem_tokens (h : t ∈ (ofText path text).tokens)
    (ht : c ∈ t.text.toList.head?) (hc : Lexer.isBreak c = false) :
    ∃ l, (ofText path text).lines[t.line - 1]? = some l ∧ l.toList[t.column - 1]? = some c := by
  obtain ⟨before, after, hs, hstart, _⟩ := exists_append_of_mem_tokens h
  obtain ⟨cs, hcs⟩ := List.head?_eq_some_iff.mp ht
  rw [hcs, List.append_assoc] at hs
  rw [hcs] at hstart
  obtain ⟨n, k, l, hline, hcolumn, hl, hk⟩ := exists_shown hc .origin before (cs ++ after)
  have hplace : t.span.start = Place.origin.advance before (some c) := hstart
  have hbase : (if n = 0 then Place.origin.column else 1) = 1 := ite_self _
  refine ⟨String.ofList l, ?_, ?_⟩
  · rw [Token.line, hplace, hline, Place.origin, Nat.add_sub_cancel_left]
    rw [← List.cons_append, ← hs] at hl
    simp [ofText, hl]
  · rw [Token.column, hplace, hcolumn, hbase, Nat.add_sub_cancel_left, String.toList_ofList, hk]

-- Nothing of a text is lost in its tokens, and all places are those that its line breaks give.
theorem faithful_ofText (path text : String) : (ofText path text).Faithful := by
  constructor
  case text =>
    have hmap : (ofText path text).tokens.map Token.text =
        (Lexer.lexemes text.toList).map Lexeme.text := by
      rw [← map_lexeme_placed .origin (Lexer.lexemes text.toList), List.map_map]
      rfl
    rw [hmap, ← String.toList_inj, String.toList_join, List.flatMap_map]
    exact Lexer.flatMap_text_lexemes text.toList
  case nonempty =>
    intro t ht he
    exact text_ne_nil_of_mem_tokens ht (by rw [he]; rfl)
  case first =>
    intro t ht
    cases hl : Lexer.lexemes text.toList with
    | nil => simp [ofText, hl, placed] at ht
    | cons l ls =>
      simp only [ofText, hl, placed, List.head?_cons, Option.mem_some_iff] at ht
      exact ht ▸ rfl
  case adjoining => exact isChain_placed fun _ => Lexer.text_ne_nil_of_mem_lexemes
  case extent => exact fun _ => endOffset_of_mem_tokens
  case start => exact fun _ => start_eq_placeAt
  case stop => exact fun _ => stop_eq_placeAt
  case lines => exact (List.length_map _).trans (length_splitLines 0 text.toList)
  case shown => exact fun _ ht _ hc hb => exists_line_of_mem_tokens ht hc hb

end Source
end CLint
