import CLint.Proofs.Lines
import CLint.Proofs.WellFormed
import CLint.Rule.Basic

namespace CLint

-- A finding starts at a character of one of the lines, or right behind all characters of that line.
-- If it says where it stops, then that is behind its start and not below the last line.
structure Finding.IsLocated (lines : List String) (f : Finding) : Prop where
  one_le_line : 1 ≤ f.line
  line_le : f.line ≤ lines.length
  one_le_column : 1 ≤ f.column
  column_le : ∃ l, lines[(f.line - 1).toNat]? = some l ∧ f.column ≤ l.length + 1
  stop : ∀ line ∈ f.endLine, ∀ column ∈ f.endColumn,
    line ≤ lines.length ∧ (f.line < line ∨ f.line = line ∧ f.column < column)

-- What a remark can be about: a span of the code, a token, or a place in a line.
inductive Remark.IsAnchored (lines : List String) (ts : List Token) : Remark → Prop
  | span {s : Span} {message : String} {suggestion : Option String} :
      s.Over ts → IsAnchored lines ts (.onSpan s message suggestion)
  | token {t : Token} {message : String} {suggestion : Option String} :
      t ∈ ts → IsAnchored lines ts (.atPlace t.line t.column message suggestion)
  | line {n k : Nat} {l message : String} {suggestion : Option String} :
      lines[n]? = some l → k ≤ l.length →
      IsAnchored lines ts (.atPlace (n + 1) (k + 1) message suggestion)

theorem Remark.IsAnchored.origin {lines : List String} {ts : List Token} {message : String}
    {suggestion : Option String} (h : lines ≠ []) :
    IsAnchored lines ts (.atPlace 1 1 message suggestion) := by
  obtain ⟨l, ls, rfl⟩ := List.exists_cons_of_ne_nil h
  exact .line (n := 0) (k := 0) rfl (Nat.zero_le _)

-- All that the rule remarks about a file has a place there.
def Rule.IsAnchored (settings : RuleSettings) (o : Outline) (ts : List Token) (r : Rule) : Prop :=
  ∀ ms, r.check settings o = .ok ms → ∀ m ∈ ms, m.IsAnchored o.source.lines ts

theorem Rule.isAnchored_of_ok {r : Rule} {settings : RuleSettings} {o : Outline}
    {ts : List Token} {ms : List Remark} (hr : r.check settings o = .ok ms)
    (h : ∀ m ∈ ms, m.IsAnchored o.source.lines ts) : r.IsAnchored settings o ts := by
  intro ms' hms
  cases hr.symm.trans hms
  exact h

namespace Lexer

variable {l : Lexeme} {c : Char} {cs : List Char}

-- A line break at the front of a text is a lexeme of its own.
theorem isBreak_eq_false_of_next (hl : (next c cs).1.isTrivia = false) : isBreak c = false := by
  rw [← Bool.not_eq_true]
  intro hb
  obtain rfl | rfl : c = '\r' ∨ c = '\n' := by simpa [isBreak] using hb
  · rcases cs with _ | ⟨d, cs⟩
    · cases hl
    · by_cases hd : d = '\n'
      · subst hd
        cases hl
      · simp [next, Lexeme.isTrivia, hd] at hl
  · cases hl

-- What is neither a line break nor a blank does not begin with a line break.
theorem isBreak_eq_false_of_mem_lexemes (h : l ∈ lexemes cs) (hl : l.isTrivia = false)
    (hc : c ∈ l.text.toList.head?) : isBreak c = false := by
  fun_induction lexemes cs with
  | case1 => cases h
  | case2 d ds ih =>
    cases List.mem_cons.mp h
    case inr h => exact ih h
    case inl h =>
      subst h
      obtain ⟨cs, hcs⟩ := List.head?_eq_some_iff.mp hc
      have happend := next_append d ds
      rw [hcs] at happend
      exact (List.cons.inj happend).1 ▸ isBreak_eq_false_of_next hl

end Lexer

namespace Source

variable {cs : List Char} {m n : Nat} {path text : String} {t u : Token} {s : Span}

theorem sublist_breaksUpTo (cs : List Char) (h : m ≤ n) :
    (breaksUpTo cs m).Sublist (breaksUpTo cs n) :=
  List.monotone_filter_right _ fun _ hb => decide_eq_true (Nat.le_trans (of_decide_eq_true hb) h)

-- The later one of two offsets is on a later line, or on the same line and not further left.
theorem placeAt_le (h : m ≤ n) : (placeAt cs m).line < (placeAt cs n).line ∨
    (placeAt cs m).line = (placeAt cs n).line ∧ (placeAt cs m).column ≤ (placeAt cs n).column := by
  have hsub := sublist_breaksUpTo cs h
  rcases Nat.eq_or_lt_of_le hsub.length_le with heq | hlt
  · refine .inr ⟨congrArg (· + 1) heq, ?_⟩
    rw [placeAt, placeAt, hsub.eq_of_length heq]
    exact Nat.succ_le_succ (Nat.sub_le_sub_right h _)
  · exact .inl (Nat.succ_lt_succ hlt)

theorem line_placeAt_le (path : String) (n : Nat) :
    (placeAt text.toList n).line ≤ (ofText path text).lines.length := by
  have hlines : (ofText path text).lines.length = (breakEnds 0 text.toList).length + 1 :=
    (List.length_map _).trans (length_splitLines 0 text.toList)
  exact hlines ▸ Nat.succ_le_succ (List.length_filter_le ..)

theorem mem_tokens_of_mem_essential (h : t ∈ (ofText path text).essential) :
    t ∈ (ofText path text).tokens :=
  (List.mem_filter.mp h).1

-- What is neither a blank nor a line break starts at a character of its line.
theorem exists_line_of_mem_essential (h : t ∈ (ofText path text).essential) :
    ∃ n k l, t.line = n + 1 ∧ t.column = k + 1 ∧ (ofText path text).lines[n]? = some l ∧
      k < l.length := by
  have ht := mem_tokens_of_mem_essential h
  have htrivia : t.lexeme.isTrivia = false := by simpa using (List.mem_filter.mp h).2
  obtain ⟨c, cs, hcs⟩ := List.exists_cons_of_ne_nil (text_ne_nil_of_mem_tokens ht)
  have hc : c ∈ t.text.toList.head? := List.head?_eq_some_iff.mpr ⟨cs, hcs⟩
  have hbreak := Lexer.isBreak_eq_false_of_mem_lexemes (mem_lexemes_of_mem_tokens ht) htrivia hc
  obtain ⟨l, hl, hk⟩ := exists_line_of_mem_tokens ht hc hbreak
  have hline : t.line = t.line - 1 + 1 := by
    rw [Token.line, start_eq_placeAt ht]
    rfl
  have hcolumn : t.column = t.column - 1 + 1 := by
    rw [Token.column, start_eq_placeAt ht]
    rfl
  refine ⟨t.line - 1, t.column - 1, l, hline, hcolumn, hl, ?_⟩
  rw [← String.length_toList]
  exact (List.getElem?_eq_some_iff.mp hk).1

theorem exists_line_of_over (h : s.Over (ofText path text).essential) :
    ∃ n k l, s.start.line = n + 1 ∧ s.start.column = k + 1 ∧
      (ofText path text).lines[n]? = some l ∧ k < l.length := by
  obtain ⟨first, others, hs, rfl⟩ := h
  exact exists_line_of_mem_essential (hs.mem List.mem_cons_self)

-- A span over tokens stops on one of the lines and behind its start.
theorem stop_of_over (h : s.Over (ofText path text).essential) :
    s.stop.line ≤ (ofText path text).lines.length ∧ (s.start.line < s.stop.line ∨
      s.start.line = s.stop.line ∧ s.start.column < s.stop.column) := by
  obtain ⟨first, others, hs, rfl⟩ := h
  have hs : (first :: others).Sublist (ofText path text).tokens := hs.trans List.filter_sublist
  have hlast : others.getLast?.getD first ∈ first :: others :=
    List.mem_of_getLast? List.getLast?_cons
  have hlt : first.offset < (others.getLast?.getD first).endOffset :=
    (onTokens_of_over ⟨first, others, hs, rfl⟩).nonempty
  generalize others.getLast?.getD first = last at *
  have hstart := start_eq_placeAt (hs.mem List.mem_cons_self)
  have hstop := stop_eq_placeAt (hs.mem hlast)
  simp only [Span.cover, hstart, hstop, Place.right]
  refine ⟨line_placeAt_le path _, ?_⟩
  exact (placeAt_le (Nat.le_pred_of_lt hlt)).imp_right fun h => ⟨h.1, Nat.lt_succ_of_le h.2⟩

end Source

-- A finding at a place that is counted from one.
theorem Finding.isLocated_of_line {lines : List String} {f : Finding} {n k : Nat} {l : String}
    (hl : lines[n]? = some l) (hk : k ≤ l.length) (hline : f.line = (n + 1 : Nat))
    (hcolumn : f.column = (k + 1 : Nat))
    (hstop : ∀ line ∈ f.endLine, ∀ column ∈ f.endColumn,
      line ≤ lines.length ∧ (f.line < line ∨ f.line = line ∧ f.column < column)) :
    f.IsLocated lines where
  one_le_line := by omega
  line_le := by
    have := (List.getElem?_eq_some_iff.mp hl).1
    omega
  one_le_column := by omega
  column_le := by
    refine ⟨l, ?_, by omega⟩
    rw [hline, Int.natCast_succ, Int.add_sub_cancel, Int.toNat_natCast, hl]
  stop := hstop

-- Whatever a remark is about, the finding that is made of it has a place in the file.
theorem Remark.IsAnchored.isLocated {path text at' : String} {m : Remark}
    (h : m.IsAnchored (Source.ofText path text).lines (Source.ofText path text).essential)
    (r : Rule) : (r.finding at' m).IsLocated (Source.ofText path text).lines := by
  cases h with
  | @span s message suggestion h =>
    obtain ⟨n, k, l, hline, hcolumn, hl, hk⟩ := Source.exists_line_of_over h
    have ⟨hle, hlt⟩ := Source.stop_of_over h
    refine Finding.isLocated_of_line hl (Nat.le_of_lt hk) (congrArg _ hline) (congrArg _ hcolumn) ?_
    rintro line ⟨⟩ column ⟨⟩
    exact ⟨Int.ofNat_le.mpr hle, hlt.imp Int.ofNat_lt.mpr fun h =>
      ⟨congrArg _ h.1, Int.ofNat_lt.mpr h.2⟩⟩
  | token h =>
    obtain ⟨n, k, l, hline, hcolumn, hl, hk⟩ := Source.exists_line_of_mem_essential h
    exact Finding.isLocated_of_line hl (Nat.le_of_lt hk) (congrArg _ hline) (congrArg _ hcolumn)
      fun _ h => nomatch h
  | line hl hk => exact Finding.isLocated_of_line hl hk rfl rfl fun _ h => nomatch h

end CLint
