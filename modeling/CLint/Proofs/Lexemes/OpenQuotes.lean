import CLint.Proofs.Lexemes.Extent
import CLint.Proofs.Lines

namespace CLint

namespace Lexer

open Cut

-- What may stand before the quote of a literal.
def literalLeads : List (List Char) :=
  [[], ['u', '8'], ['u'], ['U'], ['L']]

-- A text that begins with a quote which nothing on its line closes: neither another one of its
-- kind nor a backslash is in the rest of the line, which reaches up to a break or to the end.
structure Unclosed (cs lead line : List Char) (quote : Char) : Prop where
  leads : lead ∈ literalLeads
  opens : isQuote quote
  plain : ∀ c ∈ line, c ≠ quote ∧ c ≠ '\\' ∧ isBreak c = false
  follows : ∃ after, cs = lead ++ quote :: (line ++ after) ∧ after.head?.all isBreak

variable {c quote : Char} {cs lead line after : List Char}

theorem literalStart_of_lead (hl : lead ∈ literalLeads) (hq : isQuote quote) :
    literalStart (lead ++ [quote]) = some (lead, quote, []) := by
  obtain rfl | rfl : quote = '"' ∨ quote = '\'' := by simpa [isQuote] using hq
  all_goals
    revert lead
    decide

-- Neither search goes beyond the line.

theorem closeQuote_line (hq : isQuote quote)
    (hline : ∀ c ∈ line, c ≠ quote ∧ c ≠ '\\' ∧ isBreak c = false)
    (hafter : after.head?.all isBreak) : closeQuote quote (line ++ after) = none := by
  induction line with
  | nil =>
    cases after with
    | nil => rfl
    | cons b after =>
      have hne : b ≠ quote := by
        rintro rfl
        obtain rfl | rfl : b = '"' ∨ b = '\'' := by simpa [isQuote] using hq
        all_goals cases hafter
      have hb : isBreak b := by simpa using hafter
      rw [List.nil_append, closeQuote.eq_def]
      simp [hne, hb]
  | cons c line ih =>
    obtain ⟨⟨hc, hs, hb⟩, hrest⟩ := List.forall_mem_cons.mp hline
    rw [List.cons_append, closeQuote.eq_def]
    simp [hc, hs, hb, ih hrest]

-- An open quote stops at a quote of the other kind, too.
theorem fst_openRun_line (hline : ∀ c ∈ line, c ≠ '\\' ∧ isBreak c = false)
    (hafter : after.head?.all isBreak) :
    (openRun (line ++ after)).1 = line.takeWhile (!isQuote ·) := by
  induction line with
  | nil =>
    cases after with
    | nil => rfl
    | cons b after =>
      have hb : isBreak b := by simpa using hafter
      rw [List.nil_append, openRun.eq_def]
      simp [hb]
  | cons c line ih =>
    obtain ⟨⟨hs, hb⟩, hrest⟩ := List.forall_mem_cons.mp hline
    rw [List.cons_append, openRun.eq_def, List.takeWhile_cons]
    cases hc : isQuote c with
    | true => simp [hc]
    | false => simp [hc, hb, hs, ih hrest]

theorem next_of_unclosed (h : Unclosed (c :: cs) lead line quote) :
    (next c cs).1 = .openQuote (String.ofList (lead ++ quote :: line.takeWhile (!isQuote ·))) := by
  obtain ⟨after, hcs, hafter⟩ := h.follows
  have hstart := literalStart_of_lead h.leads h.opens
  obtain ⟨d, front, hfront, hnext⟩ := exists_next_literal hstart (line ++ after)
  rw [List.append_cons, hfront, List.cons_append] at hcs
  obtain ⟨rfl, rfl⟩ := List.cons.inj hcs
  rw [hnext, literal, closeQuote_line h.opens h.plain hafter,
    fst_openRun_line (fun c hc => (h.plain c hc).2) hafter]

end Lexer

namespace Source

variable {path text : String} {p : Place} {t : Token} {cs lead line : List Char} {quote : Char}

-- Each token is what the lexer reads at its offset.
theorem exists_next_of_mem_placed (h : t ∈ placed p (Lexer.lexemes cs)) :
    ∃ n c ds, t.offset = p.offset + n ∧ cs.drop n = c :: ds ∧ (Lexer.next c ds).1 = t.lexeme := by
  fun_induction Lexer.lexemes cs generalizing p with
  | case1 => cases h
  | case2 c cs ih =>
    cases List.mem_cons.mp h
    case inl h => exact ⟨0, c, cs, h ▸ rfl, rfl, h ▸ rfl⟩
    case inr h =>
      obtain ⟨n, d, ds, hoffset, hdrop, hnext⟩ := ih h
      refine ⟨(Lexer.next c cs).1.text.toList.length + n, d, ds, ?_, ?_, hnext⟩
      · rw [hoffset, Place.offset_advance, Nat.add_assoc]
      · rw [← Lexer.next_append c cs, List.drop_length_add_append, hdrop]

theorem exists_next_of_mem_tokens (h : t ∈ (ofText path text).tokens) :
    ∃ c cs, text.toList.drop t.offset = c :: cs ∧ (Lexer.next c cs).1 = t.lexeme := by
  obtain ⟨n, c, cs, hoffset, hdrop, hnext⟩ := exists_next_of_mem_placed h
  refine ⟨c, cs, ?_, hnext⟩
  rw [hoffset, Place.origin, Nat.zero_add, hdrop]

-- A quote that nothing on its line closes is open. It reaches up to the next quote, of whatever
-- kind, so that it takes the rest of the line just if there is no quote of the other kind in it.
theorem openQuote_of_unclosed (ht : t ∈ (ofText path text).tokens)
    (h : Lexer.Unclosed (text.toList.drop t.offset) lead line quote) :
    t.kind = .unknown ∧ t.text.toList = lead ++ quote :: line.takeWhile (!Lexer.isQuote ·) ∧
      (t.text.toList = lead ++ quote :: line ↔ ∀ c ∈ line, Lexer.isQuote c = false) := by
  obtain ⟨c, cs, hdrop, hnext⟩ := exists_next_of_mem_tokens ht
  rw [hdrop] at h
  rw [Lexer.next_of_unclosed h] at hnext
  have htext : t.text.toList = lead ++ quote :: line.takeWhile (!Lexer.isQuote ·) := by
    rw [Token.text, ← hnext, Lexeme.text, String.toList_ofList]
  refine ⟨?_, htext, ?_⟩
  · rw [Token.kind, ← hnext]
    rfl
  · rw [htext, List.append_cancel_left_eq, List.cons.injEq, List.takeWhile_eq_self_iff]
    simp

-- A quote in a literal with a prefix, before a line break of two characters.
theorem openQuote_of_unclosed_prefixed :
    let t : Token := ⟨.openQuote "u8'a", ⟨⟨1, 3, 2⟩, ⟨1, 7, 6⟩⟩⟩
    t ∈ (ofText "a.c" "c=u8'a\"b\r\nd").tokens ∧
      Lexer.Unclosed ("c=u8'a\"b\r\nd".toList.drop t.offset) ['u', '8'] ['a', '"', 'b'] '\'' ∧
      t.kind = .unknown ∧ t.text.toList = ['u', '8', '\'', 'a'] := by
  intro t
  have ht : t ∈ (ofText "a.c" "c=u8'a\"b\r\nd").tokens := by decide +kernel
  have h : Lexer.Unclosed ("c=u8'a\"b\r\nd".toList.drop t.offset) ['u', '8'] ['a', '"', 'b'] '\'' :=
    ⟨by decide, rfl, by simp [Lexer.isBreak], ['\r', '\n', 'd'], by decide +kernel, rfl⟩
  obtain ⟨hkind, htext, -⟩ := openQuote_of_unclosed ht h
  exact ⟨ht, h, hkind, htext⟩

-- An apostrophe ends an open string, so that not all of them take the rest of their line.
theorem openQuote_of_apostrophe :
    ¬∀ t ∈ (ofText "a.c" "\"it's\n").tokens, ∀ lead line quote,
      Lexer.Unclosed ("\"it's\n".toList.drop t.offset) lead line quote →
        t.kind = .unknown ∧ t.text.toList = lead ++ quote :: line := by
  intro h
  have ht : ⟨.openQuote "\"it", ⟨⟨1, 1, 0⟩, ⟨1, 4, 3⟩⟩⟩ ∈ (ofText "a.c" "\"it's\n").tokens := by
    decide +kernel
  have hunclosed : Lexer.Unclosed ("\"it's\n".toList.drop 0) [] ['i', 't', '\'', 's'] '"' :=
    ⟨by decide, rfl, by simp [Lexer.isBreak], ['\n'], by decide +kernel, rfl⟩
  have htext := (h _ ht [] ['i', 't', '\'', 's'] '"' hunclosed).2
  revert htext
  decide +kernel

end Source

end CLint
