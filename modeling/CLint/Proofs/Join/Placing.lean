import CLint.Proofs.Placed
import CLint.Proofs.Join.Basic
import CLint.Proofs.Join.Lexing

namespace CLint

namespace Place

variable {p : Place} {cs ds : List Char} {after : Option Char}

theorem advance_append (p : Place) (cs ds : List Char) (after : Option Char) :
    p.advance (cs ++ ds) after = (p.advance cs (ds.head?.or after)).advance ds after := by
  induction cs generalizing p with
  | nil => rfl
  | cons c cs ih =>
    cases cs with
    | nil => cases ds <;> rfl
    | cons d cs => exact ih (p.step c (some d))

theorem line_step_le (p : Place) (c : Char) (after : Option Char) :
    p.line ≤ (p.step c after).line := by
  unfold step
  split
  · exact Nat.le_succ _
  · exact Nat.le_refl _

theorem line_le_advance (p : Place) (cs : List Char) (after : Option Char) :
    p.line ≤ (p.advance cs after).line := by
  fun_induction advance p cs after with
  | case1 => exact Nat.le_refl _
  | case2 => exact line_step_le ..
  | case3 _ _ _ _ _ ih => exact Nat.le_trans (line_step_le ..) ih

theorem line_le_last (p : Place) (cs : List Char) : p.line ≤ (p.last cs).line := by
  fun_induction last p cs with
  | case1 => exact Nat.le_refl _
  | case2 => exact Nat.le_refl _
  | case3 _ _ _ _ ih => exact Nat.le_trans (line_step_le ..) ih

theorem line_last_le (p : Place) (cs : List Char) (after : Option Char) :
    (p.last cs).line ≤ (p.advance cs after).line := by
  fun_induction advance p cs after with
  | case1 => exact Nat.le_refl _
  | case2 => exact line_step_le ..
  | case3 _ _ _ _ _ ih => exact ih

-- A line feed ends a line, whatever follows it.
theorem advance_of_getLast? (h : cs.getLast? = some '\n') (after : Option Char) :
    p.advance cs after = (p.last cs).newLine := by
  fun_induction advance p cs after with
  | case1 => cases h
  | case2 p c after =>
    cases h
    rfl
  | case3 p c d cs _ ih =>
    rw [List.getLast?_cons_cons] at h
    exact ih h

theorem line_step (p : Place) (c : Char) (after : Option Char) :
    (p.step c after).line = p.line + (endsLine c after).toNat := by
  unfold step
  cases endsLine c after <;> rfl

theorem advance_cons (p : Place) (c : Char) (cs : List Char) (after : Option Char) :
    p.advance (c :: cs) after = (p.step c (cs.head?.or after)).advance cs after := by
  cases cs <;> rfl

-- A text has a line for each of its line ends, and one more.
theorem line_advance (p : Place) (cs : List Char) :
    (p.advance cs none).line + 1 = p.line + (Source.splitLines cs).length := by
  fun_induction Source.splitLines cs generalizing p with
  | case1 => rfl
  | case2 cs ih =>
    rw [advance_cons, advance_cons, ih, line_step, line_step]
    simp only [endsLine, List.head?_cons, Option.some_or, List.length_cons]
    simp
    omega
  | case3 cs hn ih =>
    have hcs : cs.head? ≠ some '\n' := by
      intro h
      obtain ⟨ds, rfl⟩ := List.head?_eq_some_iff.mp h
      exact hn ds rfl
    rw [advance_cons, ih, line_step]
    simp [endsLine, hcs]
    omega
  | case4 cs ih =>
    rw [advance_cons, ih, line_step]
    simp [endsLine]
    omega
  | case5 c cs _ hr hn hs ih =>
    have ih := ih (p.step c cs.head?)
    have hle := line_le_advance (p.step c cs.head?) cs none
    rw [hs, List.length_nil] at ih
    omega
  | case6 c cs _ hr hn l ls hs ih =>
    rw [advance_cons, ih, line_step, hs]
    simp [endsLine, show c ≠ '\r' from hr, show c ≠ '\n' from hn]

end Place

namespace Move

variable {m : Move}

theorem step_place (m : Move) (p : Place) (c : Char) (after : Option Char) :
    (m.place p).step c after = m.place (p.step c after) := by
  unfold Place.step
  split
  · simp [Place.newLine, place, Nat.add_right_comm]
  · simp [Place.right, place, Nat.add_right_comm]

theorem advance_place (m : Move) (p : Place) (cs : List Char) (after : Option Char) :
    (m.place p).advance cs after = m.place (p.advance cs after) := by
  induction cs generalizing p with
  | nil => rfl
  | cons c cs ih => rw [Place.advance_cons, Place.advance_cons, step_place, ih]

theorem last_place (m : Move) (p : Place) (cs : List Char) :
    (m.place p).last cs = m.place (p.last cs) := by
  fun_induction Place.last p cs with
  | case1 => rfl
  | case2 => rfl
  | case3 p c d cs ih => rw [Place.last, step_place, ih]

theorem placed_place (m : Move) (p : Place) (ls : List Lexeme) :
    Source.placed (m.place p) ls = (Source.placed p ls).map m.token := by
  induction ls generalizing p with
  | nil => rfl
  | cons l ls ih =>
    rw [Source.placed, Source.placed, List.map_cons, advance_place, ih, last_place]
    simp [token, span, place, Place.right, Nat.add_right_comm]

end Move

namespace Source

-- The text of some lexemes.
def spelled (ls : List Lexeme) : List Char :=
  ls.flatMap (·.text.toList)

-- Lexemes of which the last one ends with a line feed.
structure EndsLine (ls : List Lexeme) : Prop where
  nonempty : ∀ l ∈ ls, l.text.toList ≠ []
  last : ∃ l, ls.getLast? = some l ∧ l.text.toList.getLast? = some '\n'

variable {l l' : Lexeme} {ls ks : List Lexeme} {p : Place} {t : Token}

theorem EndsLine.tail (h : EndsLine (l :: l' :: ls)) : EndsLine (l' :: ls) where
  nonempty m hm := h.nonempty m (List.mem_cons_of_mem l hm)
  last := by simpa using h.last

theorem advance_spelled_cons (h : l'.text.toList ≠ []) (after : Option Char) :
    p.advance (spelled (l :: l' :: ls)) after =
      (p.advance l.text.toList l'.text.toList.head?).advance (spelled (l' :: ls)) after := by
  have hhead : (spelled (l' :: ls)).head?.or after = l'.text.toList.head? := by
    obtain ⟨c, cs, hc⟩ := List.exists_cons_of_ne_nil h
    simp [spelled, hc]
  rw [spelled, List.flatMap_cons, Place.advance_append, ← spelled, hhead]

theorem placed_append_of_ne_nil (hne : ∀ l ∈ ls, l.text.toList ≠ []) (ks : List Lexeme) :
    placed p (ls ++ ks) = placed p ls ++
      placed (p.advance (spelled ls) (ks.head?.bind (·.text.toList.head?))) ks := by
  induction ls generalizing p with
  | nil => rfl
  | cons l ls ih =>
    obtain ⟨-, htail⟩ := List.forall_mem_cons.mp hne
    rw [List.cons_append, placed, placed, ih htail, List.cons_append]
    cases ls with
    | nil => simp [spelled, Place.advance, placed]
    | cons l' ls =>
      rw [advance_spelled_cons (htail l' List.mem_cons_self)]
      rfl

-- What follows a line feed does not matter for the place behind it.
theorem placed_append (h : EndsLine ls) :
    placed p (ls ++ ks) = placed p ls ++ placed (p.advance (spelled ls) none) ks := by
  obtain ⟨l, hl, hn⟩ := h.last
  have hlast : (spelled ls).getLast? = some '\n' := by
    obtain ⟨front, rfl⟩ := List.getLast?_eq_some_iff.mp hl
    simp [spelled, List.getLast?_append, hn]
  rw [placed_append_of_ne_nil h.nonempty, Place.advance_of_getLast? hlast,
    Place.advance_of_getLast? hlast]

-- A text that ends with a line feed reaches to a line behind all of its tokens.
theorem endLine_lt_of_mem_placed (h : EndsLine ls) (ht : t ∈ placed p ls) :
    t.endLine < (p.advance (spelled ls) none).line := by
  induction ls generalizing p t with
  | nil => cases ht
  | cons l ls ih =>
    cases ls with
    | nil =>
      have hl : l.text.toList.getLast? = some '\n' := by simpa using h.last
      obtain rfl := List.mem_singleton.mp ht
      simp [spelled, Place.advance_of_getLast? hl, Token.endLine, Place.newLine, Place.right]
    | cons l' ls =>
      rw [advance_spelled_cons (h.tail.nonempty l' List.mem_cons_self)]
      cases List.mem_cons.mp ht
      case inl ht =>
        have hnext := ih h.tail (p := p.advance l.text.toList l'.text.toList.head?)
          List.mem_cons_self
        subst ht
        calc (p.last l.text.toList).line
          _ ≤ (p.advance l.text.toList l'.text.toList.head?).line := Place.line_last_le ..
          _ ≤ _ := Place.line_le_last ..
          _ < _ := hnext
      case inr ht => exact ih h.tail ht

theorem line_le_of_mem_placed (h : t ∈ placed p ls) : p.line ≤ t.line := by
  induction ls generalizing p with
  | nil => cases h
  | cons l ls ih =>
    cases List.mem_cons.mp h
    case inl h => exact h ▸ Nat.le_refl _
    case inr h => exact Nat.le_trans (Place.line_le_advance ..) (ih h)

theorem endsLine_lexemes {cs : List Char} (h : cs.getLast? = some '\n') :
    EndsLine (Lexer.lexemes cs) where
  nonempty _ := Lexer.text_ne_nil_of_mem_lexemes
  last := by
    have hcs := Lexer.flatMap_text_lexemes cs
    cases hl : (Lexer.lexemes cs).getLast? with
    | none =>
      rw [List.getLast?_eq_none_iff.mp hl] at hcs
      simp [← hcs] at h
    | some l =>
      have hne := Lexer.text_ne_nil_of_mem_lexemes (List.mem_of_getLast? hl)
      obtain ⟨ls, hls⟩ := List.getLast?_eq_some_iff.mp hl
      refine ⟨l, rfl, ?_⟩
      rwa [← hcs, hls, List.flatMap_append, List.flatMap_singleton, List.getLast?_append,
        Option.or_of_isSome (List.getLast?_isSome.mpr hne)] at h

-- A source that ends with a line feed, with a semicolon as its last word. As only blanks and line
-- breaks follow the semicolon, the line feed is a token of its own.
structure EndsStatement (s : Source) : Prop where
  feed : s.text.toList.getLast? = some '\n'
  semicolon : s.essential.getLast?.map Token.lexeme = some (.punct .semicolon)

variable {path text text' : String}

theorem map_lexeme_essential (path text : String) : (ofText path text).essential.map (·.lexeme) =
    (Lexer.lexemes text.toList).filter (!·.isTrivia) := by
  conv => rhs; rw [← map_lexeme_placed .origin (Lexer.lexemes text.toList)]
  rw [List.filter_map]
  rfl

-- A text that ends with a line feed puts what follows it at the start of a line.
theorem advance_origin {cs : List Char} (h : cs.getLast? = some '\n') {m : Move}
    (hl : m.lines + 1 = (splitLines cs).length) (ho : m.offset = cs.length) :
    Place.origin.advance cs none = m.place .origin := by
  have hline := Place.line_advance .origin cs
  have hoffset := Place.offset_advance .origin cs none
  have hnew := Place.advance_of_getLast? (p := .origin) h none
  generalize Place.origin.advance cs none = p at *
  have hcolumn : p.column = 1 := by rw [hnew]; rfl
  cases p
  simp only [Place.origin, Move.place, Place.mk.injEq] at *
  omega

theorem tokens_append (h : (ofText path text).EndsStatement) {m : Move}
    (hm : Place.origin.advance text.toList none = m.place .origin) :
    (ofText path (text ++ text')).tokens =
      (ofText path text).tokens ++ (ofText path text').tokens.map m.token := by
  have hs : ((Lexer.lexemes text.toList).filter (!·.isTrivia)).getLast? =
      some (.punct .semicolon) := by
    have hs := h.semicolon
    rwa [← List.getLast?_map, map_lexeme_essential] at hs
  obtain ⟨hsealed, hlast⟩ := Lexer.sealed_of_getLast? h.feed hs
  have hend := endsLine_lexemes h.feed
  dsimp only [ofText] at hsealed hlast hend
  simp only [ofText, String.toList_append, Lexer.lexemes_append hsealed hlast]
  rw [placed_append hend, spelled, Lexer.flatMap_text_lexemes, hm, Move.placed_place]

-- The tokens of a text that ends with a line feed are on the lines before those that follow it.
theorem endLine_le_of_mem_tokens (h : text.toList.getLast? = some '\n') {m : Move}
    (hm : Place.origin.advance text.toList none = m.place .origin) {t : Token}
    (ht : t ∈ (ofText path text).tokens) : t.endLine ≤ m.lines := by
  have hlt := endLine_lt_of_mem_placed (endsLine_lexemes h) ht
  rw [spelled, Lexer.flatMap_text_lexemes, hm] at hlt
  simp only [Move.place, Place.origin] at hlt
  omega

end Source
end CLint
