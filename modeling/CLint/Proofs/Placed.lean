import CLint.Source

namespace CLint

namespace Place

theorem offset_step (p : Place) (c : Char) (next : Option Char) :
    (p.step c next).offset = p.offset + 1 := by
  unfold step
  split <;> rfl

theorem offset_advance (p : Place) (cs : List Char) (after : Option Char) :
    (p.advance cs after).offset = p.offset + cs.length := by
  fun_induction advance p cs after with
  | case1 => rfl
  | case2 => exact offset_step ..
  | case3 _ _ _ _ _ ih =>
    rw [ih, offset_step]
    simp only [List.length_cons]
    omega

theorem offset_last (p : Place) {cs : List Char} (h : cs ≠ []) :
    (p.last cs).offset + 1 = p.offset + cs.length := by
  fun_induction last p cs with
  | case1 => contradiction
  | case2 => rfl
  | case3 p c d cs ih =>
    rw [ih (List.cons_ne_nil d cs), offset_step]
    simp only [List.length_cons]
    omega

end Place

theorem Lexer.text_ne_nil_of_mem_lexemes {cs : List Char} {l : Lexeme} (h : l ∈ lexemes cs) :
    l.text.toList ≠ [] := by
  fun_induction lexemes cs with
  | case1 => contradiction
  | case2 c cs ih =>
    cases List.mem_cons.mp h
    case inl h => exact h ▸ next_text_ne_nil c cs
    case inr h => exact ih h

-- Tokens in the order of a text: each takes some of it, and none overlaps the one before.
structure Token.Ordered (ts : List Token) : Prop where
  nonempty : ∀ t ∈ ts, t.offset < t.endOffset
  apart : ts.Pairwise (·.endOffset ≤ ·.offset)

namespace Token.Ordered

variable {ts us : List Token} {t : Token}

theorem sublist (h : Ordered ts) (hs : us.Sublist ts) : Ordered us where
  nonempty t ht := h.nonempty t (hs.mem ht)
  apart := h.apart.sublist hs

theorem pairwise_lt (h : Ordered ts) : ts.Pairwise (·.offset < ·.offset) :=
  h.apart.imp_of_mem fun ha _ hab => Nat.lt_of_lt_of_le (h.nonempty _ ha) hab

theorem nodup (h : Ordered ts) : ts.Nodup := by
  unfold List.Nodup
  exact h.pairwise_lt.imp fun hlt he => Nat.ne_of_lt hlt (congrArg Token.offset he)

-- From one token to a later one, or to itself, there is always some text.
theorem lt_of_le (h : Ordered ts) {i j : Nat} (hij : i ≤ j) (hj : j < ts.length) :
    (ts[i]).offset < (ts[j]).endOffset := by
  have hn := h.nonempty ts[j] (List.getElem_mem hj)
  rcases Nat.eq_or_lt_of_le hij with rfl | hlt
  · exact hn
  · exact Nat.lt_trans (List.pairwise_iff_getElem.mp h.pairwise_lt i j _ hj hlt) hn

end Token.Ordered

namespace Source

-- The tokens that are neither blanks nor line breaks.
def essential (s : Source) : List Token :=
  s.tokens.filter (!·.lexeme.isTrivia)

variable {p : Place} {ls : List Lexeme}

@[simp]
theorem map_lexeme_placed (p : Place) (ls : List Lexeme) : (placed p ls).map (·.lexeme) = ls := by
  induction ls generalizing p with
  | nil => rfl
  | cons l ls ih => simp only [placed, List.map_cons, ih]

theorem bounds_of_mem_placed (hne : ∀ l ∈ ls, l.text.toList ≠ []) {t : Token}
    (h : t ∈ placed p ls) :
    p.offset ≤ t.offset ∧ t.offset < t.endOffset ∧
      t.endOffset ≤ p.offset + (ls.flatMap (·.text.toList)).length := by
  induction ls generalizing p with
  | nil => contradiction
  | cons l ls ih =>
    have hl := hne l List.mem_cons_self
    have hpos := List.length_pos_iff.mpr hl
    rw [List.flatMap_cons, List.length_append]
    cases List.mem_cons.mp h
    case inl h =>
      subst h
      have := Place.offset_last p hl
      simp only [Token.offset, Token.endOffset, Place.right]
      omega
    case inr h =>
      have := ih (fun m hm => hne m (List.mem_cons_of_mem _ hm)) h
      rw [Place.offset_advance] at this
      omega

theorem ordered_placed (hne : ∀ l ∈ ls, l.text.toList ≠ []) : Token.Ordered (placed p ls) := by
  refine ⟨fun t ht => (bounds_of_mem_placed hne ht).2.1, ?_⟩
  induction ls generalizing p with
  | nil => exact List.Pairwise.nil
  | cons l ls ih =>
    have htail := fun m hm => hne m (List.mem_cons_of_mem l hm)
    refine List.pairwise_cons.mpr ⟨fun t ht => ?_, ih htail⟩
    have hlast := Place.offset_last p (hne l List.mem_cons_self)
    have hb := (bounds_of_mem_placed htail ht).1
    rw [Place.offset_advance] at hb
    simp only [Token.endOffset, Place.right]
    omega

theorem ordered_tokens (path text : String) : Token.Ordered (ofText path text).tokens :=
  ordered_placed fun _ => Lexer.text_ne_nil_of_mem_lexemes

theorem endOffset_le_of_mem_tokens {path text : String} {t : Token}
    (h : t ∈ (ofText path text).tokens) : t.endOffset ≤ text.length := by
  have := (bounds_of_mem_placed (fun _ => Lexer.text_ne_nil_of_mem_lexemes) h).2.2
  simpa [Lexer.flatMap_text_lexemes, Place.origin, String.length_toList] using this

end Source
end CLint
