import CLint.Proofs.Lexemes.Extent

namespace CLint

namespace Lexer

variable {c : Char} {cs : List Char} {l : Lexeme} {ls : List Lexeme}

-- What is neither trivia nor a comment nor left open ends before a blank.
theorem goesOn_blank (ht : l.isTrivia = false) (hc : l.kind ≠ .comment) (hu : l.kind ≠ .unknown)
    (cs : List Char) : l.goesOn (' ' :: cs) = false := by
  cases l with
  | newline t | blank t => cases ht
  | comment t => exact absurd rfl hc
  | openQuote t | stray c => exact absurd rfl hu
  | quoted t => rfl
  | number t => exact not_runsOn_blank (l := .number t) rfl
  | identifier t => exact not_runsOn_blank (l := .identifier t) rfl
  | keyword k => simp [Lexeme.goesOn, Lexeme.runsOn, isWordChar, isQuote]
  | punct p => cases p <;> rfl

theorem isBlank_of_next (h : (next c cs).1.isTrivia = false) : isBlank c = false := by
  fun_cases next c cs with
  | case1 | case2 | case3 => simp [next, Lexeme.isTrivia] at h
  | case4 | case5 => rfl
  | case6 c cs _ hr hn hs hs' hb =>
    rw [next_of_ne hr hn hs hs', if_pos hb] at h
    cases h
  | case7 c cs _ hr hn hs hs' hb => simpa using hb

-- Words with a blank between any two of them.
def spaced (ls : List Lexeme) : List Char :=
  [' '].intercalate (ls.map (·.text.toList))

theorem spaced_cons_cons (l m : Lexeme) (ls : List Lexeme) :
    spaced (l :: m :: ls) = l.text.toList ++ ' ' :: spaced (m :: ls) := by
  simp [spaced, List.intercalate_cons_cons]

theorem head?_spaced (h : l.text.toList ≠ []) (ls : List Lexeme) :
    (spaced (l :: ls)).head? = l.text.toList.head? := by
  obtain ⟨c, cs, hc⟩ := List.exists_cons_of_ne_nil h
  cases ls with
  | nil => simp [spaced, hc]
  | cons m ls => rw [spaced_cons_cons, hc]; rfl

theorem lexemes_spaced (hread : ∀ l ∈ ls, l ∈ lexemes cs)
    (hwhole : ∀ l ∈ ls, l.isTrivia = false ∧ l.kind ≠ .comment ∧ l.kind ≠ .unknown) :
    lexemes (spaced ls) = ls.intersperse (.blank " ") := by
  induction ls with
  | nil => exact lexemes_nil
  | cons l ls ih =>
    obtain ⟨hl, hreads⟩ := List.forall_mem_cons.mp hread
    obtain ⟨⟨htrivia, hcomment, hknown⟩, hwholes⟩ := List.forall_mem_cons.mp hwhole
    obtain ⟨rest, hdelimited⟩ := delimited_of_mem_lexemes hl
    cases ls with
    | nil => simpa [spaced] using hdelimited.lexemes_text
    | cons m ls =>
      have hm := hreads m List.mem_cons_self
      have hblank : Reads (.blank " ") (spaced (m :: ls)) := by
        refine readable_blank _ fun d hd => ?_
        rw [head?_spaced (text_ne_nil_of_mem_lexemes hm)] at hd
        obtain ⟨c, cs, hnext⟩ := exists_next_of_mem_lexemes hm
        cases (head?_text_of_next hnext).symm.trans hd
        exact isBlank_of_next (hnext ▸ (hwholes m List.mem_cons_self).1)
      have hbehind : lexemes (' ' :: spaced (m :: ls)) =
          .blank " " :: lexemes (spaced (m :: ls)) := hblank.lexemes_append
      rw [spaced_cons_cons, hdelimited.lexemes_append (goesOn_blank htrivia hcomment hknown _),
        hbehind, ih hreads hwholes, List.intersperse_cons_cons]

end Lexer

namespace Source

variable {path text : String}

@[simp]
theorem map_lexeme_tokens (path text : String) :
    (ofText path text).tokens.map (·.lexeme) = Lexer.lexemes text.toList :=
  map_lexeme_placed ..

-- The text of the words of a source with a blank between any two of them.
def reprinted (s : Source) : String :=
  " ".intercalate (s.essential.map (·.text))

-- Every token is read again from its own text; and where no token is a comment or one that C does
-- not know, the words are read again, of the same kinds, from a text in which there is just one
-- blank between any two of them.
theorem tokens_reprinted (path text : String) :
    (∀ t ∈ (ofText path text).tokens,
      (ofText path t.text).tokens.map (·.lexeme) = [t.lexeme]) ∧
    ((∀ t ∈ (ofText path text).tokens, t.kind ≠ .unknown ∧ t.kind ≠ .comment) →
      (ofText path (ofText path text).reprinted).tokens.map (·.lexeme) =
        ((ofText path text).essential.map (·.lexeme)).intersperse (.blank " ")) := by
  constructor
  · intro t ht
    obtain ⟨rest, h⟩ := Lexer.delimited_of_mem_lexemes (mem_lexemes_of_mem_tokens ht)
    rw [map_lexeme_tokens]
    exact h.lexemes_text
  · intro hknown
    have hspaced : (ofText path text).reprinted.toList =
        Lexer.spaced ((ofText path text).essential.map (·.lexeme)) := by
      rw [reprinted, String.toList_intercalate, Lexer.spaced, List.map_map, List.map_map]
      rfl
    have hread : ∀ l ∈ (ofText path text).essential.map (·.lexeme),
        l ∈ Lexer.lexemes text.toList := by
      rw [map_lexeme_essential]
      exact fun l hl => (List.mem_filter.mp hl).1
    rw [map_lexeme_tokens, hspaced]
    refine Lexer.lexemes_spaced hread ?_
    rw [List.forall_mem_map]
    intro t ht
    obtain ⟨ht, htrivia⟩ := List.mem_filter.mp ht
    exact ⟨by simpa using htrivia, (hknown t ht).2, (hknown t ht).1⟩

-- Prefixes of literals, an escaped line break in one, numbers that begin with a point or have a
-- sign in them, and dots in a row.
theorem tokens_reprinted_literals :
    let s := ofText "a.c" "x=u8\"a\\\n\"+u 'b'- .5e-3+1e+x. ...<<=u8;"
    (∀ t ∈ s.tokens, (ofText "a.c" t.text).tokens.map (·.lexeme) = [t.lexeme]) ∧
    (∀ t ∈ s.tokens, t.kind ≠ .unknown ∧ t.kind ≠ .comment) ∧
      s.reprinted = "x = u8\"a\\\n\" + u 'b' - .5e-3 + 1e+x. ... <<= u8 ;" ∧
      (ofText "a.c" s.reprinted).tokens.map (·.lexeme) =
        (s.essential.map (·.lexeme)).intersperse (.blank " ") := by
  intro s
  have hknown : ∀ t ∈ s.tokens, t.kind ≠ .unknown ∧ t.kind ≠ .comment := by decide +kernel
  have hall := tokens_reprinted "a.c" s.text
  exact ⟨hall.1, hknown, by decide +kernel, hall.2 hknown⟩

end Source

end CLint
