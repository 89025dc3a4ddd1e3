import CLint.Proofs.Join.Gathering

namespace CLint

namespace Move

def entry (m : Move) (d : Marked × List Marked) : Marked × List Marked :=
  (m.marked d.1, d.2.map m.marked)

def divided (m : Move) (d : Divided) : Divided where
  continuation := d.continuation.map m.marked
  directives := d.directives.map m.entry
  code := d.code.map m.marked

def parts (m : Move) (p : Parts) : Parts where
  comments := p.comments.map m.comment
  directives := p.directives.map m.entry
  code := p.code.map m.marked

end Move

namespace Divided

variable {m : Move} {previous : Option Token} {line : Option Nat} {as bs ms : List Marked}

-- The token and the line that a division has reached behind some tokens.
def reached (previous : Option Token) (line : Option Nat) :
    List Marked → Option Token × Option Nat
  | [] => (previous, line)
  | m :: ms =>
    let isDirective := continues previous line m.token || begins previous m.token
    reached (some m.token) (if isDirective then some m.token.line else none) ms

theorem code_append (previous : Option Token) (line : Option Nat) (as bs : List Marked) :
    (ofMarked previous line (as ++ bs)).code = (ofMarked previous line as).code ++
      (ofMarked (reached previous line as).1 (reached previous line as).2 bs).code := by
  induction as generalizing previous line with
  | nil => rfl
  | cons a as ih =>
    simp only [List.cons_append, ofMarked, reached]
    split
    case isTrue h => simp [h, ih]
    case isFalse h =>
      split
      case isTrue h' => simp [h', ih]
      case isFalse h' => simp [h, h', ih]

-- Code behind some tokens, which continues no directive, is divided by itself.
theorem ofMarked_append (previous : Option Token) (line : Option Nat) (as bs : List Marked)
    (h : (ofMarked (reached previous line as).1 (reached previous line as).2
      bs).continuation = []) :
    let d := ofMarked previous line as
    let e := ofMarked (reached previous line as).1 (reached previous line as).2 bs
    ofMarked previous line (as ++ bs) =
      ⟨d.continuation, d.directives ++ e.directives, d.code ++ e.code⟩ := by
  induction as generalizing previous line with
  | nil =>
    intro d e
    exact congrArg (fun c => Divided.mk c e.directives e.code) h
  | cons a as ih =>
    simp only [reached] at h
    simp only [List.cons_append, ofMarked, reached]
    split
    case isTrue hc =>
      simp only [hc, Bool.true_or, if_true] at h ⊢
      rw [ih _ _ h]
    case isFalse hc =>
      split
      case isTrue hb =>
        simp only [hb, Bool.or_true, if_true] at h ⊢
        rw [ih _ _ h]
        rfl
      case isFalse hb =>
        simp only [hc, hb, Bool.or_self, Bool.false_eq_true, if_false] at h ⊢
        rw [ih _ _ h]
        rfl

-- Without a line there is nothing to continue.
theorem continues_none (previous : Option Token) (t : Token) :
    continues previous none t = false := by
  unfold continues
  split
  · contradiction
  · rfl

theorem continuation_of_none (previous : Option Token) (ms : List Marked) :
    (ofMarked previous none ms).continuation = [] := by
  induction ms generalizing previous with
  | nil => rfl
  | cons k ms ih =>
    simp only [ofMarked, continues_none]
    split
    · contradiction
    · split
      · rfl
      · exact ih _

theorem ofMarked_of_lt {t : Token} (h : ∀ k ∈ ms, t.endLine < k.token.line) :
    ofMarked (some t) none ms = ofMarked none none ms := by
  cases ms with
  | nil => rfl
  | cons k ms =>
    have hb : begins (some t) k.token = begins none k.token := by
      simp [begins, h k List.mem_cons_self]
    simp only [ofMarked, continues_none, hb]

theorem continues_move (m : Move) (previous : Option Token) (line : Option Nat) (t : Token) :
    continues (previous.map m.token) (line.map (· + m.lines)) (m.token t) =
      continues previous line t := by
  cases previous with
  | none => rfl
  | some p =>
    cases line with
    | none => rfl
    | some n =>
      have hline : ∀ u : Token, (m.token u).line = n + m.lines ↔ u.line = n := by
        intro u
        simp only [Move.token, Move.span, Move.place, Token.line]
        omega
      simp only [continues, Option.map_some, hline]
      rfl

theorem begins_move (m : Move) (previous : Option Token) (t : Token) :
    begins (previous.map m.token) (m.token t) = begins previous t := by
  have hlt : ∀ p : Token, (m.token p).endLine < (m.token t).line ↔ p.endLine < t.line := by
    intro p
    simp only [Move.token, Move.span, Move.place, Token.line, Token.endLine]
    omega
  cases previous with
  | none => rfl
  | some p =>
    simp only [begins, Option.map_some, Option.all_some, hlt]
    rfl

theorem ofMarked_move (m : Move) (previous : Option Token) (line : Option Nat)
    (ms : List Marked) :
    ofMarked (previous.map m.token) (line.map (· + m.lines)) (ms.map m.marked) =
      m.divided (ofMarked previous line ms) := by
  induction ms generalizing previous line with
  | nil => rfl
  | cons k ms ih =>
    have hsome := ih (some k.token) (some k.token.line)
    have hnone := ih (some k.token) none
    have hk : (m.marked k).token = m.token k.token := rfl
    have hk' : (m.token k.token).line = k.token.line + m.lines := rfl
    simp only [Option.map_some, Option.map_none, ← hk'] at hsome hnone
    simp only [List.map_cons, ofMarked, hk, continues_move, begins_move]
    split
    case isTrue =>
      rw [hsome]
      rfl
    case isFalse =>
      split
      case isTrue =>
        rw [hsome]
        rfl
      case isFalse =>
        rw [hnone]
        rfl

theorem reached_append (previous : Option Token) (line : Option Nat) (as bs : List Marked) :
    reached previous line (as ++ bs) =
      reached (reached previous line as).1 (reached previous line as).2 bs := by
  induction as generalizing previous line with
  | nil => rfl
  | cons a as ih => exact ih _ _

-- A division that ends in code has left all directives.
theorem reached_of_getLast? {k : Marked} (hn : (ms.map (·.token)).Nodup) (hk : ms.getLast? = some k)
    (hc : ((ofMarked previous line ms).code.map (·.token)).getLast? = some k.token) :
    reached previous line ms = (some k.token, none) := by
  obtain ⟨as, rfl⟩ := List.getLast?_eq_some_iff.mp hk
  rw [code_append] at hc
  rw [reached_append]
  generalize reached previous line as = r at *
  cases hd : continues r.1 r.2 k.token || begins r.1 k.token with
  | false => simp [reached, hd]
  | true =>
    have hcode : (ofMarked r.1 r.2 [k]).code = [] := by
      simp only [ofMarked]
      split
      case isTrue => rfl
      case isFalse hcont => rw [if_pos (by simpa [hcont] using hd)]
    rw [hcode, List.append_nil] at hc
    have hmem := List.mem_of_getLast? hc
    have hsub := ((sublist_ofMarked previous line as).1.map (·.token)).mem hmem
    rw [List.map_append, List.nodup_append] at hn
    exact absurd rfl (hn.2.2 _ hsub _ List.mem_cons_self)

end Divided

namespace Parts

-- The parts of one file, and behind them those of another one.
def join (p q : Parts) : Parts where
  comments := p.comments ++ q.comments
  directives := p.directives ++ q.directives
  code := p.code ++ q.code

variable {m : Move} {ts us : List Token} {t : Token}

theorem ofTokens_append (hn : ts.Nodup) (ht : (ts.filter (!·.lexeme.isTrivia)).getLast? = some t)
    (hcode : (ofTokens ts).tokens.toList.getLast? = some t) (hl : t.lexeme.isComment = false)
    (hc : m.comments = (ofTokens ts).comments.length) (hlines : t.endLine ≤ m.lines)
    (hus : ∀ u ∈ us, 0 < u.line) :
    ofTokens (ts ++ us.map m.token) = (ofTokens ts).join (m.parts (ofTokens us)) := by
  obtain ⟨k, hk, rfl, _⟩ := Gathering.ofTokens_of_getLast? ht hl
  have hgather := Gathering.ofTokens_append ht hl hc hlines hus
  have hnodup : (((Gathering.ofTokens ts).markedList).map (·.token)).Nodup :=
    hn.sublist (Gathering.follows_ofTokens ts).marked
  have hlast : (Gathering.ofTokens ts).markedList.getLast? = some k := by
    rwa [Gathering.markedList, List.getLast?_reverse]
  have hreached : Divided.reached none none (Gathering.ofTokens ts).markedList =
      (some k.token, none) := by
    refine Divided.reached_of_getLast? hnodup hlast ?_
    simpa [tokens, ofTokens] using hcode
  have hlt : ∀ j ∈ (Gathering.ofTokens us).markedList.map m.marked,
      k.token.endLine < j.token.line := by
    intro j hj
    obtain ⟨i, hi, rfl⟩ := List.mem_map.mp hj
    have hi := (Gathering.follows_ofTokens us).marked.mem (List.mem_map_of_mem hi)
    have hpos := hus _ hi
    simp only [Token.line, Move.marked, Move.token, Move.span, Move.place] at hpos ⊢
    omega
  have hdivided := Divided.ofMarked_append none none (Gathering.ofTokens ts).markedList
    ((Gathering.ofTokens us).markedList.map m.marked)
    (by rw [hreached]; exact Divided.continuation_of_none _ _)
  have hmove := Divided.ofMarked_move m none none (Gathering.ofTokens us).markedList
  simp only [hreached, Divided.ofMarked_of_lt hlt, Option.map_none] at hdivided hmove
  rw [hmove] at hdivided
  simp only [ofTokens, join, Move.parts, hgather, Gathering.commentList_behind,
    Gathering.markedList_behind, hdivided]
  rfl

end Parts
end CLint
