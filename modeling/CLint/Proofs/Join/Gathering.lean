import CLint.Proofs.Division
import CLint.Proofs.Join.Placing

namespace CLint

namespace Move

def marked (m : Move) (k : Marked) : Marked where
  token := m.token k.token
  comment := k.comment.map (· + m.comments)

def gathered (m : Move) : Token × List Token × Bool → Token × List Token × Bool
  | (last, earlier, trailing) => (m.token last, earlier.map m.token, trailing)

theorem isLine_token (m : Move) (t : Token) : Comment.isLine (m.token t) = Comment.isLine t :=
  rfl

theorem comment_ofTokens (m : Move) (first : Token) (others : List Token) (trailing : Bool) :
    Comment.ofTokens (m.token first) (others.map m.token) trailing =
      m.comment (Comment.ofTokens first others trailing) := by
  have hlast : ((m.token first :: others.map m.token).getLast?.getD (m.token first)).span =
      m.span ((first :: others).getLast?.getD first).span := by
    rw [← List.map_cons, List.getLast?_map, Option.getD_map]
    rfl
  have htext : (m.token first :: others.map m.token).map Token.text =
      (first :: others).map Token.text := by
    simp [token, Token.text]
  have hall : (m.token first :: others.map m.token).all (·.lexeme.terminated) =
      (first :: others).all (·.lexeme.terminated) := by
    simp [token, Function.comp_def]
  simp only [Comment.ofTokens, hlast, htext, hall]
  rfl

end Move

namespace Gathering

variable {m : Move} {f g : Gathering} {t : Token} {ts us : List Token}

-- The numbers of comments that are in use are numbers of comments that were seen.
structure Numbered (g : Gathering) : Prop where
  pending : ∀ n ∈ g.pending, n < g.comments.length
  marked : ∀ k ∈ g.marked, ∀ n ∈ k.comment, n < g.comments.length

theorem Numbered.weaken {comments : List (Token × List Token × Bool)} {pending : Option Nat}
    (h : Numbered g) (hc : g.comments.length ≤ comments.length)
    (hp : ∀ n ∈ pending, n < comments.length) :
    Numbered { g with comments := comments, pending := pending } where
  pending := hp
  marked k hk n hn := Nat.lt_of_lt_of_le (h.marked k hk n hn) hc

theorem Numbered.step (h : Numbered g) (t : Token) : Numbered (g.step t) := by
  unfold Gathering.step
  split
  case isTrue =>
    unfold Gathering.comment
    split
    case h_1 hc =>
      have hlen := List.length_pos_of_mem (mem_of_continues? hc)
      have hle : g.comments.length ≤ g.comments.tail.length + 1 := by
        rw [List.length_tail]
        omega
      exact h.weaken hle fun n hn => Nat.lt_of_lt_of_le (h.pending n hn) hle
    case h_2 =>
      refine h.weaken (Nat.le_succ _) fun n hn => ?_
      split at hn
      case isTrue => exact Nat.lt_succ_of_lt (h.pending n hn)
      case isFalse =>
        cases hn
        exact Nat.lt_succ_self _
  case isFalse =>
    split
    case isTrue => exact h
    case isFalse =>
      refine ⟨by simp, fun k hk => ?_⟩
      cases List.mem_cons.mp hk
      case inl hk =>
        subst hk
        exact h.pending
      case inr hk => exact h.marked k hk

theorem numbered_ofTokens (ts : List Token) : Numbered (ofTokens ts) := by
  suffices ∀ g, Numbered g → Numbered (ts.foldl Gathering.step g) from
    this {} ⟨by simp, by simp⟩
  induction ts with
  | nil => exact fun g h => h
  | cons t ts ih => exact fun g h => ih _ (h.step t)

-- What is gathered from a text behind another one, given what is gathered from each by itself.
def behind (g : Gathering) (m : Move) (f : Gathering) : Gathering where
  comments := f.comments.map m.gathered ++ g.comments
  pending := f.pending.map (· + m.comments)
  line := (f.line.map (· + m.lines)).or g.line
  marked := f.marked.map m.marked ++ g.marked

theorem behind_nothing (h : g.pending = none) : g.behind m {} = g := by
  cases g
  cases h
  rfl

theorem line_behind_eq_iff (hg : ∀ n ∈ g.line, n ≤ m.lines) (ht : 0 < t.line) :
    (g.behind m f).line = some (m.token t).line ↔ f.line = some t.line := by
  have hline : (m.token t).line = t.line + m.lines := rfl
  rw [hline, behind]
  cases hf : f.line with
  | some n => simp
  | none =>
    simp only [Option.map_none, Option.none_or, reduceCtorEq, iff_false]
    intro he
    have := hg _ he
    omega

theorem continues?_cons {c : Token × List Token × Bool} {cs : List (Token × List Token × Bool)}
    (h : g.comments = c :: cs) : g.continues? t =
      if g.line ≠ some t.line && g.pending = some (g.comments.length - 1) && Comment.isLine t &&
        Comment.isLine c.1 && c.1.endLine + 1 = t.line
      then some c else none := by
  simp only [continues?, h]

theorem continues?_behind (hf : Numbered f) (hc : m.comments = g.comments.length)
    (hg : ∀ n ∈ g.line, n ≤ m.lines) (ht : 0 < t.line) :
    (g.behind m f).continues? (m.token t) = (f.continues? t).map m.gathered := by
  have hline := line_behind_eq_iff (f := f) hg ht
  cases hcomments : f.comments with
  | nil =>
    have hp : f.pending = none := by
      cases hp : f.pending with
      | none => rfl
      | some n =>
        have := hf.pending n hp
        simp [hcomments] at this
    have hnone : f.continues? t = none := by rw [continues?, hcomments]
    rw [hnone, Option.map_none, continues?]
    split
    · rfl
    · simp [behind, hp]
  | cons c cs =>
    obtain ⟨last, earlier, trailing⟩ := c
    have hpending : (g.behind m f).pending = some ((g.behind m f).comments.length - 1) ↔
        f.pending = some (f.comments.length - 1) := by
      cases hp : f.pending with
      | none => simp [behind, hp]
      | some n =>
        simp only [behind, hp, hcomments, Option.map_some, Option.some.injEq, List.length_append,
          List.length_map, List.length_cons]
        omega
    have hend : (m.token last).endLine + 1 = (m.token t).line ↔ last.endLine + 1 = t.line := by
      simp only [Move.token, Move.span, Move.place, Token.endLine, Token.line]
      omega
    have hcons : (g.behind m f).comments =
        m.gathered (last, earlier, trailing) :: (cs.map m.gathered ++ g.comments) := by
      rw [behind, hcomments]
      rfl
    rw [continues?_cons hcons, continues?_cons hcomments]
    simp only [Bool.and_eq_true, decide_eq_true_eq, ne_eq, hline, hpending, Move.gathered, hend,
      Move.isLine_token]
    split <;> rfl

theorem step_behind (hf : Numbered f) (hc : m.comments = g.comments.length)
    (hg : ∀ n ∈ g.line, n ≤ m.lines) (ht : 0 < t.line) :
    (g.behind m f).step (m.token t) = g.behind m (f.step t) := by
  have hl : (m.token t).lexeme = t.lexeme := rfl
  unfold step
  rw [hl]
  split
  case isTrue =>
    unfold comment
    rw [continues?_behind hf hc hg ht]
    cases hcont : f.continues? t with
    | some c =>
      obtain ⟨last, earlier, trailing⟩ := c
      have hne : f.comments ≠ [] := List.ne_nil_of_mem (mem_of_continues? hcont)
      obtain ⟨d, ds, hd⟩ := List.exists_cons_of_ne_nil hne
      simp [behind, hd, Move.gathered]
    | none =>
      have hline := line_behind_eq_iff (f := f) hg ht
      simp only [Option.map_none, hline]
      simp only [behind, Move.gathered, List.map_cons, List.map_nil, List.cons_append,
        List.length_append, List.length_map, Gathering.mk.injEq, and_true, true_and]
      rw [hc]
      split <;> rfl
  case isFalse =>
    split
    case isTrue => rfl
    case isFalse => rfl

theorem foldl_step_behind (hf : Numbered f) (hc : m.comments = g.comments.length)
    (hg : ∀ n ∈ g.line, n ≤ m.lines) (hts : ∀ t ∈ ts, 0 < t.line) :
    (ts.map m.token).foldl step (g.behind m f) = g.behind m (ts.foldl step f) := by
  induction ts generalizing f with
  | nil => rfl
  | cons t ts ih =>
    rw [List.map_cons, List.foldl_cons, List.foldl_cons,
      step_behind hf hc hg (hts t List.mem_cons_self),
      ih (hf.step t) fun u hu => hts u (List.mem_cons_of_mem t hu)]

theorem foldl_step_of_isTrivia {g : Gathering} (h : ∀ t ∈ ts, t.lexeme.isTrivia) :
    ts.foldl step g = g := by
  induction ts generalizing g with
  | nil => rfl
  | cons t ts ih =>
    have ht := h t List.mem_cons_self
    have hc : t.lexeme.isComment = false := by
      cases hl : t.lexeme <;> rw [hl] at ht <;> first | rfl | cases ht
    rw [List.foldl_cons, step, hc, ht]
    exact ih fun u hu => h u (List.mem_cons_of_mem t hu)

-- No comment is pending behind a last token that is no comment itself.
theorem ofTokens_of_getLast? (ht : (ts.filter (!·.lexeme.isTrivia)).getLast? = some t)
    (hl : t.lexeme.isComment = false) : ∃ k, (ofTokens ts).marked.head? = some k ∧ k.token = t ∧
      (ofTokens ts).pending = none ∧ (ofTokens ts).line = some t.endLine := by
  obtain ⟨htrivia, as, bs, rfl, hbs⟩ := append_of_getLast?_filter ht
  rw [Bool.not_eq_eq_eq_not, Bool.not_true] at htrivia
  rw [ofTokens, List.foldl_append, List.foldl_cons,
    foldl_step_of_isTrivia fun b hb => by simpa using hbs b hb, step, hl, htrivia]
  exact ⟨_, rfl, rfl, rfl, rfl⟩

theorem length_commentList (g : Gathering) : g.commentList.length = g.comments.length := by
  simp [commentList]

theorem ofTokens_append (ht : (ts.filter (!·.lexeme.isTrivia)).getLast? = some t)
    (hl : t.lexeme.isComment = false) (hc : m.comments = (ofTokens ts).commentList.length)
    (hlines : t.endLine ≤ m.lines) (hus : ∀ u ∈ us, 0 < u.line) :
    ofTokens (ts ++ us.map m.token) = (ofTokens ts).behind m (ofTokens us) := by
  obtain ⟨_, _, _, hpending, hline⟩ := ofTokens_of_getLast? ht hl
  have hstart : (ofTokens ts).behind m {} = ofTokens ts := behind_nothing hpending
  have hg : ∀ n ∈ (ofTokens ts).line, n ≤ m.lines := by
    rw [hline]
    rintro n ⟨⟩
    exact hlines
  rw [length_commentList] at hc
  conv => lhs; rw [ofTokens, List.foldl_append, ← ofTokens, ← hstart]
  exact foldl_step_behind (numbered_ofTokens []) hc hg hus

theorem commentList_behind (g : Gathering) (m : Move) (f : Gathering) :
    (g.behind m f).commentList = g.commentList ++ f.commentList.map m.comment := by
  simp only [commentList, behind, List.reverse_append, List.map_append, ← List.map_reverse,
    List.map_map]
  congr 1
  refine List.map_congr_left fun c _ => ?_
  obtain ⟨last, earlier, trailing⟩ := c
  simp only [Function.comp, Move.gathered, ← List.map_reverse]
  cases earlier.reverse with
  | nil => exact m.comment_ofTokens last [] trailing
  | cons first others =>
    rw [← m.comment_ofTokens, List.map_append]
    rfl

theorem markedList_behind (g : Gathering) (m : Move) (f : Gathering) :
    (g.behind m f).markedList = g.markedList ++ f.markedList.map m.marked := by
  simp [markedList, behind]

end Gathering
end CLint
