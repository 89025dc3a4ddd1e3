import CLint.Proofs.Partition

namespace CLint

namespace Gathering

variable {f g : Gathering} {t : Token} {ts us : List Token} {c : Token × List Token × Bool}
  {n : Nat}
  {k : Marked}

theorem pending_of_continues? (h : g.continues? t = some c) :
    g.pending = some (g.comments.length - 1) := by
  rw [continues?_cons (comments_of_continues? h)] at h
  split at h
  case isFalse => cases h
  case isTrue hjoins =>
    simp only [ne_eq, Bool.and_eq_true, decide_eq_true_eq] at hjoins
    exact hjoins.1.1.1.2

-- What was gathered before some tokens, of which the comments are all settled, and then with them.
-- The comments that wait are new ones.
structure Extends (g f : Gathering) (ts : List Token) : Prop where
  comments : ∃ new, f.comments = new ++ g.comments ∧ ∀ c ∈ new, ∀ t ∈ tokensOf c, t ∈ ts
  pending : ∀ n ∈ f.pending, g.comments.length ≤ n ∧ n < f.comments.length

theorem Extends.step (h : Extends g f ts) (t : Token) : Extends g (f.step t) (ts ++ [t]) := by
  obtain ⟨new, hnew, htokens⟩ := h.comments
  have hmono : ∀ c ∈ new, ∀ u ∈ tokensOf c, u ∈ ts ++ [t] := fun c hc u hu =>
    List.mem_append_left _ (htokens c hc u hu)
  unfold Gathering.step
  split
  case isTrue =>
    unfold Gathering.comment
    split
    case h_1 last earlier trailing hc =>
      -- The comment that goes on is a new one, as it waits.
      have hlast := (h.pending _ (pending_of_continues? hc)).1
      have hcons := comments_of_continues? hc
      have hlength := congrArg List.length hnew
      rw [List.length_append] at hlength
      have hpos := congrArg List.length hcons
      rw [List.length_cons] at hpos
      obtain ⟨c, new, rfl⟩ := List.exists_cons_of_length_pos (l := new) (by omega)
      obtain ⟨rfl, htail⟩ := List.cons.inj (hcons.symm.trans (hnew.trans (List.cons_append ..)))
      refine ⟨⟨(t, last :: earlier, trailing) :: new, by rw [htail, List.cons_append], ?_⟩, ?_⟩
      · obtain ⟨hfirst, hothers⟩ := List.forall_mem_cons.mp hmono
        refine List.forall_mem_cons.mpr ⟨fun u hu => ?_, hothers⟩
        rw [tokensOf, List.reverse_cons, List.mem_append] at hu
        rcases hu with hu | hu
        · exact hfirst u hu
        · exact List.mem_append_right _ hu
      · intro n hn
        have := h.pending n hn
        rw [List.length_cons, ← hpos]
        exact this
    case h_2 =>
      refine ⟨⟨(t, [], decide (f.line = some t.line)) :: new, by rw [hnew, List.cons_append],
        List.forall_mem_cons.mpr ⟨?_, hmono⟩⟩, fun n hn => ?_⟩
      · exact fun u hu => List.mem_append_right _ hu
      · have hlength : g.comments.length ≤ f.comments.length := by simp [hnew]
        dsimp only at hn ⊢
        rw [List.length_cons]
        split at hn
        case isTrue =>
          have := h.pending n hn
          omega
        case isFalse =>
          cases hn
          omega
  case isFalse =>
    split
    case isTrue => exact ⟨⟨new, hnew, hmono⟩, h.pending⟩
    case isFalse => exact ⟨⟨new, hnew, hmono⟩, fun n hn => by cases hn⟩

theorem extends_foldl (h : g.pending = none) (ts : List Token) :
    Extends g (ts.foldl Gathering.step g) ts := by
  induction ts using List.reverseRecOn with
  | nil => exact ⟨⟨[], rfl, List.forall_mem_nil _⟩, by simp [h]⟩
  | append_singleton ts t ih =>
    rw [List.foldl_concat]
    exact ih.step t

-- The last comment that is not a trailing one waits, with nothing behind it that it could be
-- about.
structure Waits (g : Gathering) (ts : List Token) (n : Nat) (c : Token × List Token × Bool) :
    Prop where
  number : g.comments.reverse[n]? = some c
  ahead : c.2.2 = false
  behind : ∃ before between, ts = before ++ c.1 :: between ∧
    ∀ t ∈ between, t.lexeme.isTrivia ∨ t.lexeme.isComment
  others : ∀ c' ∈ g.comments.reverse.drop (n + 1), c'.2.2

theorem Waits.lt_length (h : Waits g ts n c) : n < g.comments.length := by
  have hlt := (List.getElem?_eq_some_iff.mp h.number).1
  rwa [List.length_reverse] at hlt

theorem exists_waits_step (h : ∀ n ∈ g.pending, ∃ c, Waits g ts n c) (t : Token) :
    ∀ n ∈ (g.step t).pending, ∃ c, Waits (g.step t) (ts ++ [t]) n c := by
  unfold step
  split
  case isTrue hcomment =>
    unfold comment
    split
    case h_1 last earlier trailing hc =>
      intro n hn
      have hn : n ∈ g.pending := hn
      obtain ⟨c, hwaits⟩ := h n hn
      have hcons := comments_of_continues? hc
      have hlength : n = g.comments.tail.length := by
        rw [List.length_tail]
        exact Option.mem_unique hn (pending_of_continues? hc)
      have hreverse : g.comments.reverse =
          g.comments.tail.reverse ++ [(last, earlier, trailing)] := by
        rw [← List.reverse_cons, ← hcons]
      obtain rfl : (last, earlier, trailing) = c := by
        have hnumber := hwaits.number
        rw [hreverse, hlength, ← List.length_reverse, List.getElem?_concat_length] at hnumber
        exact Option.some.inj hnumber
      refine ⟨(t, last :: earlier, trailing), ?_, ?_, ⟨ts, [], rfl, List.forall_mem_nil _⟩, ?_⟩
      · rw [List.reverse_cons, hlength, ← List.length_reverse, List.getElem?_concat_length]
      · exact hwaits.ahead
      · rw [List.drop_of_length_le]
        · exact List.forall_mem_nil _
        · simp only [List.length_reverse, List.length_cons]
          omega
    case h_2 =>
      intro n hn
      dsimp only at hn ⊢
      split at hn
      case isTrue hline =>
        obtain ⟨c, hwaits⟩ := h n hn
        have hlt := hwaits.lt_length
        obtain ⟨before, between, hts, hbetween⟩ := hwaits.behind
        refine ⟨c, ?_, hwaits.ahead, ⟨before, between ++ [t], by simp [hts], ?_⟩, ?_⟩
        · rw [List.reverse_cons, List.getElem?_append_left (by simpa using hlt)]
          exact hwaits.number
        · rw [List.forall_mem_append]
          exact ⟨hbetween, List.forall_mem_singleton.mpr (.inr hcomment)⟩
        · have hle : n + 1 ≤ g.comments.reverse.length := by simpa using Nat.succ_le_of_lt hlt
          rw [List.reverse_cons, List.drop_append_of_le_length hle, List.forall_mem_append]
          exact ⟨hwaits.others, List.forall_mem_singleton.mpr (decide_eq_true hline)⟩
      case isFalse hline =>
        cases hn
        refine ⟨(t, [], decide (g.line = some t.line)), ?_, decide_eq_false hline,
          ⟨ts, [], rfl, List.forall_mem_nil _⟩, ?_⟩
        · rw [List.reverse_cons, ← List.length_reverse, List.getElem?_concat_length]
        · rw [List.drop_of_length_le]
          · exact List.forall_mem_nil _
          · simp
  case isFalse =>
    split
    case isTrue htrivia =>
      intro n hn
      obtain ⟨c, hwaits⟩ := h n hn
      obtain ⟨before, between, hts, hbetween⟩ := hwaits.behind
      refine ⟨c, hwaits.number, hwaits.ahead, ⟨before, between ++ [t], by simp [hts], ?_⟩,
        hwaits.others⟩
      rw [List.forall_mem_append]
      exact ⟨hbetween, List.forall_mem_singleton.mpr (.inl htrivia)⟩
    case isFalse => exact nofun

theorem exists_waits_ofTokens (ts : List Token) :
    ∀ n ∈ (ofTokens ts).pending, ∃ c, Waits (ofTokens ts) ts n c := by
  induction ts using List.reverseRecOn with
  | nil => exact nofun
  | append_singleton ts t ih =>
    rw [ofTokens_concat]
    exact exists_waits_step ih t

-- A token that is neither blank nor a comment gets the comment that waits at that time.
theorem exists_append_of_mem_markedList (h : k ∈ (ofTokens ts).markedList) :
    ∃ before behind, ts = before ++ k.token :: behind ∧ k.comment = (ofTokens before).pending ∧
      k.token.lexeme.isComment = false ∧ k.token.lexeme.isTrivia = false := by
  induction ts using List.reverseRecOn with
  | nil => cases h
  | append_singleton ts t ih =>
    have hearlier (hk : k ∈ (ofTokens ts).markedList) : ∃ before behind,
        ts ++ [t] = before ++ k.token :: behind ∧ k.comment = (ofTokens before).pending ∧
          k.token.lexeme.isComment = false ∧ k.token.lexeme.isTrivia = false := by
      obtain ⟨before, behind, hts, hrest⟩ := ih hk
      exact ⟨before, behind ++ [t], by simp [hts], hrest⟩
    rw [ofTokens_concat, step] at h
    split at h
    case isTrue =>
      rw [markedList_comment] at h
      exact hearlier h
    case isFalse hc =>
      split at h
      case isTrue => exact hearlier h
      case isFalse ht =>
        rw [markedList, List.reverse_cons, List.mem_append] at h
        rcases h with h | h
        · exact hearlier h
        · cases List.mem_singleton.mp h
          exact ⟨ts, [], rfl, rfl, by simpa using hc, by simpa using ht⟩

-- A comment stands before a token with nothing but blanks and comments in between. The comments
-- that follow are trailing ones, or they come behind the token.
structure Leads (g : Gathering) (ts : List Token) (k : Marked) (n : Nat)
    (c : Token × List Token × Bool) : Prop where
  number : g.comments.reverse[n]? = some c
  ahead : c.2.2 = false
  place : ∃ before between behind, ts = before ++ c.1 :: (between ++ k.token :: behind) ∧
    (∀ t ∈ between, t.lexeme.isTrivia ∨ t.lexeme.isComment) ∧
    ∀ c' ∈ g.comments.reverse.drop (n + 1), c'.2.2 ∨ ∀ t ∈ tokensOf c', t ∈ behind

theorem extends_behind_marked (hc : k.token.lexeme.isComment = false)
    (ht : k.token.lexeme.isTrivia = false) (before behind : List Token) :
    Extends (ofTokens before) (ofTokens (before ++ k.token :: behind)) behind := by
  have hstep : (ofTokens before).step k.token =
      { ofTokens before with
        pending := none
        line := some k.token.endLine
        marked := ⟨k.token, (ofTokens before).pending⟩ :: (ofTokens before).marked } := by
    rw [step, hc, ht]
    rfl
  have hextends := extends_foldl (g := (ofTokens before).step k.token) (by rw [hstep]) behind
  have hfold : ofTokens (before ++ k.token :: behind) =
      behind.foldl step ((ofTokens before).step k.token) := by
    rw [ofTokens, List.foldl_append, List.foldl_cons]
    rfl
  have hcomments : ((ofTokens before).step k.token).comments = (ofTokens before).comments := by
    rw [hstep]
  rw [hfold]
  exact ⟨hcomments ▸ hextends.comments, hcomments ▸ hextends.pending⟩

theorem exists_leads_of_mem_markedList (h : k ∈ (ofTokens ts).markedList)
    (hn : k.comment = some n) : ∃ c, Leads (ofTokens ts) ts k n c := by
  obtain ⟨before, behind, rfl, hpending, hcomment, htrivia⟩ := exists_append_of_mem_markedList h
  obtain ⟨c, hwaits⟩ := exists_waits_ofTokens before n (hpending ▸ hn)
  obtain ⟨new, hnew, htokens⟩ := (extends_behind_marked hcomment htrivia before behind).comments
  have hlt : n < (ofTokens before).comments.reverse.length := by
    simpa using hwaits.lt_length
  obtain ⟨front, between, hts, hbetween⟩ := hwaits.behind
  refine ⟨c, ?_, hwaits.ahead, ⟨front, between, behind, by simp [hts], hbetween, ?_⟩⟩
  · rw [hnew, List.reverse_append, List.getElem?_append_left hlt]
    exact hwaits.number
  · rw [hnew, List.reverse_append, List.drop_append_of_le_length hlt, List.forall_mem_append]
    refine ⟨fun c' hc' => .inl (hwaits.others c' hc'), fun c' hc' => .inr ?_⟩
    exact htokens c' (List.mem_reverse.mp hc')

-- Behind a token with a comment, that comment does not wait any longer.
theorem comment_ne_of_append {k' : Marked} {before behind before' : List Token}
    (hbefore : before' = before ++ k.token :: behind) (hc : k.token.lexeme.isComment = false)
    (ht : k.token.lexeme.isTrivia = false) (hk : (ofTokens before).pending = some n)
    (hk' : k'.comment = (ofTokens before').pending) : k'.comment ≠ some n := by
  intro hn
  subst hbefore
  have hlt := (numbered_ofTokens before).pending n hk
  have hle := ((extends_behind_marked hc ht before behind).pending n (hk' ▸ hn)).1
  omega

-- No comment is given to two tokens.
theorem eq_of_comment_eq {k' : Marked} (h : k ∈ (ofTokens ts).markedList)
    (h' : k' ∈ (ofTokens ts).markedList) (hn : k.comment = some n) (hn' : k'.comment = some n) :
    k = k' := by
  obtain ⟨before, behind, hts, hk, hc, ht⟩ := exists_append_of_mem_markedList h
  obtain ⟨before', behind', hts', hk', hc', ht'⟩ := exists_append_of_mem_markedList h'
  have hsame (hb : before' = before) (hrest : k.token :: behind = k'.token :: behind') :
      k = k' := by
    obtain ⟨htoken, -⟩ := List.cons.inj hrest
    cases k
    cases k'
    simp_all
  rcases List.append_eq_append_iff.mp (hts.symm.trans hts') with ⟨between, hb, hrest⟩ |
    ⟨between, hb, hrest⟩
  case inl =>
    cases between with
    | nil => exact hsame (by simpa using hb) hrest
    | cons t between =>
      obtain ⟨rfl, -⟩ := List.cons.inj hrest
      exact absurd hn' (comment_ne_of_append hb hc ht (hk ▸ hn) hk')
  case inr =>
    cases between with
    | nil => exact hsame (by simpa using hb.symm) hrest.symm
    | cons t between =>
      obtain ⟨rfl, -⟩ := List.cons.inj hrest
      exact absurd hn (comment_ne_of_append hb hc' ht' (hk' ▸ hn') hk)

end Gathering

end CLint
