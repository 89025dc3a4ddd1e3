import CLint.Proofs.Attached.Gathering
import CLint.Proofs.Forest.Outline
import CLint.Proofs.Join.Outline

namespace CLint

namespace Gathering

variable {g : Gathering} {ts : List Token} {c c' : Token × List Token × Bool}

def describe : Token × List Token × Bool → Comment
  | (last, earlier, trailing) =>
    match earlier.reverse with
    | [] => Comment.ofTokens last [] trailing
    | first :: others => Comment.ofTokens first (others ++ [last]) trailing

theorem commentList_eq_map (g : Gathering) : g.commentList = g.comments.reverse.map describe :=
  rfl

@[simp]
theorem isTrailing_describe (c : Token × List Token × Bool) :
    (describe c).isTrailing = c.2.2 := by
  obtain ⟨last, earlier, trailing⟩ := c
  rw [describe]
  split <;> rfl

theorem stop_describe (c : Token × List Token × Bool) :
    (describe c).span.stop = c.1.span.stop := by
  obtain ⟨last, earlier, trailing⟩ := c
  rw [describe]
  split
  case h_1 => rfl
  case h_2 first others _ =>
    have hlast : (first :: (others ++ [last])).getLast? = some last := by
      rw [← List.cons_append, List.getLast?_concat]
    simp [Comment.ofTokens, Span.cover, hlast]

theorem exists_start_describe (c : Token × List Token × Bool) :
    ∃ t ∈ tokensOf c, (describe c).span.start = t.span.start := by
  obtain ⟨last, earlier, trailing⟩ := c
  rw [tokensOf, List.reverse_cons, describe]
  dsimp only
  split
  case h_1 h => exact ⟨last, by simp, rfl⟩
  case h_2 first others h => exact ⟨first, by simp [h], rfl⟩

theorem last_mem_tokensOf (c : Token × List Token × Bool) : c.1 ∈ tokensOf c := by
  simp [tokensOf]

-- The comments are in the order of the text.
theorem pairwise_comments (ho : Token.Ordered ts) : (ofTokens ts).comments.reverse.Pairwise
    fun c c' => ∀ t ∈ tokensOf c, ∀ u ∈ tokensOf c', t.endOffset ≤ u.offset := by
  have h := ho.sublist (List.filter_sublist (p := (·.lexeme.isComment)))
  rw [← flatten_groups_ofTokens] at h
  exact List.pairwise_map.mp (List.pairwise_flatten.mp h.apart).2

-- The last token of a comment begins no earlier than any other one.
theorem offset_le_of_mem_tokensOf (ho : Token.Ordered ts) {t : Token}
    (hc : c ∈ (ofTokens ts).comments) (ht : t ∈ tokensOf c) : t.offset ≤ c.1.offset := by
  have h := ho.sublist ((follows_ofTokens ts).comments c hc)
  have hne := h.nonempty t ht
  have happart := h.apart
  rw [tokensOf, List.reverse_cons, List.mem_append, List.mem_singleton] at ht
  rw [List.reverse_cons, List.pairwise_append] at happart
  rcases ht with ht | rfl
  · have := happart.2.2 t ht c.1 (List.mem_singleton_self _)
    omega
  · exact Nat.le_refl _

theorem mem_of_mem_tokensOf {t : Token} (hc : c ∈ (ofTokens ts).comments) (ht : t ∈ tokensOf c) :
    t ∈ ts := by
  have hmem : t ∈ (ofTokens ts).groups.flatten :=
    List.mem_flatten.mpr ⟨_, List.mem_map_of_mem (List.mem_reverse.mpr hc), ht⟩
  rw [flatten_groups_ofTokens] at hmem
  exact (List.mem_filter.mp hmem).1

end Gathering

namespace Parts

open Outline

variable {ts : List Token} {d e : Declaration Span} {n : Nat}

-- The comment of a declaration is that of its first token.
theorem exists_marked_of_mem_definitions (h : d ∈ (ofTokens ts).definitions)
    (hn : d.comment = some n) : ∃ k ∈ (Gathering.ofTokens ts).markedList,
      k.comment = some n ∧ d.span.start = k.token.span.start := by
  obtain ⟨⟨hash, rest⟩, hd, h⟩ := List.mem_filterMap.mp h
  have hmem := ((Divided.sublist_ofMarked ..).2.2 _ hd).mem List.mem_cons_self
  dsimp only at h
  unfold Directive.definition? at h
  split at h
  case h_2 => cases h
  case h_1 =>
    split at h <;> cases h
    exact ⟨hash, hmem, hn, rfl⟩

theorem exists_marked_of_join_leads {i : Nat} (hn : ((ofTokens ts).leads[i]?).join = some n) :
    ∃ k ∈ (Gathering.ofTokens ts).markedList,
      k.comment = some n ∧ (tokenAt (ofTokens ts).tokens i).span.start = k.token.span.start := by
  have hlead := Option.join_eq_some_iff.mp hn
  rw [leads, List.getElem?_toArray, List.getElem?_map, Option.map_eq_some_iff] at hlead
  obtain ⟨k, hk, hc⟩ := hlead
  refine ⟨k, (Divided.sublist_ofMarked ..).1.mem (List.mem_of_getElem? hk), hc, ?_⟩
  rw [tokenAt, tokens, Array.getD_eq_getD_getElem?, List.getElem?_toArray, List.getElem?_map, hk]
  rfl

theorem exists_marked_of_mem_declarations (h : d ∈ (ofTokens ts).declarations)
    (hn : d.comment = some n) : ∃ k ∈ (Gathering.ofTokens ts).markedList,
      k.comment = some n ∧ d.span.start = k.token.span.start := by
  obtain ⟨ds, hds, d', hd, _, rfl⟩ := Outline.mem_of_mem_grouped h
  cases List.mem_append.mp hds
  case inl hds =>
    obtain ⟨e, he, rfl⟩ := List.mem_map.mp hds
    cases List.mem_singleton.mp hd
    obtain ⟨k, hk, hkn, hstart⟩ := exists_marked_of_mem_definitions he hn
    exact ⟨k, hk, hkn, hstart⟩
  case inr hds =>
    obtain ⟨b, _, rfl⟩ := List.mem_map.mp hds
    obtain ⟨r, _, rfl⟩ := List.mem_map.mp hd
    exact exists_marked_of_join_leads hn

-- Declarations that begin at different tokens have different comments.
theorem pairwise_comment_declarations (ho : Token.Ordered ts) :
    (ofTokens ts).declarations.Pairwise fun d e => ∀ n, d.comment = some n →
      e.comment ≠ some n := by
  refine (List.pairwise_map.mp (pairwise_declarations ho)).imp_of_mem ?_
  intro d e hd he hnests n hn hn'
  obtain ⟨k, hk, hkn, hstart⟩ := exists_marked_of_mem_declarations hd hn
  obtain ⟨k', hk', hkn', hstart'⟩ := exists_marked_of_mem_declarations he hn'
  have hsame : d.span.start = e.span.start := by
    rw [hstart, hstart', Gathering.eq_of_comment_eq hk hk' hkn hkn']
  rcases hnests with h | h <;> exact Nat.ne_of_lt h.start_lt (by rw [hsame])

end Parts

namespace Outline

variable {ds : List (Declaration Span)} {d e : Declaration Span} {n : Nat}

theorem ownerOf_of_mem
    (h : ds.Pairwise fun d e => ∀ n, d.comment = some n → e.comment ≠ some n) (hd : d ∈ ds)
    (hn : d.comment = some n) : ownerOf ds n = some d.name := by
  obtain ⟨as, bs, rfl⟩ := List.append_of_mem hd
  have hbefore : ∀ a ∈ as, ¬(decide (a.comment = some n)) = true := by
    intro a ha hcomment
    have hne := (List.pairwise_append.mp h).2.2 a ha d List.mem_cons_self
    exact hne n (of_decide_eq_true hcomment) hn
  rw [ownerOf, List.find?_append, List.find?_eq_none.mpr hbefore, Option.none_or,
    List.find?_cons_of_pos (by simpa using hn)]
  rfl

-- A declaration always keeps its comment.
theorem keepComment_of_mem
    (h : ds.Pairwise fun d e => ∀ n, d.comment = some n → e.comment ≠ some n) (hd : d ∈ ds) :
    keepComment ds d = d := by
  unfold keepComment
  split
  case isTrue => rfl
  case isFalse hnot =>
    cases hn : d.comment with
    | none => rw [← hn]
    | some n => exact absurd (by rw [hn, Option.bind_some, ownerOf_of_mem h hd hn]) hnot

theorem filter_comment_eq
    (h : ds.Pairwise fun d e => ∀ n, d.comment = some n → e.comment ≠ some n) (hd : d ∈ ds)
    (hn : d.comment = some n) : ds.filter (·.comment = some n) = [d] := by
  obtain ⟨as, bs, rfl⟩ := List.append_of_mem hd
  obtain ⟨-, hbehind, hbefore⟩ := List.pairwise_append.mp h
  have has : as.filter (·.comment = some n) = [] := by
    refine List.filter_eq_nil_iff.mpr fun a ha hcomment => ?_
    exact hbefore a ha d List.mem_cons_self n (of_decide_eq_true hcomment) hn
  have hbs : bs.filter (·.comment = some n) = [] := by
    refine List.filter_eq_nil_iff.mpr fun b hb hcomment => ?_
    exact (List.pairwise_cons.mp hbehind).1 b hb n hn (of_decide_eq_true hcomment)
  rw [List.filter_append, has, List.filter_cons_of_pos (by simpa using hn), hbs]
  rfl

theorem getElem?_comments (source : Source) (n : Nat) : (ofSource source).comments[n]? =
    ((Gathering.ofTokens source.tokens).comments.reverse[n]?).map fun c =>
      { Gathering.describe c with
        attachedTo := ownerOf (Parts.ofTokens source.tokens).declarations n } := by
  simp only [ofSource, Parts.ofTokens, Gathering.commentList_eq_map, List.getElem?_map,
    List.getElem?_zipIdx, Option.map_map, Nat.zero_add]
  rfl

-- A comment stands before a declaration, with nothing in between but blanks and trailing comments.
structure Leads (o : Outline) (c : Comment) (d : Declaration Span) : Prop where
  before : c.span.stop.offset ≤ d.span.start.offset
  ahead : c.isTrailing = false
  tokens : ∀ t ∈ o.source.tokens, c.span.stop.offset ≤ t.offset →
    t.offset < d.span.start.offset → t.lexeme.isTrivia ∨ t.lexeme.isComment
  comments : ∀ c' ∈ o.comments, c.span.stop.offset ≤ c'.span.start.offset →
    c'.span.start.offset < d.span.start.offset → c'.isTrailing

-- The comments that are about declarations, and the declarations that have comments, are matched
-- one to one.
structure IsAttached (o : Outline) : Prop where
  carried : ∀ d ∈ o.declarations, ∀ n, d.comment = some n →
    ∃ c, o.comments[n]? = some c ∧ c.attachedTo = some d.name ∧ o.Leads c d
  owned : ∀ n c, o.comments[n]? = some c → ∀ name, c.attachedTo = some name →
    ∃ d, o.declarations.filter (·.comment = some n) = [d] ∧ d.name = name
  apart : o.declarations.Pairwise fun d e => ∀ c, o.commentOf d = some c → o.commentOf e ≠ some c
  trailing : ∀ c ∈ o.comments, c.isTrailing → c.attachedTo = none

section

variable {path text : String} {k : Marked} {c : Token × List Token × Bool}

theorem leads_describe (h : Gathering.Leads (Gathering.ofTokens (Source.ofText path text).tokens)
      (Source.ofText path text).tokens k n c)
    (hstart : d.span.start = k.token.span.start) (owner : Option String) :
    (ofSource (.ofText path text)).Leads { Gathering.describe c with attachedTo := owner } d := by
  have ho := Source.ordered_tokens path text
  obtain ⟨before, between, behind, hts, hbetween, hothers⟩ := h.place
  have hd : d.span.start.offset = k.token.offset := congrArg Place.offset hstart
  have hc : (Gathering.describe c).span.stop.offset = c.1.endOffset :=
    congrArg Place.offset (Gathering.stop_describe c)
  have happart := ho.apart
  have hnonempty := ho.nonempty
  rw [hts] at happart hnonempty
  simp only [List.pairwise_append, List.pairwise_cons, List.forall_mem_append,
    List.forall_mem_cons] at happart hnonempty
  obtain ⟨-, ⟨⟨-, hck, -⟩, -, ⟨hkbehind, -⟩, -⟩, hbefore⟩ := happart
  obtain ⟨-, hcne, -, hkne, -⟩ := hnonempty
  constructor
  case before => rwa [hc, hd]
  case ahead => rw [← h.ahead]; exact Gathering.isTrailing_describe c
  case tokens =>
    intro t ht hstop hlt
    have hne := ho.nonempty t ht
    have ht : t ∈ before ++ c.1 :: (between ++ k.token :: behind) := hts ▸ ht
    rw [hc] at hstop
    rw [hd] at hlt
    simp only [List.mem_append, List.mem_cons] at ht
    rcases ht with ht | rfl | ht | rfl | ht
    · have := (hbefore t ht).1
      omega
    · omega
    · exact hbetween t ht
    · omega
    · have := hkbehind t ht
      omega
  case comments =>
    intro c' hc' hstop hlt
    obtain ⟨m, hm⟩ := List.mem_iff_getElem?.mp hc'
    rw [getElem?_comments, Option.map_eq_some_iff] at hm
    obtain ⟨c₂, hc₂, rfl⟩ := hm
    obtain ⟨t, ht, hfirst⟩ := Gathering.exists_start_describe c₂
    have hoffset : (Gathering.describe c₂).span.start.offset = t.offset :=
      congrArg Place.offset hfirst
    rw [hc] at hstop
    rw [hd] at hlt
    dsimp only at hstop hlt
    rw [hoffset] at hstop hlt
    have hmem : c₂ ∈ (Gathering.ofTokens (Source.ofText path text).tokens).comments :=
      List.mem_reverse.mp (List.mem_of_getElem? hc₂)
    have hne := ho.nonempty t (Gathering.mem_of_mem_tokensOf hmem ht)
    have hpairwise := List.pairwise_iff_getElem.mp (Gathering.pairwise_comments ho)
    obtain ⟨hm, hm'⟩ := List.getElem?_eq_some_iff.mp hc₂
    obtain ⟨hn, hn'⟩ := List.getElem?_eq_some_iff.mp h.number
    rcases Nat.lt_trichotomy m n with hlt' | rfl | hlt'
    · have := hpairwise m n hm hn hlt' t (hm' ▸ ht) c.1 (hn' ▸ Gathering.last_mem_tokensOf c)
      omega
    · obtain rfl : c₂ = c := hm'.symm.trans hn'
      have := Gathering.offset_le_of_mem_tokensOf ho hmem ht
      omega
    · have hdrop : c₂ ∈ (Gathering.ofTokens (Source.ofText path text).tokens).comments.reverse.drop
          (n + 1) := by
        refine List.mem_iff_getElem?.mpr ⟨m - (n + 1), ?_⟩
        rw [List.getElem?_drop, Nat.add_sub_cancel' hlt', hc₂]
      rcases hothers c₂ hdrop with htrailing | hall
      · exact (Gathering.isTrailing_describe c₂).trans htrailing
      · have := hkbehind t (hall t ht)
        omega

theorem eq_of_getElem?_comments {d : Comment} {m : Nat}
    (h : (ofSource (.ofText path text)).comments[n]? = some d)
    (h' : (ofSource (.ofText path text)).comments[m]? = some d) : n = m := by
  have ho := Source.ordered_tokens path text
  -- Comments at different places do not even begin at the same one.
  have hstart (i j : Nat) (hlt : i < j) (hi : (ofSource (.ofText path text)).comments[i]? = some d)
      (hj : (ofSource (.ofText path text)).comments[j]? = some d) : False := by
    rw [getElem?_comments, Option.map_eq_some_iff] at hi hj
    obtain ⟨c, hc, hcd⟩ := hi
    obtain ⟨c', hc', hcd'⟩ := hj
    obtain ⟨t, ht, hfirst⟩ := Gathering.exists_start_describe c
    obtain ⟨t', ht', hfirst'⟩ := Gathering.exists_start_describe c'
    have hmem := List.mem_reverse.mp (List.mem_of_getElem? hc)
    have hne := ho.nonempty t (Gathering.mem_of_mem_tokensOf hmem ht)
    obtain ⟨hi, hi'⟩ := List.getElem?_eq_some_iff.mp hc
    obtain ⟨hj, hj'⟩ := List.getElem?_eq_some_iff.mp hc'
    have happart := List.pairwise_iff_getElem.mp (Gathering.pairwise_comments ho) i j hi hj hlt
      t (hi' ▸ ht) t' (hj' ▸ ht')
    have hsame : t.offset = t'.offset := by
      have hspan := congrArg (·.span.start.offset) (hcd.trans hcd'.symm)
      dsimp only at hspan
      rwa [hfirst, hfirst'] at hspan
    omega
  rcases Nat.lt_trichotomy n m with hlt | rfl | hlt
  · exact (hstart n m hlt h h').elim
  · rfl
  · exact (hstart m n hlt h' h).elim

-- What is kept of the declarations are all of them, in the order of the text.
theorem perm_declarations (path text : String) :
    ((ofSource (.ofText path text)).declarations).Perm
      (Parts.ofTokens (Source.ofText path text).tokens).declarations := by
  have hpairwise := Parts.pairwise_comment_declarations (Source.ordered_tokens path text)
  have hkept := List.map_congr_left fun d hd => keepComment_of_mem hpairwise hd
  have hsorted : (ofSource (.ofText path text)).declarations =
      (Parts.ofTokens (Source.ofText path text).tokens).declarations.mergeSort declarationLe :=
    congrArg (·.mergeSort declarationLe) (hkept.trans (List.map_id' _))
  exact hsorted ▸ List.mergeSort_perm _ _

theorem exists_leads_of_comment_eq_some (hd : d ∈ (ofSource (.ofText path text)).declarations)
    (hn : d.comment = some n) :
    ∃ c, (ofSource (.ofText path text)).comments[n]? = some c ∧ c.attachedTo = some d.name ∧
      (ofSource (.ofText path text)).Leads c d := by
  have hpairwise := Parts.pairwise_comment_declarations (Source.ordered_tokens path text)
  have hd := (perm_declarations path text).mem_iff.mp hd
  obtain ⟨k, hk, hkn, hstart⟩ := Parts.exists_marked_of_mem_declarations hd hn
  obtain ⟨c, hleads⟩ := Gathering.exists_leads_of_mem_markedList hk hkn
  refine ⟨_, ?_, ownerOf_of_mem hpairwise hd hn, leads_describe hleads hstart _⟩
  rw [getElem?_comments]
  exact congrArg (Option.map _) hleads.number

theorem exists_filter_of_attachedTo_eq_some {c : Comment} {name : String}
    (hc : (ofSource (.ofText path text)).comments[n]? = some c) (hname : c.attachedTo = some name) :
    ∃ d, (ofSource (.ofText path text)).declarations.filter (·.comment = some n) = [d] ∧
      d.name = name := by
  have hpairwise := Parts.pairwise_comment_declarations (Source.ordered_tokens path text)
  rw [getElem?_comments, Option.map_eq_some_iff] at hc
  obtain ⟨c, -, rfl⟩ := hc
  obtain ⟨d, hfind, hdname⟩ := Option.map_eq_some_iff.mp hname
  refine ⟨d, ?_, hdname⟩
  have hd := List.mem_of_find?_eq_some hfind
  have hn : d.comment = some n := by simpa using List.find?_some hfind
  have hfilter := (perm_declarations path text).filter (·.comment = some n)
  rw [filter_comment_eq hpairwise hd hn] at hfilter
  exact List.perm_singleton.mp hfilter

-- Comments and declarations are matched in every file.
theorem isAttached_ofSource (path text : String) : (ofSource (.ofText path text)).IsAttached := by
  constructor
  case carried => exact fun d hd n hn => exists_leads_of_comment_eq_some hd hn
  case owned => exact fun n c hc name hname => exists_filter_of_attachedTo_eq_some hc hname
  case apart =>
    have hpairwise := Parts.pairwise_comment_declarations (Source.ordered_tokens path text)
    have hsymm : ∀ {d e : Declaration Span}, (∀ n, d.comment = some n → e.comment ≠ some n) →
        ∀ n, e.comment = some n → d.comment ≠ some n := fun h n he hd => h n hd he
    refine (((perm_declarations path text).pairwise_iff hsymm).mpr hpairwise).imp ?_
    intro d e hde c hd he
    obtain ⟨n, hn, hc⟩ := Option.bind_eq_some_iff.mp hd
    obtain ⟨m, hm, hc'⟩ := Option.bind_eq_some_iff.mp he
    exact hde n hn (eq_of_getElem?_comments hc hc' ▸ hm)
  case trailing =>
    intro c hc htrailing
    obtain ⟨n, hn⟩ := List.mem_iff_getElem?.mp hc
    cases hname : c.attachedTo with
    | none => rfl
    | some name =>
      -- The declaration that the comment is attached to has a comment in front of it.
      obtain ⟨d, hfilter, -⟩ := exists_filter_of_attachedTo_eq_some hn hname
      obtain ⟨hd, hdn⟩ := List.mem_filter.mp (hfilter ▸ List.mem_singleton_self d)
      obtain ⟨c', hc', -, hleads⟩ := exists_leads_of_comment_eq_some hd (of_decide_eq_true hdn)
      cases Option.some.inj (hn.symm.trans hc')
      rw [hleads.ahead] at htrailing
      cases htrailing

end

end Outline

end CLint
