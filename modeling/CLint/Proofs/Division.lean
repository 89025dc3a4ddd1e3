import CLint.Outline
import CLint.Proofs.Placed

namespace CLint

namespace Gathering

-- What is gathered comes from the tokens that were seen, in their order.
structure Follows (g : Gathering) (ts : List Token) : Prop where
  comments : ∀ c ∈ g.comments, (c.1 :: c.2.1).reverse.Sublist ts
  marked : (g.markedList.map (·.token)).Sublist ts

variable {g : Gathering} {ts : List Token}

theorem mem_of_continues? {t : Token} {c : Token × List Token × Bool}
    (h : g.continues? t = some c) : c ∈ g.comments := by
  unfold continues? at h
  split at h
  case h_1 => contradiction
  case h_2 hc =>
    split at h <;> cases h
    exact hc ▸ List.mem_cons_self

theorem Follows.step (h : Follows g ts) (t : Token) : Follows (g.step t) (ts ++ [t]) := by
  have weaken : ∀ c ∈ g.comments, (c.1 :: c.2.1).reverse.Sublist (ts ++ [t]) := fun c hc =>
    (h.comments c hc).trans (List.sublist_append_left ts [t])
  have hmarked : (g.markedList.map (·.token)).Sublist (ts ++ [t]) :=
    h.marked.trans (List.sublist_append_left ts [t])
  unfold Gathering.step
  split
  case isTrue =>
    unfold Gathering.comment
    split
    case h_1 last earlier trailing hc =>
      refine ⟨fun c hm => ?_, hmarked⟩
      cases List.mem_cons.mp hm
      case inl he =>
        subst he
        rw [List.reverse_cons]
        exact (h.comments _ (mem_of_continues? hc)).append_right [t]
      case inr hm => exact weaken c (List.mem_of_mem_tail hm)
    case h_2 =>
      refine ⟨fun c hm => ?_, hmarked⟩
      cases List.mem_cons.mp hm
      case inl he => exact he ▸ List.sublist_append_right ts [t]
      case inr hm => exact weaken c hm
  case isFalse =>
    split
    case isTrue => exact ⟨weaken, hmarked⟩
    case isFalse =>
      refine ⟨weaken, ?_⟩
      simpa [markedList] using h.marked.append_right [t]

theorem follows_ofTokens (ts : List Token) : Follows (ofTokens ts) ts := by
  suffices ∀ g us, Follows g us → Follows (ts.foldl Gathering.step g) (us ++ ts) from
    this {} [] ⟨by simp, List.Sublist.refl _⟩
  induction ts with
  | nil => intro g us h; simpa using h
  | cons t ts ih => intro g us h; simpa using ih _ _ (h.step t)

-- A comment covers the text from the first of its tokens to the last.
theorem span_of_mem_commentList {c : Comment} (h : c ∈ g.commentList) :
    ∃ first others, (∃ d ∈ g.comments, first :: others = (d.1 :: d.2.1).reverse) ∧
      c.span = first.span.cover ((first :: others).getLast?.getD first).span := by
  obtain ⟨⟨last, earlier, trailing⟩, hm, rfl⟩ := List.mem_map.mp h
  have hm := List.mem_reverse.mp hm
  dsimp only
  split
  case h_1 he => exact ⟨last, [], ⟨_, hm, by simp [he]⟩, rfl⟩
  case h_2 first others he => exact ⟨first, others ++ [last], ⟨_, hm, by simp [he]⟩, rfl⟩

end Gathering

namespace Divided

-- What is divided stays in its order.
theorem sublist_ofMarked (previous : Option Token) (line : Option Nat) (ms : List Marked) :
    (ofMarked previous line ms).code.Sublist ms ∧
    (ofMarked previous line ms).continuation.Sublist ms ∧
    ∀ d ∈ (ofMarked previous line ms).directives, (d.1 :: d.2).Sublist ms := by
  induction ms generalizing previous line with
  | nil => exact ⟨List.Sublist.refl _, List.Sublist.refl _, by simp [ofMarked]⟩
  | cons m ms ih =>
    simp only [ofMarked]
    split
    case isTrue =>
      have ⟨hcode, hcont, hdirs⟩ := ih (some m.token) (some m.token.line)
      exact ⟨hcode.cons m, hcont.cons_cons m, fun d hd => (hdirs d hd).cons m⟩
    case isFalse =>
      split
      case isTrue =>
        have ⟨hcode, hcont, hdirs⟩ := ih (some m.token) (some m.token.line)
        refine ⟨hcode.cons m, List.nil_sublist _, fun d hd => ?_⟩
        cases List.mem_cons.mp hd
        case inl he => exact he ▸ hcont.cons_cons m
        case inr hd => exact (hdirs d hd).cons m
      case isFalse =>
        have ⟨hcode, hcont, hdirs⟩ := ih (some m.token) none
        exact ⟨hcode.cons_cons m, hcont.cons m, fun d hd => (hdirs d hd).cons m⟩

end Divided

namespace Parts

variable {ts : List Token}

theorem sublist_code (ts : List Token) : ((ofTokens ts).code.map (·.token)).Sublist ts :=
  ((Divided.sublist_ofMarked ..).1.map _).trans (Gathering.follows_ofTokens ts).marked

theorem sublist_directive {d : Marked × List Marked} (h : d ∈ (ofTokens ts).directives) :
    ((d.1 :: d.2).map (·.token)).Sublist ts :=
  (((Divided.sublist_ofMarked ..).2.2 d h).map _).trans (Gathering.follows_ofTokens ts).marked

theorem sublist_comment {c : Comment} (h : c ∈ (ofTokens ts).comments) :
    ∃ first others, (first :: others).Sublist ts ∧
      c.span = first.span.cover ((first :: others).getLast?.getD first).span := by
  obtain ⟨first, others, ⟨d, hd, he⟩, hc⟩ := Gathering.span_of_mem_commentList h
  exact ⟨first, others, he ▸ (Gathering.follows_ofTokens ts).comments d hd, hc⟩

end Parts
end CLint
