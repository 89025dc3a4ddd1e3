import CLint.Outline
import Mathlib.Data.List.TakeWhile

namespace CLint

section

variable {α : Type} {p : α → Bool} {xs ys : List α}

theorem takeWhile_append_of_neg (h : ∀ y ∈ ys, p y = false) :
    (xs ++ ys).takeWhile p = xs.takeWhile p := by
  induction xs with
  | nil =>
    cases ys with
    | nil => rfl
    | cons y ys => simp [h y List.mem_cons_self]
  | cons x xs ih => simp [List.takeWhile_cons, ih]

theorem dropWhile_append_of_neg (h : ∀ y ∈ ys, p y = false) :
    (xs ++ ys).dropWhile p = xs.dropWhile p ++ ys := by
  induction xs with
  | nil =>
    cases ys with
    | nil => rfl
    | cons y ys => simp [h y List.mem_cons_self]
  | cons x xs ih =>
    rw [List.cons_append, List.dropWhile_cons, List.dropWhile_cons, ih]
    split <;> rfl

end

section

variable {α : Type} {p : α → Bool} {as as' bs bs' : List α}

theorem filter_parts (ha : ∀ a ∈ as, p a) (hb : ∀ b ∈ bs, p b = false) :
    (as ++ bs).filter p = as ∧ (as ++ bs).filter (!p ·) = bs := by
  have hb' : ∀ b ∈ bs, !p b := fun b h => by rw [hb b h]; rfl
  rw [List.filter_append, List.filter_append, List.filter_eq_self.mpr ha,
    List.filter_eq_self.mpr hb', List.filter_eq_nil_iff.mpr fun b h => by simp [hb b h],
    List.filter_eq_nil_iff.mpr fun a h => by simp [ha a h]]
  exact ⟨List.append_nil as, List.nil_append bs⟩

theorem filter_interleaved (ha : ∀ a ∈ as ++ as', p a) (hb : ∀ b ∈ bs ++ bs', p b = false) :
    (as ++ bs ++ (as' ++ bs')).filter p = as ++ as' ∧
      (as ++ bs ++ (as' ++ bs')).filter (!p ·) = bs ++ bs' := by
  obtain ⟨h, hneg⟩ := filter_parts (fun a h => ha a (List.mem_append_left as' h))
    fun b h => hb b (List.mem_append_left bs' h)
  obtain ⟨h', hneg'⟩ := filter_parts (fun a h => ha a (List.mem_append_right as h))
    fun b h => hb b (List.mem_append_right bs h)
  exact ⟨by rw [List.filter_append, h, h'], by rw [List.filter_append, hneg, hneg']⟩

end

section

variable {α : Type} {le : α → α → Bool}
variable (trans : ∀ a b c, le a b → le b c → le a c) (total : ∀ a b, le a b || le b a)

include trans total

-- A further element is put behind those that have to stand before it.
theorem mergeSort_cons_eq (a : α) (l : List α) :
    (a :: l).mergeSort le = (l.mergeSort le).takeWhile (!le a ·) ++
      a :: (l.mergeSort le).dropWhile (!le a ·) := by
  obtain ⟨l₁, l₂, hcons, hl, hbefore⟩ := List.mergeSort_cons trans total a l
  have hsorted := List.pairwise_mergeSort trans total (a :: l)
  rw [hcons] at hsorted
  have hbehind : ∀ b ∈ l₂, le a b := (List.pairwise_cons.mp (List.pairwise_append.mp hsorted).2.1).1
  have hneg : ∀ b ∈ l₂, (!le a b) = false := fun b hb => by rw [hbehind b hb]; rfl
  rw [hcons, hl, takeWhile_append_of_neg hneg, dropWhile_append_of_neg hneg,
    List.takeWhile_eq_self_iff.mpr hbefore, List.dropWhile_eq_nil_iff.mpr hbefore, List.nil_append]

-- Where some elements have to stand before all others, the two kinds can be sorted apart.
theorem mergeSort_filter (p : α → Bool) {l : List α}
    (h : ∀ a ∈ l, ∀ b ∈ l, p a → p b = false → le a b ∧ le b a = false) :
    l.mergeSort le = (l.filter p).mergeSort le ++ (l.filter (!p ·)).mergeSort le := by
  induction l with
  | nil => simp
  | cons a l ih =>
    have ih := ih fun b hb c hc =>
      h b (List.mem_cons_of_mem a hb) c (List.mem_cons_of_mem a hc)
    rw [mergeSort_cons_eq trans total, ih]
    cases hp : p a with
    | true =>
      have hbehind : ∀ b ∈ (l.filter (!p ·)).mergeSort le, (!le a b) = false := by
        intro b hb
        obtain ⟨hb, hpb⟩ := List.mem_filter.mp (List.mem_mergeSort.mp hb)
        rw [(h a List.mem_cons_self b (List.mem_cons_of_mem a hb) hp (by simpa using hpb)).1]
        rfl
      rw [takeWhile_append_of_neg hbehind, dropWhile_append_of_neg hbehind,
        List.filter_cons_of_pos hp, List.filter_cons_of_neg (by simp [hp]),
        mergeSort_cons_eq trans total, List.append_assoc, List.cons_append]
    | false =>
      have hbefore : ∀ b ∈ (l.filter p).mergeSort le, !le a b := by
        intro b hb
        obtain ⟨hb, hpb⟩ := List.mem_filter.mp (List.mem_mergeSort.mp hb)
        rw [(h b (List.mem_cons_of_mem a hb) a List.mem_cons_self hpb hp).2]
        rfl
      rw [List.takeWhile_append_of_pos hbefore, List.dropWhile_append_of_pos hbefore,
        List.filter_cons_of_neg (by simp [hp]), List.filter_cons_of_pos (by simp [hp]),
        mergeSort_cons_eq trans total a (l.filter (!p ·)), List.append_assoc]

theorem mergeSort_append {p : α → Bool} {as bs : List α} (ha : ∀ a ∈ as, p a)
    (hb : ∀ b ∈ bs, p b = false) (h : ∀ a b, p a → p b = false → le a b ∧ le b a = false) :
    (as ++ bs).mergeSort le = as.mergeSort le ++ bs.mergeSort le := by
  obtain ⟨hp, hneg⟩ := filter_parts ha hb
  rw [mergeSort_filter trans total p fun a _ b _ => h a b, hp, hneg]

end

def Declaration.startsBefore (k : Nat) (d : Declaration Span) : Bool :=
  d.span.start.offset < k

def ControlBlock.startsBefore (k : Nat) (b : ControlBlock Span) : Bool :=
  b.span.start.offset < k

namespace Outline

theorem declarationLe_trans (a b c : Declaration Span) (hab : declarationLe a b)
    (hbc : declarationLe b c) : declarationLe a c := by
  simp only [declarationLe, Bool.or_eq_true, Bool.and_eq_true, decide_eq_true_eq] at *
  omega

theorem declarationLe_total (a b : Declaration Span) : declarationLe a b || declarationLe b a := by
  simp only [declarationLe, Bool.or_eq_true, Bool.and_eq_true, decide_eq_true_eq] at *
  omega

theorem blockLe_trans (a b c : ControlBlock Span) (hab : blockLe a b) (hbc : blockLe b c) :
    blockLe a c := by
  simp only [blockLe, Bool.or_eq_true, Bool.and_eq_true, decide_eq_true_eq] at *
  omega

theorem blockLe_total (a b : ControlBlock Span) : blockLe a b || blockLe b a := by
  simp only [blockLe, Bool.or_eq_true, Bool.and_eq_true, decide_eq_true_eq] at *
  omega

-- What starts before a place comes before what does not.

theorem declarationLe_of_startsBefore (k : Nat) (a b : Declaration Span) (ha : a.startsBefore k)
    (hb : b.startsBefore k = false) : declarationLe a b ∧ declarationLe b a = false := by
  simp only [Declaration.startsBefore, decide_eq_true_eq, decide_eq_false_iff_not] at ha hb
  simp only [declarationLe, Bool.or_eq_true, Bool.or_eq_false_iff, Bool.and_eq_true,
    Bool.and_eq_false_iff, decide_eq_true_eq, decide_eq_false_iff_not]
  omega

theorem blockLe_of_startsBefore (k : Nat) (a b : ControlBlock Span) (ha : a.startsBefore k)
    (hb : b.startsBefore k = false) : blockLe a b ∧ blockLe b a = false := by
  simp only [ControlBlock.startsBefore, decide_eq_true_eq, decide_eq_false_iff_not] at ha hb
  simp only [blockLe, Bool.or_eq_true, Bool.or_eq_false_iff, Bool.and_eq_true,
    Bool.and_eq_false_iff, decide_eq_true_eq, decide_eq_false_iff_not]
  omega

end Outline
end CLint
