import CLint.Proofs.Join.Parts
import CLint.Proofs.Join.Sorting

namespace CLint

namespace Outline

variable {ds : List (Declaration Span)} {d : Declaration Span} {n : Nat}

-- The declarations of a file in their order, where each comment is about one name only.
def settled (ds : List (Declaration Span)) : List (Declaration Span) :=
  (ds.map (keepComment ds)).mergeSort declarationLe

theorem span_keepComment (ds : List (Declaration Span)) (d : Declaration Span) :
    (keepComment ds d).span = d.span := by
  unfold keepComment
  split <;> rfl

theorem group_of_mem_settled (h : d ∈ settled ds) : ∃ e ∈ ds, d.group = e.group := by
  obtain ⟨e, he, rfl⟩ := List.mem_map.mp (List.mem_mergeSort.mp h)
  refine ⟨e, he, ?_⟩
  unfold keepComment
  split <;> rfl

section

variable {p : Declaration Span → Bool}

theorem ownerOf_filter (h : ∀ d ∈ ds, d.comment = some n → p d) :
    ownerOf (ds.filter p) n = ownerOf ds n := by
  unfold ownerOf
  congr 1
  induction ds with
  | nil => rfl
  | cons d ds ih =>
    have ih := ih fun e he => h e (List.mem_cons_of_mem d he)
    cases hp : p d with
    | true => rw [List.filter_cons_of_pos hp, List.find?_cons, List.find?_cons, ih]
    | false =>
      have hn : ¬ d.comment = some n := fun hn => by simp [h d List.mem_cons_self hn] at hp
      rw [List.filter_cons_of_neg (by simp [hp]), ih,
        List.find?_cons_of_neg (by simpa using hn)]

theorem keepComment_filter
    (h : ∀ n, d.comment = some n → ∀ e ∈ ds, e.comment = some n → p e) :
    keepComment (ds.filter p) d = keepComment ds d := by
  unfold keepComment
  cases hc : d.comment with
  | none => rfl
  | some n => rw [Option.bind_some, Option.bind_some, ownerOf_filter (h n hc)]

-- Where a comment of some declarations is one of no others, they can be seen by themselves.
theorem filter_keepComment (hp : ∀ d, p (keepComment ds d) = p d)
    (h : ∀ d ∈ ds, p d → ∀ n, d.comment = some n → ∀ e ∈ ds, e.comment = some n → p e) :
    (ds.map (keepComment ds)).filter p = (ds.filter p).map (keepComment (ds.filter p)) := by
  have hcomp : p ∘ keepComment ds = p := funext hp
  rw [List.filter_map, hcomp]
  refine List.map_congr_left fun d hd => (keepComment_filter ?_).symm
  obtain ⟨hd, hpd⟩ := List.mem_filter.mp hd
  exact h d hd hpd

end

-- Where the declarations before a place are those with the comments below some number, they are
-- settled apart from the others.
theorem settled_filter {k c : Nat}
    (h : ∀ d ∈ ds, ∀ n, d.comment = some n → (d.startsBefore k ↔ n < c)) :
    settled ds = settled (ds.filter (·.startsBefore k)) ++
      settled (ds.filter (!·.startsBefore k)) := by
  have hstart : ∀ d, (keepComment ds d).startsBefore k = d.startsBefore k := fun d => by
    rw [Declaration.startsBefore, span_keepComment]
    rfl
  have hsame : ∀ d ∈ ds, ∀ n, d.comment = some n → ∀ e ∈ ds, e.comment = some n →
      e.startsBefore k = d.startsBefore k := fun d hd n hn e he hen =>
    Bool.eq_iff_iff.mpr ((h e he n hen).trans (h d hd n hn).symm)
  have horder := fun a (_ : a ∈ ds.map (keepComment ds)) b (_ : b ∈ ds.map (keepComment ds)) =>
    declarationLe_of_startsBefore k a b
  have hbefore := filter_keepComment hstart fun d hd hpd n hn e he hen =>
    (hsame d hd n hn e he hen).trans hpd
  have hbehind := filter_keepComment (fun d => congrArg (!·) (hstart d))
    fun d hd hpd n hn e he hen => (congrArg (!·) (hsame d hd n hn e he hen)).trans hpd
  rw [settled, mergeSort_filter declarationLe_trans declarationLe_total _ horder, hbefore,
    hbehind]
  rfl

-- A way to change declarations such that the comments keep what they are about, of which the
-- numbers are changed by `c`, and the declarations their order.
structure Carries (f : Declaration Span → Declaration Span) (c : Nat → Nat) : Prop where
  name : ∀ d, (f d).name = d.name
  comment : ∀ d, (f d).comment = d.comment.map c
  drop : ∀ d, f { d with comment := none } = { f d with comment := none }
  order : ∀ a b, declarationLe (f a) (f b) = declarationLe a b
  injective : ∀ i j, c i = c j → i = j

namespace Carries

variable {f : Declaration Span → Declaration Span} {c : Nat → Nat}

theorem ownerOf_map (h : Carries f c) (ds : List (Declaration Span)) (n : Nat) :
    ownerOf (ds.map f) (c n) = ownerOf ds n := by
  have hcomment : ∀ d, (f d).comment = some (c n) ↔ d.comment = some n := by
    intro d
    rw [h.comment]
    cases d.comment with
    | none => simp
    | some i =>
      simp only [Option.map_some, Option.some.injEq]
      exact ⟨h.injective i n, congrArg c⟩
  simp only [ownerOf, List.find?_map, Option.map_map, Function.comp_def, hcomment, h.name]

theorem keepComment_map (h : Carries f c) (ds : List (Declaration Span))
    (d : Declaration Span) : keepComment (ds.map f) (f d) = f (keepComment ds d) := by
  have howner : (f d).comment.bind (ownerOf (ds.map f)) = d.comment.bind (ownerOf ds) := by
    rw [h.comment]
    cases d.comment with
    | none => rfl
    | some n => exact h.ownerOf_map ds n
  have hkept : (f d).comment.bind (ownerOf (ds.map f)) = some (f d).name ↔
      d.comment.bind (ownerOf ds) = some d.name := by rw [howner, h.name]
  unfold keepComment
  rw [apply_ite f, h.drop]
  exact if_congr hkept rfl rfl

theorem settled_map (h : Carries f c) (ds : List (Declaration Span)) :
    settled (ds.map f) = (settled ds).map f := by
  rw [settled, settled, List.map_map, List.map_mergeSort fun a _ b _ => (h.order a b).symm,
    List.map_map]
  congr 1
  exact List.map_congr_left fun d _ => h.keepComment_map ds d

end Carries

theorem carries_regroup (f : Nat → Nat) : Carries (regroup f) id where
  name _ := rfl
  comment _ := Option.map_id_apply.symm
  drop _ := rfl
  order _ _ := rfl
  injective _ _ := id

theorem carries_declaration (m : Move) (f : Nat → Nat) :
    Carries (regroup f ∘ m.declaration) (· + m.comments) where
  name _ := rfl
  comment _ := rfl
  drop _ := rfl
  order a b := by
    have hstart : ∀ d, ((regroup f ∘ m.declaration) d).span.start.offset =
        d.span.start.offset + m.offset := fun _ => rfl
    have hstop : ∀ d, ((regroup f ∘ m.declaration) d).span.stop.offset =
        d.span.stop.offset + m.offset := fun _ => rfl
    simp only [declarationLe, hstart, hstop, Nat.add_lt_add_iff_right, Nat.add_right_cancel_iff,
      Nat.add_le_add_iff_right]
  injective _ _ := Nat.add_right_cancel

end Outline
end CLint
