import CLint.Proofs.Conditions
import CLint.Proofs.Flipped.Operands

namespace CLint

namespace Operand

theorem extent_prefix (opens closes : Lexeme → Bool) (depth : Nat) (ls : List Lexeme) :
    extent opens closes depth ls <+: ls := by
  fun_induction extent opens closes depth ls <;> simp_all

end Operand

namespace Comparison

-- The comparison has its operands where they were found in the condition, on both sides of the
-- operator.
structure Stands (s : Stretch) (c : Comparison Run) (before left right after : List Lexeme) :
    Prop where
  lexemes : s.lexemes = before ++ left ++ .punct c.operator :: (right ++ after)
  isComparison : c.operator.isComparison
  backward : Operand.backward (before ++ left).reverse = left.reverse
  forward : Operand.forward (right ++ after) = right
  left_ne_nil : left ≠ []
  right_ne_nil : right ≠ []
  left_span : c.left.span = Stretch.run ⟨s.start + before.length, left⟩
  right_span : c.right.span = Stretch.run ⟨s.start + (before ++ left).length + 1, right⟩
  span : c.span = ⟨c.left.span.first, c.right.span.last⟩

variable {constants : List String} {c : Comparison Run}

theorem stands_of_of? {start : Nat} {before after : List Lexeme} {l : Lexeme}
    (h : of? constants (start + before.length) before l after = some c) :
    ∃ front left right rest,
      c.Stands ⟨start, before.reverse ++ l :: after⟩ front left right rest := by
  obtain ⟨front, hfront⟩ : Operand.backward before <+: before := Operand.extent_prefix ..
  obtain ⟨rest, hrest⟩ : Operand.forward after <+: after := Operand.extent_prefix ..
  have hbefore : before.reverse = front.reverse ++ (Operand.backward before).reverse := by
    rw [← List.reverse_append, hfront]
  have hlength : before.length = front.length + (Operand.backward before).length := by
    conv => lhs; rw [← hfront, List.length_append, Nat.add_comm]
  unfold of? at h
  split at h
  case h_2 => cases h
  case h_1 p =>
    dsimp only at h
    split at h
    case isFalse => cases h
    case isTrue hc =>
      cases h
      simp only [Bool.and_eq_true, Bool.not_eq_true', List.isEmpty_eq_false_iff] at hc
      obtain ⟨⟨hp, hleft⟩, hright⟩ := hc
      refine ⟨front.reverse, (Operand.backward before).reverse, Operand.forward after, rest,
        ?_, hp, ?_, ?_, by simpa using hleft, hright, ?_, ?_, rfl⟩
      · simp [hbefore, hrest]
      · rw [← hbefore, List.reverse_reverse, List.reverse_reverse]
      · rw [hrest]
      · simp only [Stretch.run, Stretch.last, Stretch.length, List.length_reverse, Run.mk.injEq]
        omega
      · simp only [Stretch.run, Stretch.last, Stretch.length, List.length_reverse,
          List.length_append, Run.mk.injEq]
        omega

theorem stands_of_mem_listFrom {start : Nat} {before ls : List Lexeme}
    (h : c ∈ listFrom constants (start + before.length) before ls) :
    ∃ front left right rest, c.Stands ⟨start, before.reverse ++ ls⟩ front left right rest := by
  induction ls generalizing before with
  | nil => cases h
  | cons l ls ih =>
    rw [listFrom, List.mem_append] at h
    cases h
    case inl h => exact stands_of_of? (Option.mem_toList.mp h)
    case inr h =>
      have h : c ∈ listFrom constants (start + (l :: before).length) (l :: before) ls := h
      obtain ⟨front, left, right, rest, hc⟩ := ih h
      rw [List.reverse_cons, List.append_assoc] at hc
      exact ⟨front, left, right, rest, hc⟩

theorem stands_of_mem_listOf {s : Stretch} (h : c ∈ listOf constants s) :
    ∃ before left right after, c.Stands s before left right after := by
  have h : c ∈ listFrom constants (s.start + ([] : List Lexeme).length) [] s.lexemes := h
  exact stands_of_mem_listFrom h

end Comparison

end CLint
