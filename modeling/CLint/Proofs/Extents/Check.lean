import CLint.Proofs.Conditions
import CLint.Proofs.Extents.Longest
import CLint.Proofs.Flipped.Check
import CLint.Proofs.Imbalance
import CLint.Proofs.Sited

namespace CLint

open Code

namespace Parts

variable {p : Parts} {t : Site} {head : Head} {group : Option Group} {parts : List Stmt}
  {s : Stretch} {place : Nat} {g : Group}

-- Nothing is missing from the group of a condition if nothing is missing from the file.
theorem exists_readGroup (htidy : Stmt.listTidy (Stmt.readFile p.lexemes)) (ht : t ∈ p.sites)
    (hs : t.stmt = .control head group parts)
    (hg : Control.conditionGroup? t.start head group parts = some (place, g)) :
    (∃ ls, (Stmt.readGroup (head = .forHead) ls).1 = some g) ∧ g.isClosed := by
  have hread := Stmt.groupsAreRead_readFile p.lexemes 0
  have hclosed : ∀ t ∈ p.sites, t.stmt.isTidy := fun t ht =>
    Stmt.isTidy_of_mem_listSites _ htidy ht
  unfold Control.conditionGroup? at hg
  split at hg
  case h_1 body g ended =>
    cases hg
    obtain ⟨n, stmt⟩ := t
    subst hs
    have htail : ⟨_, .doWhile (some g) ended⟩ ∈ p.sites :=
      Stmt.mem_listSites_of_mem_parts _ ht (by
        simp only [Stmt.listSites, Stmt.sites, List.append_nil]
        exact List.mem_append_right _ List.mem_cons_self)
    exact ⟨hread _ htail g rfl, hclosed _ htail⟩
  case h_2 =>
    obtain ⟨g, rfl, hg⟩ := Option.map_eq_some_iff.mp hg
    cases hg
    have hread := hread t ht
    have htidy := hclosed t ht
    rw [hs] at hread htidy
    rw [Stmt.isTidy, Bool.and_eq_true] at htidy
    exact ⟨hread.2 g rfl, htidy.1⟩

theorem matched_condition? (htidy : Stmt.listTidy (Stmt.readFile p.lexemes)) (ht : t ∈ p.sites)
    (hs : t.stmt = .control head group parts)
    (hc : Control.condition? t.start head group parts = some s) :
    Matched Lexeme.isOpener Lexeme.isCloser (fun _ => True) s.lexemes := by
  obtain ⟨⟨place, g⟩, hg, rfl⟩ := Option.map_eq_some_iff.mp hc
  obtain ⟨⟨ls, hread⟩, hclosed⟩ := exists_readGroup htidy ht hs hg
  have hcontent := Group.matched_content hread hclosed
  dsimp only
  split
  · exact Group.matched_forCondition place hcontent
  · exact hcontent

end Parts

namespace Outline

-- The code with the numbers from `i` up to, but without, `j`.
def codeBetween (code : Array Token) (i j : Nat) : List Lexeme :=
  (code.extract i j).toList.map (·.lexeme)

-- Code that may be an operand.
def IsOperand : List Lexeme → Prop :=
  Operand.IsWhole Lexeme.isOpener Lexeme.isCloser

-- The longest code in a run that may be an operand and ends just before the number `n`.
structure LeftRun (code : Array Token) (r : Run) (n first : Nat) : Prop where
  first_le : r.first ≤ first
  le : first ≤ n
  isOperand : IsOperand (codeBetween code first n)
  longest : ∀ m, r.first ≤ m → m ≤ n → IsOperand (codeBetween code m n) → first ≤ m

-- The longest one that begins just behind the number `n` and ends just before `stop`.
structure RightRun (code : Array Token) (r : Run) (n stop : Nat) : Prop where
  le : n + 1 ≤ stop
  le_last : stop ≤ r.last + 1
  isOperand : IsOperand (codeBetween code (n + 1) stop)
  longest : ∀ m, n + 1 ≤ m → m ≤ r.last + 1 → IsOperand (codeBetween code (n + 1) m) → m ≤ stop

-- At the number `n` there is a comparison operator in the run, with an operand on both sides.
structure Compares (code : Array Token) (r : Run) (n first stop : Nat) : Prop where
  first_le : r.first ≤ n
  le_last : n ≤ r.last
  isComparison : (tokenAt code n).lexeme.isComparison
  left : LeftRun code r n first
  left_lt : first < n
  right : RightRun code r n stop
  right_lt : n + 1 < stop

-- The comparison is the one by that operator, and located where the operands are.
structure Records (code : Array Token) (n first stop : Nat) (c : Comparison Span) : Prop where
  operator : (tokenAt code n).lexeme = .punct c.operator
  left : c.left.span = locate code ⟨first, n - 1⟩
  right : c.right.span = locate code ⟨n + 1, stop - 1⟩
  span : c.span = locate code ⟨first, stop - 1⟩

theorem LeftRun.unique {code : Array Token} {r : Run} {n first first' : Nat}
    (h : LeftRun code r n first) (h' : LeftRun code r n first') : first = first' :=
  Nat.le_antisymm (h.longest _ h'.first_le h'.le h'.isOperand)
    (h'.longest _ h.first_le h.le h.isOperand)

theorem RightRun.unique {code : Array Token} {r : Run} {n stop stop' : Nat}
    (h : RightRun code r n stop) (h' : RightRun code r n stop') : stop = stop' :=
  Nat.le_antisymm (h'.longest _ h.le h.le_last h.isOperand)
    (h.longest _ h'.le h'.le_last h'.isOperand)

theorem codeBetween_tokens (p : Parts) (i j : Nat) :
    codeBetween p.tokens i j = (p.lexemes.take j).drop i := by
  rw [codeBetween, Array.toList_extract, ← p.map_lexeme_tokens, ← List.map_take, ← List.map_drop]
  congr 1
  simp [List.extract, List.drop_take]

theorem lexeme_tokenAt {p : Parts} {n : Nat} {l : Lexeme} (h : p.lexemes[n]? = some l) :
    (tokenAt p.tokens n).lexeme = l := by
  rw [← p.map_lexeme_tokens, List.getElem?_map] at h
  obtain ⟨t, ht, rfl⟩ := Option.map_eq_some_iff.mp h
  rw [tokenAt, Array.getD_eq_getD_getElem?, ← Array.getElem?_toList, ht]
  rfl

-- What follows is about an operator `l` with the number `n` between the code before it and behind
-- it that belongs to the same condition.
section

variable {p : Parts} {front before after back : List Lexeme} {l : Lexeme} {m n : Nat}

theorem codeBetween_before (hp : p.lexemes = front ++ (before ++ l :: after) ++ back)
    (hn : n = front.length + before.length) (hm : front.length ≤ m) :
    codeBetween p.tokens m n = before.drop (m - front.length) := by
  have htake : p.lexemes.take n = front ++ before := by
    rw [hp, hn, ← List.append_assoc, List.append_assoc, ← List.length_append]
    exact List.take_left
  rw [codeBetween_tokens, htake, List.drop_append, List.drop_of_length_le hm, List.nil_append]

theorem codeBetween_after (hp : p.lexemes = front ++ (before ++ l :: after) ++ back)
    (hn : n = front.length + before.length) (hm : m ≤ n + 1 + after.length) :
    codeBetween p.tokens (n + 1) m = after.take (m - (n + 1)) := by
  have hdrop : p.lexemes.drop (n + 1) = after ++ back := by
    have hfront : n + 1 = (front ++ (before ++ [l])).length := by
      simp only [hn, List.length_append, List.length_singleton, Nat.add_assoc]
    have hsplit : p.lexemes = front ++ (before ++ [l]) ++ (after ++ back) := by simp [hp]
    rw [hsplit, hfront]
    exact List.drop_left
  rw [codeBetween_tokens, List.drop_take, hdrop, List.take_append_of_le_length (by omega)]

-- What is found on the left of the operator is the longest run that ends there.
theorem leftRun_backward (hp : p.lexemes = front ++ (before ++ l :: after) ++ back)
    (hn : n = front.length + before.length) (last : Nat)
    (hm : Matched Lexeme.isOpener Lexeme.isCloser (fun _ => True) (before ++ l :: after)) :
    LeftRun p.tokens ⟨front.length, last⟩ n (n - (Operand.backward before.reverse).length) := by
  obtain ⟨⟨more, hmore⟩, hwhole, hlongest⟩ := Operand.isLongest_backward hm
  have hlength := congrArg List.length hmore
  rw [List.length_append, List.length_reverse] at hlength
  have hbefore : before = more.reverse ++ (Operand.backward before.reverse).reverse := by
    rw [← List.reverse_append, hmore, List.reverse_reverse]
  refine ⟨by dsimp only; omega, Nat.sub_le .., ?_, fun m hfirst hle hm => ?_⟩
  · have hdrop : before.drop more.reverse.length = (Operand.backward before.reverse).reverse := by
      conv => lhs; rw [hbefore]
      exact List.drop_left
    have hat : n - (Operand.backward before.reverse).length - front.length =
        more.reverse.length := by
      rw [List.length_reverse]
      omega
    rw [codeBetween_before hp hn (by omega), hat, hdrop]
    exact hwhole.reverse
  · dsimp only at hfirst
    rw [codeBetween_before hp hn hfirst] at hm
    have htaken := hlongest _ (List.reverse_drop ▸ List.take_prefix ..) hm.reverse
    rw [List.length_reverse, List.length_drop] at htaken
    omega

theorem rightRun_forward (hp : p.lexemes = front ++ (before ++ l :: after) ++ back)
    (hn : n = front.length + before.length) (first : Nat)
    (hm : Matched Lexeme.isOpener Lexeme.isCloser (fun _ => True) (before ++ l :: after)) :
    RightRun p.tokens ⟨first, n + after.length⟩ n (n + 1 + (Operand.forward after).length) := by
  rw [List.append_cons] at hm
  obtain ⟨hpre, hwhole, hlongest⟩ := Operand.isLongest_forward hm
  have hlength := hpre.length_le
  refine ⟨Nat.le_add_right .., by dsimp only; omega, ?_, fun m hle hlast hm => ?_⟩
  · rw [codeBetween_after hp hn (by omega), Nat.add_sub_cancel_left,
      ← List.prefix_iff_eq_take.mp hpre]
    exact hwhole
  · dsimp only at hlast
    rw [codeBetween_after hp hn (by omega)] at hm
    have htaken := hlongest _ (List.take_prefix ..) hm
    rw [List.length_take] at htaken
    omega

theorem lexeme_operator (hp : p.lexemes = front ++ (before ++ l :: after) ++ back)
    (hn : n = front.length + before.length) : (tokenAt p.tokens n).lexeme = l := by
  refine lexeme_tokenAt ?_
  rw [hp, hn, List.append_assoc, List.getElem?_append_right (Nat.le_add_right ..),
    Nat.add_sub_cancel_left, List.append_assoc, List.getElem?_append_right (Nat.le_refl _),
    Nat.sub_self]
  rfl

end

section

variable {p : Parts} {s : Stretch} {constants : List String} {c : Comparison Run}
  {n first stop : Nat}

-- The operands that are found for an operator of a condition are the longest, and may be empty.
theorem longest_of_split {before after : List Lexeme} {l : Lexeme}
    (hs : s.IsPart ⟨0, p.lexemes⟩)
    (hm : Matched Lexeme.isOpener Lexeme.isCloser (fun _ => True) s.lexemes)
    (hsplit : s.lexemes = before ++ l :: after) (hn : n = s.start + before.length) :
    (s.run.first ≤ n ∧ n ≤ s.run.last ∧ (tokenAt p.tokens n).lexeme = l) ∧
      LeftRun p.tokens s.run n (n - (Operand.backward before.reverse).length) ∧
      RightRun p.tokens s.run n (n + 1 + (Operand.forward after).length) := by
  obtain ⟨front, back, hfile, hstart⟩ := hs
  dsimp only at hfile hstart
  rw [Nat.zero_add] at hstart
  rw [hsplit] at hfile hm
  rw [hstart] at hn
  have hrun : s.run = ⟨front.length, n + after.length⟩ := by
    simp only [Stretch.run, Stretch.last, Stretch.length, hsplit, List.length_append,
      List.length_cons, hstart, Run.mk.injEq, true_and]
    omega
  rw [hrun]
  exact ⟨⟨by dsimp only; omega, Nat.le_add_right .., lexeme_operator hfile hn⟩,
    leftRun_backward hfile hn _ hm, rightRun_forward hfile hn _ hm⟩

theorem exists_compares (hs : s.IsPart ⟨0, p.lexemes⟩)
    (hm : Matched Lexeme.isOpener Lexeme.isCloser (fun _ => True) s.lexemes)
    (h : Comparison.IsAt constants s n c) : ∃ first stop, Compares p.tokens s.run n first stop ∧
      Records p.tokens n first stop (c.map (locate p.tokens)) := by
  obtain ⟨before, l, after, hsplit, hn, h⟩ := h
  obtain ⟨⟨hfirst, hlast, ht⟩, hl, hr⟩ := longest_of_split hs hm hsplit hn
  obtain ⟨hcomparison, hbackward, hforward⟩ := Comparison.exists_of?_iff.mp ⟨c, h⟩
  obtain ⟨hoperator, hleft, hright, hspan⟩ := Comparison.spans_of_of? h
  have hbackward := List.length_pos_iff.mpr hbackward
  have hforward := List.length_pos_iff.mpr hforward
  have hle : (Operand.backward before.reverse).length ≤ before.reverse.length :=
    (Operand.extent_prefix ..).length_le
  rw [List.length_reverse] at hle
  have hstop : n + 1 + (Operand.forward after).length - 1 =
    n + (Operand.forward after).length := by omega
  refine ⟨_, _, ⟨hfirst, hlast, ht ▸ hcomparison, hl, ?_, hr, ?_⟩, ⟨ht.trans hoperator, ?_, ?_, ?_⟩⟩
  · omega
  · omega
  · exact congrArg (locate p.tokens) hleft
  · rw [hstop]
    exact congrArg (locate p.tokens) hright
  · rw [hstop]
    exact congrArg (locate p.tokens) hspan

-- Where there are operands on both sides, a comparison is found.
theorem exists_isAt (hs : s.IsPart ⟨0, p.lexemes⟩)
    (hm : Matched Lexeme.isOpener Lexeme.isCloser (fun _ => True) s.lexemes)
    (h : Compares p.tokens s.run n first stop) : ∃ c, Comparison.IsAt constants s n c := by
  have hle : s.start ≤ n := h.first_le
  have hlt : n - s.start < s.lexemes.length := by
    have := h.le_last
    have := h.left.first_le
    have := h.left_lt
    simp only [Stretch.run, Stretch.last, Stretch.length] at *
    omega
  obtain ⟨before, l, after, hsplit, hlength⟩ : ∃ before l after,
      s.lexemes = before ++ l :: after ∧ before.length = n - s.start :=
    ⟨s.lexemes.take (n - s.start), s.lexemes[n - s.start], s.lexemes.drop (n - s.start + 1),
      by simp, List.length_take_of_le (Nat.le_of_lt hlt)⟩
  have hn : n = s.start + before.length := by omega
  obtain ⟨⟨-, -, ht⟩, hl, hr⟩ := longest_of_split hs hm hsplit hn
  have hleft := h.left.unique hl
  have hright := h.right.unique hr
  have hbackward : Operand.backward before.reverse ≠ [] := by
    have := h.left_lt
    exact List.length_pos_iff.mp (by omega)
  have hforward : Operand.forward after ≠ [] := by
    have := h.right_lt
    exact List.length_pos_iff.mp (by omega)
  have hof : ∃ c, Comparison.of? constants n before.reverse l after = some c :=
    Comparison.exists_of?_iff.mpr ⟨ht ▸ h.isComparison, hbackward, hforward⟩
  obtain ⟨c, hc⟩ := hof
  exact ⟨c, before, l, after, hsplit, hn, hc⟩

end

-- The comparisons of a condition are, in their order, those at the operators with an operand on
-- both sides, and each operand is the longest there.
theorem forall₂_comparisons (path text : String) :
    let o := ofSource (.ofText path text)
    o.diagnostics = [] → ∀ b ∈ o.blocks, ∀ r ∈ b.conditionRun, ∃ ns : List Nat,
      ns.Pairwise (· < ·) ∧ (∀ n, n ∈ ns ↔ ∃ first stop, Compares o.code r n first stop) ∧
      List.Forall₂ (fun n c => ∃ first stop, Compares o.code r n first stop ∧
        Records o.code n first stop c) ns b.comparisons := by
  intro o hd b hb r hr
  obtain ⟨block, hmem, rfl⟩ := mem_blocks_iff.mp hb
  obtain ⟨t, ht, head, group, parts, s, constants, hs, hcondition, hrun, hcomparisons⟩ :=
    Parts.exists_condition hmem (Parts.conditionRun_eq hmem ▸ hr)
  obtain ⟨-, rfl⟩ := Stretch.of_run? hrun
  have hpart := Parts.isPart_condition? ht hs hcondition
  have htidy := tidy_of_diagnostics hd
  rw [lexemes_ofSource] at htidy
  have hm := Parts.matched_condition? htidy ht hs hcondition
  obtain ⟨ns, hsorted, hns, hall⟩ := Comparison.exists_places constants s
  refine ⟨ns, hsorted, fun n => (hns n).trans ⟨fun ⟨c, hc⟩ => ?_, fun ⟨_, _, h⟩ => ?_⟩, ?_⟩
  · obtain ⟨first, stop, h, -⟩ := exists_compares hpart hm hc
    exact ⟨first, stop, h⟩
  · exact exists_isAt hpart hm h
  · simp only [ControlBlock.map, hcomparisons]
    exact List.forall₂_map_right_iff.mpr (hall.imp fun n c hc => exists_compares hpart hm hc)

-- Operators in a call and beside it, and one that has nothing on its right.
theorem forall₂_comparisons_nested :
    let o := ofSource (.ofText "a.c"
      "void f(int a) {
if (g(a < 1, b[a] >) && (a + 2) == b[1 + a])
{
g();
}
}
")
    o.diagnostics = [] ∧ ∃ b ∈ o.blocks, ∃ r ∈ b.conditionRun, b.comparisons.length = 2 ∧
      ∃ ns : List Nat, ns.Pairwise (· < ·) ∧
        (∀ n, n ∈ ns ↔ ∃ first stop, Compares o.code r n first stop) ∧
        List.Forall₂ (fun n c => ∃ first stop, Compares o.code r n first stop ∧
          Records o.code n first stop c) ns b.comparisons := by
  intro o
  have hd : o.diagnostics = [] := by decide +kernel
  let p := Parts.ofTokens o.source.tokens
  let block := p.blocks.get ⟨0, by decide +kernel⟩
  let b := block.map (locate p.tokens)
  have hb : b ∈ o.blocks := mem_blocks_iff.mpr ⟨block, List.get_mem .., rfl⟩
  let r := b.conditionRun.get (by decide +kernel)
  have hr : r ∈ b.conditionRun := Option.get_mem _
  exact ⟨hd, b, hb, r, hr, by decide +kernel, forall₂_comparisons _ _ hd b hb r hr⟩

end Outline
end CLint
