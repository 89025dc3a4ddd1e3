import CLint.Diagnostic
import CLint.Proofs.Reading
import CLint.Proofs.Within.Declaration

namespace CLint

namespace Site

variable {s t : Site} {ss : List Stmt} {start : Nat}

theorem start_lt_stop (s : Site) : s.start < s.stop :=
  Nat.lt_add_of_pos_right s.stmt.size_pos

theorem within_run (s : Site) : s.run.Within s.start s.stop := by
  have := s.start_lt_stop
  constructor <;> simp only [run] <;> omega

theorem bounds_of_mem_placed (h : s ∈ placed start ss) :
    start ≤ s.start ∧ s.stop ≤ start + Stmt.listSize ss := by
  induction ss generalizing start with
  | nil => cases h
  | cons t ts ih =>
    rw [Stmt.listSize]
    cases List.mem_cons.mp h
    case inl h =>
      subst h
      simp only [stop]
      omega
    case inr h =>
      have := ih h
      omega

-- Statements that follow one another do not overlap.
theorem pairwise_placed (start : Nat) (ss : List Stmt) :
    (placed start ss).Pairwise (·.stop ≤ ·.start) := by
  induction ss generalizing start with
  | nil => exact .nil
  | cons s ss ih => exact .cons (fun t ht => (bounds_of_mem_placed ht).1) (ih _)

end Site

namespace Stmt

mutual

-- The statements in a statement lie where it does.
theorem bounds_of_mem_sites (s : Stmt) {start : Nat} {t : Site} (h : t ∈ sites start s) :
    start ≤ t.start ∧ t.stop ≤ start + s.size := by
  cases s with
  | function header body =>
    rw [sites, List.mem_append] at h
    cases h
    case inl h =>
      have := bounds_of_mem_sites body h
      simp only [size]
      omega
    case inr h =>
      cases List.mem_singleton.mp h
      exact ⟨Nat.le_refl _, Nat.le_refl _⟩
  | block items closed =>
    rw [sites] at h
    cases List.mem_cons.mp h
    case inl h => exact h ▸ ⟨Nat.le_refl _, Nat.le_refl _⟩
    case inr h =>
      have := bounds_of_mem_listSites items h
      simp only [size]
      omega
  | control head group parts =>
    rw [sites] at h
    cases List.mem_cons.mp h
    case inl h => exact h ▸ ⟨Nat.le_refl _, Nat.le_refl _⟩
    case inr h =>
      have := bounds_of_mem_listSites parts h
      simp only [size, partsStart] at this ⊢
      omega
  | _ =>
    simp only [sites, List.mem_singleton] at h
    exact h ▸ ⟨Nat.le_refl _, Nat.le_refl _⟩

theorem bounds_of_mem_listSites (ss : List Stmt) {start : Nat} {t : Site}
    (h : t ∈ listSites start ss) : start ≤ t.start ∧ t.stop ≤ start + listSize ss := by
  cases ss with
  | nil => cases h
  | cons s ss =>
    rw [listSites, List.mem_append] at h
    rw [listSize]
    cases h
    case inl h =>
      have := bounds_of_mem_sites s h
      omega
    case inr h =>
      have := bounds_of_mem_listSites ss h
      omega

end

theorem listSize_take_le (n : Nat) (ss : List Stmt) : listSize (ss.take n) ≤ listSize ss := by
  induction ss generalizing n with
  | nil => simp
  | cons s ss ih =>
    cases n with
    | zero => exact Nat.zero_le _
    | succ n =>
      have := ih n
      simp only [List.take_succ_cons, listSize]
      omega

end Stmt

namespace Operand

theorem length_extent_le (opens closes : Lexeme → Bool) (depth : Nat) (ls : List Lexeme) :
    (extent opens closes depth ls).length ≤ ls.length := by
  fun_induction extent opens closes depth ls <;> simp_all

end Operand

theorem Head.length_lexemes_pos (head : Head) : 0 < head.lexemes.length := by
  cases head <;> decide

-- All that a comparison locates.
def Comparison.spans {σ : Type} (c : Comparison σ) : List σ :=
  [c.left.span, c.right.span, c.span]

namespace Comparison

variable {constants : List String} {c : Comparison Run} {r : Run}

theorem within_of? {place low : Nat} {before after : List Lexeme} {operator : Lexeme}
    (h : of? constants place before operator after = some c) (hl : low + before.length = place)
    (hr : r ∈ c.spans) : r.Within low (place + 1 + after.length) := by
  unfold of? at h
  split at h
  case h_2 => cases h
  case h_1 =>
    dsimp only at h
    split at h
    case isFalse => cases h
    case isTrue hc =>
      cases h
      have hleft := Operand.length_extent_le Lexeme.isCloser Lexeme.isOpener 0 before
      have hright := Operand.length_extent_le Lexeme.isOpener Lexeme.isCloser 0 after
      simp only [Bool.and_eq_true, Bool.not_eq_true', List.isEmpty_eq_false_iff,
        ← List.length_pos_iff, Operand.backward, Operand.forward] at hc
      simp only [spans, List.mem_cons, List.not_mem_nil, or_false, Operand.backward,
        Operand.forward] at hr
      rcases hr with rfl | rfl | rfl <;> constructor <;> simp only <;> omega

theorem within_of_mem_listFrom {place low : Nat} {before ls : List Lexeme}
    (h : c ∈ listFrom constants place before ls) (hl : low + before.length = place)
    (hr : r ∈ c.spans) : r.Within low (place + ls.length) := by
  induction ls generalizing place before with
  | nil => cases h
  | cons l ls ih =>
    rw [listFrom, List.mem_append] at h
    cases h
    case inl h =>
      refine (within_of? (Option.mem_toList.mp h) hl hr).mono (Nat.le_refl _) ?_
      rw [List.length_cons]
      omega
    case inr h =>
      refine (ih h ?_).mono (Nat.le_refl _) ?_ <;> rw [List.length_cons] <;> omega

theorem covers_of_mem_listOf {s : Stretch} (h : c ∈ listOf constants s) (hr : r ∈ c.spans) :
    s.Covers r :=
  within_of_mem_listFrom h rfl hr

end Comparison

namespace Group

variable {start : Nat} {g : Group} {t : Stretch}

theorem isPart_contentAt (start : Nat) (g : Group) :
    (g.contentAt start).IsPart ⟨start, g.lexemes⟩ := by
  unfold contentAt content lexemes
  split
  case isTrue => exact ⟨[.punct .lparen], g.close.toList, rfl, rfl⟩
  case isFalse =>
    refine ⟨[.punct .lparen], g.inner.getLast?.toList ++ g.close.toList, ?_, rfl⟩
    cases h : g.inner.getLast? with
    | none => simp [List.getLast?_eq_none_iff.mp h]
    | some l =>
      obtain ⟨ls, hl⟩ := List.getLast?_eq_some_iff.mp h
      simp [hl]

theorem isPart_of_mem_pieces (h : t ∈ g.pieces start) : t.IsPart ⟨start, g.lexemes⟩ :=
  (Stretch.isPart_of_mem_cut h).trans (isPart_contentAt start g)

theorem isPart_forCondition (start : Nat) (g : Group) :
    (g.forCondition start).IsPart ⟨start, g.lexemes⟩ := by
  unfold forCondition
  split
  case h_1 _ condition _ _ h => exact isPart_of_mem_pieces (h ▸ by simp)
  case h_2 => exact isPart_contentAt start g

theorem isPart_forInit? (h : g.forInit? start = some t) : t.IsPart ⟨start, g.lexemes⟩ := by
  unfold forInit? at h
  split at h <;> cases h
  case h_1.refl hp => exact isPart_of_mem_pieces (hp ▸ by simp)

end Group

namespace Control

variable {start : Nat} {head : Head} {group : Option Group} {parts : List Stmt}

theorem bounds_of_conditionGroup? {place : Nat} {g : Group}
    (h : conditionGroup? start head group parts = some (place, g)) :
    start ≤ place ∧
      place + g.lexemes.length ≤ start + (Stmt.control head group parts).size := by
  unfold conditionGroup? at h
  split at h
  case h_1 body g ended =>
    cases h
    simp only [Stmt.size, Stmt.listSize, Stmt.groupLexemes, Option.map_some, Option.getD_some]
    omega
  case h_2 =>
    obtain ⟨g, rfl, hg⟩ := Option.map_eq_some_iff.mp h
    cases hg
    simp only [Stmt.size, Stmt.groupLexemes, Option.map_some, Option.getD_some]
    omega

theorem within_of_condition? {c : Stretch} {r : Run}
    (h : condition? start head group parts = some c) (hr : c.Covers r) :
    r.Within start (start + (Stmt.control head group parts).size) := by
  obtain ⟨⟨place, g⟩, hg, rfl⟩ := Option.map_eq_some_iff.mp h
  obtain ⟨hlow, hhigh⟩ := bounds_of_conditionGroup? hg
  refine Run.Within.mono ?_ hlow hhigh
  dsimp only at hr
  split at hr
  · exact (Group.isPart_forCondition place g).covers hr
  · exact (Group.isPart_contentAt place g).covers hr

theorem bounds_stop (start : Nat) (head : Head) (group : Option Group) (parts : List Stmt) :
    start < stop start head group parts ∧
      stop start head group parts ≤ start + (Stmt.control head group parts).size := by
  have := Stmt.listSize_take_le 1 parts
  cases head <;>
    simp only [stop, Stmt.partsStart, Stmt.size, Head.lexemes, List.length] <;> split <;> omega

end Control

namespace Section

variable {s : Section} {ss : List Site} {r : Run}

-- Nothing is lost where statements are split at the labels among them.
theorem append_split (ss : List Site) :
    (split ss).1 ++ (split ss).2.flatMap (fun s => s.label :: s.items) = ss := by
  induction ss with
  | nil => rfl
  | cons s ss ih =>
    rw [split]
    split
    case h_1 => split <;> simp [ih]
    case h_2 => simp [ih]

theorem sublist_of_mem_split (h : s ∈ (split ss).2) : (s.label :: s.items).Sublist ss := by
  have hs := append_split ss
  obtain ⟨before, after, hb⟩ := List.append_of_mem h
  rw [hb, List.flatMap_append, List.flatMap_cons] at hs
  rw [← hs]
  exact (List.sublist_append_left _ _).trans
    ((List.sublist_append_right _ _).trans (List.sublist_append_right _ _))

-- The label and the items lie one behind the other between two numbers.
structure Within (low high : Nat) (s : Section) : Prop where
  apart : (s.label :: s.items).Pairwise (·.stop ≤ ·.start)
  bounds : ∀ t ∈ s.label :: s.items, low ≤ t.start ∧ t.stop ≤ high

theorem within_of_mem_split {start : Nat} {items : List Stmt}
    (h : s ∈ (split (Site.placed start items)).2) :
    s.Within start (start + Stmt.listSize items) where
  apart := (Site.pairwise_placed start items).sublist (sublist_of_mem_split h)
  bounds _ ht := Site.bounds_of_mem_placed ((sublist_of_mem_split h).mem ht)

namespace Within

variable {low high low' high' : Nat}

theorem mono (h : s.Within low high) (hl : low' ≤ low) (hh : high ≤ high') :
    s.Within low' high' where
  apart := h.apart
  bounds t ht := ⟨Nat.le_trans hl (h.bounds t ht).1, Nat.le_trans (h.bounds t ht).2 hh⟩

theorem lt_stop (h : s.Within low high) {t : Site} (ht : t ∈ s.label :: s.items) :
    t.start < s.stop := by
  have hp := h.apart
  unfold stop
  cases hl : s.items.getLast? with
  | none =>
    rw [List.getLast?_eq_none_iff.mp hl] at ht
    cases List.mem_singleton.mp ht
    exact s.label.start_lt_stop
  | some z =>
    obtain ⟨init, hi⟩ := List.getLast?_eq_some_iff.mp hl
    rw [hi, ← List.cons_append] at ht hp
    have hz := z.start_lt_stop
    simp only [Option.map_some, Option.getD_some]
    cases List.mem_append.mp ht
    case inl ht =>
      have := (List.pairwise_append.mp hp).2.2 t ht z (List.mem_singleton_self z)
      have := t.start_lt_stop
      omega
    case inr ht =>
      cases List.mem_singleton.mp ht
      exact hz

theorem stop_le (h : s.Within low high) : s.stop ≤ high := by
  unfold stop
  cases hl : s.items.getLast? with
  | none => exact (h.bounds _ List.mem_cons_self).2
  | some t => exact (h.bounds t (List.mem_cons_of_mem _ (List.mem_of_getLast? hl))).2

theorem to_stop (h : s.Within low high) {t : Site} (ht : t ∈ s.label :: s.items) :
    Run.Within low high ⟨t.start, s.stop - 1⟩ := by
  have := h.lt_stop ht
  have := h.stop_le
  have := (h.bounds t ht).1
  constructor <;> simp only <;> omega

theorem label (h : s.Within low high) : s.label.run.Within low high :=
  s.label.within_run.mono (h.bounds _ List.mem_cons_self).1 (h.bounds _ List.mem_cons_self).2

end Within
end Section

-- All that a control block locates.
def ControlBlock.spans {σ : Type} (b : ControlBlock σ) : List σ :=
  b.span :: b.keyword :: b.condition.toList ++ b.comparisons.flatMap Comparison.spans ++
    b.body.toList ++ b.clauses.map (·.label)

theorem Section.within_block {s : Section} {low high : Nat} (h : s.Within low high) {r : Run}
    (hr : r ∈ s.block.spans) : r.Within low high := by
  simp only [block, ControlBlock.spans, Option.toList_none, List.flatMap_nil, List.map_nil,
    List.append_nil, List.cons_append, List.nil_append, List.mem_cons, Option.mem_toList] at hr
  rcases hr with rfl | rfl | hr
  · exact h.to_stop List.mem_cons_self
  · have := s.label.start_lt_stop
    have := h.bounds _ List.mem_cons_self
    constructor <;> simp only <;> omega
  · obtain ⟨t, ht, rfl⟩ := Option.map_eq_some_iff.mp (Option.mem_def.mp hr)
    exact h.to_stop (List.mem_cons_of_mem _ (List.mem_of_head? ht))

theorem Batch.within_of_mem_ofFunction {header : Stretch} {body : Run} {b : Batch} {high : Nat}
    (h : b ∈ ofFunction header body) (hb : body.Within (header.start + header.length) high) :
    b.Within header.start high := by
  unfold ofFunction at h
  split at h
  case h_1 => cases h
  case h_2 d hd =>
    split at h
    case h_1 => cases h
    case h_2 first others hall =>
      cases List.mem_singleton.mp h
      have hlow := hb.low_le
      have hfirst := hb.first_le
      have hlast := hb.last_lt
      refine ⟨fun d' hd' r hr => ?_, fun d' hd' => ?_, fun r hr => nomatch hr⟩
      case refine_2 =>
        cases List.mem_singleton.mp hd'
        rfl
      cases List.mem_singleton.mp hd'
      simp only [Declaration.spans, Option.toList_some, List.cons_append, List.mem_cons,
        List.mem_append, List.mem_map, List.not_mem_nil, or_false] at hr
      rcases hr with rfl | ⟨p, hp, rfl⟩ | rfl
      · constructor <;> simp only <;> omega
      · have hrest := Specifiers.isPart_rest hd
        have hmem : first ∈ Declarator.readAll d.rest := hall ▸ List.mem_cons_self
        have hparams := (Declarator.of_mem_readAll hmem).2.2 p hp
        exact (hrest.covers hparams).mono (Nat.le_refl _) (by omega)
      · exact hb.mono (by omega) (Nat.le_refl _)

namespace Control

variable {start : Nat} {head : Head} {group : Option Group} {parts : List Stmt} {s : Section}

theorem within_of_mem_sections (h : s ∈ sections start head group parts) :
    s.Within start (start + (Stmt.control head group parts).size) := by
  unfold sections at h
  split at h
  case h_1 items closed tail =>
    refine (Section.within_of_mem_split h).mono ?_ ?_ <;>
      simp only [Stmt.partsStart, Stmt.size, Stmt.listSize] <;> omega
  case h_2 => cases h

end Control

namespace Site

variable {s : Site} {r : Run}

theorem within_of_mem_batches {b : Batch} (h : b ∈ s.batches) : b.Within s.start s.stop := by
  unfold batches at h
  split at h
  case h_1 atFile first text ended hs =>
    refine (Batch.coveredBy_of_mem_ofDeclaration h).mono (Nat.le_refl _) ?_
    simp only [Stretch.length, List.length_cons, stop, hs, Stmt.size]
    omega
  case h_2 g parts hs =>
    split at h
    case h_1 init hi =>
      have hpart := Group.isPart_forInit? hi
      refine (Batch.coveredBy_of_mem_ofDeclaration h).mono ?_ (Nat.le_trans hpart.stop_le ?_)
      · exact Nat.le_trans (Nat.le_succ _) hpart.start_le
      · simp only [stop, hs, Stmt.size, Stmt.groupLexemes, Option.map_some, Option.getD_some,
          Head.lexemes, List.length_singleton, Stretch.length]
        omega
    case h_2 => cases h
  case h_3 header body hs =>
    have := body.size_pos
    refine Batch.within_of_mem_ofFunction h ⟨Nat.le_refl _, ?_, ?_⟩ <;>
      simp only [stop, hs, Stmt.size] <;> omega
  case h_4 => cases h

theorem within_of_mem_controlBlocks {constants : List String} {announced : List Nat}
    {b : ControlBlock Run} (h : b ∈ s.controlBlocks constants announced) (hr : r ∈ b.spans) :
    r.Within s.start s.stop := by
  unfold controlBlocks at h
  split at h
  case h_2 => cases h
  case h_1 head group parts hs =>
    have hstop : s.stop = s.start + (Stmt.control head group parts).size := by rw [stop, hs]
    rw [hstop]
    cases List.mem_cons.mp h
    case inr h =>
      obtain ⟨sec, hsec, rfl⟩ := List.mem_map.mp h
      exact Section.within_block (Control.within_of_mem_sections hsec) hr
    case inl h =>
      subst h
      simp only [ControlBlock.spans, List.cons_append, List.mem_cons, List.mem_append,
        List.mem_flatMap, List.mem_map, Option.mem_toList] at hr
      rcases hr with rfl | rfl | ((hr | ⟨c, hc, hr⟩) | hr) | ⟨_, ⟨sec, hsec, rfl⟩, rfl⟩
      · have := Control.bounds_stop s.start head group parts
        constructor <;> simp only <;> omega
      · have := head.length_lexemes_pos
        constructor <;> simp only [Stmt.size] <;> omega
      · obtain ⟨condition, hcond, hrun⟩ := Option.bind_eq_some_iff.mp (Option.mem_def.mp hr)
        exact Control.within_of_condition? hcond (Stretch.covers_of_run? hrun)
      · cases hcond : Control.condition? s.start head group parts with
        | none => simp [hcond] at hc
        | some condition =>
          rw [hcond] at hc
          exact Control.within_of_condition? hcond (Comparison.covers_of_mem_listOf hc hr)
      · obtain ⟨body, hbody, rfl⟩ := Option.map_eq_some_iff.mp (Option.mem_def.mp hr)
        have hb := bounds_of_mem_placed (List.mem_of_head? hbody)
        have := Stmt.listSize_take_le 1 parts
        refine body.within_run.mono ?_ ?_ <;>
          simp only [Stmt.partsStart, Stmt.size] at hb ⊢ <;> omega
      · exact (Control.within_of_mem_sections hsec).label

theorem conditionRun_of_mem_controlBlocks {constants : List String} {announced : List Nat}
    {b : ControlBlock Run} (h : b ∈ s.controlBlocks constants announced) :
    b.conditionRun = b.condition := by
  unfold controlBlocks at h
  split at h
  case h_2 => cases h
  case h_1 =>
    cases List.mem_cons.mp h
    case inl h => exact h ▸ rfl
    case inr h =>
      obtain ⟨sec, _, rfl⟩ := List.mem_map.mp h
      rfl

theorem lt_of_mem_groupProblem {start : Nat} {group : Option Group} {p : Problem × Nat}
    (h : p ∈ groupProblem start group) : p.2 < start + (Stmt.groupLexemes group).length := by
  unfold groupProblem at h
  split at h
  case h_1 g =>
    split at h
    case isTrue => cases h
    case isFalse =>
      cases List.mem_singleton.mp h
      simp [Stmt.groupLexemes, Group.lexemes]
  case h_2 => cases h

theorem lt_stop_of_mem_problems {p : Problem × Nat} (h : p ∈ s.problems) : p.2 < s.stop := by
  unfold problems at h
  split at h
  case h_1 =>
    cases List.mem_singleton.mp h
    exact s.start_lt_stop
  case h_2 head group parts hs =>
    have := lt_of_mem_groupProblem h
    simp only [stop, hs, Stmt.size]
    omega
  case h_3 group ended hs =>
    have := lt_of_mem_groupProblem h
    simp only [stop, hs, Stmt.size]
    omega
  case h_4 => cases h

end Site
end CLint
