import CLint.Proofs.Division
import CLint.Rule.Hazard

namespace CLint

open Rule (isStep argumentTokens)

-- What is known of the code before a place: the parentheses that are open there, the last one
-- first, each with the identifier right before it, if there is one; and the token right before the
-- place.
structure OpenParens where
  marks : List (Option Token) := []
  last : Option Token := none

namespace OpenParens

-- The end of a statement and the ends of a block close all that is open.
def step (s : OpenParens) (t : Token) : OpenParens where
  marks :=
    if t.lexeme.isMark .lparen then s.last.filter (·.lexeme.isIdentifier) :: s.marks
    else if t.lexeme.isMark .rparen then s.marks.tail
    else if t.lexeme.isMark .semicolon || t.lexeme.isMark .lbrace || t.lexeme.isMark .rbrace then []
    else s.marks
  last := some t

-- The identifier of the outermost parenthesis that has one.
def outermost? (s : OpenParens) : Option Token :=
  s.marks.reverse.findSome? id

-- The increments and decrements among some tokens that are met while a parenthesis with an
-- identifier is open, each with the identifier of the outermost one.
def stepsInCalls (s : OpenParens) : List Token → List (Token × Token)
  | [] => []
  | t :: ts =>
    let found := if isStep t then s.outermost?.toList.map (t, ·) else []
    found ++ stepsInCalls (s.step t) ts

-- No parenthesis with an identifier is open.
def IsOutside (s : OpenParens) : Prop :=
  ∀ mark ∈ s.marks, mark = none

-- The outermost one has the identifier `f`, and `depth` more are open in it.
def IsInCall (depth : Nat) (f : Token) (s : OpenParens) : Prop :=
  ∃ inner outer, s.marks = inner ++ some f :: outer ∧ inner.length = depth ∧
    ∀ mark ∈ outer, mark = none

variable {s : OpenParens} {t f : Token} {ts : List Token} {depth : Nat}

theorem IsOutside.outermost? (h : s.IsOutside) : s.outermost? = none :=
  List.findSome?_eq_none_iff.mpr fun mark hm => h mark (List.mem_reverse.mp hm)

theorem IsInCall.outermost? (h : s.IsInCall depth f) : s.outermost? = some f := by
  obtain ⟨inner, outer, hmarks, -, houter⟩ := h
  have hnone : outer.reverse.findSome? id = none :=
    List.findSome?_eq_none_iff.mpr fun mark hm => houter mark (List.mem_reverse.mp hm)
  simp [OpenParens.outermost?, hmarks, List.findSome?_append, hnone]

theorem IsOutside.step (h : s.IsOutside)
    (hlast : t.lexeme.isMark .lparen → ∀ f ∈ s.last, f.lexeme.isIdentifier = false) :
    (s.step t).IsOutside := by
  unfold IsOutside OpenParens.step
  dsimp only
  split
  case isTrue ht =>
    refine List.forall_mem_cons.mpr ⟨?_, h⟩
    exact Option.filter_eq_none_iff.mpr fun f hf => by simp [hlast ht f hf]
  case isFalse =>
    split
    case isTrue => exact fun mark hm => h mark (List.mem_of_mem_tail hm)
    case isFalse =>
      split
      case isTrue => exact List.forall_mem_nil _
      case isFalse => exact h

-- Within a call, a token either ends the arguments or is one more of them.
theorem IsInCall.step (h : s.IsInCall depth f) (t : Token) :
    ((s.step t).IsOutside ∧ isStep t = false ∧ ∀ ts, argumentTokens depth (t :: ts) = []) ∨
    ∃ n, (s.step t).IsInCall n f ∧
      ∀ ts, argumentTokens depth (t :: ts) = t :: argumentTokens n ts := by
  obtain ⟨inner, outer, hmarks, rfl, houter⟩ := h
  unfold OpenParens.step IsInCall IsOutside
  simp only [argumentTokens, hmarks]
  split
  case isTrue => exact .inr ⟨inner.length + 1, ⟨_ :: inner, outer, rfl, rfl, houter⟩, fun _ => rfl⟩
  case isFalse =>
    split
    case isTrue ht =>
      cases inner with
      | nil =>
        refine .inl ⟨houter, ?_, fun _ => rfl⟩
        rw [isStep, of_decide_eq_true ht]
        rfl
      | cons mark inner =>
        exact .inr ⟨inner.length, ⟨inner, outer, rfl, rfl, houter⟩, fun _ => rfl⟩
    case isFalse =>
      split
      case isTrue ht =>
        refine .inl ⟨List.forall_mem_nil _, ?_, fun _ => rfl⟩
        simp only [Lexeme.isMark, Bool.or_eq_true, decide_eq_true_eq] at ht
        rcases ht with (ht | ht) | ht <;> simp [isStep, Lexeme.isMark, ht]
      case isFalse => exact .inr ⟨inner.length, ⟨inner, outer, rfl, rfl, houter⟩, fun _ => rfl⟩

theorem mem_of_mem_stepsInCalls {p : Token × Token} (h : p ∈ s.stepsInCalls ts) : p.1 ∈ ts := by
  induction ts generalizing s with
  | nil => cases h
  | cons t ts ih =>
    cases List.mem_append.mp h
    case inl h =>
      split at h
      · obtain ⟨_, -, rfl⟩ := List.mem_map.mp h
        exact List.mem_cons_self
      · cases h
    case inr h => exact List.mem_cons_of_mem t (ih h)

-- All steps among the arguments of a call belong to the outermost one, and no others come before
-- those behind the arguments.
theorem IsInCall.exists_stepsInCalls (h : s.IsInCall depth f) (ts : List Token) :
    ∃ rest others, ts = argumentTokens depth ts ++ rest ∧
      s.stepsInCalls ts = ((argumentTokens depth ts).filter isStep).map (·, f) ++ others ∧
      ∀ p ∈ others, p.1 ∈ rest := by
  induction ts generalizing s depth with
  | nil => exact ⟨[], [], rfl, rfl, List.forall_mem_nil _⟩
  | cons t ts ih =>
    rcases h.step t with ⟨-, hstep, hend⟩ | ⟨n, hn, hmore⟩
    case inl =>
      refine ⟨t :: ts, (s.step t).stepsInCalls ts, by simp [hend], ?_, fun p hp => ?_⟩
      · simp [stepsInCalls, hstep, hend]
      · exact List.mem_cons_of_mem t (mem_of_mem_stepsInCalls hp)
    case inr =>
      obtain ⟨rest, others, hts, hsteps, hothers⟩ := ih hn
      refine ⟨rest, others, ?_, ?_, hothers⟩
      · rw [hmore, List.cons_append, ← hts]
      · rw [stepsInCalls, h.outermost?, hsteps, hmore, List.filter_cons]
        cases isStep t <;> simp

theorem IsOutside.isInCall_step (h : s.IsOutside) (hf : s.last = some f)
    (hi : f.lexeme.isIdentifier) (ht : t.lexeme.isMark .lparen) : (s.step t).IsInCall 0 f :=
  ⟨[], s.marks, by simp [OpenParens.step, ht, hf, hi], rfl, h⟩

end OpenParens

theorem Lexeme.isMark_of_isIdentifier {l : Lexeme} (h : l.isIdentifier) (p : Punct) :
    l.isMark p = false := by
  cases l <;> simp_all [isIdentifier, isMark]

namespace Rule

open OpenParens

variable {s : OpenParens} {t f : Token} {ts us : List Token} {depth m n : Nat}
  {reported others : List Nat}

-- A step is not reported once its offset is among those that were.
def Reports (reported : List Nat) (ts : List Token) : Prop :=
  ∀ t ∈ ts, isStep t → t.offset ∈ reported

-- What was reported by the time that a place is reached: all steps among the arguments of the calls
-- around the place, and among those of a call of which the name stands right before it.
structure Covers (reported : List Nat) (s : OpenParens) (ts : List Token) : Prop where
  around : s.IsOutside ∨
    ∃ depth f, s.IsInCall depth f ∧ Reports reported (argumentTokens depth ts)
  ahead : ∀ f ∈ s.last, isCall f ts → Reports reported (argumentTokens 0 (ts.drop 1))

theorem of_isCall (h : isCall t ts) :
    t.lexeme.isIdentifier ∧ ∃ p us, ts = p :: us ∧ p.lexeme.isMark .lparen := by
  obtain ⟨ht, hp⟩ := Bool.and_eq_true_iff.mp h
  cases ts with
  | nil => cases hp
  | cons p us => exact ⟨ht, p, us, rfl, hp⟩

theorem prefix_argumentTokens (h : m ≤ n) (ts : List Token) :
    argumentTokens m ts <+: argumentTokens n ts := by
  induction ts generalizing m n with
  | nil => exact List.prefix_refl _
  | cons t ts ih =>
    simp only [argumentTokens]
    split
    case isTrue => exact (List.prefix_cons_inj t).mpr (ih (Nat.succ_le_succ h))
    case isFalse =>
      split
      case isTrue =>
        cases m with
        | zero => exact List.nil_prefix
        | succ m =>
          obtain ⟨n, rfl⟩ := Nat.exists_eq_add_of_lt h
          exact (List.prefix_cons_inj t).mpr (ih (Nat.le_add_right m n))
      case isFalse =>
        split
        case isTrue => exact List.prefix_refl _
        case isFalse => exact (List.prefix_cons_inj t).mpr (ih h)

theorem Covers.step (h : Covers reported s (t :: ts)) (hsub : reported ⊆ others)
    (hahead : isCall t ts → Reports others (argumentTokens 0 (ts.drop 1))) :
    Covers others (s.step t) ts where
  ahead f hf hc := by
    cases Option.mem_some.mp hf
    exact hahead hc
  around := by
    rcases h.around with hout | ⟨depth, f, hin, hr⟩
    case inl =>
      by_cases hc : ∃ f ∈ s.last, isCall f (t :: ts)
      case pos =>
        obtain ⟨f, hf, hc⟩ := hc
        obtain ⟨hi, p, us, hts, hp⟩ := of_isCall hc
        cases hts
        exact .inr ⟨0, f, hout.isInCall_step hf hi hp, fun u hu hstep =>
          hsub (h.ahead f hf hc u hu hstep)⟩
      case neg =>
        refine .inl (hout.step fun ht f hf => ?_)
        exact Bool.eq_false_iff.mpr fun hi => hc ⟨f, hf, by simp [isCall, hi, ht]⟩
    case inr =>
      rcases hin.step t with ⟨hout, -⟩ | ⟨n, hn, hmore⟩
      · exact .inl hout
      · exact .inr ⟨n, f, hn, fun u hu hstep =>
          hsub (hr u (hmore ts ▸ List.mem_cons_of_mem t hu) hstep)⟩

-- A token that is met in a call was reported if it is a step.
theorem Covers.filter_stepsInCalls (h : Covers reported s (t :: ts)) :
    (s.stepsInCalls (t :: ts)).filter (fun p => !reported.contains p.1.offset) =
      ((s.step t).stepsInCalls ts).filter fun p => !reported.contains p.1.offset := by
  rw [stepsInCalls, List.filter_append, List.append_left_eq_self, List.filter_eq_nil_iff]
  intro p hp
  split at hp
  case isFalse => cases hp
  case isTrue hstep =>
    rcases h.around with hout | ⟨depth, f, hin, hr⟩
    case inl =>
      rw [hout.outermost?] at hp
      cases hp
    case inr =>
      rw [hin.outermost?] at hp
      cases List.mem_singleton.mp hp
      rcases hin.step t with ⟨-, hno, -⟩ | ⟨n, -, hmore⟩
      · exact absurd hstep (by simp [hno])
      · simpa using hr t (hmore ts ▸ List.mem_cons_self) hstep

-- The steps that are reported with the name of a call: those among its arguments that were not
-- reported before.
def newSteps (reported : List Nat) (arguments : List Token) : List Token :=
  arguments.filter fun t => isStep t && !reported.contains t.offset

variable {arguments rest : List Token} {found : List (Token × Token)}

theorem reports_newSteps (reported : List Nat) (arguments : List Token) :
    Reports (reported ++ (newSteps reported arguments).map (·.offset)) arguments := by
  intro t ht hstep
  rw [List.mem_append]
  by_cases hr : t.offset ∈ reported
  · exact .inl hr
  · exact .inr (List.mem_map_of_mem (List.mem_filter.mpr ⟨ht, by simp [hstep, hr]⟩))

theorem newSteps_eq_nil (h : Reports reported arguments) : newSteps reported arguments = [] :=
  List.filter_eq_nil_iff.mpr fun t ht hn => by
    obtain ⟨hstep, hr⟩ := Bool.and_eq_true_iff.mp hn
    simp [h t ht hstep] at hr

-- Once the new steps are reported, nothing is left of the arguments, and all that is behind them,
-- as each token has an offset of its own.
theorem newSteps_append (hn : ((arguments ++ rest).map (·.offset)).Nodup)
    (hfound : ∀ q ∈ found, q.1 ∈ rest) :
    (newSteps reported arguments).map (·, t) ++
        ((arguments.filter isStep).map (·, t) ++ found).filter (fun q =>
          !(reported ++ (newSteps reported arguments).map (·.offset)).contains q.1.offset) =
      ((arguments.filter isStep).map (·, t) ++ found).filter fun q =>
        !reported.contains q.1.offset := by
  have hold : ((arguments.filter isStep).map (·, t)).filter (fun q =>
      !(reported ++ (newSteps reported arguments).map (·.offset)).contains q.1.offset) = [] := by
    refine List.filter_eq_nil_iff.mpr fun q hq => ?_
    obtain ⟨u, hu, rfl⟩ := List.mem_map.mp hq
    obtain ⟨hu, hstep⟩ := List.mem_filter.mp hu
    simp only [Bool.not_eq_true', Bool.not_eq_false, List.contains_iff_mem]
    exact reports_newSteps reported arguments u hu hstep
  have hnew : ((arguments.filter isStep).map (·, t)).filter (fun q =>
      !reported.contains q.1.offset) = (newSteps reported arguments).map (·, t) := by
    rw [List.filter_map, List.filter_filter, newSteps]
    simp [Bool.and_comm]
  have hbehind : found.filter (fun q =>
      !(reported ++ (newSteps reported arguments).map (·.offset)).contains q.1.offset) =
        found.filter fun q => !reported.contains q.1.offset := by
    rw [List.map_append] at hn
    refine List.filter_congr fun q hq => ?_
    have hq : q.1.offset ∉ (newSteps reported arguments).map (·.offset) := fun hmem => by
      obtain ⟨u, hu, hoffset⟩ := List.mem_map.mp hmem
      have hu := List.mem_map_of_mem (f := Token.offset) (List.mem_filter.mp hu).1
      have hrest := List.mem_map_of_mem (f := Token.offset) (hfound q hq)
      exact (List.nodup_append.mp hn).2.2 _ hu _ hrest hoffset
    simp [hq]
  rw [List.filter_append, List.filter_append, hold, hnew, hbehind, List.nil_append]

-- Within a call, the arguments of another one belong to those of the first.
theorem reports_of_isCall (hc : isCall t ts)
    (h : Reports reported (argumentTokens depth (t :: ts))) :
    Reports reported (argumentTokens 0 (ts.drop 1)) := by
  obtain ⟨hi, p, us, rfl, hp⟩ := of_isCall hc
  have harguments : argumentTokens depth (t :: p :: us) =
      t :: p :: argumentTokens (depth + 1) us := by
    simp [argumentTokens, hp, Lexeme.isMark_of_isIdentifier hi]
  rw [harguments] at h
  have hsub := (prefix_argumentTokens (Nat.zero_le (depth + 1)) us).subset
  exact fun u hu => h u (List.mem_cons_of_mem t (List.mem_cons_of_mem p (hsub hu)))

-- Around the name of a call, either no call is open, and then its arguments are met with this name;
-- or all steps among them were reported before.
theorem Covers.newSteps_append (h : Covers reported s (t :: ts)) (hc : isCall t ts)
    (hn : (ts.map (·.offset)).Nodup) :
    let steps := newSteps reported (argumentTokens 0 (ts.drop 1))
    steps.map (·, t) ++ ((s.step t).stepsInCalls ts).filter (fun p =>
        !(reported ++ steps.map (·.offset)).contains p.1.offset) =
      ((s.step t).stepsInCalls ts).filter fun p => !reported.contains p.1.offset := by
  intro steps
  rcases h.around with hout | ⟨depth, f, hin, hr⟩
  case inr => simp [steps, newSteps_eq_nil (reports_of_isCall hc hr)]
  case inl =>
    obtain ⟨hi, p, us, rfl, hp⟩ := of_isCall hc
    have hout : (s.step t).IsOutside := hout.step fun ht => by
      rw [Lexeme.isMark_of_isIdentifier hi] at ht
      cases ht
    obtain ⟨rest, found, hus, hsteps, hfound⟩ :=
      (hout.isInCall_step rfl hi hp).exists_stepsInCalls us
    have hfirst : (s.step t).stepsInCalls (p :: us) =
        ((argumentTokens 0 us).filter isStep).map (·, t) ++ found := by
      rw [stepsInCalls, hsteps, isStep, of_decide_eq_true hp]
      rfl
    have hnodup : ((argumentTokens 0 us ++ rest).map (·.offset)).Nodup :=
      hus ▸ (List.nodup_cons.mp hn).2
    rw [hfirst]
    exact Rule.newSteps_append hnodup hfound

-- What the rule says of a step with the name of the call.
def callRemark (p : Token × Token) : Remark :=
  .onSpan p.1.span s!"'{p.1.text}' inside the arguments of '{p.2.text}'"
    "Update the variable in a separate statement."

-- By induction on the code. What the rule finds from a place on is what is met from there on, apart
-- from what was reported before.
theorem sideEffectRemarks_eq (h : Covers reported s ts) (hn : (ts.map (·.offset)).Nodup) :
    sideEffectRemarks reported ts =
      ((s.stepsInCalls ts).filter fun p => !reported.contains p.1.offset).map callRemark := by
  induction ts generalizing s reported with
  | nil => rfl
  | cons t ts ih =>
    have hts := (List.nodup_cons.mp hn).2
    rw [sideEffectRemarks, h.filter_stepsInCalls]
    split
    case isTrue hc =>
      have hcovers := h.step (List.subset_append_left _ _) fun _ => reports_newSteps reported _
      rw [← h.newSteps_append hc hts, List.map_append, List.map_map, ← ih hcovers hts]
      rfl
    case isFalse hc => exact ih (h.step (List.Subset.refl _) fun hc' => absurd hc' hc) hts

end Rule

namespace Outline

theorem nodup_offset_code (path text : String) :
    ((ofSource (.ofText path text)).code.toList.map (·.offset)).Nodup := by
  have hsub := Parts.sublist_code (Source.ofText path text).tokens
  have hordered := (Source.ordered_tokens path text).sublist hsub
  exact List.pairwise_map.mpr (hordered.pairwise_lt.imp Nat.ne_of_lt)

-- The steps in calls are just those that one pass over the code meets within parentheses behind an
-- identifier. Each is reported once, in the order of the code, with the outermost identifier.
theorem check_sideEffectInCall (settings : RuleSettings) (path text : String) :
    let o := ofSource (.ofText path text)
    Rule.sideEffectInCall.check settings o =
      .ok ((OpenParens.stepsInCalls {} o.code.toList).map fun (t, f) =>
        .onSpan t.span s!"'{t.text}' inside the arguments of '{f.text}'"
          "Update the variable in a separate statement.") := by
  intro o
  have hcovers : Rule.Covers [] {} o.code.toList :=
    ⟨.inl (List.forall_mem_nil _), nofun⟩
  have hall := Rule.sideEffectRemarks_eq hcovers (nodup_offset_code path text)
  have hfresh : ((OpenParens.stepsInCalls {} o.code.toList).filter fun p =>
      !([] : List Nat).contains p.1.offset) = OpenParens.stepsInCalls {} o.code.toList :=
    List.filter_eq_self.mpr fun _ _ => rfl
  rw [hfresh] at hall
  exact congrArg Except.ok hall

end Outline

end CLint
