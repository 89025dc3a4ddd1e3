import CLint.Proofs.WellFormed

namespace CLint

namespace Outline

-- What is found where in a file, with each place given by the numbers of the tokens there.
@[ext]
structure Sketch where
  declarations : List (Declaration Run)
  blocks : List (ControlBlock Run)
  diagnostics : List (Problem × Run)
  constantRegions : List Run
  deriving DecidableEq

-- The run of the tokens between two offsets.
def runBetween (code : Array Token) (start stop : Nat) : Run where
  first := code.findIdx (·.offset = start)
  last := code.findIdx (·.endOffset = stop)

def runOf (code : Array Token) (s : Span) : Run :=
  runBetween code s.start.offset s.stop.offset

def sketch (o : Outline) : Sketch where
  declarations := o.declarations.map (·.map (runOf o.code))
  blocks := o.blocks.map (·.map (runOf o.code))
  diagnostics := o.diagnostics.map fun d => (d.problem, runOf o.code d.span)
  constantRegions := o.constantRegions.map fun (start, stop) => runBetween o.code start stop

end Outline

-- Where a number grows from element to element, it tells their order and their places.
section

variable {α : Type} {f : α → Nat} {xs : Array α} {i j : Nat}

theorem lt_iff_of_pairwise (h : xs.toList.Pairwise (f · < f ·)) (hi : i < xs.size)
    (hj : j < xs.size) : f xs[i] < f xs[j] ↔ i < j := by
  have hlt := List.pairwise_iff_getElem.mp h
  rcases Nat.lt_trichotomy i j with hij | rfl | hij
  · exact iff_of_true (hlt i j hi hj hij) hij
  · simp
  · exact iff_of_false (Nat.lt_asymm (hlt j i hj hi hij)) (Nat.lt_asymm hij)

theorem findIdx_of_pairwise (h : xs.toList.Pairwise (f · < f ·)) (hi : i < xs.size) :
    xs.findIdx (f · = f xs[i]) = i := by
  refine (Array.findIdx_eq hi).mpr ⟨by simp, fun j hji => ?_⟩
  have := (lt_iff_of_pairwise h (Nat.lt_trans hji hi) hi).mpr hji
  simpa using Nat.ne_of_lt this

end

theorem Token.Ordered.pairwise_endOffset_lt {ts : List Token} (h : Ordered ts) :
    ts.Pairwise (·.endOffset < ·.endOffset) :=
  h.apart.imp_of_mem fun _ hb hab => Nat.lt_of_le_of_lt hab (h.nonempty _ hb)

namespace Run

-- The orders in which declarations and control blocks are listed, in terms of their runs.

def startsBefore (a b : Run) : Bool :=
  a.first < b.first || (a.first = b.first && a.last ≤ b.last)

def encloses (a b : Run) : Bool :=
  a.first < b.first || (a.first = b.first && b.last ≤ a.last)

end Run

namespace Outline

variable {code : Array Token} {r r' : Run}

section

variable (ho : Token.Ordered code.toList) (h : r.Within 0 code.size) (h' : r'.Within 0 code.size)

include ho h

theorem runOf_locate : runOf code (locate code r) = r := by
  have hfirst := findIdx_of_pairwise ho.pairwise_lt (Nat.lt_of_le_of_lt h.first_le h.last_lt)
  have hlast := findIdx_of_pairwise ho.pairwise_endOffset_lt h.last_lt
  rw [(locates_locate h).span_eq]
  exact congr (congrArg Run.mk hfirst) hlast

include h'

theorem start_locate_lt_iff :
    (locate code r).start.offset < (locate code r').start.offset ↔ r.first < r'.first := by
  rw [(locates_locate h).span_eq, (locates_locate h').span_eq]
  exact lt_iff_of_pairwise ho.pairwise_lt (Nat.lt_of_le_of_lt h.first_le h.last_lt)
    (Nat.lt_of_le_of_lt h'.first_le h'.last_lt)

theorem stop_locate_lt_iff :
    (locate code r).stop.offset < (locate code r').stop.offset ↔ r.last < r'.last := by
  rw [(locates_locate h).span_eq, (locates_locate h').span_eq]
  exact lt_iff_of_pairwise ho.pairwise_endOffset_lt h.last_lt h'.last_lt

end

section

variable (ho : Token.Ordered code.toList)

include ho

theorem declarationLe_locate {a b : Declaration Run} (ha : a.span.Within 0 code.size)
    (hb : b.span.Within 0 code.size) :
    declarationLe (a.map (locate code)) (b.map (locate code)) = a.span.startsBefore b.span := by
  have h₁ := start_locate_lt_iff ho ha hb
  have h₂ := start_locate_lt_iff ho hb ha
  have h₃ := stop_locate_lt_iff ho hb ha
  rw [Bool.eq_iff_iff]
  simp only [declarationLe, Run.startsBefore, Bool.or_eq_true, Bool.and_eq_true,
    decide_eq_true_eq]
  simp only [Declaration.map]
  constructor <;> omega

theorem blockLe_locate {a b : ControlBlock Run} (ha : a.span.Within 0 code.size)
    (hb : b.span.Within 0 code.size) :
    blockLe (a.map (locate code)) (b.map (locate code)) = a.span.encloses b.span := by
  have h₁ := start_locate_lt_iff ho ha hb
  have h₂ := start_locate_lt_iff ho hb ha
  have h₃ := stop_locate_lt_iff ho ha hb
  rw [Bool.eq_iff_iff]
  simp only [blockLe, Run.encloses, Bool.or_eq_true, Bool.and_eq_true, decide_eq_true_eq]
  simp only [ControlBlock.map]
  constructor <;> omega

end

end Outline

section

variable {σ τ υ : Type}

theorem Declaration.map_map (f : σ → τ) (g : τ → υ) (d : Declaration σ) :
    (d.map f).map g = d.map (g ∘ f) := by
  simp [map, Parameter.map, Function.comp_def]

theorem ControlBlock.map_map (f : σ → τ) (g : τ → υ) (b : ControlBlock σ) :
    (b.map f).map g = b.map (g ∘ f) := by
  simp [map, Comparison.map, Operand.map, Clause.map, Function.comp_def]

variable {f g : σ → τ}

theorem Declaration.map_congr {d : Declaration σ} (h : ∀ r ∈ d.spans, f r = g r) :
    d.map f = d.map g := by
  have hspan := h d.span (by simp [spans])
  have hparameters : d.parameters.map (·.map f) = d.parameters.map (·.map g) :=
    List.map_congr_left fun p hp => by
      rw [Parameter.map, Parameter.map, h p.span (by grind [spans])]
  have hbody : d.body.map f = d.body.map g :=
    Option.map_congr fun r hr => h r (by grind [spans])
  simp only [map, hspan, hparameters, hbody]

theorem Comparison.map_congr {c : Comparison σ} (h : ∀ r ∈ c.spans, f r = g r) :
    c.map f = c.map g := by
  have hleft := h c.left.span (by simp [spans])
  have hright := h c.right.span (by simp [spans])
  have hspan := h c.span (by simp [spans])
  simp only [map, Operand.map, hleft, hright, hspan]

theorem ControlBlock.map_congr {b : ControlBlock σ} (h : ∀ r ∈ b.spans, f r = g r) :
    b.map f = b.map g := by
  have hspan := h b.span (by simp [spans])
  have hkeyword := h b.keyword (by simp [spans])
  have hcondition : b.condition.map f = b.condition.map g :=
    Option.map_congr fun r hr => h r (by grind [spans])
  have hcomparisons : b.comparisons.map (·.map f) = b.comparisons.map (·.map g) :=
    List.map_congr_left fun c hc => Comparison.map_congr fun r hr => h r (by grind [spans])
  have hbody : b.body.map f = b.body.map g :=
    Option.map_congr fun r hr => h r (by grind [spans])
  have hclauses : b.clauses.map (·.map f) = b.clauses.map (·.map g) :=
    List.map_congr_left fun c hc => by
      rw [Clause.map, Clause.map, h c.label (by grind [spans])]
  simp only [map, hspan, hkeyword, hcondition, hcomparisons, hbody, hclauses]

theorem Declaration.map_id (d : Declaration σ) : d.map id = d := by
  simp [map, Parameter.map]

theorem ControlBlock.map_id (b : ControlBlock σ) : b.map id = b := by
  simp [map, Comparison.map, Operand.map, Clause.map]

end
end CLint
