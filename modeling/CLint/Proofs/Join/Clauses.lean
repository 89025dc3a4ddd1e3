import CLint.Proofs.Join.Parts
import CLint.Proofs.Join.Sorting

namespace CLint

-- What a comparison says without what is known of constants.
section

variable {σ τ : Type}

def Operand.unkinded (o : Operand σ) : Operand σ :=
  { o with kind := .other }

def Comparison.unkinded (c : Comparison σ) : Comparison σ :=
  { c with left := c.left.unkinded, right := c.right.unkinded }

def ControlBlock.unkinded (b : ControlBlock σ) : ControlBlock σ :=
  { b with comparisons := b.comparisons.map (·.unkinded) }

theorem ControlBlock.unkinded_map (f : σ → τ) (b : ControlBlock σ) :
    (b.map f).unkinded = b.unkinded.map f := by
  simp only [unkinded, map, List.map_map]
  rfl

end

namespace Comparison

variable (constants constants' : List String)

theorem unkinded_of? (place : Nat) (before : List Lexeme) (operator : Lexeme)
    (after : List Lexeme) : (of? constants place before operator after).map (·.unkinded) =
      (of? constants' place before operator after).map (·.unkinded) := by
  unfold of?
  split
  case h_1 =>
    dsimp only
    split <;> rfl
  case h_2 => rfl

theorem unkinded_listFrom (place : Nat) (before ls : List Lexeme) :
    (listFrom constants place before ls).map (·.unkinded) =
      (listFrom constants' place before ls).map (·.unkinded) := by
  induction ls generalizing place before with
  | nil => rfl
  | cons l ls ih =>
    rw [listFrom, listFrom, List.map_append, List.map_append, ih, ← Option.toList_map,
      ← Option.toList_map, unkinded_of? constants constants']

end Comparison

-- The comments that announce a fall through are looked for at the ends of the sections only.
theorem Section.clause_congr {announced announced' : List Nat} {s : Section}
    (h : announced.contains s.stop = announced'.contains s.stop) :
    s.clause announced = s.clause announced' := by
  rw [clause, clause, h]

namespace Site

variable {s : Site}

def sections (s : Site) : List Section :=
  match s.stmt with
  | .control head group parts => Control.sections s.start head group parts
  | _ => []

theorem sections_site (m : Move) (s : Site) :
    (m.site s).sections = s.sections.map m.caseSection := by
  have hstmt : (m.site s).stmt = s.stmt := rfl
  have hstart : (m.site s).start = s.start + m.tokens := rfl
  unfold sections
  rw [hstmt, hstart]
  split
  case h_1 => exact Control.sections_add ..
  case h_2 => rfl

-- The comments that announce a fall through matter at the ends of the sections only.
theorem controlBlocks_eq_of_contains (constants : List String) {announced announced' : List Nat}
    (h : ∀ t ∈ s.sections, announced.contains t.stop = announced'.contains t.stop) :
    s.controlBlocks constants announced = s.controlBlocks constants announced' := by
  unfold sections at h
  unfold controlBlocks
  split
  case h_1 head group parts hs =>
    rw [hs] at h
    have hclauses : (Control.sections s.start head group parts).map (·.clause announced) =
        (Control.sections s.start head group parts).map (·.clause announced') :=
      List.map_congr_left fun t ht => Section.clause_congr (h t ht)
    simp only [hclauses]
  case h_2 => rfl

-- Up to the kinds of operands, the constants do not matter.
theorem unkinded_controlBlocks (constants constants' : List String) (announced : List Nat) :
    (s.controlBlocks constants announced).map (·.unkinded) =
      (s.controlBlocks constants' announced).map (·.unkinded) := by
  unfold controlBlocks
  split
  case h_1 =>
    have hcomparisons (c : Option Stretch) :
        ((c.map (Comparison.listOf constants)).getD []).map (·.unkinded) =
          ((c.map (Comparison.listOf constants')).getD []).map (·.unkinded) := by
      cases c with
      | none => rfl
      | some c => exact Comparison.unkinded_listFrom constants constants' _ _ _
    simp only [List.map_cons, ControlBlock.unkinded, hcomparisons]
  case h_2 => rfl

theorem controlBlocks_congr (constants constants' : List String) {announced announced' : List Nat}
    (h : ∀ t ∈ s.sections, announced.contains t.stop = announced'.contains t.stop) :
    (s.controlBlocks constants announced).map (·.unkinded) =
      (s.controlBlocks constants' announced').map (·.unkinded) := by
  rw [controlBlocks_eq_of_contains constants h]
  exact unkinded_controlBlocks constants constants' announced'

-- In a closed switch the closing brace stands behind all sections.
theorem stop_lt_of_mem_sections (hs : s.stmt.isTidy) {t : Section} (ht : t ∈ s.sections) :
    t.stop < s.stop := by
  unfold sections at ht
  split at ht
  case h_1 head group parts hstmt =>
    unfold Control.sections at ht
    split at ht
    case h_1 items closed tail =>
      have hclosed : closed = true := by
        simp only [hstmt, Stmt.isTidy, Stmt.listTidy, Bool.and_eq_true] at hs
        exact hs.2.1.1
      have hle := (Section.within_of_mem_split ht).stop_le
      rw [stop, hstmt]
      simp only [Stmt.partsStart, Stmt.size, Stmt.listSize, hclosed, Bool.toNat_true] at hle ⊢
      omega
    case h_2 => cases ht
  case h_2 => cases ht

end Site

-- Numbers that are moved by another one are not among those before it, and these not among them.
section

variable {as bs : List Nat} {k n : Nat}

theorem contains_append_add_of_lt (hn : n < k) :
    (as ++ bs.map (· + k)).contains n = as.contains n := by
  rw [Bool.eq_iff_iff, List.contains_iff_mem, List.contains_iff_mem, List.mem_append,
    or_iff_left]
  intro hmem
  obtain ⟨i, _, hi⟩ := List.mem_map.mp hmem
  omega

theorem contains_append_add_of_pos (ha : ∀ i ∈ as, i ≤ k) (hn : 0 < n) :
    (as ++ bs.map (· + k)).contains (n + k) = (bs.map (· + k)).contains (n + k) := by
  rw [Bool.eq_iff_iff, List.contains_iff_mem, List.contains_iff_mem, List.mem_append,
    or_iff_right]
  intro hmem
  have := ha _ hmem
  omega

end

theorem Outline.le_of_mem_announced {code : List Marked} {comments : List Comment} {n : Nat}
    (h : n ∈ announced code comments) : n ≤ code.length := by
  obtain ⟨c, _, rfl⟩ := List.mem_map.mp h
  exact List.countP_le_length

namespace Parts

open Outline

variable {p q : Parts} {m : Move}

theorem blocks_join (h : p.Before m) (hread : Stmt.readFile (p.lexemes ++ q.lexemes) =
    Stmt.readFile p.lexemes ++ Stmt.readFile q.lexemes)
    (htidy : Stmt.listTidy (Stmt.readFile p.lexemes)) :
    (p.join (m.parts q)).blocks.map (·.unkinded) =
      p.blocks.map (·.unkinded) ++ (q.blocks.map m.blockRun).map (·.unkinded) := by
  have hannounced : ∀ n ∈ announced p.code p.comments, n ≤ m.tokens := fun n hn =>
    h.tokens ▸ le_of_mem_announced hn
  rw [blocks, sites_join h hread, announced_join h, List.flatMap_append, List.map_append,
    List.flatMap_map]
  congr 1
  case e_a =>
    rw [blocks, List.map_flatMap, List.map_flatMap]
    refine List.flatMap_congr fun s hs => Site.controlBlocks_congr _ _ fun t ht => ?_
    have hlt := Site.stop_lt_of_mem_sections (Stmt.isTidy_of_mem_listSites _ htidy hs) ht
    have hle := stop_le_of_mem_sites hs
    rw [size_tokens, ← h.tokens] at hle
    exact contains_append_add_of_lt (Nat.lt_of_lt_of_le hlt hle)
  case e_a =>
    rw [blocks, List.map_flatMap, List.map_flatMap, List.map_flatMap]
    refine List.flatMap_congr fun s _ => ?_
    rw [← Site.controlBlocks_site]
    refine Site.controlBlocks_congr _ _ fun t ht => ?_
    rw [Site.sections_site] at ht
    obtain ⟨t, _, rfl⟩ := List.mem_map.mp ht
    rw [Section.stop_caseSection]
    exact contains_append_add_of_pos hannounced t.stop_pos

-- The blocks of a file at their places, in their order.
def placedBlocks (p : Parts) : List (ControlBlock Span) :=
  (p.blocks.map (·.map (locate p.tokens))).mergeSort blockLe

theorem locate_blockRun (h : p.Before m) {b : ControlBlock Run}
    (hb : ∀ r ∈ b.spans, r.Within 0 q.tokens.size) :
    (m.blockRun b).map (locate (p.join (m.parts q)).tokens) =
      m.block (b.map (locate q.tokens)) := by
  have hlocate : ∀ r ∈ b.spans, (locate (p.join (m.parts q)).tokens ∘ m.run) r =
      (m.span ∘ locate q.tokens) r := fun r hr => locate_join_right h (hb r hr)
  have hmap := ControlBlock.map_congr hlocate
  rw [← ControlBlock.map_map, ← ControlBlock.map_map] at hmap
  have hrun : (m.blockRun b).map (locate (p.join (m.parts q)).tokens) =
      { (b.map m.run).map (locate (p.join (m.parts q)).tokens) with
        conditionRun := b.conditionRun.map m.run } := rfl
  rw [hrun, hmap]
  rfl

theorem blockLe_block (m : Move) (a b : ControlBlock Span) :
    blockLe (m.block a) (m.block b) = blockLe a b := by
  have hstart : ∀ b, (m.block b).span.start.offset = b.span.start.offset + m.offset :=
    fun _ => rfl
  have hstop : ∀ b, (m.block b).span.stop.offset = b.span.stop.offset + m.offset := fun _ => rfl
  simp only [blockLe, hstart, hstop, Nat.add_lt_add_iff_right, Nat.add_right_cancel_iff,
    Nat.add_le_add_iff_right]

theorem unkinded_mergeSort (bs : List (ControlBlock Span)) :
    (bs.mergeSort blockLe).map (·.unkinded) = (bs.map (·.unkinded)).mergeSort blockLe :=
  List.map_mergeSort fun _ _ _ _ => rfl

theorem placedBlocks_join (h : p.Before m) (hread : Stmt.readFile (p.lexemes ++ q.lexemes) =
    Stmt.readFile p.lexemes ++ Stmt.readFile q.lexemes)
    (htidy : Stmt.listTidy (Stmt.readFile p.lexemes)) :
    (p.join (m.parts q)).placedBlocks.map (·.unkinded) =
      p.placedBlocks.map (·.unkinded) ++ (q.placedBlocks.map m.block).map (·.unkinded) := by
  have hfirst : (p.blocks.map (·.map (locate (p.join (m.parts q)).tokens))) =
      p.blocks.map (·.map (locate p.tokens)) :=
    List.map_congr_left fun b hb => ControlBlock.map_congr fun r hr =>
      locate_join_left (p.inRange.blocks b hb r hr)
  have hsecond : (q.blocks.map m.blockRun).map (·.map (locate (p.join (m.parts q)).tokens)) =
      (q.blocks.map (·.map (locate q.tokens))).map m.block := by
    rw [List.map_map, List.map_map]
    exact List.map_congr_left fun b hb => locate_blockRun h (q.inRange.blocks b hb)
  have hcomm (bs : List (ControlBlock Run)) :
      (bs.map (·.map (locate (p.join (m.parts q)).tokens))).map (·.unkinded) =
        (bs.map (·.unkinded)).map (·.map (locate (p.join (m.parts q)).tokens)) := by
    rw [List.map_map, List.map_map]
    exact List.map_congr_left fun b _ => b.unkinded_map _
  have hblocks : ((p.join (m.parts q)).blocks.map
      (·.map (locate (p.join (m.parts q)).tokens))).map (·.unkinded) =
      (p.blocks.map (·.map (locate p.tokens))).map (·.unkinded) ++
        ((q.blocks.map (·.map (locate q.tokens))).map m.block).map (·.unkinded) := by
    rw [hcomm, blocks_join h hread htidy, List.map_append, ← hcomm, ← hcomm, hfirst, hsecond]
  have hsort : (q.placedBlocks.map m.block) =
      ((q.blocks.map (·.map (locate q.tokens))).map m.block).mergeSort blockLe :=
    List.map_mergeSort fun a _ b _ => (blockLe_block m a b).symm
  rw [hsort, placedBlocks, placedBlocks, unkinded_mergeSort, unkinded_mergeSort,
    unkinded_mergeSort, hblocks]
  refine mergeSort_append blockLe_trans blockLe_total (fun a ha => ?_) (fun b hb => ?_)
    (blockLe_of_startsBefore m.offset)
  · rw [List.map_map] at ha
    obtain ⟨c, hc, rfl⟩ := List.mem_map.mp ha
    exact decide_eq_true (h.blocks c hc)
  · rw [List.map_map] at hb
    obtain ⟨c, _, rfl⟩ := List.mem_map.mp hb
    exact decide_eq_false (Nat.not_lt.mpr (Nat.le_add_left ..))

end Parts
end CLint
