import CLint.Proofs.Forest.Blocks
import CLint.Proofs.Forest.Declarations
import CLint.Proofs.Join.Dividing
import CLint.Proofs.Join.Sorting
import CLint.Proofs.Sketch

namespace CLint

namespace Span

def Apart (s t : Span) : Prop :=
  s.stop.offset ≤ t.start.offset ∨ t.stop.offset ≤ s.start.offset

-- The span has all text of the other one, and some more.
structure Encloses (s t : Span) : Prop where
  start_le : s.start.offset ≤ t.start.offset
  stop_le : t.stop.offset ≤ s.stop.offset
  proper : s.start.offset < t.start.offset ∨ t.stop.offset < s.stop.offset

-- The span begins before the other one, which lies in it or behind it.
structure Precedes (s t : Span) : Prop where
  start_lt : s.start.offset < t.start.offset
  stop : s.stop.offset ≤ t.start.offset ∨ t.stop.offset ≤ s.stop.offset

def Nests (s t : Span) : Prop :=
  s.Precedes t ∨ t.Precedes s

variable {s t : Span}

theorem Nests.symm (h : s.Nests t) : t.Nests s :=
  Or.symm h

theorem Precedes.apart_or_encloses (h : s.Precedes t) : s.Apart t ∨ s.Encloses t :=
  h.stop.imp .inl fun hstop => ⟨Nat.le_of_lt h.start_lt, hstop, .inl h.start_lt⟩

end Span

-- The declarations of a file are disjoint or one within the other, and so are its control blocks.
-- These are listed in the order in which they begin, each behind those that it lies in.
structure Outline.IsForest (o : Outline) : Prop where
  declarations : o.declarations.Pairwise fun d e =>
    d.span.Apart e.span ∨ d.span.Encloses e.span ∨ e.span.Encloses d.span
  distinct : o.declarations.Pairwise (·.span ≠ ·.span)
  blocks : o.blocks.Pairwise fun a b =>
    a.span.start.offset < b.span.start.offset ∧ (a.span.Apart b.span ∨ a.span.Encloses b.span)

namespace Divided

-- All tokens of the one list come before those of the other one.
def Before (as bs : List Marked) : Prop :=
  ∀ a ∈ as, ∀ b ∈ bs, a.token.endOffset ≤ b.token.offset

-- No directive is interrupted by code, nor by another directive.
structure Separated (d : Divided) : Prop where
  code : ∀ x ∈ d.directives, ∀ c ∈ d.code, Before (x.1 :: x.2) [c] ∨ Before [c] (x.1 :: x.2)
  directives : d.directives.Pairwise fun x y => Before (x.1 :: x.2) (y.1 :: y.2)
  continuation_code : Before d.continuation d.code
  continuation : ∀ x ∈ d.directives, Before d.continuation (x.1 :: x.2)

theorem Before.nil (bs : List Marked) : Before [] bs :=
  List.forall_mem_nil _

theorem Before.cons {m : Marked} {as bs : List Marked}
    (hm : ∀ b ∈ bs, m.token.endOffset ≤ b.token.offset) (h : Before as bs) :
    Before (m :: as) bs :=
  List.forall_mem_cons.mpr ⟨hm, h⟩

theorem separated_ofMarked (previous : Option Token) (line : Option Nat) {ms : List Marked}
    (h : ms.Pairwise (·.token.endOffset ≤ ·.token.offset)) :
    (ofMarked previous line ms).Separated := by
  induction ms generalizing previous line with
  | nil => exact ⟨List.forall_mem_nil _, .nil, .nil _, List.forall_mem_nil _⟩
  | cons m ms ih =>
    obtain ⟨hm, hms⟩ := List.pairwise_cons.mp h
    rw [ofMarked]
    dsimp only
    split
    case isTrue =>
      obtain ⟨hcode, _, hdirs⟩ := sublist_ofMarked (some m.token) (some m.token.line) ms
      obtain ⟨h₁, h₂, h₃, h₄⟩ := ih (some m.token) (some m.token.line) hms
      exact ⟨h₁, h₂, h₃.cons fun c hc => hm c (hcode.mem hc), fun x hx =>
        (h₄ x hx).cons fun c hc => hm c ((hdirs x hx).mem hc)⟩
    case isFalse =>
      split
      case isTrue =>
        obtain ⟨hcode, _, hdirs⟩ := sublist_ofMarked (some m.token) (some m.token.line) ms
        obtain ⟨h₁, h₂, h₃, h₄⟩ := ih (some m.token) (some m.token.line) hms
        refine ⟨List.forall_mem_cons.mpr ⟨fun c hc => .inl ?_, h₁⟩,
          .cons (fun x hx => ?_) h₂, .nil _, fun x hx => .nil _⟩
        · refine .cons ?_ fun a ha b hb => ?_
          · exact fun b hb => List.mem_singleton.mp hb ▸ hm c (hcode.mem hc)
          · exact List.mem_singleton.mp hb ▸ h₃ a ha c hc
        · exact (h₄ x hx).cons fun c hc => hm c ((hdirs x hx).mem hc)
      case isFalse =>
        obtain ⟨hcode, _, hdirs⟩ := sublist_ofMarked (some m.token) none ms
        obtain ⟨h₁, h₂, h₃, h₄⟩ := ih (some m.token) none hms
        have hnil := continuation_of_none (some m.token) ms
        refine ⟨fun x hx => List.forall_mem_cons.mpr ⟨.inr ?_, h₁ x hx⟩, h₂, ?_, ?_⟩
        · exact .cons (fun c hc => hm c ((hdirs x hx).mem hc)) (.nil _)
        · exact hnil ▸ .nil _
        · exact fun _ _ => hnil ▸ .nil _

end Divided
namespace Outline

section

variable {code : Array Token} {r q : Run} (ho : Token.Ordered code.toList)
  (hr : r.Within 0 code.size) (hq : q.Within 0 code.size)

include ho hr hq

theorem stop_locate_le_start (h : r.last < q.first) :
    (locate code r).stop.offset ≤ (locate code q).start.offset := by
  rw [(locates_locate hr).span_eq, (locates_locate hq).span_eq]
  exact List.pairwise_iff_getElem.mp ho.apart r.last q.first hr.last_lt
    (Nat.lt_of_le_of_lt hq.first_le hq.last_lt) h

theorem precedes_locate (h : r.Precedes q) : (locate code r).Precedes (locate code q) where
  start_lt := (start_locate_lt_iff ho hr hq).mpr h.first_lt
  stop := h.last.imp (stop_locate_le_start ho hr hq) fun hlast =>
    Nat.not_lt.mp fun hlt => Nat.not_lt.mpr hlast ((stop_locate_lt_iff ho hr hq).mp hlt)

end

theorem pairwise_locate {code : Array Token} (ho : Token.Ordered code.toList) {rs : List Run}
    (h : Run.Forest 0 code.size rs) : (rs.map (locate code)).Pairwise Span.Nests := by
  refine List.pairwise_map.mpr (h.nests.imp_of_mem fun {r q} hr hq hn => ?_)
  have hr := h.within r hr
  have hq := h.within q hq
  exact hn.imp (precedes_locate ho hr hq) (precedes_locate ho hq hr)

end Outline

theorem Directive.span_definition? {hash : Marked} {rest : List Marked} {d : Declaration Span}
    (h : definition? hash rest = some d) : d.span = (ofTokens hash rest).span := by
  unfold definition? at h
  split at h
  case h_1 =>
    split at h <;> cases h
    rfl
  case h_2 => cases h

theorem Directive.last_mem (hash : Marked) (rest : List Marked) :
    rest.getLast?.getD hash ∈ hash :: rest := by
  cases h : rest.getLast? with
  | none => exact List.mem_cons_self
  | some m => exact List.mem_cons_of_mem hash (List.mem_of_getLast? h)

theorem Outline.map_span_grouped {σ : Type} (bs : List (List (Declaration σ))) :
    (grouped bs).map (·.span) = bs.flatMap (·.map (·.span)) := by
  suffices ∀ n, (groupedFrom n bs).map (·.span) = bs.flatMap (·.map (·.span)) from this 1
  intro n
  induction bs generalizing n with
  | nil => rfl
  | cons b bs ih =>
    have hcons : groupedFrom n (b :: bs) =
        b.map ({ · with group := n }) ++ groupedFrom (n + 1) bs := rfl
    rw [hcons, List.map_append, ih, List.map_map, List.flatMap_cons]
    rfl

namespace Parts

open Outline

theorem forest_declarations (p : Parts) : Run.Forest 0 p.tokens.size (Batch.runs p.batches) := by
  have h := Stmt.forest_listSites (Stmt.readFile p.lexemes) 0
  rwa [Nat.zero_add, listSize_readFile] at h

theorem forest_blocks (p : Parts) : Run.Forest 0 p.tokens.size (p.blocks.map (·.span)) := by
  have h : Run.Forest 0 (0 + Stmt.listSize (Stmt.readFile p.lexemes))
      (Site.blockRuns (constantNames p.declarations) (announced p.code p.comments) p.sites) :=
    Stmt.forest_blockRuns_listSites (Stmt.forest_placed _ 0)
  rwa [Nat.zero_add, listSize_readFile] at h

-- The spans of the declarations in terms of what makes them.
theorem span_declarations (p : Parts) :
    p.declarations.map (·.span) =
      p.definitions.map (·.span) ++ (Batch.runs p.batches).map (locate p.tokens) := by
  rw [declarations, map_span_grouped, List.flatMap_append, List.flatMap_map, List.flatMap_map]
  congr 1
  · exact (List.map_eq_flatMap ..).symm
  · rw [Batch.runs, List.map_flatMap]
    refine List.flatMap_congr fun b _ => ?_
    rw [List.map_map, List.map_map]
    rfl

section

-- The tokens of a file are in the order of its text.
variable {ts : List Token} (ho : Token.Ordered ts)

include ho

theorem ordered_code : Token.Ordered (ofTokens ts).tokens.toList :=
  ho.sublist (sublist_code ts)

theorem separated_ofTokens :
    (Divided.ofMarked none none (Gathering.ofTokens ts).markedList).Separated := by
  have h := ho.sublist (Gathering.follows_ofTokens ts).marked
  exact Divided.separated_ofMarked none none (List.pairwise_map.mp h.apart)

theorem lt_endOffset_of_mem_directives {x : Marked × List Marked}
    (hx : x ∈ (ofTokens ts).directives) : x.1.token.offset < x.1.token.endOffset :=
  ho.nonempty _ ((sublist_directive hx).mem List.mem_cons_self)

-- A definition stands as a whole in some code or beside it.
theorem nests_definition {d : Declaration Span} (hd : d ∈ (ofTokens ts).definitions) {r : Run}
    (hr : r.Within 0 (ofTokens ts).tokens.size) :
    d.span.Nests (locate (ofTokens ts).tokens r) := by
  obtain ⟨⟨hash, rest⟩, hx, hspan⟩ := List.mem_filterMap.mp hd
  have hhash := lt_endOffset_of_mem_directives ho hx
  have hlast := Directive.last_mem hash rest
  have hsize := (ofTokens ts).size_tokens
  have hfirst := Nat.lt_of_le_of_lt hr.first_le hr.last_lt
  have apart (i : Nat) (hi : i < (ofTokens ts).tokens.size) :
      (∀ m ∈ hash :: rest, m.token.endOffset ≤ (ofTokens ts).tokens[i].offset) ∨
        ∀ m ∈ hash :: rest, (ofTokens ts).tokens[i].endOffset ≤ m.token.offset := by
    have hi' : i < (ofTokens ts).code.length := hsize ▸ hi
    have htoken : (ofTokens ts).tokens[i] = (ofTokens ts).code[i].token := by simp [tokens]
    rw [htoken]
    refine ((separated_ofTokens ho).code _ hx _ (List.getElem_mem hi')).imp ?_ ?_
    · exact fun h m hm => h m hm _ (List.mem_singleton_self _)
    · exact fun h => h _ (List.mem_singleton_self _)
  rw [Directive.span_definition? hspan, (locates_locate hr).span_eq]
  rcases apart r.first hfirst with h₁ | h₁
  · exact .inl ⟨Nat.lt_of_lt_of_le hhash (h₁ hash List.mem_cons_self), .inl (h₁ _ hlast)⟩
  · have hn := (ordered_code ho).nonempty _ (Array.getElem_mem_toList hfirst)
    have hstart := Nat.lt_of_lt_of_le hn (h₁ hash List.mem_cons_self)
    refine .inr ⟨hstart, ?_⟩
    rcases apart r.last hr.last_lt with h₂ | h₂
    · have hn := (ordered_code ho).nonempty _ (Array.getElem_mem_toList hr.last_lt)
      exact .inr (Nat.le_trans (h₂ _ hlast) (Nat.le_of_lt hn))
    · exact .inl (h₂ hash List.mem_cons_self)

theorem pairwise_definitions :
    ((ofTokens ts).definitions.map (·.span)).Pairwise Span.Nests := by
  have hpairwise := (separated_ofTokens ho).directives
  refine List.pairwise_map.mpr (List.pairwise_filterMap.mpr ?_)
  refine hpairwise.imp_of_mem fun {x y} hx hy hxy d hd e he => ?_
  have hhash := lt_endOffset_of_mem_directives ho hx
  rw [Directive.span_definition? hd, Directive.span_definition? he]
  exact .inl ⟨Nat.lt_of_lt_of_le hhash (hxy x.1 List.mem_cons_self y.1 List.mem_cons_self),
    .inl (hxy _ (Directive.last_mem ..) y.1 List.mem_cons_self)⟩

theorem pairwise_declarations :
    ((ofTokens ts).declarations.map (·.span)).Pairwise Span.Nests := by
  rw [span_declarations]
  have hforest := forest_declarations (ofTokens ts)
  refine List.pairwise_append.mpr ⟨pairwise_definitions ho,
    pairwise_locate (ordered_code ho) hforest, fun s hs t ht => ?_⟩
  obtain ⟨d, hd, rfl⟩ := List.mem_map.mp hs
  obtain ⟨r, hr, rfl⟩ := List.mem_map.mp ht
  exact nests_definition ho hd (hforest.within r hr)

end

end Parts

namespace Outline

section

variable (path text : String)

theorem pairwise_span_declarations :
    (ofSource (.ofText path text)).declarations.Pairwise fun d e => d.span.Nests e.span := by
  have h := Parts.pairwise_declarations (Source.ordered_tokens path text)
  have hspan (ds : List (Declaration Span)) (d : Declaration Span) :
      (keepComment ds d).span = d.span := by
    unfold keepComment
    split <;> rfl
  refine ((List.mergeSort_perm _ _).pairwise_iff Span.Nests.symm).mpr (List.pairwise_map.mpr ?_)
  simp only [hspan]
  exact List.pairwise_map.mp h

theorem pairwise_span_blocks :
    (ofSource (.ofText path text)).blocks.Pairwise fun a b => a.span.Precedes b.span := by
  have hforest := Parts.forest_blocks (Parts.ofTokens (Source.ofText path text).tokens)
  have h := pairwise_locate (Parts.ordered_code (Source.ordered_tokens path text)) hforest
  rw [List.map_map] at h
  have hnests : (ofSource (.ofText path text)).blocks.Pairwise fun a b => a.span.Nests b.span :=
    ((List.mergeSort_perm _ _).pairwise_iff Span.Nests.symm).mpr
      (List.pairwise_map.mpr (List.pairwise_map.mp h))
  have hsorted : (ofSource (.ofText path text)).blocks.Pairwise fun a b => blockLe a b :=
    List.pairwise_mergeSort blockLe_trans blockLe_total _
  refine (hnests.and hsorted).imp fun {a b} hab => hab.1.resolve_right fun hba => ?_
  have hstart := hba.start_lt
  have hle := hab.2
  simp only [blockLe, Bool.or_eq_true, Bool.and_eq_true, decide_eq_true_eq] at hle
  omega

-- No text whatever makes declarations or control blocks that overlap in part.
theorem isForest_ofSource : (ofSource (.ofText path text)).IsForest where
  declarations := (pairwise_span_declarations path text).imp fun h => by
    rcases h with h | h
    · exact h.apart_or_encloses.imp_right .inl
    · rcases h.apart_or_encloses with h | h
      · exact .inl h.symm
      · exact .inr (.inr h)
  distinct := (pairwise_span_declarations path text).imp fun h hspan => by
    rcases h with h | h <;> exact Nat.ne_of_lt h.start_lt (by rw [hspan])
  blocks := (pairwise_span_blocks path text).imp fun h => ⟨h.start_lt, h.apart_or_encloses⟩

end

end Outline
end CLint
