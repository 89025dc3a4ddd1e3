import CLint.Proofs.Grouping
import CLint.Proofs.Join.Blocks
import CLint.Proofs.Join.Dividing
import CLint.Proofs.Sketch
import CLint.Proofs.Tidy

namespace CLint

open Outline

-- A move that puts what is moved behind all of the parts.
structure Parts.Before (p : Parts) (m : Move) : Prop where
  tokens : m.tokens = p.code.length
  comments : m.comments = p.comments.length
  code : ∀ k ∈ p.code, k.token.offset < m.offset
  spans : ∀ c ∈ p.comments, c.span.start.offset < m.offset
  declarations : ∀ d ∈ p.declarations, d.span.start.offset < m.offset
  blocks : ∀ b ∈ p.blocks, (locate p.tokens b.span).start.offset < m.offset
  numbers : ∀ d ∈ p.declarations, ∀ n ∈ d.comment, n < m.comments

namespace Parts

variable {p q : Parts} {m : Move} (h : p.Before m)

theorem lexemes_join (p q : Parts) (m : Move) :
    (p.join (m.parts q)).lexemes = p.lexemes ++ q.lexemes := by
  simp only [lexemes, join, Move.parts, List.map_append, List.map_map]
  rfl

theorem tokens_join (p q : Parts) (m : Move) :
    (p.join (m.parts q)).tokens = p.tokens ++ q.tokens.map m.token := by
  simp only [tokens, join, Move.parts, List.map_append, List.map_map, List.append_toArray,
    List.map_toArray]
  rfl

section Locating

variable {r : Run}

theorem tokenAt_join_left {n : Nat} (hn : n < p.tokens.size) :
    tokenAt (p.join (m.parts q)).tokens n = tokenAt p.tokens n := by
  rw [tokens_join, tokenAt, tokenAt, Array.getD_eq_getD_getElem?, Array.getD_eq_getD_getElem?,
    Array.getElem?_append_left hn]

include h in
theorem tokenAt_join_right {n : Nat} (hn : n < q.tokens.size) :
    tokenAt (p.join (m.parts q)).tokens (n + m.tokens) = m.token (tokenAt q.tokens n) := by
  have hsize : p.tokens.size = m.tokens := p.size_tokens.trans h.tokens.symm
  rw [tokens_join, tokenAt, tokenAt, Array.getD_eq_getD_getElem?, Array.getD_eq_getD_getElem?,
    Array.getElem?_append_right (by omega), hsize, Nat.add_sub_cancel, Array.getElem?_map,
    Array.getElem?_eq_getElem hn]
  rfl

theorem locate_join_left (hr : r.Within 0 p.tokens.size) :
    locate (p.join (m.parts q)).tokens r = locate p.tokens r := by
  have hfirst := Nat.lt_of_le_of_lt hr.first_le hr.last_lt
  rw [locate, tokenAt_join_left hfirst, tokenAt_join_left hr.last_lt]
  rfl

include h in
theorem locate_join_right (hr : r.Within 0 q.tokens.size) :
    locate (p.join (m.parts q)).tokens (m.run r) = m.span (locate q.tokens r) := by
  have hfirst := Nat.lt_of_le_of_lt hr.first_le hr.last_lt
  rw [locate, Move.run, tokenAt_join_right h hfirst, tokenAt_join_right h hr.last_lt]
  rfl

end Locating

-- The comments that lead the code.
def leads (p : Parts) : Array (Option Nat) :=
  (p.code.map (·.comment)).toArray

theorem leads_join (p q : Parts) (m : Move) :
    (p.join (m.parts q)).leads = p.leads ++ q.leads.map (·.map (· + m.comments)) := by
  simp only [leads, join, Move.parts, List.map_append, List.map_map, List.append_toArray,
    List.map_toArray]
  rfl

theorem size_leads (p : Parts) : p.leads.size = p.tokens.size := by
  simp [leads, tokens]

theorem located_join_left {d : Declaration Run} (hd : ∀ r ∈ d.spans, r.Within 0 p.tokens.size) :
    located (p.join (m.parts q)).tokens (p.join (m.parts q)).leads d =
      located p.tokens p.leads d := by
  have hspan := hd d.span List.mem_cons_self
  have hfirst : d.span.first < p.leads.size := by
    rw [size_leads]
    exact Nat.lt_of_le_of_lt hspan.first_le hspan.last_lt
  rw [located, located, Declaration.map_congr fun r hr => locate_join_left (hd r hr), leads_join,
    Array.getElem?_append_left hfirst]

include h in
theorem located_join_right {d : Declaration Run} (hd : ∀ r ∈ d.spans, r.Within 0 q.tokens.size) :
    located (p.join (m.parts q)).tokens (p.join (m.parts q)).leads (m.declarationRun d) =
      m.declaration (located q.tokens q.leads d) := by
  have hsize : p.leads.size = m.tokens := by rw [size_leads, size_tokens, h.tokens]
  have hlocate : ∀ r ∈ d.spans, (locate (p.join (m.parts q)).tokens ∘ m.run) r =
      (m.span ∘ locate q.tokens) r := fun r hr => locate_join_right h (hd r hr)
  have hmap := Declaration.map_congr hlocate
  rw [← Declaration.map_map, ← Declaration.map_map] at hmap
  have hlead : ((p.join (m.parts q)).leads[d.span.first + m.tokens]?).join =
      ((q.leads[d.span.first]?).join).map (· + m.comments) := by
    rw [leads_join, Array.getElem?_append_right (by omega), hsize, Nat.add_sub_cancel,
      Array.getElem?_map]
    cases q.leads[d.span.first]? <;> rfl
  have hspan : (m.declarationRun d).span.first = d.span.first + m.tokens := rfl
  have hrun : (m.declarationRun d).map (locate (p.join (m.parts q)).tokens) =
      { (d.map m.run).map (locate (p.join (m.parts q)).tokens) with
        bodyRun := d.bodyRun.map m.run } := rfl
  rw [located, located, hspan, hlead, hrun, hmap]
  rfl

theorem nameOf_marked (m : Move) (hash : Marked) (rest : List Marked) :
    Directive.nameOf (m.marked hash) (rest.map m.marked) = Directive.nameOf hash rest := by
  cases rest with
  | nil => rfl
  | cons k rest =>
    have hline : (m.marked k).token.line = (m.marked hash).token.line ↔
        k.token.line = hash.token.line := Nat.add_right_cancel_iff
    rw [List.map_cons, Directive.nameOf, Directive.nameOf, if_congr hline rfl rfl]
    rfl

theorem directive_marked (m : Move) (hash : Marked) (rest : List Marked) :
    Directive.ofTokens (m.marked hash) (rest.map m.marked) =
      m.directive (Directive.ofTokens hash rest) := by
  rw [Directive.ofTokens, nameOf_marked, List.getLast?_map, Option.getD_map]
  rfl

theorem definition?_marked (m : Move) (hash : Marked) (rest : List Marked) :
    Directive.definition? (m.marked hash) (rest.map m.marked) =
      (Directive.definition? hash rest).map m.declaration := by
  have hname := nameOf_marked m hash rest
  have hdirective := directive_marked m hash rest
  unfold Directive.definition?
  rcases rest with _ | ⟨_, _ | ⟨k, after⟩⟩
  case nil => rfl
  case cons.nil => rfl
  case cons.cons =>
    have hoffset : ∀ j : Marked, (m.marked j).token.offset = (m.marked k).token.endOffset ↔
        j.token.offset = k.token.endOffset := fun _ => Nat.add_right_cancel_iff
    have hparen : (after.map m.marked).head?.any (fun j =>
        j.token.lexeme.isMark .lparen && j.token.offset = (m.marked k).token.endOffset) =
        after.head?.any fun j =>
          j.token.lexeme.isMark .lparen && j.token.offset = k.token.endOffset := by
      rw [List.head?_map, Option.any_map]
      simp only [hoffset]
      rfl
    rw [List.map_cons, List.map_cons] at hname hdirective ⊢
    dsimp only
    rw [hname, hdirective, hparen, List.isEmpty_map, apply_ite (Option.map m.declaration)]
    rfl

theorem definitions_join (p q : Parts) (m : Move) : (p.join (m.parts q)).definitions =
    p.definitions ++ q.definitions.map m.declaration := by
  simp only [definitions, join, Move.parts, List.filterMap_append, List.filterMap_map,
    List.map_filterMap]
  congr 2
  funext d
  exact definition?_marked m d.1 d.2

-- The directives of a file with their spans.
def found (p : Parts) : List Directive :=
  p.directives.map fun (hash, rest) => Directive.ofTokens hash rest

theorem found_join (p q : Parts) (m : Move) :
    (p.join (m.parts q)).found = p.found ++ q.found.map m.directive := by
  simp only [found, join, Move.parts, List.map_append, List.map_map]
  congr 1
  exact List.map_congr_left fun d _ => directive_marked m d.1 d.2

include h in
theorem announced_join : announced (p.join (m.parts q)).code (p.join (m.parts q)).comments =
    announced p.code p.comments ++ (announced q.code q.comments).map (· + m.tokens) := by
  have hcode : (p.join (m.parts q)).code = p.code ++ q.code.map m.marked := rfl
  have hcomments : (p.join (m.parts q)).comments = p.comments ++ q.comments.map m.comment := rfl
  have hoffset : ∀ k : Marked, (m.marked k).token.offset = k.token.offset + m.offset :=
    fun _ => rfl
  have hstart : ∀ c : Comment, (m.comment c).span.start.offset = c.span.start.offset + m.offset :=
    fun _ => rfl
  rw [announced, hcode, hcomments, List.filter_append, List.map_append, List.filter_map]
  congr 1
  case e_a =>
    refine List.map_congr_left fun c hc => ?_
    have hc := h.spans c (List.mem_filter.mp hc).1
    have hbehind : (q.code.map m.marked).countP (·.token.offset < c.span.start.offset) = 0 := by
      rw [List.countP_eq_zero]
      intro k hk
      obtain ⟨k, _, rfl⟩ := List.mem_map.mp hk
      rw [decide_eq_true_eq, hoffset]
      omega
    rw [List.countP_append, hbehind, Nat.add_zero]
  case e_a =>
    rw [announced, List.map_map, List.map_map]
    refine List.map_congr_left fun c _ => ?_
    have hfront : p.code.countP (·.token.offset < (m.comment c).span.start.offset) =
        p.code.length := by
      rw [List.countP_eq_length]
      intro k hk
      have := h.code k hk
      rw [decide_eq_true_eq, hstart]
      omega
    rw [Function.comp, List.countP_append, hfront, ← h.tokens, Nat.add_comm, List.countP_map]
    simp only [Function.comp_def, hoffset, hstart, Nat.add_lt_add_iff_right]

-- The statements of both are read one after the other.
variable (hread : Stmt.readFile (p.lexemes ++ q.lexemes) =
  Stmt.readFile p.lexemes ++ Stmt.readFile q.lexemes)

include h hread

theorem sites_join : (p.join (m.parts q)).sites = p.sites ++ q.sites.map m.site := by
  have hsize : Stmt.listSize (Stmt.readFile p.lexemes) = m.tokens := by
    rw [listSize_readFile, size_tokens, h.tokens]
  rw [sites, lexemes_join, hread, Stmt.listSites_append, hsize, Stmt.listSites_add]
  rfl

theorem batches_join : (p.join (m.parts q)).batches = p.batches ++ q.batches.map m.batch := by
  rw [batches, sites_join h hread, List.flatMap_append, List.flatMap_map, batches, batches,
    List.map_flatMap]
  simp only [Site.batches_site]

theorem regions_join : (p.join (m.parts q)).regions = p.regions ++ q.regions.map m.run := by
  rw [regions, batches_join h hread, List.filterMap_append, List.filterMap_map, regions, regions,
    List.map_filterMap]
  rfl

theorem problems_join (hp : p.problems = []) :
    (p.join (m.parts q)).problems = q.problems.map m.problem := by
  rw [problems, sites_join h hread, Site.problemsOf_append hp, Site.problemsOf_map]
  rfl

-- The problems of a file with their spans.
def diagnosed (p : Parts) : List Diagnostic :=
  p.problems.map fun (problem, n) => ⟨problem, (tokenAt p.tokens n).span⟩

theorem diagnosed_join (hp : p.problems = []) :
    (p.join (m.parts q)).diagnosed = q.diagnosed.map m.diagnostic := by
  rw [diagnosed, problems_join h hread hp, diagnosed, List.map_map, List.map_map]
  refine List.map_congr_left fun (problem, n) hn => ?_
  simp only [Function.comp, Move.problem, tokenAt_join_right h (q.inRange.problems _ hn)]
  rfl

-- The offsets between which there are only constants.
def constantRegions (p : Parts) : List (Nat × Nat) :=
  p.regions.map fun r => ((locate p.tokens r).start.offset, (locate p.tokens r).stop.offset)

theorem constantRegions_join : (p.join (m.parts q)).constantRegions =
    p.constantRegions ++ q.constantRegions.map m.region := by
  have hwithin : ∀ {p : Parts}, ∀ r ∈ p.regions, r.Within 0 p.tokens.size := by
    intro p r hr
    obtain ⟨b, hb, hr⟩ := List.mem_filterMap.mp hr
    exact (p.inRange.batches b hb).region r hr
  rw [constantRegions, regions_join h hread, List.map_append, List.map_map]
  congr 1
  case e_a =>
    exact List.map_congr_left fun r hr => by rw [locate_join_left (hwithin r hr)]
  case e_a =>
    rw [constantRegions, List.map_map]
    refine List.map_congr_left fun r hr => ?_
    simp only [Function.comp, locate_join_right h (hwithin r hr)]
    rfl

end Parts
end CLint
