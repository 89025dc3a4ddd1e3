import CLint.Proofs.Join.Shifting
import CLint.Proofs.Within.Block

namespace CLint

namespace Move

variable (m : Move)

def site (s : Site) : Site where
  start := s.start + m.tokens
  stmt := s.stmt

def caseSection (s : Section) : Section where
  label := m.site s.label
  isDefault := s.isDefault
  items := s.items.map m.site

def blockRun (b : ControlBlock Run) : ControlBlock Run :=
  { b.map m.run with conditionRun := b.conditionRun.map m.run }

def problem (p : Problem × Nat) : Problem × Nat :=
  (p.1, p.2 + m.tokens)

end Move

namespace Site

theorem placed_add (m : Move) (start : Nat) (ss : List Stmt) :
    placed (start + m.tokens) ss = (placed start ss).map m.site := by
  induction ss generalizing start with
  | nil => rfl
  | cons s ss ih =>
    rw [placed, placed, List.map_cons, ← ih, Nat.add_right_comm]
    rfl

theorem stop_site (m : Move) (s : Site) : (m.site s).stop = s.stop + m.tokens :=
  Nat.add_right_comm ..

theorem run_site (m : Move) (s : Site) : (m.site s).run = m.run s.run := by
  have := s.start_lt_stop
  have hlast : s.stop + m.tokens - 1 = s.stop - 1 + m.tokens := by omega
  rw [run, stop_site, hlast]
  rfl

end Site

namespace Stmt

mutual

theorem sites_add (m : Move) (start : Nat) (s : Stmt) :
    sites (start + m.tokens) s = (sites start s).map m.site := by
  cases s with
  | function header body =>
    rw [sites, sites, List.map_append, ← sites_add m _ body, Nat.add_right_comm]
    rfl
  | block items closed =>
    rw [sites, sites, List.map_cons, ← listSites_add m _ items, Nat.add_right_comm]
    rfl
  | control head group parts =>
    rw [sites, sites, List.map_cons, ← listSites_add m _ parts, partsStart, partsStart,
      Nat.add_right_comm start, Nat.add_right_comm _ m.tokens]
    rfl
  | _ => rfl

theorem listSites_add (m : Move) (start : Nat) (ss : List Stmt) :
    listSites (start + m.tokens) ss = (listSites start ss).map m.site := by
  cases ss with
  | nil => rfl
  | cons s ss =>
    rw [listSites, listSites, List.map_append, ← sites_add m _ s, ← listSites_add m _ ss,
      Nat.add_right_comm]

end

end Stmt

namespace Stretch

theorem run?_stretch (m : Move) (s : Stretch) : (m.stretch s).run? = s.run?.map m.run := by
  unfold run?
  have hempty : (m.stretch s).isEmpty = s.isEmpty := rfl
  rw [hempty]
  split
  case isTrue => rfl
  case isFalse h =>
    have hne : s.lexemes ≠ [] := by simpa [Stretch.isEmpty] using h
    rw [run_stretch m hne]
    rfl

end Stretch

namespace Group

theorem contentAt_add (m : Move) (start : Nat) (g : Group) :
    g.contentAt (start + m.tokens) = m.stretch (g.contentAt start) := by
  simp only [contentAt, Move.stretch, Nat.add_right_comm]

theorem pieces_add (m : Move) (start : Nat) (g : Group) :
    g.pieces (start + m.tokens) = (g.pieces start).map m.stretch := by
  rw [pieces, contentAt_add, Stretch.cut_stretch]
  rfl

theorem forCondition_add (m : Move) (start : Nat) (g : Group) :
    g.forCondition (start + m.tokens) = m.stretch (g.forCondition start) := by
  unfold forCondition
  rw [pieces_add, contentAt_add]
  rcases g.pieces start with _ | ⟨_, _ | ⟨_, _ | ⟨_, _⟩⟩⟩ <;> rfl

theorem forInit?_add (m : Move) (start : Nat) (g : Group) :
    g.forInit? (start + m.tokens) = (g.forInit? start).map m.stretch := by
  unfold forInit?
  rw [pieces_add]
  rcases g.pieces start with _ | ⟨_, _ | ⟨_, _⟩⟩ <;> rfl

end Group

namespace Comparison

theorem of?_add (m : Move) (constants : List String) {place : Nat} {before : List Lexeme}
    (h : before.length ≤ place) (operator : Lexeme) (after : List Lexeme) :
    of? constants (place + m.tokens) before operator after =
      (of? constants place before operator after).map (·.map m.run) := by
  unfold of?
  split
  case h_1 p =>
    dsimp only
    split
    case isTrue hc =>
      have hle : (Operand.backward before).length ≤ place :=
        Nat.le_trans (Operand.length_extent_le ..) h
      have hpos : 0 < (Operand.backward before).length := by
        simp only [Bool.and_eq_true, Bool.not_eq_true', List.isEmpty_eq_false_iff] at hc
        exact List.length_pos_iff.mpr hc.1.2
      simp only [Option.map_some, map, Operand.map, Move.run, Option.some.injEq,
        Comparison.mk.injEq, Operand.mk.injEq, Run.mk.injEq, true_and]
      omega
    case isFalse => rfl
  case h_2 => rfl

theorem listFrom_add (m : Move) (constants : List String) {place : Nat} {before : List Lexeme}
    (h : before.length ≤ place) (ls : List Lexeme) :
    listFrom constants (place + m.tokens) before ls =
      (listFrom constants place before ls).map (·.map m.run) := by
  induction ls generalizing place before with
  | nil => rfl
  | cons l ls ih =>
    have ih : listFrom constants (place + 1 + m.tokens) (l :: before) ls =
        (listFrom constants (place + 1) (l :: before) ls).map (·.map m.run) :=
      ih (Nat.succ_le_succ h)
    rw [listFrom, listFrom, List.map_append, of?_add m constants h, Nat.add_right_comm, ih]
    cases of? constants place before l ls <;> rfl

theorem listOf_stretch (m : Move) (constants : List String) (s : Stretch) :
    listOf constants (m.stretch s) = (listOf constants s).map (·.map m.run) :=
  listFrom_add m constants (Nat.zero_le _) s.lexemes

end Comparison

namespace Section

theorem split_map (m : Move) (ss : List Site) : split (ss.map m.site) =
    ((split ss).1.map m.site, (split ss).2.map m.caseSection) := by
  induction ss with
  | nil => rfl
  | cons s ss ih =>
    have hstmt : (m.site s).stmt = s.stmt := rfl
    simp only [List.map_cons, split, ih, hstmt]
    split
    · split <;> rfl
    · rfl

theorem getLast?_items (m : Move) (s : Section) :
    (m.caseSection s).items.getLast? = s.items.getLast?.map m.site :=
  List.getLast?_map

theorem head?_items (m : Move) (s : Section) :
    (m.caseSection s).items.head? = s.items.head?.map m.site :=
  List.head?_map

theorem stop_caseSection (m : Move) (s : Section) :
    (m.caseSection s).stop = s.stop + m.tokens := by
  unfold stop
  rw [getLast?_items]
  cases s.items.getLast? with
  | none => exact s.label.stop_site m
  | some t => exact t.stop_site m

theorem stop_pos (s : Section) : 0 < s.stop := by
  unfold stop
  cases s.items.getLast? with
  | none => exact Nat.zero_lt_of_lt s.label.start_lt_stop
  | some t => exact Nat.zero_lt_of_lt t.start_lt_stop

theorem block_caseSection (m : Move) (s : Section) :
    (m.caseSection s).block = m.blockRun s.block := by
  have := s.stop_pos
  have hlast : s.stop + m.tokens - 1 = s.stop - 1 + m.tokens := by omega
  have hbody : (m.caseSection s).body? = s.body?.map m.run := by
    rw [body?, body?, head?_items, stop_caseSection, hlast, Option.map_map, Option.map_map]
    rfl
  have hbraces : (m.caseSection s).items.head?.any (·.stmt.isBlock) =
      s.items.head?.any (·.stmt.isBlock) := by
    rw [head?_items, Option.any_map]
    rfl
  rw [block, hbody, hbraces, stop_caseSection, hlast]
  rfl

theorem endsWithJump_caseSection (m : Move) (s : Section) :
    (m.caseSection s).endsWithJump = s.endsWithJump := by
  rw [endsWithJump, getLast?_items, Option.any_map]
  rfl

theorem clause_caseSection (m : Move) (announced : List Nat) (s : Section) :
    (m.caseSection s).clause (announced.map (· + m.tokens)) = (s.clause announced).map m.run := by
  have hempty : (m.caseSection s).items.isEmpty = s.items.isEmpty := List.isEmpty_map
  have hcontains : (announced.map (· + m.tokens)).contains (s.stop + m.tokens) =
      announced.contains s.stop := by
    rw [Bool.eq_iff_iff, List.contains_iff_mem, List.contains_iff_mem, List.mem_map]
    constructor
    · rintro ⟨n, hn, he⟩
      exact Nat.add_right_cancel he ▸ hn
    · exact fun hn => ⟨_, hn, rfl⟩
  rw [clause, hempty, endsWithJump_caseSection, stop_caseSection, hcontains]
  have hlabel : (m.caseSection s).label.run = m.run s.label.run := s.label.run_site m
  rw [hlabel]
  rfl

end Section

namespace Control

theorem conditionGroup?_add (m : Move) (start : Nat) (head : Head) (group : Option Group)
    (parts : List Stmt) : conditionGroup? (start + m.tokens) head group parts =
      (conditionGroup? start head group parts).map fun (n, g) => (n + m.tokens, g) := by
  unfold conditionGroup?
  split
  case h_1 =>
    simp only [Option.map_some, Option.some.injEq, Prod.mk.injEq, and_true]
    omega
  case h_2 =>
    rw [Option.map_map, Nat.add_right_comm]
    rfl

theorem condition?_add (m : Move) (start : Nat) (head : Head) (group : Option Group)
    (parts : List Stmt) : condition? (start + m.tokens) head group parts =
      (condition? start head group parts).map m.stretch := by
  rw [condition?, condition?, conditionGroup?_add, Option.map_map, Option.map_map]
  congr 1
  funext ⟨n, g⟩
  simp only [Function.comp]
  split
  · exact g.forCondition_add m n
  · exact g.contentAt_add m n

theorem partsStart_add (m : Move) (start : Nat) (head : Head) (group : Option Group) :
    Stmt.partsStart (start + m.tokens) head group =
      Stmt.partsStart start head group + m.tokens := by
  simp only [Stmt.partsStart]
  omega

theorem stop_add (m : Move) (start : Nat) (head : Head) (group : Option Group)
    (parts : List Stmt) : stop (start + m.tokens) head group parts =
      stop start head group parts + m.tokens := by
  simp only [stop, partsStart_add]
  omega

theorem sections_add (m : Move) (start : Nat) (head : Head) (group : Option Group)
    (parts : List Stmt) : sections (start + m.tokens) head group parts =
      (sections start head group parts).map m.caseSection := by
  unfold sections
  split
  case h_1 =>
    rw [partsStart_add, Nat.add_right_comm, Site.placed_add, Section.split_map]
  case h_2 => rfl

section

variable (m : Move) (start : Nat) (head : Head) (group : Option Group) (parts : List Stmt)

theorem conditionRun_add : (condition? (start + m.tokens) head group parts).bind Stretch.run? =
    ((condition? start head group parts).bind Stretch.run?).map m.run := by
  rw [condition?_add]
  cases condition? start head group parts with
  | none => rfl
  | some c => exact c.run?_stretch m

theorem comparisons_add (constants : List String) :
    ((condition? (start + m.tokens) head group parts).map (Comparison.listOf constants)).getD [] =
      (((condition? start head group parts).map (Comparison.listOf constants)).getD []).map
        (·.map m.run) := by
  rw [condition?_add]
  cases condition? start head group parts with
  | none => rfl
  | some c => exact Comparison.listOf_stretch m constants c

theorem clauses_add (announced : List Nat) : (sections (start + m.tokens) head group parts).map
    (·.clause (announced.map (· + m.tokens))) =
      ((sections start head group parts).map (·.clause announced)).map (·.map m.run) := by
  rw [sections_add, List.map_map, List.map_map]
  exact List.map_congr_left fun t _ => t.clause_caseSection m announced

theorem sectionBlocks_add : (sections (start + m.tokens) head group parts).map Section.block =
    ((sections start head group parts).map Section.block).map m.blockRun := by
  rw [sections_add, List.map_map, List.map_map]
  exact List.map_congr_left fun t _ => t.block_caseSection m

-- The first part, which is the body of the statement.
theorem head?_placed_add : (Site.placed (Stmt.partsStart (start + m.tokens) head group)
    (parts.take 1)).head? =
      (Site.placed (Stmt.partsStart start head group) (parts.take 1)).head?.map m.site := by
  rw [partsStart_add, Site.placed_add, List.head?_map]

end

end Control

namespace Site

theorem batches_site (m : Move) (s : Site) : (m.site s).batches = s.batches.map m.batch := by
  have hstmt : (m.site s).stmt = s.stmt := rfl
  have hstart : (m.site s).start = s.start + m.tokens := rfl
  unfold batches
  rw [hstmt, hstart]
  split
  case h_1 atFile first text _ _ =>
    exact Batch.ofDeclaration_stretch m none _ ⟨s.start, first :: text⟩
  case h_2 g _ _ =>
    rw [Nat.add_right_comm, Group.forInit?_add]
    cases g.forInit? (s.start + 1) with
    | none => rfl
    | some init => exact Batch.ofDeclaration_stretch m none .block init
  case h_3 header body _ =>
    have hpos := body.size_pos
    have hrun : Run.mk (s.start + m.tokens + header.length)
        (s.start + m.tokens + header.length + body.size - 1) =
        m.run ⟨s.start + header.length, s.start + header.length + body.size - 1⟩ := by
      simp only [Move.run, Run.mk.injEq]
      omega
    rw [hrun]
    exact Batch.ofFunction_stretch m ⟨s.start, header⟩ _
  case h_4 => rfl

theorem controlBlocks_site (m : Move) (constants : List String) (announced : List Nat) (s : Site) :
    (m.site s).controlBlocks constants (announced.map (· + m.tokens)) =
      (s.controlBlocks constants announced).map m.blockRun := by
  have hstmt : (m.site s).stmt = s.stmt := rfl
  have hstart : (m.site s).start = s.start + m.tokens := rfl
  unfold controlBlocks
  rw [hstmt, hstart]
  split
  case h_1 head group parts _ =>
    have hhead := head.length_lexemes_pos
    have hstop := Control.bounds_stop s.start head group parts
    have hspan : Run.mk (s.start + m.tokens)
        (Control.stop s.start head group parts + m.tokens - 1) =
        m.run ⟨s.start, Control.stop s.start head group parts - 1⟩ := by
      simp only [Move.run, Run.mk.injEq, true_and]
      omega
    have hkeyword : Run.mk (s.start + m.tokens) (s.start + m.tokens + head.lexemes.length - 1) =
        m.run ⟨s.start, s.start + head.lexemes.length - 1⟩ := by
      simp only [Move.run, Run.mk.injEq, true_and]
      omega
    have hbody (t : Option Site) : (t.map m.site).map run = (t.map run).map m.run := by
      rw [Option.map_map, Option.map_map]
      exact Option.map_congr fun t _ => t.run_site m
    have hbraces (t : Option Site) :
        (t.map m.site).any (·.stmt.isBlock) = t.any (·.stmt.isBlock) := by
      rw [Option.any_map]
      rfl
    dsimp only
    rw [Control.conditionRun_add, Control.comparisons_add, Control.clauses_add,
      Control.sectionBlocks_add, Control.head?_placed_add, Control.stop_add, hspan, hkeyword,
      hbody, hbraces]
    rfl
  case h_2 => rfl

theorem groupProblem_add (m : Move) (start : Nat) (group : Option Group) :
    groupProblem (start + m.tokens) group = (groupProblem start group).map m.problem := by
  unfold groupProblem
  split
  · split <;> rfl
  · rfl

theorem problems_site (m : Move) (s : Site) : (m.site s).problems = s.problems.map m.problem := by
  have hstmt : (m.site s).stmt = s.stmt := rfl
  have hstart : (m.site s).start = s.start + m.tokens := rfl
  unfold problems
  rw [hstmt, hstart]
  split
  · rfl
  · rw [Nat.add_right_comm, groupProblem_add]
  · rw [Nat.add_right_comm, groupProblem_add]
  · rfl

theorem problemsOf_map (m : Move) (ss : List Site) :
    problemsOf (ss.map m.site) = (problemsOf ss).map m.problem := by
  have hopen : (ss.map m.site).find? isOpenBlock = (ss.find? isOpenBlock).map m.site := by
    rw [List.find?_map]
    rfl
  rw [problemsOf, problemsOf, List.map_append, List.flatMap_map, List.map_flatMap, hopen]
  simp only [problems_site]
  cases ss.find? isOpenBlock <;> rfl

end Site
end CLint
