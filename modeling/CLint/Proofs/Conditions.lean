import CLint.Outline
import CLint.Proofs.Tidy
import CLint.Proofs.Within.Block

namespace CLint

open Stretch

namespace Stmt

mutual

-- The code of a statement is part of that of the statements around it.
theorem isPart_of_mem_sites (s : Stmt) {start : Nat} {t : Site} (h : t ∈ sites start s) :
    IsPart ⟨t.start, t.stmt.lexemes⟩ ⟨start, s.lexemes⟩ := by
  cases s with
  | function header body =>
    rw [sites, List.mem_append] at h
    cases h
    case inl h =>
      exact (isPart_of_mem_sites body h).trans ⟨header, [], by simp [lexemes], rfl⟩
    case inr h =>
      cases List.mem_singleton.mp h
      exact .refl _
  | block items closed =>
    rw [sites] at h
    cases List.mem_cons.mp h
    case inl h => exact h ▸ .refl _
    case inr h =>
      exact (isPart_of_mem_listSites items h).trans
        ⟨[.punct .lbrace], _, by rw [lexemes]; rfl, rfl⟩
  | control head group parts =>
    rw [sites] at h
    cases List.mem_cons.mp h
    case inl h => exact h ▸ .refl _
    case inr h =>
      exact (isPart_of_mem_listSites parts h).trans
        ⟨head.lexemes ++ groupLexemes group, [], by simp [lexemes], by
          simp [partsStart, Nat.add_assoc]⟩
  | _ =>
    simp only [sites, List.mem_singleton] at h
    exact h ▸ .refl _

theorem isPart_of_mem_listSites (ss : List Stmt) {start : Nat} {t : Site}
    (h : t ∈ listSites start ss) :
    IsPart ⟨t.start, t.stmt.lexemes⟩ ⟨start, listLexemes ss⟩ := by
  cases ss with
  | nil => cases h
  | cons s ss =>
    rw [listSites, List.mem_append] at h
    cases h
    case inl h =>
      exact (isPart_of_mem_sites s h).trans ⟨[], listLexemes ss, rfl, rfl⟩
    case inr h =>
      exact (isPart_of_mem_listSites ss h).trans
        ⟨s.lexemes, [], by simp [listLexemes], by rw [length_lexemes]⟩

end

-- The groups of a statement are what is read behind its head, and there is none behind a `do`.
def GroupsAreRead : Stmt → Prop
  | control head group _ => (head = .doHead → group = none) ∧
    ∀ g ∈ group, ∃ ls, (readGroup (head = .forHead) ls).1 = some g
  | doWhile group _ => ∀ g ∈ group, ∃ ls, (readGroup false ls).1 = some g
  | _ => True

variable {p : Part} {ls rest : List Lexeme} {ss parts : List Stmt} {head : Head}
  {group : Option Group} {start : Nat}

theorem groupsAreRead_sites_control (h : (control head group parts).GroupsAreRead)
    (hp : ∀ t ∈ listSites (partsStart start head group) parts, t.stmt.GroupsAreRead) :
    ∀ t ∈ listSites start [control head group parts], t.stmt.GroupsAreRead := by
  rw [listSites, listSites, List.append_nil, sites]
  exact List.forall_mem_cons.mpr ⟨h, hp⟩

theorem groupsAreRead_of_readGroup {more : List Lexeme} (h : head ≠ .doHead)
    (hg : readGroup (head = .forHead) ls = (group, more)) :
    (control head group parts).GroupsAreRead :=
  ⟨fun hd => absurd hd h, fun g hm => ⟨ls, by rw [hg]; exact hm⟩⟩

theorem groupsAreRead_of_none : (control head none parts).GroupsAreRead :=
  ⟨fun _ => rfl, nofun⟩

theorem groupsAreRead_readDoWhile (h : readDoWhile ls = (ss, rest)) :
    ∀ t ∈ listSites start ss, t.stmt.GroupsAreRead := by
  unfold readDoWhile at h
  split at h <;> cases h
  case h_1 ls =>
    simp only [listSites, sites, List.append_nil, List.forall_mem_singleton]
    exact fun g hg => ⟨ls, hg⟩
  case h_2 => exact List.forall_mem_nil _

-- By induction on how the statements are read.
theorem Reads.groupsAreRead (h : Reads p ls ss rest) :
    ∀ t ∈ listSites start ss, t.stmt.GroupsAreRead := by
  induction h generalizing start with
  | bodyEnd | bodyClose | noTail => exact List.forall_mem_nil _
  | block _ ih | body _ _ ih => exact ih
  | stray | empty | caseLabel | nameLabel | jump | simple | blockEnd | blockClose =>
    simp [listSites, sites, GroupsAreRead]
  | branch hg _ _ ihb iht =>
    refine groupsAreRead_sites_control (groupsAreRead_of_readGroup nofun hg) ?_
    rw [listSites_append]
    exact List.forall_mem_append.mpr ⟨ihb, iht⟩
  | headed hk hg _ ih =>
    refine groupsAreRead_sites_control (groupsAreRead_of_readGroup ?_ hg) ih
    rintro rfl
    cases lexemes_of_groupHead? hk
    cases hk
  | loneElse _ ih | elseBody _ _ ih => exact groupsAreRead_sites_control groupsAreRead_of_none ih
  | elseIf _ ih =>
    -- The words `else if` are one head, of which the `if` was read as a head of its own.
    have hparts := @ih (start + 1)
    rw [listSites, listSites, List.append_nil, sites] at hparts
    obtain ⟨⟨-, hg⟩, hparts⟩ := List.forall_mem_cons.mp hparts
    exact groupsAreRead_sites_control ⟨nofun, hg⟩ hparts
  | doLoop _ hw ih =>
    refine groupsAreRead_sites_control groupsAreRead_of_none ?_
    rw [listSites_append]
    exact List.forall_mem_append.mpr ⟨ih, groupsAreRead_readDoWhile hw⟩
  | function hp ht _ _ ih =>
    simp only [listSites, sites, List.append_nil, List.forall_mem_append] at ih ⊢
    exact ⟨ih, List.forall_mem_singleton.mpr trivial⟩
  | blockItem _ _ _ ihi ihb =>
    simp only [listSites, sites, List.append_nil, List.forall_mem_append,
      List.forall_mem_cons] at ihi ihb ⊢
    refine ⟨trivial, ihi, ?_⟩
    rw [Nat.add_right_comm]
    exact ihb.2

theorem groupsAreRead_readFile (ls : List Lexeme) :
    ∀ start, ∀ t ∈ listSites start (readFile ls), t.stmt.GroupsAreRead := by
  fun_induction readFile ls with
  | case1 => exact fun _ => List.forall_mem_nil _
  | case2 l ls s ih =>
    intro start
    have hread : ∀ t ∈ listSites start [s.value], t.stmt.GroupsAreRead :=
      (reads_read true l ls).groupsAreRead
    rw [listSites, listSites, List.append_nil] at hread
    exact List.forall_mem_append.mpr ⟨hread, ih _⟩

end Stmt

namespace Control

variable {start : Nat} {head : Head} {group : Option Group} {parts : List Stmt}

theorem isPart_conditionGroup? {place : Nat} {g : Group}
    (hs : (Stmt.control head group parts).GroupsAreRead)
    (h : conditionGroup? start head group parts = some (place, g)) :
    IsPart ⟨place, g.lexemes⟩ ⟨start, (Stmt.control head group parts).lexemes⟩ := by
  unfold conditionGroup? at h
  split at h
  case h_1 body g ended =>
    cases h
    cases hs.1 rfl
    refine ⟨Head.doHead.lexemes ++ body.lexemes ++ [.keyword .whileKw], Stmt.semicolonIf ended,
      ?_, ?_⟩
    · simp [Stmt.lexemes, Stmt.groupLexemes, Stmt.listLexemes]
    · simp [Stmt.length_lexemes, Nat.add_assoc]
  case h_2 =>
    obtain ⟨g, rfl, hg⟩ := Option.map_eq_some_iff.mp h
    cases hg
    exact ⟨head.lexemes, Stmt.listLexemes parts, by simp [Stmt.lexemes, Stmt.groupLexemes], rfl⟩

theorem isPart_condition? {c : Stretch} (hs : (Stmt.control head group parts).GroupsAreRead)
    (h : condition? start head group parts = some c) :
    c.IsPart ⟨start, (Stmt.control head group parts).lexemes⟩ := by
  obtain ⟨⟨place, g⟩, hg, rfl⟩ := Option.map_eq_some_iff.mp h
  refine IsPart.trans ?_ (isPart_conditionGroup? hs hg)
  dsimp only
  split
  · exact Group.isPart_forCondition place g
  · exact Group.isPart_contentAt place g

end Control

-- The condition of a control block is that of its statement, and the comparisons are those in it.
theorem Parts.exists_condition {p : Parts} {b : ControlBlock Run} {r : Run} (h : b ∈ p.blocks)
    (hr : r ∈ b.condition) :
    ∃ t ∈ p.sites, ∃ head group parts s constants, t.stmt = .control head group parts ∧
      Control.condition? t.start head group parts = some s ∧ s.run? = some r ∧
      b.comparisons = Comparison.listOf constants s := by
  obtain ⟨t, ht, hb⟩ := List.mem_flatMap.mp h
  unfold Site.controlBlocks at hb
  split at hb
  case h_2 => cases hb
  case h_1 head group parts hs =>
    cases List.mem_cons.mp hb
    case inr hb =>
      obtain ⟨sec, -, rfl⟩ := List.mem_map.mp hb
      cases hr
    case inl hb =>
      subst hb
      obtain ⟨s, hcondition, hrun⟩ := Option.bind_eq_some_iff.mp (Option.mem_def.mp hr)
      exact ⟨t, ht, head, group, parts, s, _, hs, hcondition, hrun, by rw [hcondition]; rfl⟩

theorem Parts.conditionRun_eq {p : Parts} {b : ControlBlock Run} (h : b ∈ p.blocks) :
    b.conditionRun = b.condition := by
  obtain ⟨t, -, hb⟩ := List.mem_flatMap.mp h
  unfold Site.controlBlocks at hb
  split at hb
  case h_2 => cases hb
  case h_1 =>
    cases List.mem_cons.mp hb
    case inl hb => exact hb ▸ rfl
    case inr hb =>
      obtain ⟨sec, -, rfl⟩ := List.mem_map.mp hb
      rfl

-- The condition is a part of the code.
theorem Parts.isPart_condition? {p : Parts} {t : Site} {head : Head} {group : Option Group}
    {parts : List Stmt} {s : Stretch} (ht : t ∈ p.sites) (hs : t.stmt = .control head group parts)
    (hc : Control.condition? t.start head group parts = some s) : s.IsPart ⟨0, p.lexemes⟩ := by
  have hpart := Stmt.isPart_of_mem_listSites _ ht
  have hread := Stmt.groupsAreRead_readFile p.lexemes 0 t ht
  rw [hs] at hpart hread
  rw [Stmt.listLexemes_readFile] at hpart
  exact (Control.isPart_condition? hread hc).trans hpart

end CLint
