import CLint.Proofs.Join.Outline
import CLint.Rule.Indentation

namespace CLint

-- The number of the brace that begins the body of a `switch`, if the statement is one.
def Site.switchBrace? (s : Site) : Option Nat :=
  match s.stmt with
  | .control .switchHead group (.block _ _ :: _) =>
    some (Stmt.partsStart s.start .switchHead group)
  | _ => none

namespace Stmt

def startsWithBlock : List Stmt → Bool
  | .block _ _ :: _ => true
  | _ => false

-- The same flags but for the first one, which is set.
def flagFirst : List Bool → List Bool
  | [] => []
  | _ :: bs => true :: bs

mutual

-- For each lexeme of a statement, is it the brace that begins the body of a `switch`?
def switchBraces : Stmt → List Bool
  | block items closed => false :: listSwitchBraces items ++ List.replicate closed.toNat false
  | function header body => List.replicate header.length false ++ switchBraces body
  | control head group parts =>
    List.replicate (head.lexemes.length + (groupLexemes group).length) false ++
      if head = .switchHead && startsWithBlock parts then flagFirst (listSwitchBraces parts)
      else listSwitchBraces parts
  | s => List.replicate s.size false

def listSwitchBraces : List Stmt → List Bool
  | [] => []
  | s :: ss => switchBraces s ++ listSwitchBraces ss

end

-- The numbers of the flags that are set, where the first flag has the number `start`.
def flagged (start : Nat) : List Bool → List Nat
  | [] => []
  | b :: bs => (if b then [start] else []) ++ flagged (start + 1) bs

variable {start n : Nat} {as bs : List Bool}

@[simp]
theorem listSwitchBraces_append (ss ts : List Stmt) :
    listSwitchBraces (ss ++ ts) = listSwitchBraces ss ++ listSwitchBraces ts := by
  induction ss with
  | nil => rfl
  | cons s ss ih => rw [List.cons_append, listSwitchBraces, listSwitchBraces, ih, List.append_assoc]

theorem length_flagFirst (bs : List Bool) : (flagFirst bs).length = bs.length := by
  cases bs <;> rfl

mutual

theorem length_switchBraces (s : Stmt) : s.switchBraces.length = s.size := by
  cases s with
  | block items closed =>
    simp [switchBraces, size, length_listSwitchBraces items, Nat.add_right_comm]
  | function header body => simp [switchBraces, size, length_switchBraces body]
  | control head group parts =>
    rw [switchBraces, size, List.length_append, List.length_replicate]
    split <;> simp [length_flagFirst, length_listSwitchBraces parts]
  | _ => exact List.length_replicate

theorem length_listSwitchBraces (ss : List Stmt) :
    (listSwitchBraces ss).length = listSize ss := by
  cases ss with
  | nil => rfl
  | cons s ss =>
    rw [listSwitchBraces, listSize, List.length_append, length_switchBraces s,
      length_listSwitchBraces ss]

end

theorem flagged_append (start : Nat) (as bs : List Bool) :
    flagged start (as ++ bs) = flagged start as ++ flagged (start + as.length) bs := by
  induction as generalizing start with
  | nil => rfl
  | cons a as ih =>
    rw [List.cons_append, flagged, flagged, ih, List.append_assoc, List.length_cons,
      Nat.add_assoc, Nat.add_comm 1]

theorem flagged_replicate (start n : Nat) : flagged start (List.replicate n false) = [] := by
  induction n generalizing start with
  | zero => rfl
  | succ n ih => rw [List.replicate_succ, flagged, ih]; rfl

theorem mem_flagged_iff : n ∈ flagged start bs ↔ start ≤ n ∧ bs[n - start]? = some true := by
  induction bs generalizing start with
  | nil => simp [flagged]
  | cons b bs ih =>
    rw [flagged, List.mem_append, ih]
    rcases Nat.lt_trichotomy n start with h | rfl | h
    · have hfirst : n ∉ if b then [start] else [] := by cases b <;> simp; omega
      exact iff_of_false (fun h' => h'.elim hfirst fun h' => by omega) fun h' => by omega
    · have hnext : ¬n + 1 ≤ n := Nat.not_succ_le_self n
      cases b <;> simp [hnext]
    · obtain ⟨k, rfl⟩ : ∃ k, n = start + 1 + k := ⟨n - (start + 1), by omega⟩
      have hfirst : start + 1 + k ∉ if b then [start] else [] := by cases b <;> simp; omega
      have hk : start + 1 + k - start = k + 1 := by omega
      rw [hk, Nat.add_sub_cancel_left, List.getElem?_cons_succ, or_iff_right hfirst]
      exact and_congr_left fun _ => by omega

mutual

-- By induction on statements: the flags tell where the bodies of all `switch` statements begin.
theorem filterMap_sites (s : Stmt) (start : Nat) :
    (sites start s).filterMap Site.switchBrace? = flagged start s.switchBraces := by
  cases s with
  | block items closed =>
    have hitems := filterMap_listSites items (start + 1)
    rw [sites, List.filterMap_cons_none rfl, hitems]
    simp [switchBraces, flagged, flagged_append, flagged_replicate]
  | function header body =>
    have hbody := filterMap_sites body (start + header.length)
    rw [sites, List.filterMap_append, hbody, List.filterMap_cons_none rfl, List.filterMap_nil,
      List.append_nil, switchBraces, flagged_append, flagged_replicate, List.length_replicate]
    rfl
  | control head group parts =>
    have hparts := filterMap_listSites parts (partsStart start head group)
    rw [sites, List.filterMap_cons, hparts, switchBraces, flagged_append, flagged_replicate,
      List.length_replicate, List.nil_append, ← Nat.add_assoc, ← partsStart]
    split
    case h_1 hnone =>
      rw [if_neg]
      intro h
      simp only [Bool.and_eq_true, decide_eq_true_eq] at h
      obtain ⟨rfl, hblock⟩ := h
      unfold startsWithBlock at hblock
      split at hblock
      case h_1 => cases hnone
      case h_2 => cases hblock
    case h_2 n hsome =>
      unfold Site.switchBrace? at hsome
      split at hsome
      case h_1 items closed parts' heq =>
        cases heq
        cases hsome
        rfl
      case h_2 => cases hsome
  | empty | stray => rfl
  | label | jump | simple | doWhile => exact (flagged_replicate ..).symm

theorem filterMap_listSites (ss : List Stmt) (start : Nat) :
    (listSites start ss).filterMap Site.switchBrace? = flagged start (listSwitchBraces ss) := by
  cases ss with
  | nil => rfl
  | cons s ss =>
    rw [listSites, List.filterMap_append, filterMap_sites s, filterMap_listSites ss,
      listSwitchBraces, flagged_append, length_switchBraces]

end

end Stmt

-- The number of the brace that begins the body of a `switch`, if the block is one.
def ControlBlock.switchBrace? (b : ControlBlock Run) : Option Nat :=
  if b.kind = .switchBlock && b.hasBraces then b.body.map (·.first) else none

theorem Section.switchBrace?_block (s : Section) : s.block.switchBrace? = none := by
  rw [ControlBlock.switchBrace?, if_neg]
  rw [block]
  split <;> simp

theorem Site.filterMap_controlBlocks (constants : List String) (announced : List Nat) (s : Site) :
    (s.controlBlocks constants announced).filterMap ControlBlock.switchBrace? =
      s.switchBrace?.toList := by
  unfold controlBlocks
  split
  case h_1 head group parts hs =>
    have hsections : ∀ ss : List Section,
        (ss.map Section.block).filterMap ControlBlock.switchBrace? = [] := fun ss => by
      rw [List.filterMap_map, List.filterMap_eq_nil_iff]
      exact fun s _ => Section.switchBrace?_block s
    have hfirst : ∀ condition comparisons clauses,
        ControlBlock.switchBrace? {
          kind := head.kind
          span := ⟨s.start, Control.stop s.start head group parts - 1⟩
          keyword := ⟨s.start, s.start + head.lexemes.length - 1⟩
          hasBraces := (placed (Stmt.partsStart s.start head group) (parts.take 1)).head?.any
            (·.stmt.isBlock)
          condition := condition
          conditionRun := condition
          comparisons := comparisons
          body := (placed (Stmt.partsStart s.start head group) (parts.take 1)).head?.map run
          clauses := clauses } = s.switchBrace? := by
      intro condition comparisons clauses
      rw [switchBrace?, hs]
      cases head with
      | switchHead =>
        rcases parts with _ | ⟨p, ps⟩
        · rfl
        · cases p <;> rfl
      | _ => rfl
    dsimp only
    rw [List.filterMap_cons, hfirst, hsections]
    cases s.switchBrace? <;> rfl
  case h_2 hs =>
    rw [switchBrace?]
    split
    case h_1 hs' => exact absurd hs' (hs _ _ _)
    case h_2 => rfl

theorem ControlBlock.switchBrace?_map {code : Array Token} (b : ControlBlock Run) :
    (if (b.map (Outline.locate code)).kind = .switchBlock && (b.map (Outline.locate code)).hasBraces
      then (b.map (Outline.locate code)).body.map (·.start.offset) else none) =
      b.switchBrace?.map fun n => (Outline.tokenAt code n).offset := by
  rw [switchBrace?, map]
  split
  case isTrue =>
    rw [Option.map_map, Option.map_map]
    rfl
  case isFalse => rfl

-- The offsets that are known as the bodies of `switch` statements are those of the braces.
theorem Rule.mem_switchBodies_iff {source : Source} {offset : Nat} :
    offset ∈ switchBodies (Outline.ofSource source) ↔
      ∃ n ∈ Stmt.flagged 0 (Stmt.listSwitchBraces
          (Stmt.readFile (Parts.ofTokens source.tokens).lexemes)),
        (Outline.tokenAt (Outline.ofSource source).code n).offset = offset := by
  have hbraces : ((Parts.ofTokens source.tokens).blocks.filterMap ControlBlock.switchBrace?) =
      Stmt.flagged 0 (Stmt.listSwitchBraces
        (Stmt.readFile (Parts.ofTokens source.tokens).lexemes)) := by
    rw [← Stmt.filterMap_listSites, Parts.blocks, List.filterMap_flatMap]
    simp only [Site.filterMap_controlBlocks]
    exact (List.filterMap_eq_flatMap_toList ..).symm
  simp only [← hbraces, switchBodies, List.mem_filterMap, Outline.ofSource, List.mem_mergeSort,
    List.mem_map, exists_exists_and_eq_and]
  constructor
  · rintro ⟨b, hb, hoffset⟩
    obtain ⟨n, hn, rfl⟩ := Option.map_eq_some_iff.mp (b.switchBrace?_map.symm.trans hoffset)
    exact ⟨n, ⟨b, hb, hn⟩, rfl⟩
  · rintro ⟨n, ⟨b, hb, hn⟩, rfl⟩
    exact ⟨b, hb, b.switchBrace?_map.trans (by rw [hn]; rfl)⟩

end CLint
