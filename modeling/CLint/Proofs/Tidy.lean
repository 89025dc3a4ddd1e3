import CLint.Diagnostic

namespace CLint

namespace Stmt

mutual

-- Is all closed that is opened in a statement, and nothing else?
def isTidy : Stmt → Bool
  | stray => false
  | block items closed => closed && listTidy items
  | function _ body => isTidy body
  | control _ group parts => group.all Group.isClosed && listTidy parts
  | doWhile group _ => group.all Group.isClosed
  | _ => true

def listTidy : List Stmt → Bool
  | [] => true
  | s :: ss => isTidy s && listTidy ss

end

theorem listTidy_append (ss ts : List Stmt) :
    listTidy (ss ++ ts) = (listTidy ss && listTidy ts) := by
  induction ss with
  | nil => rfl
  | cons s ss ih => simp only [List.cons_append, listTidy, ih, Bool.and_assoc]

theorem listSites_append (ss ts : List Stmt) (start : Nat) :
    listSites start (ss ++ ts) =
      listSites start ss ++ listSites (start + listSize ss) ts := by
  induction ss generalizing start with
  | nil => rfl
  | cons s ss ih =>
    simp only [List.cons_append, listSites, listSize, ih, List.append_assoc,
      Nat.add_assoc]

mutual

-- What is in a tidy statement is tidy as well.
theorem isTidy_of_mem_sites (s : Stmt) {start : Nat} {t : Site} (hs : s.isTidy)
    (ht : t ∈ sites start s) : t.stmt.isTidy := by
  cases s with
  | function header body =>
    rw [sites] at ht
    cases List.mem_append.mp ht
    case inl ht =>
      rw [isTidy] at hs
      exact isTidy_of_mem_sites body hs ht
    case inr ht => exact List.mem_singleton.mp ht ▸ hs
  | block items closed =>
    rw [sites] at ht
    cases List.mem_cons.mp ht
    case inl ht => exact ht ▸ hs
    case inr ht =>
      rw [isTidy, Bool.and_eq_true] at hs
      exact isTidy_of_mem_listSites items hs.2 ht
  | control head group parts =>
    rw [sites] at ht
    cases List.mem_cons.mp ht
    case inl ht => exact ht ▸ hs
    case inr ht =>
      rw [isTidy, Bool.and_eq_true] at hs
      exact isTidy_of_mem_listSites parts hs.2 ht
  | _ =>
    rw [sites] at ht
    · exact List.mem_singleton.mp ht ▸ hs
    all_goals simp

theorem isTidy_of_mem_listSites (ss : List Stmt) {start : Nat} {t : Site} (hs : listTidy ss)
    (ht : t ∈ listSites start ss) : t.stmt.isTidy := by
  cases ss with
  | nil => cases ht
  | cons s ss =>
    rw [listTidy, Bool.and_eq_true] at hs
    cases List.mem_append.mp ht
    case inl ht => exact isTidy_of_mem_sites s hs.1 ht
    case inr ht => exact isTidy_of_mem_listSites ss hs.2 ht

end

end Stmt

namespace Site

def isSound (s : Site) : Bool :=
  s.problems.isEmpty && !s.isOpenBlock

theorem problemsOf_eq_nil_iff {ss : List Site} : problemsOf ss = [] ↔ ∀ s ∈ ss, s.isSound := by
  have hopen : ((ss.find? isOpenBlock).map fun s => (Problem.openBlock, s.start)).toList = [] ↔
      ∀ s ∈ ss, s.isOpenBlock = false := by
    rw [Option.toList_eq_nil_iff, Option.map_eq_none_iff, List.find?_eq_none]
    simp
  simp only [problemsOf, List.append_eq_nil_iff, hopen, List.flatMap_eq_nil_iff, isSound,
    Bool.and_eq_true, List.isEmpty_iff, Bool.not_eq_true']
  exact ⟨fun h s hs => ⟨h.1 s hs, h.2 s hs⟩,
    fun h => ⟨fun s hs => (h s hs).1, fun s hs => (h s hs).2⟩⟩

-- Behind statements that are sound, only those that follow have problems.
theorem problemsOf_append {ss : List Site} (h : problemsOf ss = []) (ts : List Site) :
    problemsOf (ss ++ ts) = problemsOf ts := by
  obtain ⟨hproblems, hopen⟩ := List.append_eq_nil_iff.mp h
  rw [Option.toList_eq_nil_iff, Option.map_eq_none_iff] at hopen
  rw [problemsOf, List.flatMap_append, hproblems, List.find?_append, hopen]
  rfl

@[simp]
theorem isEmpty_groupProblem (start : Nat) (group : Option Group) :
    (groupProblem start group).isEmpty = group.all Group.isClosed := by
  cases group with
  | none => rfl
  | some g =>
    rw [groupProblem, Option.all_some]
    cases g.isClosed <;> rfl

end Site

namespace Stmt

mutual

-- A statement is tidy if there is nothing wrong with any statement in it.
theorem all_isSound_sites (s : Stmt) (start : Nat) :
    (sites start s).all Site.isSound = s.isTidy := by
  cases s with
  | function header body =>
    simp [sites, isTidy, all_isSound_sites body, Site.isSound, Site.problems, Site.isOpenBlock]
  | block items closed =>
    simp [sites, isTidy, all_isSound_listSites items, Site.isSound, Site.problems,
      Site.isOpenBlock]
  | control head group parts =>
    simp [sites, isTidy, all_isSound_listSites parts, Site.isSound, Site.problems,
      Site.isOpenBlock]
  | _ => simp [sites, isTidy, Site.isSound, Site.problems, Site.isOpenBlock]

theorem all_isSound_listSites (ss : List Stmt) (start : Nat) :
    (listSites start ss).all Site.isSound = listTidy ss := by
  cases ss with
  | nil => rfl
  | cons s ss =>
    simp [listSites, listTidy, all_isSound_sites s, all_isSound_listSites ss]

end

theorem problemsOf_sites_eq_nil_iff {s : Stmt} {start : Nat} :
    Site.problemsOf (sites start s) = [] ↔ s.isTidy := by
  rw [Site.problemsOf_eq_nil_iff, ← all_isSound_sites s start, List.all_eq_true]

theorem problemsOf_listSites_eq_nil_iff {ss : List Stmt} {start : Nat} :
    Site.problemsOf (listSites start ss) = [] ↔ listTidy ss := by
  rw [Site.problemsOf_eq_nil_iff, ← all_isSound_listSites ss start, List.all_eq_true]

end Stmt
end CLint
