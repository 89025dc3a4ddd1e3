import CLint.Command.Check
import CLint.Proofs.Schedule
import Mathlib.Data.List.Basic

namespace CLint

namespace Schedule

variable {c c' : Schedule} {s t : State} {r : RunResult} {done left : List Nat}

-- A run that has answered: the findings of all sources that are to be dispatched.
theorem Sound.eq_of_result? (h : c.Sound s)
    (hs : ∀ a ∈ c.sources, ∀ b ∈ c.sources, a.1 = b.1 → a.2 = b.2) (hr : s.result? = some r) :
    r = {
      findings := Finding.aggregate ((Run.dispatched c.cancelAt c.sources).flatMap
        fun (path, text) => Run.checkFile c.rules c.settings path text)
      filesAnalyzed := (Run.dispatched c.cancelAt c.sources).length
      cancelled := c.cancelAt.any (· < c.sources.length) } := by
  obtain ⟨cancelled, hp, hl, rfl⟩ := of_result? hr
  obtain ⟨htake, hcancelled⟩ := h.take_dispatched hp
  have hcollected : s.collected.Perm (List.range s.dispatched) := by
    simpa only [hl, List.append_nil] using h.accounted
  have hfindings := htake ▸ h.aggregate_submitted hs hcollected
  have hcount : s.analyzed = (Run.dispatched c.cancelAt c.sources).length := by
    rw [← htake, List.length_take_of_le h.dispatched_le, h.counted, hcollected.length_eq,
      List.length_range]
  rw [FindingStore.findings, hfindings, hcount, hcancelled]

theorem collect_congr (h : ∀ n ∈ done, c.analysis n = c'.analysis n) :
    s.collect c done left = s.collect c' done left := by
  have hstore : ∀ (store : FindingStore), ∀ n ∈ done,
      store.submit (c.analysis n) = store.submit (c'.analysis n) :=
    fun _ n hn => by rw [h n hn]
  rw [State.collect, State.collect, List.foldl_ext _ _ _ hstore]

-- Between two sources that are read, a run only looks at those that are pending, and does not
-- notice what there is to be read.
theorem Step.congr (h : c.Step s t) (hp : s.phase ≠ .reading) (hworkers : c.workers = c'.workers)
    (hpending : ∀ n ∈ s.pending, c.analysis n = c'.analysis n)
    (hheld : s.phase = .holding → s.dispatched < c'.sources.length) : c'.Step s t := by
  have hdone : ∀ {done left : List Nat}, (done ++ left).Perm s.pending →
      s.collect c done left = s.collect c' done left :=
    fun hl => collect_congr fun n hn => hpending n (hl.subset (List.mem_append_left _ hn))
  cases h with
  | read hread | cancel hread | exhaust hread => exact absurd hread hp
  | wait done left hp hw hd hl =>
    rw [hdone hl]
    exact .wait done left hp (hworkers ▸ hw) hd hl
  | dispatch hp _ hw => exact .dispatch hp (hheld hp) (hworkers ▸ hw)
  | drain n left hp hl =>
    rw [hdone hl]
    exact .drain n left hp hl

end Schedule

namespace Files

-- Can a file be read?
def canRead (t : Files) (p : Path) : Bool :=
  (t.read p).toBool

end Files

namespace Command

variable {t : Files} {p : Path}

theorem source?_eq_some_iff {source : String × String} :
    source? t p = some source ↔
      ∃ bytes, t.read p = .ok bytes ∧ source = (p.text, sourceText bytes) := by
  rw [source?]
  cases t.read p <;> simp [eq_comm]

theorem fault?_eq_some_iff {u : Path × FileFault} :
    fault? t p = some u ↔ ∃ fault, t.read p = .error fault ∧ u = (p, fault) := by
  rw [fault?]
  cases t.read p <;> simp [eq_comm]

-- A file is either a source or complained of.
theorem isSome_source? : (source? t p).isSome = t.canRead p := by
  rw [source?, Files.canRead]
  cases t.read p <;> rfl

theorem isSome_fault? : (fault? t p).isSome = !t.canRead p := by
  rw [fault?, Files.canRead]
  cases t.read p <;> rfl

theorem source?_eq_none_iff : source? t p = none ↔ ∃ u, fault? t p = some u := by
  rw [← Option.isNone_iff_eq_none, ← Option.not_isSome, isSome_source?, ← isSome_fault?,
    Option.isSome_iff_exists]

theorem fault?_eq_none_iff : fault? t p = none ↔ ∃ source, source? t p = some source := by
  rw [← Option.isNone_iff_eq_none, ← Option.not_isSome, isSome_fault?, ← isSome_source?,
    Bool.not_not, Option.isSome_iff_exists]

end Command

-- A run that reads the files itself. They are read one by one, each when the run asks for another
-- source, and those that cannot be read are put aside.
structure Checking where
  tree : Files
  files : List Path
  rules : List Rule
  settings : RuleSettings
  jobs : Int

namespace Checking

-- A run over the given sources, of which nobody cancels any.
def schedule (c : Checking) (sources : List (String × String)) : Schedule where
  rules := c.rules
  settings := c.settings
  sources := sources
  jobs := c.jobs
  cancelAt := none

def sources (c : Checking) : List (String × String) :=
  c.files.filterMap (Command.source? c.tree)

def faults (c : Checking) : List (Path × FileFault) :=
  c.files.filterMap (Command.fault? c.tree)

-- What is found in the files that can be read.
def result (c : Checking) : RunResult where
  findings := Finding.aggregate (c.sources.flatMap fun (path, text) =>
    Run.checkFile c.rules c.settings path text)
  filesAnalyzed := c.sources.length

-- How many files were tried, what could be read of them and what could not, and how far the run
-- over the sources is.
structure State where
  tried : Nat := 0
  sources : List (String × String) := []
  unreadable : List (Path × FileFault) := []
  run : Schedule.State := {}

def State.result? (s : State) : Option RunResult :=
  s.run.result?

-- A step of a run. As long as the run asks for a source, the next file is tried. The run knows the
-- sources that were read so far, but not those that are still to come.
inductive Step (c : Checking) (s : State) : State → Prop
  | complain {p : Path} {u : Path × FileFault} (hp : s.run.phase = .reading)
      (hf : c.files[s.tried]? = some p) (hu : Command.fault? c.tree p = some u) :
      Step c s { s with tried := s.tried + 1, unreadable := s.unreadable ++ [u] }
  | read {p : Path} {source : String × String} (hp : s.run.phase = .reading)
      (hf : c.files[s.tried]? = some p) (hu : Command.source? c.tree p = some source) :
      Step c s { s with
        tried := s.tried + 1, sources := s.sources ++ [source], run.phase := .holding }
  | exhaust (hp : s.run.phase = .reading) (hf : c.files[s.tried]? = none) :
      Step c s { s with run.phase := .closing false }
  | work {run : Schedule.State} (hp : s.run.phase ≠ .reading)
      (hr : (c.schedule s.sources).Step s.run run) : Step c s { s with run }

def Reaches (c : Checking) (s : State) : Prop :=
  Relation.ReflTransGen c.Step {} s

-- What is true of a run at any time: the files tried so far are either among the sources or put
-- aside, in their order, and the run goes as one does that has all sources at hand.
structure Tracks (c : Checking) (s : State) : Prop where
  reaches : (c.schedule c.sources).Reaches s.run
  tried_le : s.tried ≤ c.files.length
  sources : s.sources = (c.files.take s.tried).filterMap (Command.source? c.tree)
  unreadable : s.unreadable = (c.files.take s.tried).filterMap (Command.fault? c.tree)
  held : s.run.phase = .holding → s.sources.length = s.run.dispatched + 1
  level : s.run.phase ≠ .holding → s.sources.length = s.run.dispatched
  closed : ∀ cancelled, s.run.phase = .closing cancelled → s.tried = c.files.length

variable {c : Checking} {s t : State} {p : Path} {r : RunResult}

theorem tracks_start (c : Checking) : c.Tracks {} where
  reaches := .refl
  tried_le := Nat.zero_le _
  sources := rfl
  unreadable := rfl
  held := nofun
  level _ := rfl
  closed := nofun

theorem filterMap_take_succ {α β : Type} {as : List α} {a : α} {n : Nat} (h : as[n]? = some a)
    (f : α → Option β) :
    (as.take (n + 1)).filterMap f = (as.take n).filterMap f ++ (f a).toList := by
  rw [List.take_add_one, h, Option.toList_some, List.filterMap_append]
  cases hb : f a <;> simp [hb]

-- The sources that were read are followed by those that are still to be read.
theorem Tracks.sources_append (h : c.Tracks s) :
    s.sources ++ (c.files.drop s.tried).filterMap (Command.source? c.tree) = c.sources := by
  rw [h.sources, ← List.filterMap_append, List.take_append_drop, Checking.sources]

theorem Tracks.dispatched_le (h : c.Tracks s) : s.run.dispatched ≤ s.sources.length := by
  by_cases hp : s.run.phase = .holding
  · exact h.held hp ▸ Nat.le_succ _
  · exact Nat.le_of_eq (h.level hp).symm

theorem Tracks.sources_length_le (h : c.Tracks s) : s.sources.length ≤ c.sources.length := by
  rw [← h.sources_append, List.length_append]
  exact Nat.le_add_right ..

-- What is pending was read before.
theorem Tracks.analysis_eq (h : c.Tracks s) : ∀ n ∈ s.run.pending,
    (c.schedule s.sources).analysis n = (c.schedule c.sources).analysis n := by
  intro n hn
  have hmem := (Schedule.sound_of_reaches h.reaches).accounted.subset
    (List.mem_append_right _ hn)
  have hlt := Nat.lt_of_lt_of_le (List.mem_range.mp hmem) h.dispatched_le
  rw [Schedule.analysis, Schedule.analysis, ← h.sources_append, schedule, schedule,
    List.getElem?_append_left hlt]

-- Unless a file is to be tried, the run goes on as if all sources were at hand.
theorem Tracks.step_iff (h : c.Tracks s) (hp : s.run.phase ≠ .reading) {run : Schedule.State} :
    (c.schedule s.sources).Step s.run run ↔ (c.schedule c.sources).Step s.run run := by
  have hheld : s.run.phase = .holding → s.run.dispatched < s.sources.length :=
    fun hheld => Nat.le_of_eq (h.held hheld).symm
  constructor
  case mp =>
    exact fun hs => hs.congr hp rfl h.analysis_eq fun hp =>
      Nat.lt_of_lt_of_le (hheld hp) h.sources_length_le
  case mpr =>
    exact fun hs => hs.congr hp rfl (fun n hn => (h.analysis_eq n hn).symm) hheld

-- Each step keeps track: a file that is put aside goes unnoticed by the run over the sources, and
-- any other step is one of its own.
theorem Tracks.step (h : c.Tracks s) (hs : c.Step s t) : c.Tracks t := by
  cases hs with
  | complain hp hf hu =>
    have hsource := Command.source?_eq_none_iff.mpr ⟨_, hu⟩
    exact {
      reaches := h.reaches
      tried_le := (List.getElem?_eq_some_iff.mp hf).1
      sources := by simp [filterMap_take_succ hf, ← h.sources, hsource]
      unreadable := by simp [filterMap_take_succ hf, ← h.unreadable, hu]
      held := h.held
      level := h.level
      closed := fun _ hclosed => nomatch hp.symm.trans hclosed }
  | read hp hf hu =>
    have hlevel := h.level (by simp [hp])
    have hmem := List.mem_of_getElem? (List.getElem?_drop.trans hf : (c.files.drop s.tried)[0]? = _)
    have hmore := List.ne_nil_of_mem (List.mem_filterMap.mpr ⟨_, hmem, hu⟩)
    have hlt : s.run.dispatched < c.sources.length := by
      rw [← h.sources_append, ← hlevel, List.length_append]
      exact Nat.lt_add_of_pos_right (List.length_pos_iff.mpr hmore)
    exact {
      reaches := h.reaches.tail (.read hp hlt rfl)
      tried_le := (List.getElem?_eq_some_iff.mp hf).1
      sources := by simp [filterMap_take_succ hf, ← h.sources, hu]
      unreadable := by
        simp [filterMap_take_succ hf, ← h.unreadable, Command.fault?_eq_none_iff.mpr ⟨_, hu⟩]
      held := fun _ => by simp [hlevel]
      level := fun hp => absurd rfl hp
      closed := nofun }
  | exhaust hp hf =>
    have hlevel := h.level (by simp [hp])
    have htried : s.tried = c.files.length :=
      Nat.le_antisymm h.tried_le (List.getElem?_eq_none_iff.mp hf)
    have hle : c.sources.length ≤ s.run.dispatched := by
      rw [← h.sources_append, htried, List.drop_length, List.filterMap_nil, List.append_nil]
      exact Nat.le_of_eq hlevel
    exact { h with
      reaches := h.reaches.tail (.exhaust hp hle)
      held := nofun
      level := fun _ => hlevel
      closed := fun _ _ => htried }
  | work hp hr =>
    have hreaches := h.reaches.tail ((h.step_iff hp).mp hr)
    cases hr with
    | read hread | cancel hread | exhaust hread => exact absurd hread hp
    | wait _ _ hheld => exact { h with reaches := hreaches }
    | dispatch hheld =>
      exact { h with
        reaches := hreaches
        held := nofun
        level := fun _ => h.held hheld
        closed := nofun }
    | drain => exact { h with reaches := hreaches }

theorem tracks_of_reaches (h : c.Reaches s) : c.Tracks s := by
  induction h with
  | refl => exact tracks_start c
  | tail _ hs ih => exact ih.step hs

-- What a run still has to do. A file that was not tried yet may become a source.
def remaining (c : Checking) (s : State) : Nat :=
  4 * (c.files.length - s.tried) + (c.schedule s.sources).remaining s.run

theorem remaining_lt (h : c.Step s t) : c.remaining t < c.remaining s := by
  cases h with
  | complain hp hf hu =>
    have := (List.getElem?_eq_some_iff.mp hf).1
    simp only [remaining]
    omega
  | read hp hf hu =>
    have := (List.getElem?_eq_some_iff.mp hf).1
    simp only [remaining, Schedule.remaining, schedule, hp, List.length_append,
      List.length_singleton]
    omega
  | exhaust hp hf =>
    simp only [remaining, Schedule.remaining, schedule, hp]
    omega
  | work hp hr => exact Nat.add_lt_add_left (Schedule.remaining_lt hr) _

-- A run goes on until it answers.
theorem Tracks.exists_step (h : c.Tracks s) (hr : s.result? = none) : ∃ t, c.Step s t := by
  by_cases hp : s.run.phase = .reading
  case pos =>
    cases hf : c.files[s.tried]? with
    | none => exact ⟨_, .exhaust hp hf⟩
    | some p =>
      cases hu : Command.source? c.tree p with
      | some source => exact ⟨_, .read hp hf hu⟩
      | none =>
        obtain ⟨u, hu⟩ := Command.source?_eq_none_iff.mp hu
        exact ⟨_, .complain hp hf hu⟩
  case neg =>
    obtain ⟨run, hrun⟩ := (Schedule.sound_of_reaches h.reaches).exists_step hr
    exact ⟨_, .work hp ((h.step_iff hp).mpr hrun)⟩

-- By induction on what remains to be done: any run can be brought to its end.
theorem Tracks.exists_result {s : State} (h : c.Tracks s) :
    ∃ t r, Relation.ReflTransGen c.Step s t ∧ t.result? = some r := by
  cases hr : s.result? with
  | some r => exact ⟨s, r, .refl, hr⟩
  | none =>
    obtain ⟨t, hs⟩ := h.exists_step hr
    have := remaining_lt hs
    obtain ⟨u, r, hu, hr⟩ := (h.step hs).exists_result
    exact ⟨u, r, .head hs hu, hr⟩
termination_by c.remaining s

-- What a run answers when it has ended, and what it has put aside by then.
theorem Tracks.eq_of_result? (h : c.Tracks s)
    (hs : ∀ a ∈ c.sources, ∀ b ∈ c.sources, a.1 = b.1 → a.2 = b.2) (hr : s.result? = some r) :
    s.unreadable = c.faults ∧ r = c.result := by
  obtain ⟨cancelled, hp, -⟩ := Schedule.of_result? hr
  refine ⟨?_, (Schedule.sound_of_reaches h.reaches).eq_of_result? hs hr⟩
  rw [h.unreadable, h.closed cancelled hp, List.take_length, faults]

end Checking
end CLint
