import CLint.Proofs.Aggregation
import CLint.Run
import Mathlib.Logic.Relation

namespace CLint

-- A run that checks several files at the same time. A file is known by its number among the
-- sources, and the run is cancelled as soon as the source `cancelAt` or a later one is read.
structure Schedule where
  rules : List Rule
  settings : RuleSettings
  sources : List (String × String)
  jobs : Int
  cancelAt : Option Nat

namespace Schedule

-- How many analyses may be pending at a time.
def workers (c : Schedule) : Int :=
  max 1 c.jobs

-- Is the run found to be cancelled when the source of the given number is read?
def cancels (c : Schedule) (n : Nat) : Bool :=
  c.cancelAt.any (· ≤ n)

-- What the analysis of a source finds.
def analysis (c : Schedule) (n : Nat) : List Finding :=
  (c.sources[n]?.map fun (path, text) => Run.checkFile c.rules c.settings path text).getD []

-- A run reads one source after another, and holds each of them until it can be dispatched. When
-- no more is read, it waits for what is still pending.
inductive Phase
  | reading | holding | closing (cancelled : Bool)
  deriving DecidableEq, Repr

-- The state of a run: how many sources were dispatched, whose analyses are pending, and whose
-- findings were collected, in this order.
structure State where
  phase : Phase := .reading
  dispatched : Nat := 0
  pending : List Nat := []
  collected : List Nat := []
  store : FindingStore := {}
  analyzed : Nat := 0

namespace State

-- The findings of the sources `done` are submitted, while `left` are still pending.
def collect (c : Schedule) (s : State) (done left : List Nat) : State :=
  { s with
    pending := left
    collected := s.collected ++ done
    store := done.foldl (fun store n => store.submit (c.analysis n)) s.store
    analyzed := s.analyzed + done.length }

def dispatch (s : State) : State :=
  { s with phase := .reading, dispatched := s.dispatched + 1, pending := s.dispatched :: s.pending }

-- What a run that has ended answers.
def result? (s : State) : Option RunResult :=
  match s.phase, s.pending with
  | .closing cancelled, [] => some ⟨s.store.findings, s.analyzed, cancelled⟩
  | _, _ => none

end State

-- A step of a run. Which of the pending analyses are finished first, and in which order their
-- findings are collected, is left open.
inductive Step (c : Schedule) (s : State) : State → Prop
  | read (hp : s.phase = .reading) (hn : s.dispatched < c.sources.length)
      (hc : c.cancels s.dispatched = false) : Step c s { s with phase := .holding }
  | cancel (hp : s.phase = .reading) (hn : s.dispatched < c.sources.length)
      (hc : c.cancels s.dispatched) : Step c s { s with phase := .closing true }
  | exhaust (hp : s.phase = .reading) (hn : c.sources.length ≤ s.dispatched) :
      Step c s { s with phase := .closing false }
  | wait (done left : List Nat) (hp : s.phase = .holding) (hw : c.workers ≤ s.pending.length)
      (hd : done ≠ []) (hl : (done ++ left).Perm s.pending) : Step c s (s.collect c done left)
  | dispatch (hp : s.phase = .holding) (hn : s.dispatched < c.sources.length)
      (hw : s.pending.length < c.workers) : Step c s s.dispatch
  | drain {cancelled : Bool} (n : Nat) (left : List Nat) (hp : s.phase = .closing cancelled)
      (hl : (n :: left).Perm s.pending) : Step c s (s.collect c [n] left)

-- The states that a run can get into.
def Reaches (c : Schedule) (s : State) : Prop :=
  Relation.ReflTransGen c.Step {} s

-- What is true of a run at any time: there are no more pending analyses than workers, and each
-- source that was dispatched is either pending or was collected, once.
structure Sound (c : Schedule) (s : State) : Prop where
  bounded : s.pending.length ≤ c.workers
  accounted : (s.collected ++ s.pending).Perm (List.range s.dispatched)
  stored : s.store.submitted = s.collected.flatMap c.analysis
  counted : s.analyzed = s.collected.length
  dispatched_le : s.dispatched ≤ c.sources.length
  uncancelled : ∀ n < s.dispatched, c.cancels n = false
  held : s.phase = .holding → s.dispatched < c.sources.length ∧ c.cancels s.dispatched = false
  cancelled : s.phase = .closing true →
    s.dispatched < c.sources.length ∧ c.cancels s.dispatched
  exhausted : s.phase = .closing false → s.dispatched = c.sources.length

variable {c : Schedule} {s t : State}

theorem submitted_foldl (c : Schedule) (store : FindingStore) (ns : List Nat) :
    (ns.foldl (fun store n => store.submit (c.analysis n)) store).submitted =
      store.submitted ++ ns.flatMap c.analysis := by
  induction ns generalizing store with
  | nil => simp
  | cons n ns ih =>
    rw [List.foldl_cons, ih, FindingStore.submit, List.flatMap_cons, List.append_assoc]

theorem sound_start (c : Schedule) : c.Sound {} where
  bounded := by simp only [List.length_nil, workers]; omega
  accounted := .refl _
  stored := rfl
  counted := rfl
  dispatched_le := Nat.zero_le _
  uncancelled := nofun
  held := nofun
  cancelled := nofun
  exhausted := nofun

-- To collect finished analyses, of which there were enough, changes nothing else.
theorem Sound.collect (h : c.Sound s) {done left : List Nat}
    (hl : (done ++ left).Perm s.pending) : c.Sound (s.collect c done left) := by
  have hlength := hl.length_eq
  rw [List.length_append] at hlength
  constructor
  case bounded =>
    have := h.bounded
    simp only [State.collect]
    omega
  case accounted =>
    refine .trans ?_ h.accounted
    rw [State.collect, List.append_assoc]
    exact hl.append_left s.collected
  case stored => simp [State.collect, submitted_foldl, h.stored]
  case counted => simp [State.collect, h.counted]
  case dispatched_le => exact h.dispatched_le
  case uncancelled => exact h.uncancelled
  case held => exact h.held
  case cancelled => exact h.cancelled
  case exhausted => exact h.exhausted

theorem Sound.dispatch (h : c.Sound s) (hp : s.phase = .holding)
    (hw : s.pending.length < c.workers) : c.Sound s.dispatch where
  bounded := by
    simp only [State.dispatch, List.length_cons]
    omega
  accounted := by
    rw [State.dispatch, List.range_succ]
    exact List.perm_middle.trans ((h.accounted.cons _).trans (List.perm_append_singleton ..).symm)
  stored := h.stored
  counted := h.counted
  dispatched_le := (h.held hp).1
  uncancelled n hn := by
    rcases Nat.lt_succ_iff_lt_or_eq.mp hn with hn | rfl
    · exact h.uncancelled n hn
    · exact (h.held hp).2
  held := nofun
  cancelled := nofun
  exhausted := nofun

-- Each step keeps a run sound.
theorem Sound.step (h : c.Sound s) (hs : c.Step s t) : c.Sound t := by
  cases hs with
  | read hp hn hc =>
    exact { h with held := fun _ => ⟨hn, hc⟩, cancelled := nofun, exhausted := nofun }
  | cancel hp hn hc =>
    exact { h with held := nofun, cancelled := fun _ => ⟨hn, hc⟩, exhausted := nofun }
  | exhaust hp hn =>
    exact { h with
      held := nofun
      cancelled := nofun
      exhausted := fun _ => Nat.le_antisymm h.dispatched_le hn }
  | wait done left hp hw hd hl => exact h.collect hl
  | dispatch hp hn hw => exact h.dispatch hp hw
  | drain n left hp hl => exact h.collect hl

theorem sound_of_reaches (h : c.Reaches s) : c.Sound s := by
  induction h with
  | refl => exact sound_start c
  | tail _ hs ih => exact ih.step hs

-- What a run still has to do. A source that is not dispatched is to be read, dispatched and
-- collected.
def remaining (c : Schedule) (s : State) : Nat :=
  4 * (c.sources.length - s.dispatched) + 2 * s.pending.length +
    match s.phase with
    | .reading => 2
    | .holding => 1
    | .closing _ => 0

theorem remaining_lt (h : c.Step s t) : c.remaining t < c.remaining s := by
  have hcollect : ∀ {done left : List Nat}, done ≠ [] → (done ++ left).Perm s.pending →
      left.length < s.pending.length := fun hd hl => by
    have hlength := hl.length_eq
    rw [List.length_append] at hlength
    have := List.length_pos_iff.mpr hd
    omega
  cases h with
  | read hp hn hc | cancel hp hn hc | exhaust hp hn =>
    simp only [remaining, hp]
    omega
  | wait done left hp hw hd hl =>
    have := hcollect hd hl
    simp only [remaining, State.collect]
    omega
  | dispatch hp hn hw =>
    simp only [remaining, State.dispatch, hp, List.length_cons]
    omega
  | drain n left hp hl =>
    have := hcollect (List.cons_ne_nil _ []) hl
    simp only [remaining, State.collect]
    omega

-- A run goes on until it answers.
theorem Sound.exists_step (h : c.Sound s) (hr : s.result? = none) : ∃ t, c.Step s t := by
  cases hp : s.phase with
  | reading =>
    rcases Nat.lt_or_ge s.dispatched c.sources.length with hn | hn
    · cases hc : c.cancels s.dispatched with
      | false => exact ⟨_, .read hp hn hc⟩
      | true => exact ⟨_, .cancel hp hn hc⟩
    · exact ⟨_, .exhaust hp hn⟩
  | holding =>
    rcases Int.lt_or_le s.pending.length c.workers with hw | hw
    · exact ⟨_, .dispatch hp (h.held hp).1 hw⟩
    · refine ⟨_, .wait s.pending [] hp hw ?_ (.of_eq (List.append_nil s.pending))⟩
      intro hnil
      simp only [hnil, List.length_nil, workers] at hw
      omega
  | closing cancelled =>
    cases hl : s.pending with
    | nil => simp [State.result?, hp, hl] at hr
    | cons n left => exact ⟨_, .drain n left hp (.of_eq hl.symm)⟩

-- By induction on what remains to be done: any run can be brought to its end.
theorem Sound.exists_result {s : State} (h : c.Sound s) :
    ∃ t r, Relation.ReflTransGen c.Step s t ∧ t.result? = some r := by
  cases hr : s.result? with
  | some r => exact ⟨s, r, .refl, hr⟩
  | none =>
    obtain ⟨t, hs⟩ := h.exists_step hr
    have := remaining_lt hs
    obtain ⟨u, r, hu, hr⟩ := (h.step hs).exists_result
    exact ⟨u, r, .head hs hu, hr⟩
termination_by c.remaining s

end Schedule

namespace Run

variable {rules : List Rule} {settings : RuleSettings} {path text : String} {f : Finding}

-- What is found in a file is said to be in this file, whether by a rule or by its failure.
theorem path_of_mem_ruleFindings {o : Outline} {r : Rule} (h : f ∈ ruleFindings settings o r) :
    f.path = o.source.path := by
  rw [ruleFindings, Rule.findings] at h
  cases hc : r.check settings o with
  | ok remarks =>
    rw [hc] at h
    obtain ⟨m, _, rfl⟩ := List.mem_map.mp h
    rfl
  | error failure =>
    rw [hc] at h
    exact List.mem_singleton.mp h ▸ rfl

theorem path_of_mem_checkFile (h : f ∈ checkFile rules settings path text) : f.path = path := by
  obtain ⟨r, _, hf⟩ := List.mem_flatMap.mp (Finding.mem_of_mem_aggregate h)
  exact path_of_mem_ruleFindings hf

-- Files with the same path have the same findings, so that duplicates do not differ.
theorem eq_of_same_of_mem_flatMap {sources : List (String × String)}
    (hs : ∀ a ∈ sources, ∀ b ∈ sources, a.1 = b.1 → a.2 = b.2) {f g : Finding}
    (hf : f ∈ sources.flatMap fun (path, text) => checkFile rules settings path text)
    (hg : g ∈ sources.flatMap fun (path, text) => checkFile rules settings path text)
    (h : Finding.same f g) : f = g := by
  obtain ⟨⟨path, text⟩, ha, hf⟩ := List.mem_flatMap.mp hf
  obtain ⟨⟨path', text'⟩, hb, hg⟩ := List.mem_flatMap.mp hg
  have hpath : path = path' := by
    rw [← path_of_mem_checkFile hf, ← path_of_mem_checkFile hg]
    exact Finding.path_eq_of_same h
  subst hpath
  obtain rfl : text = text' := hs _ ha _ hb rfl
  exact Finding.eq_of_same_of_mem_aggregate hf hg h

end Run

namespace Schedule

variable {c : Schedule} {s : State} {r : RunResult}

theorem flatMap_range_analysis (c : Schedule) {n : Nat} (h : n ≤ c.sources.length) :
    (List.range n).flatMap c.analysis =
      (c.sources.take n).flatMap fun (path, text) =>
        Run.checkFile c.rules c.settings path text := by
  induction n with
  | zero => rfl
  | succ n ih =>
    have hn : c.sources[n]? = some c.sources[n] := List.getElem?_eq_getElem h
    rw [List.range_succ, List.flatMap_append, ih (Nat.le_of_succ_le h), List.take_add_one, hn,
      List.flatMap_append]
    simp [analysis, hn]

theorem of_result? (h : s.result? = some r) :
    ∃ cancelled, s.phase = .closing cancelled ∧ s.pending = [] ∧
      r = ⟨s.store.findings, s.analyzed, cancelled⟩ := by
  unfold State.result? at h
  split at h
  case h_1 cancelled hp hl => exact ⟨cancelled, hp, hl, (Option.some.inj h).symm⟩
  case h_2 => cases h

-- When no more is read, those sources were dispatched that come before the cancellation.
theorem Sound.take_dispatched (h : c.Sound s) {cancelled : Bool}
    (hp : s.phase = .closing cancelled) :
    c.sources.take s.dispatched = Run.dispatched c.cancelAt c.sources ∧
      cancelled = c.cancelAt.any (· < c.sources.length) := by
  cases hk : c.cancelAt with
  | none =>
    have hc : ∀ n, c.cancels n = false := fun n => by rw [cancels, hk]; rfl
    cases cancelled with
    | true => exact absurd ((h.cancelled hp).2.symm.trans (hc _)) (by decide)
    | false => exact ⟨(h.exhausted hp) ▸ List.take_length, rfl⟩
  | some k =>
    have hc : ∀ n, c.cancels n = decide (k ≤ n) := fun n => by rw [cancels, hk]; rfl
    have hle : s.dispatched ≤ k := by
      by_contra hlt
      have := h.uncancelled k (Nat.lt_of_not_le hlt)
      simp [hc] at this
    cases cancelled with
    | true =>
      obtain ⟨hlt, hcut⟩ := h.cancelled hp
      have heq : s.dispatched = k := Nat.le_antisymm hle (of_decide_eq_true (hc _ ▸ hcut))
      exact ⟨heq ▸ rfl, (decide_eq_true (heq ▸ hlt)).symm⟩
    | false =>
      have heq := h.exhausted hp
      refine ⟨?_, (decide_eq_false (Nat.not_lt.mpr (heq ▸ hle))).symm⟩
      rw [heq, List.take_length, Run.dispatched, List.take_of_length_le (heq ▸ hle)]

-- A run is cancelled if there is a source left to be read when the time has come.
theorem any_lt_length_iff (c : Schedule) :
    c.cancelAt.any (· < c.sources.length) ↔ ∃ n < c.sources.length, c.cancels n := by
  simp only [cancels, Option.any_eq_true, decide_eq_true_eq]
  constructor
  · rintro ⟨k, hk, hlt⟩
    exact ⟨k, hlt, k, hk, Nat.le_refl k⟩
  · rintro ⟨n, hn, k, hk, hle⟩
    exact ⟨k, hk, Nat.lt_of_le_of_lt hle hn⟩

-- The findings of the sources that were dispatched, in whatever order they were collected.
theorem Sound.aggregate_submitted (h : c.Sound s)
    (hs : ∀ a ∈ c.sources, ∀ b ∈ c.sources, a.1 = b.1 → a.2 = b.2)
    (hc : s.collected.Perm (List.range s.dispatched)) :
    Finding.aggregate s.store.submitted =
      Finding.aggregate ((c.sources.take s.dispatched).flatMap fun (path, text) =>
        Run.checkFile c.rules c.settings path text) := by
  have hperm := hc.flatMap_right c.analysis
  rw [← h.stored, flatMap_range_analysis c h.dispatched_le] at hperm
  refine Finding.aggregate_eq_of_perm hperm fun f hf g hg => ?_
  refine Run.eq_of_same_of_mem_flatMap (fun a ha b hb => ?_) (hperm.mem_iff.mp hf)
    (hperm.mem_iff.mp hg)
  exact hs a (List.mem_of_mem_take ha) b (List.mem_of_mem_take hb)

-- A run does not depend on its schedule. It ends after finitely many steps whichever it takes,
-- and can always go on until then; there are never more pending analyses than workers; the
-- findings of each dispatched source are submitted once; and the answer is that of a run that
-- checks the files one after another.
theorem analyzeSources_of_reaches (c : Schedule)
    (hr : Selection.select c.settings = .ok c.rules)
    (hs : ∀ a ∈ c.sources, ∀ b ∈ c.sources, a.1 = b.1 → a.2 = b.2) :
    (WellFounded fun t s => c.Step s t) ∧
    ∀ s, c.Reaches s →
      s.pending.length ≤ max 1 c.jobs ∧
      (s.collected ++ s.pending).Perm (List.range s.dispatched) ∧
      s.store.submitted = s.collected.flatMap c.analysis ∧
      (∃ t r, Relation.ReflTransGen c.Step s t ∧ t.result? = some r) ∧
      ∀ r, s.result? = some r →
        s.collected.Perm (List.range s.dispatched) ∧
        c.sources.take s.dispatched = Run.dispatched c.cancelAt c.sources ∧
        r.filesAnalyzed = s.dispatched ∧
        (r.cancelled ↔ ∃ n < c.sources.length, c.cancels n) ∧
        r.findings = Finding.aggregate ((Run.dispatched c.cancelAt c.sources).flatMap
          fun (path, text) => Run.checkFile c.rules c.settings path text) ∧
        Run.analyzeSources c.settings c.sources c.cancelAt = .ok r := by
  refine ⟨Subrelation.wf remaining_lt (measure c.remaining).wf, fun s h => ?_⟩
  have h := sound_of_reaches h
  refine ⟨h.bounded, h.accounted, h.stored, h.exists_result, fun r hres => ?_⟩
  obtain ⟨cancelled, hp, hl, rfl⟩ := of_result? hres
  obtain ⟨htake, hcancelled⟩ := h.take_dispatched hp
  have hcollected : s.collected.Perm (List.range s.dispatched) := by
    simpa only [hl, List.append_nil] using h.accounted
  have hcount : s.analyzed = s.dispatched := by
    rw [h.counted, hcollected.length_eq, List.length_range]
  have hlength : s.dispatched = (Run.dispatched c.cancelAt c.sources).length := by
    rw [← htake, List.length_take_of_le h.dispatched_le]
  have hfindings := htake ▸ h.aggregate_submitted hs hcollected
  refine ⟨hcollected, htake, hcount, ?_, hfindings, ?_⟩
  · exact hcancelled ▸ any_lt_length_iff c
  · rw [Run.analyzeSources, hr, FindingStore.findings, hfindings, hcount, hlength, hcancelled]
    rfl

-- Two workers check three sources, and the second analysis is finished before the first one.
theorem analyzeSources_of_reaches_outOfOrder :
    let c : Schedule := {
      rules := [Rule.unterminatedBlock]
      settings := { enabledRules := some ["unterminated-block"] }
      sources := [("a.c", "\x7b"), ("b.c", "\x7d"), ("a.c", "\x7b")]
      jobs := 2
      cancelAt := some 3 }
    ∃ s r, c.Reaches s ∧ s.collected = [1, 2, 0] ∧ s.result? = some r ∧ r.filesAnalyzed = 3 ∧
      r.cancelled = false ∧ Run.analyzeSources c.settings c.sources c.cancelAt = .ok r := by
  intro c
  have h0 : c.Reaches _ := .tail .refl (.read rfl (by decide) rfl)
  have h1 := h0.tail (.dispatch rfl (by decide) (by decide))
  have h2 := h1.tail (.read rfl (by decide) rfl)
  have h3 := h2.tail (.dispatch rfl (by decide) (by decide))
  have h4 := h3.tail (.read rfl (by decide) rfl)
  have h5 := h4.tail (.wait [1] [0] rfl (by decide) (by decide) (by decide))
  have h6 := h5.tail (.dispatch rfl (by decide) (by decide))
  have h7 := h6.tail (.exhaust rfl (by decide))
  have h8 := h7.tail (.drain 2 [0] rfl (by decide))
  have h9 := h8.tail (.drain 0 [] rfl (by decide))
  have hc := analyzeSources_of_reaches c rfl (by decide)
  obtain ⟨_, _, hcount, hcancel, _, heq⟩ := (hc.2 _ h9).2.2.2.2 _ rfl
  exact ⟨_, _, h9, rfl, rfl, hcount, rfl, heq⟩

end Schedule
end CLint
