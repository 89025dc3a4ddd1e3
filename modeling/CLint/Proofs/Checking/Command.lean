import CLint.Command.Run
import CLint.Proofs.Checking.Paths
import CLint.Proofs.Checking.Stepwise
import CLint.Proofs.Described

namespace CLint

theorem forall₂_filterMap {α β : Type} (f : α → Option β) (as : List α) :
    List.Forall₂ (fun a b => f a = some b) (as.filter fun a => (f a).isSome) (as.filterMap f) := by
  induction as with
  | nil => exact .nil
  | cons a as ih =>
    cases hb : f a with
    | none => simpa [hb] using ih
    | some b => simpa [hb] using ih

namespace Threshold

variable {t : Threshold} {severity : Severity} {fs : List Finding}

-- The severities that are at or above a threshold.
def covered : Threshold → List Severity
  | error => [.error]
  | warning => [.warning, .error]
  | info => [.info, .warning, .error]
  | never => []

theorem mem_covered_iff :
    severity ∈ t.covered ↔ ∃ least ∈ t.rank?, ∃ rank ∈ severity.rank?, least ≤ rank := by
  cases t <;> cases severity <;> simp [covered, rank?, Severity.rank?]

theorem isReached_iff : t.isReached fs ↔ ∃ f ∈ fs, f.severity ∈ t.covered := by
  simp only [isReached, mem_covered_iff, Option.any_eq_true, List.any_eq_true, decide_eq_true_eq,
    Option.mem_def]
  grind

end Threshold

namespace CheckReport

variable {r : CheckReport} {t : Threshold}

theorem exitCode_le_two : r.exitCode t ≤ 2 := by
  rw [exitCode]
  split_ifs <;> omega

theorem exitCode_eq_two_iff : r.exitCode t = 2 ↔ r.unreadable ≠ [] := by
  rw [exitCode]
  split_ifs <;> simp [*]

theorem exitCode_eq_one_iff :
    r.exitCode t = 1 ↔ r.unreadable = [] ∧ t.isReached r.result.findings := by
  rw [exitCode]
  split_ifs <;> simp_all

end CheckReport

-- Is a result that of the given files? It consists of what is found in each file that can be read.
structure RunResult.Covers (r : RunResult) (t : Files) (settings : RuleSettings)
    (files : List Path) : Prop where
  findings : ∃ found : List (List Finding),
    List.Forall₂
      (fun p fs => ∃ bytes, t.read p = .ok bytes ∧
        Run.analyzeFile settings p.text (Command.sourceText bytes) = .ok fs)
      (files.filter t.canRead) found ∧
    r.findings = Finding.aggregate found.flatten
  filesAnalyzed : r.filesAnalyzed = (files.filter t.canRead).length
  cancelled : r.cancelled = false

-- Does an outcome tell the result for the given files? There is a complaint for each file that
-- cannot be read, and the exit code says whether there is any, or else whether a finding is severe
-- enough.
structure Outcome.Tells (out : Outcome) (t : Files) (files : List Path) (r : RunResult)
    (time : String) (form : OutputFormat) (least : Threshold) : Prop where
  output : out.output =
    (match form with
      | .human => Report.human r
      | .json => Report.machine r (files.map Path.text) time) ++ "\n"
  complaints :
    List.Forall₂
      (fun p line => ∃ fault, t.read p = .error fault ∧
        line = "error: cannot read " ++ p.text ++ ": " ++ fault.reason)
      (files.filter (!t.canRead ·)) out.complaints
  exitCode_le_two : out.exitCode ≤ 2
  exitCode_eq_two : out.exitCode = 2 ↔ ∃ p ∈ files, t.canRead p = false
  exitCode_eq_one : out.exitCode = 1 ↔
    (∀ p ∈ files, t.canRead p) ∧ ∃ f ∈ r.findings, f.severity ∈ least.covered

namespace Command

-- A check that is carried out: there are settings, all that is asked for is known, and all files
-- can have a name.
structure Accepts (t : Files) (o : CheckOptions) (s : Settings) (form : OutputFormat)
    (least : Threshold) (rules : List Rule) : Prop where
  settings : Settings.load t o.place.root o.place.file = .ok s
  format : Text.lower ((given o.format).getD s.format.name) = form.name
  failOn : Text.lower ((given o.failOn).getD s.failOn.name) = least.name
  jobs : 0 < o.jobs.getD s.jobs
  rules : Selection.select s.rules = .ok rules
  nameable : ∀ p ∈ t.discover (filterOf o s) o.paths, p.isNameable

variable {t : Files} {time word : String} {o : CheckOptions} {s : Settings} {form : OutputFormat}
  {least : Threshold} {rules : List Rule} {out : Outcome}

theorem loadSettings_eq_ok_iff {root : Path} {file : Option Path} :
    loadSettings t root file = .ok s ↔ Settings.load t root file = .ok s := by
  rw [loadSettings]
  split <;> simp [*]

theorem format_eq_ok_iff : format word = .ok form ↔ Text.lower word = form.name := by
  rw [format, ← Reading.choice?_eq_some_iff OutputFormat.mem_all OutputFormat.name_injective]
  split <;> simp [*]

theorem threshold_eq_ok_iff : threshold word = .ok least ↔ Text.lower word = least.name := by
  rw [threshold, ← Reading.choice?_eq_some_iff Threshold.mem_all Threshold.name_injective]
  split <;> simp [*]

end Command

namespace Checking

variable {c : Checking} {time : String} {form : OutputFormat} {least : Threshold}
  {r : CheckReport}

-- The run that a check makes.
def ofOptions (t : Files) (o : CheckOptions) (s : Settings) (rules : List Rule) : Checking where
  tree := t
  files := t.discover (Command.filterOf o s) o.paths
  rules := rules
  settings := s.rules
  jobs := o.jobs.getD s.jobs

def report (c : Checking) : CheckReport where
  files := c.files
  result := c.result
  unreadable := c.faults

def outcome (c : Checking) (time : String) (form : OutputFormat) (least : Threshold) : Outcome where
  output := c.report.output time form ++ "\n"
  complaints := c.faults.map CheckReport.complaint
  exitCode := c.report.exitCode least

theorem analyzeSources_eq (h : Selection.select c.settings = .ok c.rules) :
    Run.analyzeSources c.settings c.sources = .ok c.result := by
  rw [Run.analyzeSources, h]
  rfl

-- A path leads to one file only, and is given by one text only.
theorem text_eq_of_path_eq (h : ∀ p ∈ c.files, p.IsNormal) :
    ∀ a ∈ c.sources, ∀ b ∈ c.sources, a.1 = b.1 → a.2 = b.2 := by
  intro a ha b hb hpath
  obtain ⟨p, hp, ha⟩ := List.mem_filterMap.mp ha
  obtain ⟨q, hq, hb⟩ := List.mem_filterMap.mp hb
  obtain ⟨bytes, hread, rfl⟩ := Command.source?_eq_some_iff.mp ha
  obtain ⟨bytes', hread', rfl⟩ := Command.source?_eq_some_iff.mp hb
  obtain rfl : p = q := ((h p hp).text_inj (h q hq)).mp hpath
  cases hread.symm.trans hread'
  rfl

theorem result_covers (h : Selection.select c.settings = .ok c.rules) :
    c.result.Covers c.tree c.settings c.files := by
  have hsources := forall₂_filterMap (Command.source? c.tree) c.files
  simp only [Command.isSome_source?] at hsources
  constructor
  case findings =>
    refine ⟨c.sources.map fun s => Run.checkFile c.rules c.settings s.1 s.2, ?_, ?_⟩
    · refine List.forall₂_map_right_iff.mpr (hsources.imp fun p source hsource => ?_)
      obtain ⟨bytes, hread, rfl⟩ := Command.source?_eq_some_iff.mp hsource
      refine ⟨bytes, hread, ?_⟩
      rw [Run.analyzeFile, h]
      rfl
    · rw [result, List.flatMap_def]
  case filesAnalyzed => exact hsources.length_eq.symm
  case cancelled => rfl

theorem faults_eq_nil_iff : c.faults = [] ↔ ∀ p ∈ c.files, c.tree.canRead p := by
  simp only [faults, List.filterMap_eq_nil_iff, ← Option.isNone_iff_eq_none, ← Option.not_isSome,
    Command.isSome_fault?, Bool.not_not]

theorem outcome_tells :
    (c.outcome time form least).Tells c.tree c.files c.result time form least := by
  have hfaults := forall₂_filterMap (Command.fault? c.tree) c.files
  simp only [Command.isSome_fault?] at hfaults
  constructor
  case output => cases form <;> rfl
  case complaints =>
    refine List.forall₂_map_right_iff.mpr (hfaults.imp fun p u hu => ?_)
    obtain ⟨fault, hread, rfl⟩ := Command.fault?_eq_some_iff.mp hu
    exact ⟨fault, hread, rfl⟩
  case exitCode_le_two => exact CheckReport.exitCode_le_two
  case exitCode_eq_two =>
    refine CheckReport.exitCode_eq_two_iff.trans ((not_congr faults_eq_nil_iff).trans ?_)
    simp
  case exitCode_eq_one =>
    exact CheckReport.exitCode_eq_one_iff.trans (and_congr faults_eq_nil_iff
      Threshold.isReached_iff)

end Checking

namespace Command

variable {t : Files} {time : String} {o : CheckOptions} {s : Settings} {form : OutputFormat}
  {least : Threshold} {rules : List Rule} {out : Outcome}

theorem checkFiles_eq_ok_iff {files : List Path} {r : CheckReport} :
    checkFiles t s files = .ok r ↔
      (∀ p ∈ files, p.isNameable) ∧ ∃ rules, Selection.select s.rules = .ok rules ∧
        r = Checking.report ⟨t, files, rules, s.rules, s.jobs⟩ := by
  have hfind : files.find? (!·.isNameable) = none ↔ ∀ p ∈ files, p.isNameable := by simp
  rw [checkFiles, bind_eq_ok_iff]
  constructor
  case mp =>
    rintro ⟨result, hresult, h⟩
    rw [selected_eq_ok_iff] at hresult
    obtain ⟨rules, hrules, -⟩ := bind_eq_ok_iff.mp hresult
    have hc := Checking.analyzeSources_eq (c := ⟨t, files, rules, s.rules, s.jobs⟩) hrules
    cases hresult.symm.trans hc
    cases hfile : files.find? (!·.isNameable) with
    | some p =>
      rw [hfile] at h
      cases h
    | none =>
      rw [hfile] at h
      cases h
      exact ⟨hfind.mp hfile, rules, hrules, rfl⟩
  case mpr =>
    rintro ⟨hname, rules, hrules, rfl⟩
    have hc := Checking.analyzeSources_eq (c := ⟨t, files, rules, s.rules, s.jobs⟩) hrules
    refine ⟨_, selected_eq_ok_iff.mpr hc, ?_⟩
    rw [hfind.mpr hname]
    rfl

-- What is unknown is told of before a file is asked for.
theorem checkFiles_of_unknown {files : List Path} {e : SelectionError}
    (h : Selection.select s.rules = .error e) : checkFiles t s files = .error (.selection e) := by
  rw [checkFiles, Run.analyzeSources, h]
  rfl

-- The outcome of a check that is carried out.
theorem runCheck_eq_ok_iff : runCheck t time o = .ok out ↔
    ∃ s form least rules, Accepts t o s form least rules ∧
      out = (Checking.ofOptions t o s rules).outcome time form least := by
  simp only [runCheck, bind_eq_ok_iff, loadSettings_eq_ok_iff, format_eq_ok_iff,
    threshold_eq_ok_iff]
  constructor
  case mp =>
    rintro ⟨s, hs, form, hform, least, hleast, h⟩
    split at h
    case isTrue => cases h
    case isFalse hjobs =>
      obtain ⟨r, hr, h⟩ := bind_eq_ok_iff.mp h
      obtain ⟨hname, rules, hrules, rfl⟩ := checkFiles_eq_ok_iff.mp hr
      cases h
      exact ⟨s, form, least, rules, ⟨hs, hform, hleast, Int.lt_of_not_ge hjobs, hrules, hname⟩, rfl⟩
  case mpr =>
    rintro ⟨s, form, least, rules, h, rfl⟩
    refine ⟨s, h.settings, form, h.format, least, h.failOn, ?_⟩
    rw [if_neg (Int.not_le.mpr h.jobs)]
    exact bind_eq_ok_iff.mpr
      ⟨_, checkFiles_eq_ok_iff.mpr ⟨h.nameable, rules, h.rules, rfl⟩, rfl⟩

theorem accepts_jobs (h : Accepts t o s form least rules) {n : Int} (hn : 0 < n) :
    Accepts t { o with jobs := some n } s form least rules :=
  { h with jobs := hn }

-- A check is carried out just if there are settings, all that is asked for is known, and all files
-- can have a name. It tells what is found in all files that can be read, and complains of the
-- others. This does not depend on the number of jobs: a run in which several of them share the
-- work, and each file is only read when it is asked for, ends with the same findings and
-- complaints, whichever steps it takes. A text must not stand for two files then, as it could if
-- there were slashes in their names.
theorem run_check_tells (t : Files) (time : String) (words : List String) (o : CheckOptions)
    (ho : read words = .ok (.check o)) :
    ((∃ out, run t time (.check o) = .ok out) ↔
      ∃ s form least rules, Accepts t o s form least rules) ∧
    ∀ s form least rules, Accepts t o s form least rules →
      ∃ r out,
        r.Covers t s.rules (t.discover (filterOf o s) o.paths) ∧
        out.Tells t (t.discover (filterOf o s) o.paths) r time form least ∧
        run t time (.check o) = .ok out ∧
        (∀ n, 0 < n → run t time (.check { o with jobs := some n }) = .ok out) ∧
        (t.IsProper → ∀ jobs, let c : Checking := { Checking.ofOptions t o s rules with jobs }
          (WellFounded fun b a => c.Step a b) ∧
          ∀ a, c.Reaches a →
            (∃ b answer, Relation.ReflTransGen c.Step a b ∧ b.result? = some answer) ∧
            ∀ answer, a.result? = some answer →
              answer = r ∧ a.unreadable.map CheckReport.complaint = out.complaints) := by
  constructor
  case left =>
    simp only [run, runCheck_eq_ok_iff]
    exact ⟨fun ⟨_, s, form, least, rules, h, _⟩ => ⟨s, form, least, rules, h⟩,
      fun ⟨s, form, least, rules, h⟩ => ⟨_, s, form, least, rules, h, rfl⟩⟩
  case right =>
    intro s form least rules h
    refine ⟨_, _, Checking.result_covers (c := .ofOptions t o s rules) h.rules,
      Checking.outcome_tells (c := .ofOptions t o s rules), ?_, fun n hn => ?_, fun ht jobs => ?_⟩
    · exact runCheck_eq_ok_iff.mpr ⟨s, form, least, rules, h, rfl⟩
    · exact runCheck_eq_ok_iff.mpr ⟨s, form, least, rules, accepts_jobs h hn, rfl⟩
    · have hnormal := ht.discover (f := filterOf o s) (isNormal_of_read ho)
      refine ⟨Subrelation.wf Checking.remaining_lt (measure (Checking.remaining _)).wf,
        fun a ha => ?_⟩
      have ha := Checking.tracks_of_reaches ha
      refine ⟨ha.exists_result, fun answer hanswer => ?_⟩
      obtain ⟨hfaults, hresult⟩ := ha.eq_of_result? (Checking.text_eq_of_path_eq hnormal) hanswer
      exact ⟨hresult, congrArg _ hfaults⟩

-- Two jobs check a directory and a file. The file is not there, and one of those in the directory
-- may not be opened.
theorem run_check_tells_locked :
    let t : Files := {
      nodes := [
        (["work", "src", "c.c"], .file [0x7b]), (["work", "src", "notes.txt"], .file []),
        (["work", "src", "b.c"], .locked "Permission denied"), (["work", "src", "a.c"], .file [])]
      here := ["work"] }
    let words := ["check", "--jobs", "2", "--fail-on", "never", "src", "gone.c"]
    let o : CheckOptions := {
      paths := [⟨"", ["src"]⟩, ⟨"", ["gone.c"]⟩], failOn := some "never", jobs := some 2 }
    t.IsProper ∧ read words = .ok (.check o) ∧
    ∃ out, run t "" (.check o) = .ok out ∧ out.exitCode = 2 ∧
      out.complaints = ["error: cannot read src/b.c: Permission denied",
        "error: cannot read gone.c: No such file or directory"] ∧
      ∃ rules b answer, Checking.Reaches (.ofOptions t o {} rules) b ∧ b.result? = some answer ∧
        answer.filesAnalyzed = 2 ∧ b.unreadable.map CheckReport.complaint = out.complaints := by
  intro t words o
  have ht : t.IsProper := by decide +kernel
  have ho : read words = .ok (.check o) := by decide +kernel
  obtain ⟨rules, hrules⟩ : ∃ rules, Selection.select ({} : Settings).rules = .ok rules := ⟨_, rfl⟩
  let locked : Path := ⟨"", ["src", "b.c"]⟩
  let gone : Path := ⟨"", ["gone.c"]⟩
  let files : List Path := [⟨"", ["src", "a.c"]⟩, locked, ⟨"", ["src", "c.c"]⟩, gone]
  have hfiles : t.discover (filterOf o {}) o.paths = files := by
    have hsrc : t.find ⟨"", ["src"]⟩ = .ok (["work", "src"], .directory) := by decide +kernel
    have hgone : t.find gone = .error .missing := by decide +kernel
    have hways : t.nodes.filterMap (Files.sourceBelow? ["work", "src"]) =
        [["c.c"], ["b.c"], ["a.c"]] := by decide +kernel
    have hbelow : t.sourcesBelow ["work", "src"] = [["a.c"], ["b.c"], ["c.c"]] := by
      rw [Files.sourcesBelow, hways]
      cbv
    simp [Files.discover, Files.expand, hsrc, hgone, hbelow, o, filterOf, PathFilter.select,
      PathFilter.keeps, PathFilter.matchesAny, Path.extend, files, locked, gone]
  have haccepts : Accepts t o {} .human .never rules := {
    settings := by decide +kernel
    format := by decide +kernel
    failOn := by decide +kernel
    jobs := by decide
    rules := hrules
    nameable := by
      rw [hfiles]
      decide +kernel }
  obtain ⟨r, out, hr, hout, hrun, -, hjobs⟩ :=
    (run_check_tells t "" words o ho).2 {} .human .never rules haccepts
  rw [hfiles] at hr hout
  obtain ⟨b, answer, hb, hanswer⟩ := ((hjobs ht 2).2 {} .refl).1
  obtain ⟨hsame, hcomplaints⟩ := ((hjobs ht 2).2 b hb).2 answer hanswer
  have hcount : answer.filesAnalyzed = 2 := by
    rw [hsame, hr.filesAnalyzed]
    decide +kernel
  have hlines : out.complaints = ["error: cannot read src/b.c: Permission denied",
      "error: cannot read gone.c: No such file or directory"] := by
    have hunreadable : files.filter (!t.canRead ·) = [locked, gone] := by decide +kernel
    have hlocked : t.read locked = .error (.locked "Permission denied") := by decide +kernel
    have hgone : t.read gone = .error .missing := by decide +kernel
    have h := hout.complaints
    rw [hunreadable] at h
    simp only [List.forall₂_cons_left_iff, List.forall₂_nil_left_iff, hlocked, hgone] at h
    obtain ⟨_, _, ⟨_, ⟨⟩, rfl⟩, ⟨_, _, ⟨_, ⟨⟩, rfl⟩, rfl, rfl⟩, h⟩ := h
    rw [h]
    decide +kernel
  refine ⟨ht, ho, out, hrun, hout.exitCode_eq_two.mpr ⟨locked, ?_, ?_⟩, hlines, rules, b, answer,
    hb, hanswer, hcount, hcomplaints⟩
  · decide +kernel
  · decide +kernel

end Command
end CLint
