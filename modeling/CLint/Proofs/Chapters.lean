import CLint.Proofs.Canonical
import CLint.Report.Human
import Mathlib

namespace CLint

namespace Finding

variable {a b f : Finding} {fs : List Finding} {path : String}

theorem path_le_of_order_eq_lt (h : order a b = .lt) : a.path ≤ b.path := by
  rw [order_eq_lt_iff, key, key, Prod.Lex.toLex_lt_toLex] at h
  rcases h with h | ⟨h, -⟩
  · exact le_of_lt h
  · exact le_of_eq h

-- No file is lost with the duplicates.
theorem exists_mem_aggregate_path_iff :
    (∃ f ∈ aggregate fs, f.path = path) ↔ ∃ f ∈ fs, f.path = path := by
  constructor
  case mp => exact fun ⟨f, hf, hpath⟩ => ⟨f, mem_of_mem_aggregate hf, hpath⟩
  case mpr =>
    rintro ⟨f, hf, rfl⟩
    have hfound : ((aggregate fs).find? (same f)).isSome := by
      rw [find?_aggregate]
      exact List.find?_isSome.mpr ⟨f, hf, same_self f⟩
    obtain ⟨g, hg⟩ := Option.isSome_iff_exists.mp hfound
    exact ⟨g, List.mem_of_find?_eq_some hg, (path_eq_of_same (List.find?_some hg)).symm⟩

theorem aggregate_eq_nil_iff : aggregate fs = [] ↔ fs = [] := by
  constructor
  case mp =>
    refine fun h => List.eq_nil_iff_forall_not_mem.mpr fun f hf => ?_
    obtain ⟨g, hg, -⟩ := exists_mem_aggregate_path_iff.mpr ⟨f, hf, rfl⟩
    exact List.not_mem_nil (h ▸ hg)
  case mpr =>
    rintro rfl
    rw [aggregate, List.mergeSort_nil, dropRepeats]

end Finding

namespace Report

variable {f : Finding} {fs : List Finding} {path : String}

-- What is said about a finding. How to mend it is only said if there is something to say.
def entry (f : Finding) : List Line :=
  .finding f :: ((f.suggestion.filter (· ≠ "")).map Line.fix).toList

-- What is said about a file: its heading, and below it the findings in it, in their order.
def chapter (fs : List Finding) (path : String) : List Line :=
  .heading path :: (fs.filter (·.path = path)).flatMap entry

theorem findingLines_eq_entry (f : Finding) : findingLines f = entry f := by
  rw [findingLines, entry]
  cases f.suggestion with
  | none => rfl
  | some s =>
    dsimp only
    split
    case isTrue h => simp [h]
    case isFalse h => simp [h, Option.filter]

theorem chapter_cons_self (f : Finding) (fs : List Finding) :
    chapter (f :: fs) f.path =
      .heading f.path :: (entry f ++ (fs.filter (·.path = f.path)).flatMap entry) := by
  rw [chapter, List.filter_cons_of_pos (by simp), List.flatMap_cons]

theorem chapter_cons_of_ne (h : f.path ≠ path) : chapter (f :: fs) path = chapter fs path := by
  rw [chapter, chapter, List.filter_cons_of_neg (by simpa using h)]

-- By induction on the findings, which are sorted by their files: what is still missing of the file
-- that was begun comes first, and then the other files, each under its heading.
theorem exists_groupedLines_eq (hs : fs.Pairwise fun a b => a.path ≤ b.path)
    (current : Option String) (hc : ∀ path ∈ current, ∀ f ∈ fs, path ≤ f.path) :
    ∃ paths : List String, paths.Pairwise (· < ·) ∧
      (∀ path, path ∈ paths ↔ path ∉ current ∧ ∃ f ∈ fs, f.path = path) ∧
      groupedLines current fs =
        (fs.filter fun f => f.path ∈ current).flatMap entry ++ paths.flatMap (chapter fs) := by
  induction fs generalizing current with
  | nil => exact ⟨[], .nil, by simp, rfl⟩
  | cons f fs ih =>
    obtain ⟨hf, hs⟩ := List.pairwise_cons.mp hs
    obtain ⟨paths, hsorted, hmem, heq⟩ := ih hs (some f.path) fun path hpath g hg =>
      Option.mem_some_iff.mp hpath ▸ hf g hg
    have hne : ∀ path ∈ paths, f.path ≠ path := fun path hpath h =>
      ((hmem path).mp hpath).1 (h ▸ rfl)
    have hchapters : paths.flatMap (chapter fs) = paths.flatMap (chapter (f :: fs)) :=
      List.flatMap_congr fun path hpath => (chapter_cons_of_ne (hne path hpath)).symm
    rw [groupedLines, findingLines_eq_entry, heq, hchapters]
    by_cases hcurrent : current = some f.path
    case pos =>
      refine ⟨paths, hsorted, fun path => ?_, ?_⟩
      · rw [hmem, hcurrent]
        refine and_congr_right fun hpath => ?_
        rw [List.exists_mem_cons_iff, or_iff_right fun h : f.path = path => hpath (h ▸ rfl)]
      · rw [if_pos hcurrent, hcurrent, List.filter_cons_of_pos (by simp)]
        simp
    case neg =>
      have hnone : ∀ g ∈ f :: fs, g.path ∉ current := by
        refine List.forall_mem_cons.mpr ⟨hcurrent, fun g hg hpath => hcurrent ?_⟩
        rw [le_antisymm (hf g hg) (hc g.path hpath f List.mem_cons_self)]
        exact hpath
      refine ⟨f.path :: paths, ?_, fun path => ?_, ?_⟩
      · refine List.pairwise_cons.mpr ⟨fun path hpath => ?_, hsorted⟩
        obtain ⟨-, g, hg, rfl⟩ := (hmem path).mp hpath
        exact lt_of_le_of_ne (hf g hg) (hne _ hpath)
      · have hfound : (path ∉ current ∧ ∃ g ∈ f :: fs, g.path = path) ↔
            ∃ g ∈ f :: fs, g.path = path :=
          and_iff_right_of_imp fun ⟨g, hg, hpath⟩ => hpath ▸ hnone g hg
        rw [hfound, List.mem_cons, hmem, List.exists_mem_cons_iff, Option.mem_some_iff]
        by_cases hpath : f.path = path
        · simp [hpath]
        · simp [hpath, Ne.symm hpath]
      · have hempty : (f :: fs).filter (fun f => f.path ∈ current) = [] :=
          List.filter_eq_nil_iff.mpr fun g hg => by simpa using hnone g hg
        rw [if_neg hcurrent, hempty, List.flatMap_cons, chapter_cons_self]
        simp [eq_comm]

theorem exists_groupedLines_aggregate_eq (fs : List Finding) :
    ∃ paths : List String, paths.Pairwise (· < ·) ∧
      (∀ path, path ∈ paths ↔ ∃ f ∈ fs, f.path = path) ∧
      groupedLines none (Finding.aggregate fs) =
        paths.flatMap (chapter (Finding.aggregate fs)) := by
  obtain ⟨paths, hsorted, hmem, heq⟩ := exists_groupedLines_eq
    ((Finding.pairwise_aggregate fs).imp Finding.path_le_of_order_eq_lt) none nofun
  refine ⟨paths, hsorted, fun path => ?_, ?_⟩
  · rw [hmem, Finding.exists_mem_aggregate_path_iff]
    exact and_iff_right nofun
  · rw [heq, List.filter_eq_nil_iff.mpr fun _ _ => by simp]
    rfl

theorem groupedLines_eq_nil_iff {current : Option String} :
    groupedLines current fs = [] ↔ fs = [] := by
  cases fs with
  | nil => exact iff_of_true rfl rfl
  | cons f fs => simp [groupedLines, findingLines_eq_entry, entry]

-- Findings of the three usual severities are all counted, each once.
theorem Summary.total_eq (r : RunResult)
    (h : ∀ f ∈ r.findings, f.severity ∈ [.error, .warning, .info]) :
    (ofResult r).total = (ofResult r).errors + (ofResult r).warnings + (ofResult r).infos := by
  obtain ⟨fs, _, _⟩ := r
  simp only [ofResult, count] at h ⊢
  induction fs with
  | nil => rfl
  | cons f fs ih =>
    obtain ⟨hf, hfs⟩ := List.forall_mem_cons.mp h
    rw [List.mem_cons, List.mem_cons, List.mem_singleton] at hf
    rcases hf with hf | hf | hf <;> simp [hf, ih hfs] <;> omega

-- In the report on aggregated findings there is one chapter for each file, in the order of the
-- files, and each finding stands in the chapter of its file. The summary counts all of them.
theorem lines_aggregate (xs : List Finding) (filesAnalyzed : Nat) (cancelled : Bool)
    (h : ∀ f ∈ xs, f.severity ∈ [.error, .warning, .info]) :
    let fs := Finding.aggregate xs
    let r : RunResult := ⟨fs, filesAnalyzed, cancelled⟩
    ∃ (paths : List String) (s : Summary),
      paths.Pairwise (· < ·) ∧ (∀ path, path ∈ paths ↔ ∃ f ∈ xs, f.path = path) ∧
      lines r = paths.flatMap (chapter fs) ++ (if xs = [] then [] else [.blank]) ++
        .summary s :: (if cancelled then [.cancelled] else []) ∧
      human r = "\n".intercalate ((lines r).map Line.text) ∧
      s.errors = (fs.filter (·.severity = .error)).length ∧
      s.warnings = (fs.filter (·.severity = .warning)).length ∧
      s.infos = (fs.filter (·.severity = .info)).length ∧
      s.total = fs.length ∧ s.total = s.errors + s.warnings + s.infos ∧
      s.filesAnalyzed = filesAnalyzed ∧ s.cancelled = cancelled := by
  intro fs r
  obtain ⟨paths, hsorted, hmem, heq⟩ := exists_groupedLines_aggregate_eq xs
  have hempty : groupedLines none fs = [] ↔ xs = [] :=
    groupedLines_eq_nil_iff.trans Finding.aggregate_eq_nil_iff
  refine ⟨paths, .ofResult r, hsorted, hmem, ?_, rfl, List.countP_eq_length_filter,
    List.countP_eq_length_filter, List.countP_eq_length_filter, rfl, ?_, rfl, rfl⟩
  · simp only [lines, r, hempty]
    rw [heq, List.append_assoc, List.singleton_append]
  · exact Summary.total_eq r fun f hf => h f (Finding.mem_of_mem_aggregate hf)

-- Findings in two files, one of them submitted twice and with a suggestion that says nothing.
theorem lines_aggregate_duplicates :
    let a : Finding := ⟨"line-length", .warning, "a.c", 2, 81, "long", "Wrap it.", none, none⟩
    let b : Finding := ⟨"no-goto", .error, "b.c", 1, 1, "goto", "", none, none⟩
    let r : RunResult := ⟨Finding.aggregate [b, a, b], 2, true⟩
    (∀ f ∈ [b, a, b], f.severity ∈ [.error, .warning, .info]) ∧
    ∃ (paths : List String) (s : Summary), paths.Pairwise (· < ·) ∧
      (∀ path, path ∈ paths ↔ path = "a.c" ∨ path = "b.c") ∧
      lines r = paths.flatMap (chapter [a, b]) ++ [.blank, .summary s, .cancelled] ∧
      chapter [a, b] "a.c" = [.heading "a.c", .finding a, .fix "Wrap it."] ∧
      chapter [a, b] "b.c" = [.heading "b.c", .finding b] ∧
      s.total = 2 ∧ s.errors = 1 ∧ s.warnings = 1 ∧ s.infos = 0 := by
  intro a b r
  have hfs : Finding.aggregate [b, a, b] = [a, b] := by cbv
  have hseverity : ∀ f ∈ [b, a, b], f.severity ∈ [.error, .warning, .info] := by decide
  obtain ⟨paths, s, hsorted, hmem, hlines, -, he, hw, hi, ht, -⟩ :=
    lines_aggregate [b, a, b] 2 true hseverity
  rw [hfs] at hlines he hw hi ht
  refine ⟨hseverity, paths, s, hsorted, fun path => ?_, ?_, rfl, rfl, ht, he, hw, hi⟩
  · simp only [hmem, List.mem_cons, List.not_mem_nil, or_false]
    grind
  · simpa [r, hfs] using hlines

end Report
end CLint
