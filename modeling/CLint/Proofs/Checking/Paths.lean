import CLint.Command.Basic
import CLint.Files.Selection
import CLint.Proofs.Renaming.Words
import CLint.Proofs.Selected

namespace CLint

theorem Text.fields_eq_splitOnP (p : Char → Bool) (cs : List Char) :
    fields p cs = cs.splitOnP p := by
  induction cs with
  | nil => rfl
  | cons c cs ih =>
    rw [fields, ih, List.splitOnP_cons_eq_if_modifyHead]
    split
    · rfl
    · cases hfields : cs.splitOnP p with
      | nil => exact absurd hfields (List.splitOnP_ne_nil p cs)
      | cons f fs => rfl

namespace Path

-- The names that a step of a path may have. Two dots are among them.
structure IsName (name : String) : Prop where
  isStep : Path.isStep name.toList
  noSlash : '/' ∉ name.toList

instance : DecidablePred IsName := fun name =>
  decidable_of_iff (Path.isStep name.toList ∧ '/' ∉ name.toList)
    ⟨fun h => ⟨h.1, h.2⟩, fun h => ⟨h.isStep, h.noSlash⟩⟩

-- What is true of all paths that are given by a text.
structure IsNormal (p : Path) : Prop where
  root : p.root ∈ ["", "/", "//"]
  steps : ∀ name ∈ p.steps, IsName name

variable {p q : Path} {name : String} {names : List String} {cs : List Char}

theorem isNormal_ofText (s : String) : (ofText s).IsNormal := by
  constructor
  case root =>
    simp only [ofText, rootText]
    split <;> decide
  case steps =>
    refine List.forall_mem_map.mpr fun cs h => ?_
    obtain ⟨hfield, hstep⟩ := List.mem_filter.mp h
    refine ⟨by rwa [String.toList_ofList], fun hslash => ?_⟩
    rw [String.toList_ofList] at hslash
    exact of_decide_eq_false (Text.mem_fields hfield '/' hslash).2 rfl

theorem IsNormal.extend (hp : p.IsNormal) (hnames : ∀ name ∈ names, IsName name) :
    (p.extend names).IsNormal :=
  ⟨hp.root, List.forall_mem_append.mpr ⟨hp.steps, hnames⟩⟩

-- Names that are joined by slashes are told apart again.
theorem filter_isStep_fields_intercalate (h : ∀ name ∈ names, IsName name) :
    (Text.fields (· = '/') (['/'].intercalate (names.map String.toList))).filter isStep =
      names.map String.toList := by
  cases hnames : names with
  | nil => rfl
  | cons first rest =>
    rw [← hnames, Text.fields_eq_splitOnP]
    have hslash : ∀ cs ∈ names.map String.toList, '/' ∉ cs :=
      List.forall_mem_map.mpr fun name hname => (h name hname).noSlash
    have hstep : ∀ cs ∈ names.map String.toList, isStep cs :=
      List.forall_mem_map.mpr fun name hname => (h name hname).isStep
    have hsplit := List.splitOn_intercalate '/' hslash (by simp [hnames])
    exact (congrArg (List.filter isStep) hsplit).trans (List.filter_eq_self.mpr hstep)

theorem head?_intercalate_ne_slash (h : ∀ name ∈ names, IsName name) :
    (['/'].intercalate (names.map String.toList)).head? ≠ some '/' := by
  cases names with
  | nil => nofun
  | cons first rest =>
    have hfirst := h first List.mem_cons_self
    obtain ⟨tail, htail⟩ : ∃ tail,
        ['/'].intercalate ((first :: rest).map String.toList) = first.toList ++ tail := by
      cases rest with
      | nil => exact ⟨[], by simp⟩
      | cons second rest => exact ⟨_, List.intercalate_cons_cons.trans (List.append_assoc ..)⟩
    rw [htail]
    cases hcs : first.toList with
    | nil => exact absurd hfirst.isStep (by simp [isStep, hcs])
    | cons c cs =>
      intro hslash
      obtain rfl : c = '/' := by simpa using hslash
      exact hfirst.noSlash (hcs ▸ List.mem_cons_self)

theorem filter_isStep_fields_append {root : List Char} (h : ∀ c ∈ root, c = '/')
    (cs : List Char) :
    (Text.fields (· = '/') (root ++ cs)).filter isStep =
      (Text.fields (· = '/') cs).filter isStep := by
  induction root with
  | nil => rfl
  | cons c root ih =>
    obtain ⟨rfl, hroot⟩ := List.forall_mem_cons.mp h
    rw [List.cons_append, Text.fields, if_pos (by decide), List.filter_cons_of_neg (by decide),
      ih hroot]

theorem takeWhile_slash_append {root : List Char} (h : ∀ c ∈ root, c = '/')
    (hcs : cs.head? ≠ some '/') : (root ++ cs).takeWhile (· = '/') = root := by
  rw [List.takeWhile_append_of_pos (by simpa using h)]
  cases cs with
  | nil => simp
  | cons c cs => rw [List.takeWhile_cons_of_neg (by simpa using hcs), List.append_nil]

-- A path in normal form is given by its text.
theorem IsNormal.ofText_text (h : p.IsNormal) : ofText p.text = p := by
  obtain ⟨root, steps⟩ := p
  by_cases hempty : root = "" ∧ steps = []
  case pos =>
    obtain ⟨rfl, rfl⟩ := hempty
    decide +kernel
  case neg =>
    have htext : (Path.text ⟨root, steps⟩).toList =
        root.toList ++ ['/'].intercalate (steps.map String.toList) := by
      rw [Path.text, if_neg (by simpa using hempty), String.toList_append,
        String.toList_intercalate]
      rfl
    have hroots : root = "" ∨ root = "/" ∨ root = "//" := by simpa using h.root
    have hslashes : ∀ c ∈ root.toList, c = '/' := by
      rcases hroots with rfl | rfl | rfl <;> simp
    have hroot : rootText (Path.text ⟨root, steps⟩).toList = root := by
      rw [rootText, htext, takeWhile_slash_append hslashes (head?_intercalate_ne_slash h.steps)]
      rcases hroots with rfl | rfl | rfl <;> rfl
    rw [ofText, hroot, htext, filter_isStep_fields_append hslashes,
      filter_isStep_fields_intercalate h.steps, List.map_map]
    simp [Function.comp_def]

theorem IsNormal.text_inj (hp : p.IsNormal) (hq : q.IsNormal) : p.text = q.text ↔ p = q := by
  refine ⟨fun h => ?_, congrArg _⟩
  rw [← hp.ofText_text, h, hq.ofText_text]

end Path

namespace Files

variable {t : Files} {p q : Path} {ps : List Path} {f : PathFilter}

-- The names in a tree are such that a path can lead there.
def IsProper (t : Files) : Prop :=
  ∀ node ∈ t.nodes, ∀ name ∈ node.1, Path.IsName name

instance (t : Files) : Decidable t.IsProper :=
  inferInstanceAs (Decidable (∀ node ∈ t.nodes, ∀ name ∈ node.1, Path.IsName name))

theorem IsProper.expand (ht : t.IsProper) (hp : p.IsNormal) : ∀ q ∈ t.expand p, q.IsNormal := by
  rw [Files.expand]
  split
  case h_1 place _ =>
    refine List.forall_mem_map.mpr fun way hway => hp.extend fun name hname => ?_
    rw [sourcesBelow, List.mem_mergeSort, List.mem_filterMap] at hway
    obtain ⟨⟨node, n⟩, hnode, hbelow⟩ := hway
    have hdrop : way = node.drop place.length := by
      cases n with
      | directory => cases hbelow
      | _ =>
        simp only [sourceBelow?] at hbelow
        split_ifs at hbelow
        exact (Option.some.inj hbelow).symm
    exact ht _ hnode name (List.mem_of_mem_drop (hdrop ▸ hname))
  case h_2 => exact List.forall_mem_singleton.mpr hp

theorem IsProper.discover (ht : t.IsProper) (hps : ∀ p ∈ ps, p.IsNormal) :
    ∀ q ∈ t.discover f ps, q.IsNormal := fun _ hq => by
  obtain ⟨p, hp, hq⟩ := List.mem_flatMap.mp (List.mem_of_mem_filter hq)
  exact ht.expand (hps p hp) _ hq

end Files

namespace Command

variable {words : List String} {o : CheckOptions}

-- Paths on a command line are given by texts.
theorem isNormal_of_readCheck (h : readCheck words = .ok (.check o)) :
    ∀ p ∈ o.paths, p.IsNormal := by
  obtain ⟨a, -, h⟩ := bind_eq_ok_iff.mp h
  dsimp only at h
  split at h
  case isTrue => cases h
  case isFalse =>
    obtain ⟨jobs, -, h⟩ := bind_eq_ok_iff.mp h
    cases h
    exact List.forall_mem_map.mpr fun s _ => Path.isNormal_ofText s

theorem isNormal_of_readNamed (h : readNamed words = .ok (.check o)) :
    ∀ p ∈ o.paths, p.IsNormal := by
  unfold readNamed at h
  split at h
  case h_2 words => exact isNormal_of_readCheck h
  case h_3 words | h_4 words | h_5 words =>
    cases hshow : readShow words <;> simp [hshow, Except.map] at h
  case h_6 words =>
    obtain ⟨a, -, h⟩ := bind_eq_ok_iff.mp h
    obtain ⟨⟨⟩, -, h⟩ := bind_eq_ok_iff.mp h
    cases h
  all_goals cases h

theorem isNormal_of_read (h : read words = .ok (.check o)) : ∀ p ∈ o.paths, p.IsNormal := by
  unfold read at h
  split at h
  case h_2 words => exact isNormal_of_readNamed h
  case h_3 word words _ _ =>
    split at h
    · cases h
    · exact isNormal_of_readNamed h
  all_goals cases h

end Command
end CLint
