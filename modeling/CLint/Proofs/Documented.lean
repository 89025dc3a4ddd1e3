import CLint.Proofs.Identifiers
import CLint.Rule.Documentation

namespace CLint

-- A comment that has all that there is to say on a function with parameters of these names, of
-- which those that are left out are empty.
structure Comment.Documents (c : Comment) (names : List String) : Prop where
  brief : Rule.hasBrief c
  each : ∀ name ∈ names, name ≠ "" → name ∈ c.params
  only : ∀ name ∈ c.params, name ∈ names

instance (c : Comment) (names : List String) : Decidable (c.Documents names) :=
  decidable_of_iff
    (Rule.hasBrief c ∧ (∀ name ∈ names, name ≠ "" → name ∈ c.params) ∧
      ∀ name ∈ c.params, name ∈ names)
    ⟨fun ⟨hb, he, ho⟩ => ⟨hb, he, ho⟩, fun ⟨hb, he, ho⟩ => ⟨hb, he, ho⟩⟩

-- The functions of a file as they are before all declarations are sorted.
theorem Outline.mem_functions_iff {source : Source} {d : Declaration Span} :
    d ∈ (ofSource source).functions ↔
      d ∈ ((Parts.ofTokens source.tokens).declarations.map
        (keepComment (Parts.ofTokens source.tokens).declarations)).filter (·.kind = .function) := by
  rw [functions, List.mem_filter, List.mem_filter]
  exact and_congr_left' List.mem_mergeSort

theorem Name.quote_notMem {name : String} (h : isIdentifier name.toList) : '\'' ∉ name.toList :=
  fun hc => absurd (isAlphanum_of_isIdentifier h hc (by decide)) (by decide)

-- What stands between the last two quotation marks.
def lastQuoted (message : String) : List Char :=
  ((message.toList.reverse.dropWhile (· ≠ '\'')).tail.takeWhile (· ≠ '\'')).reverse

theorem lastQuoted_append {lead name rest : String} (hlead : lead.toList.getLast? = some '\'')
    (hname : '\'' ∉ name.toList) (hrest : rest.toList.head? = some '\'')
    (htail : '\'' ∉ rest.toList.tail) : lastQuoted (lead ++ name ++ rest) = name.toList := by
  obtain ⟨before, hlead⟩ := List.getLast?_eq_some_iff.mp hlead
  obtain ⟨after, hrest⟩ := List.head?_eq_some_iff.mp hrest
  rw [hrest, List.tail_cons] at htail
  have hpos : ∀ cs : List Char, '\'' ∉ cs → ∀ c ∈ cs.reverse, decide (c ≠ '\'') := by
    intro cs hcs c hc
    simpa using ne_of_mem_of_not_mem (List.mem_reverse.mp hc) hcs
  have hreverse : (lead ++ name ++ rest).toList.reverse =
      after.reverse ++ '\'' :: (name.toList.reverse ++ '\'' :: before.reverse) := by
    simp [hlead, hrest]
  rw [lastQuoted, hreverse, List.dropWhile_append_of_pos (hpos after htail),
    List.dropWhile_cons_of_neg (by simp), List.tail_cons,
    List.takeWhile_append_of_pos (hpos _ hname), List.takeWhile_cons_of_neg (by simp)]
  simp

namespace Rule

variable {o : Outline} {documented names : List String} {d : Declaration Span} {c : Comment}
  {m : Remark} {f g message : String}

-- The messages on the documentation of a function of this name.
inductive IsAboutFunction (f : String) : String → Prop
  | undocumented : IsAboutFunction f s!"function '{f}' has no documentation comment"
  | withoutBrief : IsAboutFunction f s!"documentation of '{f}' is missing @brief"
  | missing (p : String) :
    IsAboutFunction f s!"parameter '{p}' of '{f}' is not documented with @param"
  | unknown (p : String) :
    IsAboutFunction f s!"@param '{p}' does not match any parameter of '{f}'"

theorem lastQuoted_of_isAboutFunction (hf : '\'' ∉ f.toList) (h : IsAboutFunction f message) :
    lastQuoted message = f.toList := by
  -- A quotation mark stands before the name, also where the name of a parameter comes first.
  have hlead : ∀ before behind : String, behind.toList.getLast? = some '\'' →
      (before ++ behind).toList.getLast? = some '\'' := fun before behind h => by
    rw [String.toList_append, List.getLast?_append, h]
    rfl
  cases h with
  | undocumented => exact lastQuoted_append (by decide) hf (by decide) (by decide)
  | withoutBrief => exact lastQuoted_append (by decide) hf (by decide) (by decide)
  | missing p =>
    have hquote := hlead ("parameter '" ++ p) "' of '" (by decide)
    exact lastQuoted_append hquote hf (by decide) (by decide)
  | unknown p =>
    have hquote := hlead ("@param '" ++ p) "' does not match any parameter of '" (by decide)
    exact lastQuoted_append hquote hf (by decide) (by decide)

-- No message is about two functions.
theorem IsAboutFunction.unique (hf : '\'' ∉ f.toList) (hg : '\'' ∉ g.toList)
    (h : IsAboutFunction f message) (h' : IsAboutFunction g message) : f = g :=
  String.ext ((lastQuoted_of_isAboutFunction hf h).symm.trans (lastQuoted_of_isAboutFunction hg h'))

theorem isAboutFunction_of_mem_parameterRemarks (h : m ∈ parameterRemarks d c) :
    IsAboutFunction d.name m.message := by
  cases List.mem_append.mp h
  case inl h =>
    obtain ⟨p, -, rfl⟩ := List.mem_map.mp h
    exact .missing p.name
  case inr h =>
    obtain ⟨name, -, rfl⟩ := List.mem_map.mp h
    exact .unknown name

theorem isAboutFunction_of_mem (h : m ∈ functionDocRemarks o documented d) :
    IsAboutFunction d.name m.message := by
  unfold functionDocRemarks at h
  split at h
  case h_1 =>
    split at h
    · cases h
    · cases List.mem_singleton.mp h
      exact .undocumented
  case h_2 =>
    cases List.mem_append.mp h
    case inl h =>
      split at h
      · cases h
      · cases List.mem_singleton.mp h
        exact .withoutBrief
    case inr h => exact isAboutFunction_of_mem_parameterRemarks h

theorem parameterRemarks_eq_nil_iff :
    parameterRemarks d c = [] ↔
      (∀ name ∈ d.parameters.map (·.name), name ≠ "" → name ∈ c.params) ∧
        ∀ name ∈ c.params, name ∈ d.parameters.map (·.name) := by
  simp [parameterRemarks, List.filter_eq_nil_iff]

-- If some comment on the function is as it has to be, nothing is said of a declaration of it just
-- if that has no comment of its own, or one that documents the function as well.
theorem functionDocRemarks_eq_nil_iff (hd : d.name ∈ documented) :
    functionDocRemarks o documented d = [] ↔
      ∀ c ∈ o.commentOf d, c.Documents (d.parameters.map (·.name)) := by
  unfold functionDocRemarks
  cases h : o.commentOf d with
  | none => simp [hd]
  | some c =>
    have hbrief : (if hasBrief c then []
        else [Remark.onSpan c.span s!"documentation of '{d.name}' is missing @brief"]) = [] ↔
          hasBrief c := by
      split <;> simp_all
    simp only [List.append_eq_nil_iff, hbrief, parameterRemarks_eq_nil_iff, Option.mem_some,
      forall_eq']
    exact ⟨fun ⟨hb, he, ho⟩ => ⟨hb, he, ho⟩, fun ⟨hb, he, ho⟩ => ⟨hb, he, ho⟩⟩

theorem mem_functionsWith {p : Comment → Bool} (hd : d ∈ o.functions) (hc : c ∈ o.commentOf d)
    (hp : p c) : d.name ∈ functionsWith o p :=
  List.mem_map_of_mem (List.mem_filter.mpr ⟨hd, (Option.any_eq_true ..).mpr ⟨c, hc, hp⟩⟩)

-- What is said of a function is what is said of its declarations.
theorem forall_not_isAboutFunction_remarks_iff (hf : '\'' ∉ f.toList)
    (hquote : ∀ d ∈ o.functions, '\'' ∉ d.name.toList) :
    (∀ m ∈ o.functions.flatMap (functionDocRemarks o documented),
        ¬ IsAboutFunction f m.message) ↔
      ∀ d ∈ o.functions, d.name = f → functionDocRemarks o documented d = [] := by
  constructor
  case mp =>
    intro h d hd hname
    refine List.eq_nil_iff_forall_not_mem.mpr fun m hm => ?_
    exact h m (List.mem_flatMap_of_mem hd hm) (hname ▸ isAboutFunction_of_mem hm)
  case mpr =>
    intro h m hm habout
    obtain ⟨d, hd, hm⟩ := List.mem_flatMap.mp hm
    have hname := (isAboutFunction_of_mem hm).unique (hquote d hd) hf habout
    rw [h d hd hname] at hm
    cases hm

-- A function that a comment documents is reported just if another comment on it does not. The
-- declarations without any comment do not matter.
theorem forall_not_isAboutFunction_iff (settings : RuleSettings) (path text f : String)
    (names : List String)
    (hnames : ∀ d ∈ (Outline.ofSource (.ofText path text)).functions,
      d.name = f → d.parameters.map (·.name) = names)
    (hdocumented : ∃ d ∈ (Outline.ofSource (.ofText path text)).functions, d.name = f ∧
      ∃ c ∈ (Outline.ofSource (.ofText path text)).commentOf d, c.Documents names) :
    ∃ ms, functionDoc.check settings (.ofSource (.ofText path text)) = .ok ms ∧
      ((∀ m ∈ ms, ¬ IsAboutFunction f m.message) ↔
        ∀ d ∈ (Outline.ofSource (.ofText path text)).functions, d.name = f →
          ∀ c ∈ (Outline.ofSource (.ofText path text)).commentOf d, c.Documents names) := by
  have hquote : ∀ d ∈ (Outline.ofSource (.ofText path text)).functions, '\'' ∉ d.name.toList :=
    fun d hd => Name.quote_notMem (Outline.isIdentifier_name (List.mem_filter.mp hd).1)
  obtain ⟨d, hd, rfl, c, hc, hdocuments⟩ := hdocumented
  have hmem := mem_functionsWith hd hc hdocuments.brief
  refine ⟨_, rfl, (forall_not_isAboutFunction_remarks_iff (hquote d hd) hquote).trans ?_⟩
  refine forall₂_congr fun e he => forall_congr' fun hname => ?_
  rw [functionDocRemarks_eq_nil_iff (hname ▸ hmem), hnames e he hname]

-- A prototype with a comment, and the definition without one.
theorem forall_not_isAboutFunction_prototype :
    let text := "/** @brief Go. @param n */\nvoid Go(int n);\n\nvoid Go(int n)\n\x7b\n\x7d\n"
    let o := Outline.ofSource (.ofText "a.c" text)
    (∀ d ∈ o.functions, d.name = "Go" → d.parameters.map (·.name) = ["n"]) ∧
      (∃ d ∈ o.functions, d.name = "Go" ∧ ∃ c ∈ o.commentOf d, c.Documents ["n"]) ∧
      ∃ ms, functionDoc.check {} o = .ok ms ∧ ∀ m ∈ ms, ¬ IsAboutFunction "Go" m.message := by
  intro text o
  have hnames : ∀ d ∈ o.functions, d.name = "Go" → d.parameters.map (·.name) = ["n"] := by
    simp only [o, Outline.mem_functions_iff]
    decide +kernel
  have hdocumented : ∃ d ∈ o.functions, d.name = "Go" ∧
      ∃ c ∈ o.commentOf d, c.Documents ["n"] := by
    simp only [o, Outline.mem_functions_iff]
    decide +kernel
  have hall : ∀ d ∈ o.functions, d.name = "Go" → ∀ c ∈ o.commentOf d, c.Documents ["n"] := by
    simp only [o, Outline.mem_functions_iff]
    decide +kernel
  obtain ⟨ms, hms, hiff⟩ := forall_not_isAboutFunction_iff {} "a.c" text "Go" ["n"] hnames
    hdocumented
  exact ⟨hnames, hdocumented, ms, hms, hiff.mpr hall⟩

-- A comment that only remarks on the definition is taken for its documentation.
theorem reports_documented :
    let o := Outline.ofSource <| .ofText "a.c"
      "/** @brief Go. */\nvoid Go(void);\n\n// Slow.\nvoid Go(void)\n\x7b\n\x7d\n"
    (∀ d ∈ o.functions, d.name = "Go" → d.parameters.map (·.name) = []) ∧
      (∃ d ∈ o.functions, d.name = "Go" ∧ ∃ c ∈ o.commentOf d, c.Documents []) ∧
      ∃ ms, functionDoc.check {} o = .ok ms ∧ ∃ m ∈ ms, IsAboutFunction "Go" m.message := by
  intro o
  have hremark : ∃ d ∈ o.functions, ∃ m ∈ functionDocRemarks o (functionsWith o hasBrief) d,
      m.message = "documentation of 'Go' is missing @brief" := by
    simp only [o, Outline.mem_functions_iff]
    decide +kernel
  obtain ⟨d, hd, m, hm, hmessage⟩ := hremark
  refine ⟨?_, ?_, _, rfl, m, List.mem_flatMap_of_mem hd hm, hmessage ▸ .withoutBrief⟩
  all_goals
    simp only [o, Outline.mem_functions_iff]
    decide +kernel

end Rule

end CLint
