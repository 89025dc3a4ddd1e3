import CLint.Proofs.Chapters

namespace CLint

-- Two texts that are cut at the first of a mark.
theorem split_inj {α : Type} {a : α} {xs ys us vs : List α} (hx : a ∉ xs) (hy : a ∉ ys)
    (h : xs ++ a :: us = ys ++ a :: vs) : xs = ys ∧ us = vs := by
  induction xs generalizing ys with
  | nil =>
    cases ys with
    | nil => exact ⟨rfl, (List.cons.inj h).2⟩
    | cons y ys => exact absurd ((List.cons.inj h).1 ▸ List.mem_cons_self) hy
  | cons x xs ih =>
    cases ys with
    | nil => exact absurd ((List.cons.inj h).1 ▸ List.mem_cons_self) hx
    | cons y ys =>
      obtain ⟨rfl, htail⟩ := List.cons.inj h
      rw [List.mem_cons, not_or] at hx hy
      obtain ⟨rfl, rfl⟩ := ih hx.2 hy.2 htail
      exact ⟨rfl, rfl⟩

-- Two texts that are cut at the last of a mark.
theorem split_inj_right {α : Type} {a : α} {xs ys us vs : List α} (hu : a ∉ us) (hv : a ∉ vs)
    (h : xs ++ a :: us = ys ++ a :: vs) : xs = ys ∧ us = vs := by
  have hreverse := congrArg List.reverse h
  simp only [List.reverse_append, List.reverse_cons, List.append_assoc, List.singleton_append]
    at hreverse
  obtain ⟨hus, hxs⟩ := split_inj (by simpa using hu) (by simpa using hv) hreverse
  exact ⟨List.reverse_inj.mp hxs, List.reverse_inj.mp hus⟩

namespace Text

variable {s : String} {cs : List Char}

-- Is a text shown as it is, on one line? It must not instruct a terminal.
structure IsShown (s : String) : Prop where
  uncontrolled : '\x1b' ∉ s.toList
  unbroken : '\n' ∉ s.toList

instance (s : String) : Decidable (IsShown s) :=
  decidable_of_iff ('\x1b' ∉ s.toList ∧ '\n' ∉ s.toList) ⟨fun h => ⟨h.1, h.2⟩, fun h => ⟨h.1, h.2⟩⟩

theorem isShown_append_iff {t : String} : IsShown (s ++ t) ↔ IsShown s ∧ IsShown t := by
  constructor
  case mp =>
    rintro ⟨hc, hb⟩
    simp only [String.toList_append, List.mem_append, not_or] at hc hb
    exact ⟨⟨hc.1, hb.1⟩, ⟨hc.2, hb.2⟩⟩
  case mpr =>
    rintro ⟨hs, ht⟩
    constructor <;> simp [hs.uncontrolled, hs.unbroken, ht.uncontrolled, ht.unbroken]

theorem plain_cons {c : Char} (h : c ≠ '\x1b') (ds : List Char) :
    plain (c :: ds) = c :: plain ds := by
  rw [plain]
  rintro _ rfl
  exact absurd rfl h

theorem plain_append (h : '\x1b' ∉ cs) (ds : List Char) : plain (cs ++ ds) = cs ++ plain ds := by
  induction cs with
  | nil => rfl
  | cons c cs ih =>
    rw [List.mem_cons, not_or] at h
    rw [List.cons_append, plain_cons (Ne.symm h.1), ih h.2, List.cons_append]

theorem isDigit_of_mem_repr {n : Nat} {c : Char} (h : c ∈ n.repr.toList) : c.isDigit :=
  Nat.isDigit_of_mem_toDigits (by decide) (by decide) (Nat.toList_repr ▸ h)

theorem isShown_repr (n : Nat) : IsShown n.repr where
  uncontrolled h := absurd (isDigit_of_mem_repr h) (by decide)
  unbroken h := absurd (isDigit_of_mem_repr h) (by decide)

theorem isDigit_or_minus_of_mem_repr {n : Int} {c : Char} (h : c ∈ n.repr.toList) :
    c.isDigit ∨ c = '-' := by
  rw [Int.repr_eq_if] at h
  split at h
  · exact .inl (isDigit_of_mem_repr h)
  · rw [String.toList_append, List.mem_append] at h
    rcases h with h | h
    · exact .inr (List.mem_singleton.mp h)
    · exact .inl (isDigit_of_mem_repr h)

theorem isShown_intRepr (n : Int) : IsShown n.repr where
  uncontrolled h := absurd (isDigit_or_minus_of_mem_repr h) (by decide)
  unbroken h := absurd (isDigit_or_minus_of_mem_repr h) (by decide)

-- What only a terminal sees.
theorem plain_control (code : Nat) (ds : List Char) :
    plain ((control code).toList ++ ds) = plain ds := by
  have hdigits : ∀ c ∈ code.repr.toList, isParameter c := fun c hc => by
    simp [isParameter, isDigit_of_mem_repr hc]
  have hbehind : behindControl (code.repr.toList ++ 'm' :: ds) = some ds := by
    have hm : ('m' :: ds).dropWhile isParameter = 'm' :: ds := rfl
    rw [behindControl, List.dropWhile_append_of_pos hdigits, hm]
    rfl
  have hcontrol : (control code).toList ++ ds =
      '\x1b' :: '[' :: (code.repr.toList ++ 'm' :: ds) := by
    simp [control, toString]
  rw [hcontrol, plain]
  split
  case h_1 rest h =>
    cases hbehind.symm.trans h
    rfl
  case h_2 h => cases hbehind.symm.trans h

theorem plain_styled (h : '\x1b' ∉ s.toList) (colour : Option Colour) (bold : Bool)
    (ds : List Char) : plain ((styled colour bold s).toList ++ ds) = s.toList ++ plain ds := by
  have hbold : ∀ ds, plain ((if bold then control 1 else "").toList ++ ds) = plain ds := by
    cases bold
    · exact fun _ => rfl
    · exact plain_control 1
  have hcolour : ∀ ds, plain ((colour.elim "" (control ·.code)).toList ++ ds) = plain ds := by
    cases colour
    · exact fun _ => rfl
    · exact plain_control _
  simp only [styled, String.toList_append, List.append_assoc, hcolour, hbold, plain_append h,
    plain_control]

end Text

namespace Report

open Text

namespace Line

-- What is to be read in a line, in whatever style it is written.
def caption : Line → String
  | heading path => path
  | finding f =>
    s!"  {f.line}:{f.column}  {padded 7 f.severity.name} {f.message}  [{f.rule}]"
  | fix suggestion => s!"      fix: {suggestion}"
  | blank => ""
  | summary s =>
    s!"{s.total} finding(s) in {s.filesAnalyzed} file(s): {s.errors} error(s), " ++
      s!"{s.warnings} warning(s), {s.infos} info"
  | cancelled => "Run cancelled before all files were analyzed."

-- The texts in a line are shown as they are.
def IsShown : Line → Prop
  | heading path => Text.IsShown path
  | finding f => Text.IsShown f.severity.name ∧ Text.IsShown f.message ∧ Text.IsShown f.rule
  | fix suggestion => Text.IsShown suggestion
  | _ => True

variable {l : Line} {ls : List Line}

theorem isShown_padded {s : String} (h : Text.IsShown s) (width : Nat) :
    Text.IsShown (padded width s) := by
  refine isShown_append_iff.mpr ⟨h, ?_, ?_⟩ <;> simp

theorem isShown_caption (h : l.IsShown) : Text.IsShown l.caption := by
  cases l with
  | heading path => exact h
  | finding f =>
    obtain ⟨hs, hm, hr⟩ := h
    simp only [caption, toString, isShown_append_iff, isShown_intRepr, isShown_padded hs, hm, hr]
    decide
  | fix suggestion =>
    simp only [caption, toString, isShown_append_iff]
    exact ⟨by decide, h⟩
  | blank => decide
  | summary s =>
    simp only [caption, toString, isShown_append_iff, isShown_repr]
    decide
  | cancelled => decide

-- Whatever follows a line, what is to be read in it comes first.
theorem plain_text_append (h : l.IsShown) (ds : List Char) :
    plain (l.text.toList ++ ds) = l.caption.toList ++ plain ds := by
  cases l with
  | heading path => exact plain_styled h.uncontrolled none true ds
  | finding f =>
    obtain ⟨hs, hm, hr⟩ := h
    obtain ⟨front, back, hfront, hback, htext⟩ : ∃ front back : String,
        Text.IsShown front ∧ Text.IsShown back ∧ ∀ severity : String,
          s!"  {f.line}:{f.column}  {severity} {f.message}  [{f.rule}]" =
            front ++ (severity ++ back) := by
      refine ⟨s!"  {f.line}:{f.column}  ", s!" {f.message}  [{f.rule}]", ?_, ?_, fun _ => ?_⟩
      · simp only [toString, isShown_append_iff, isShown_intRepr]
        decide
      · simp only [toString, isShown_append_iff, hm, hr]
        decide
      · simp only [toString, String.append_assoc]
    simp only [text, caption, htext, String.toList_append, List.append_assoc,
      plain_append hfront.uncontrolled, plain_styled (isShown_padded hs 7).uncontrolled,
      plain_append hback.uncontrolled]
  | fix suggestion => exact plain_append (isShown_caption (l := .fix suggestion) h).uncontrolled ds
  | blank => rfl
  | summary s =>
    exact plain_styled (isShown_caption (l := .summary s) trivial).uncontrolled _ true ds
  | cancelled => exact plain_styled (by decide) _ false ds

theorem plain_text (h : l.IsShown) : plain l.text.toList = l.caption.toList := by
  have hplain := plain_text_append h []
  rwa [List.append_nil, plain, List.append_nil] at hplain

example : caption (.finding ⟨"no-goto", .error, "b.c", 3, 5, "goto is used", none, none, none⟩) =
    "  3:5  error   goto is used  [no-goto]" := by
  decide

theorem plain_intercalate (h : ∀ l ∈ ls, l.IsShown) :
    plain (['\n'].intercalate (ls.map (·.text.toList))) =
      ['\n'].intercalate (ls.map (·.caption.toList)) := by
  induction ls with
  | nil => simp [plain]
  | cons l ls ih =>
    obtain ⟨hl, hls⟩ := List.forall_mem_cons.mp h
    cases ls with
    | nil => simpa using plain_text hl
    | cons m ls =>
      have hrest := ih hls
      simp only [List.map_cons, List.intercalate_cons_cons, List.append_assoc] at hrest ⊢
      rw [plain_text_append hl, List.singleton_append, plain_cons (by decide), hrest]
      rfl

variable {f g : Finding}

-- The usual severities are as good as their names, which take seven places.
theorem padded_name (h : f.severity ∈ [.error, .warning, .info])
    (h' : g.severity ∈ [.error, .warning, .info]) :
    (padded 7 f.severity.name).toList.length = (padded 7 g.severity.name).toList.length ∧
      (padded 7 f.severity.name = padded 7 g.severity.name → f.severity = g.severity) := by
  simp only [List.mem_cons, List.not_mem_nil, or_false] at h h'
  rcases h with h | h | h <;> rcases h' with h' | h' | h' <;> rw [h, h'] <;> decide

theorem toList_caption_finding (f : Finding) : (caption (.finding f)).toList =
    ' ' :: ' ' :: (f.line.repr.toList ++ ':' :: (f.column.repr.toList ++ ' ' :: ' ' ::
      ((padded 7 f.severity.name).toList ++ ' ' ::
        ((f.message.toList ++ [' ', ' ']) ++ '[' :: (f.rule.toList ++ [']']))))) := by
  simp [caption, toString]

-- The line of a finding of one of the usual severities tells all that there is to say of it.
theorem caption_finding_inj (hf : f.severity ∈ [.error, .warning, .info])
    (hg : g.severity ∈ [.error, .warning, .info]) (hfr : '[' ∉ f.rule.toList)
    (hgr : '[' ∉ g.rule.toList) :
    caption (.finding f) = caption (.finding g) ↔ f.line = g.line ∧ f.column = g.column ∧
      f.severity = g.severity ∧ f.message = g.message ∧ f.rule = g.rule := by
  constructor
  case mp =>
    intro h
    have hcolon : ∀ n : Int, ':' ∉ n.repr.toList := fun n h =>
      absurd (isDigit_or_minus_of_mem_repr h) (by decide)
    have hblank : ∀ n : Int, ' ' ∉ n.repr.toList := fun n h =>
      absurd (isDigit_or_minus_of_mem_repr h) (by decide)
    obtain ⟨hlength, hname⟩ := padded_name hf hg
    have hlist := congrArg String.toList h
    rw [toList_caption_finding, toList_caption_finding, List.cons_inj_right, List.cons_inj_right]
      at hlist
    obtain ⟨hline, hlist⟩ := split_inj (hcolon _) (hcolon _) hlist
    obtain ⟨hcolumn, hlist⟩ := split_inj (hblank _) (hblank _) hlist
    obtain ⟨hpadded, hlist⟩ := List.append_inj (List.cons.inj hlist).2 hlength
    obtain ⟨hmessage, hrule⟩ := split_inj_right (by simpa using hfr) (by simpa using hgr)
      (List.cons.inj hlist).2
    exact ⟨Int.repr_injective (String.toList_inj.mp hline),
      Int.repr_injective (String.toList_inj.mp hcolumn), hname (String.toList_inj.mp hpadded),
      String.toList_inj.mp (List.append_cancel_right hmessage),
      String.toList_inj.mp (List.append_cancel_right hrule)⟩
  case mpr =>
    rintro ⟨hl, hc, hs, hm, hr⟩
    rw [caption, caption, hl, hc, hs, hm, hr]

end Line

variable {r : RunResult}

-- What a reader other than a terminal gets of a report are the captions of its lines, one by one.
theorem splitOn_plain_human (h : ∀ l ∈ lines r, l.IsShown) :
    (plain (human r).toList).splitOn '\n' = (lines r).map (·.caption.toList) := by
  have hne : (lines r).map (·.caption.toList) ≠ [] := by simp [lines]
  have hbreak : ∀ cs ∈ (lines r).map (·.caption.toList), '\n' ∉ cs := by
    intro cs hcs
    obtain ⟨l, hl, rfl⟩ := List.mem_map.mp hcs
    exact (Line.isShown_caption (h l hl)).unbroken
  have htext : (human r).toList = ['\n'].intercalate ((lines r).map (·.text.toList)) := by
    rw [human, String.toList_intercalate, List.map_map]
    rfl
  rw [htext, Line.plain_intercalate h, List.splitOn_intercalate '\n' hbreak hne]

end Report

end CLint
