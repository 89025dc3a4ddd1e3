import CLint.Proofs.Layout
import CLint.Proofs.Partition
import CLint.Rule.Layout

namespace CLint

-- The code of a line: what it is read as with its line feed, without blanks.
def codeOfLine (text : String) : List Lexeme :=
  (Lexer.lexemes (text.toList ++ ['\n'])).filter (!·.isTrivia)

-- The text of a line behind the blanks at its front. It has no comments, it neither begins a
-- directive nor continues on the next line.
structure Row where
  text : String
  solid : text.toList.head?.any (!Lexer.isBlank ·) := by decide +kernel
  unbroken : text.toList.all (!Lexer.isBreak ·) := by decide +kernel
  unescaped : text.toList.getLast? ≠ some '\\' := by decide +kernel
  uncommented : (Lexer.lexemes (text.toList ++ ['\n'])).all (!·.isComment) := by decide +kernel
  ordinary : (codeOfLine text).head? ≠ some (.punct .hash) := by decide +kernel

namespace Row

def code (r : Row) : List Lexeme :=
  codeOfLine r.text

-- The row as a line that is indented by a number of blanks.
def indented (r : Row) (count : Nat) : List Char :=
  List.replicate count ' ' ++ r.text.toList

-- The text that has the given rows as its lines, each with its number of blanks.
def textOf (rows : List (Row × Nat)) : List Char :=
  rows.flatMap fun (r, count) => r.indented count ++ ['\n']

-- The tokens of a row that stands on a line of the given number.
structure Has (r : Row) (count line : Nat) (ts : List Token) : Prop where
  code : ts.map (·.lexeme) = r.code
  line : ∀ t ∈ ts, t.line = line ∧ t.endLine = line
  column : ∀ t ∈ ts.head?, t.column = count + 1

end Row

namespace Place

variable {cs : List Char}

-- A text without line breaks does not leave its line.
theorem advance_unbroken (p : Place) (after : Option Char)
    (h : ∀ c ∈ cs, Lexer.isBreak c = false) : p.advance cs after =
      ⟨p.line, p.column + cs.length, p.offset + cs.length⟩ := by
  induction cs generalizing p with
  | nil => rfl
  | cons c cs ih =>
    obtain ⟨hc, hcs⟩ := List.forall_mem_cons.mp h
    have hends : endsLine c (cs.head?.or after) = false := by
      simp only [Lexer.isBreak, Bool.or_eq_false_iff] at hc
      simp [endsLine, hc.1, hc.2]
    rw [advance_cons, ih _ hcs, step, hends, if_neg Bool.false_ne_true]
    simp only [right, List.length_cons, mk.injEq, true_and]
    omega

theorem advance_feed (p : Place) (h : ∀ c ∈ cs, Lexer.isBreak c = false) :
    p.advance (cs ++ ['\n']) none = ⟨p.line + 1, 1, p.offset + cs.length + 1⟩ := by
  rw [advance_append, advance_unbroken p _ h]
  rfl

end Place

namespace Lexer

variable {c : Char} {cs : List Char}

theorem isTrivia_next (hb : isBlank c = false) (hn : isBreak c = false) :
    (next c cs).1.isTrivia = false := by
  fun_cases next c cs with
  | case1 | case2 | case3 => cases hn
  | case4 | case5 => rfl
  | case6 _ _ _ _ _ _ _ hblank =>
    rw [hb] at hblank
    cases hblank
  | case7 c cs _ hr hn hs hs' hblank =>
    exact isTrivia_code c cs

-- Blanks at the front of a line are one lexeme.
theorem lexemes_indented (count : Nat) (hb : isBlank c = false) :
    lexemes (List.replicate (count + 1) ' ' ++ c :: cs) =
      .blank (String.ofList (List.replicate (count + 1) ' ')) :: lexemes (c :: cs) := by
  have htake : (List.replicate count ' ' ++ c :: cs).takeWhile isBlank =
      List.replicate count ' ' := by
    rw [List.takeWhile_append_of_pos fun d hd => by rw [List.eq_of_mem_replicate hd]; rfl,
      List.takeWhile_cons_of_neg (by simp [hb]), List.append_nil]
  have hdrop : (List.replicate count ' ' ++ c :: cs).dropWhile isBlank = c :: cs := by
    rw [List.dropWhile_append_of_pos fun d hd => by rw [List.eq_of_mem_replicate hd]; rfl,
      List.dropWhile_cons_of_neg (by simp [hb])]
  rw [List.replicate_succ, List.cons_append, lexemes_cons,
    next_of_ne (by decide) (by decide) (by simp) (by simp), if_pos (by decide), htake, hdrop]

end Lexer

namespace Row

variable {r : Row} {count line : Nat}

theorem isBreak_eq_false (r : Row) : ∀ c ∈ r.text.toList, Lexer.isBreak c = false :=
  fun c hc => by simpa using List.all_eq_true.mp r.unbroken c hc

theorem isBreak_indented (r : Row) (count : Nat) :
    ∀ c ∈ r.indented count, Lexer.isBreak c = false := by
  intro c hc
  rcases List.mem_append.mp hc with hc | hc
  · rw [List.eq_of_mem_replicate hc]
    rfl
  · exact r.isBreak_eq_false c hc

theorem exists_text (r : Row) : ∃ c cs, r.text.toList = c :: cs ∧ Lexer.isBlank c = false ∧
    Lexer.isBreak c = false := by
  have hsolid := r.solid
  have hbreak := r.isBreak_eq_false
  cases hr : r.text.toList with
  | nil => simp [hr] at hsolid
  | cons c cs =>
    refine ⟨c, cs, rfl, by simpa [hr] using hsolid, hbreak c (hr ▸ List.mem_cons_self)⟩

theorem sealed (r : Row) : Lexer.Sealed (r.text.toList ++ ['\n']) :=
  ⟨r.text.toList, rfl, r.unescaped⟩

theorem isComment_eq_false (r : Row) :
    ∀ l ∈ Lexer.lexemes (r.text.toList ++ ['\n']), l.isComment = false :=
  fun l hl => by simpa using List.all_eq_true.mp r.uncommented l hl

theorem lexemes_append (r : Row) (more : List Char) :
    Lexer.lexemes (r.text.toList ++ ['\n'] ++ more) =
      Lexer.lexemes (r.text.toList ++ ['\n']) ++ Lexer.lexemes more := by
  refine Lexer.lexemes_append r.sealed ?_ more
  rw [Option.any_eq_false]
  exact fun l hl => by simp [r.isComment_eq_false l (List.mem_of_getLast? hl)]

theorem endsLine (r : Row) : Source.EndsLine (Lexer.lexemes (r.text.toList ++ ['\n'])) :=
  Source.endsLine_lexemes List.getLast?_concat

-- The tokens of an indented row and of what follows it.
theorem exists_placed (r : Row) (count : Nat) (p : Place) (more : List Char) :
    ∃ blanks : List Token, (∀ b ∈ blanks, b.lexeme.isTrivia) ∧
      Source.placed p (Lexer.lexemes (r.indented count ++ ['\n'] ++ more)) =
        blanks ++ Source.placed ⟨p.line, p.column + count, p.offset + count⟩
          (Lexer.lexemes (r.text.toList ++ ['\n'])) ++
        Source.placed ⟨p.line + 1, 1, p.offset + count + r.text.length + 1⟩
          (Lexer.lexemes more) := by
  have hrow : ∀ q : Place, q.line = p.line → q.offset = p.offset + count →
      Source.placed q (Lexer.lexemes (r.text.toList ++ ['\n'] ++ more)) =
        Source.placed q (Lexer.lexemes (r.text.toList ++ ['\n'])) ++
          Source.placed ⟨p.line + 1, 1, p.offset + count + r.text.length + 1⟩
            (Lexer.lexemes more) := fun q hline hoffset => by
    rw [r.lexemes_append, Source.placed_append r.endsLine, Source.spelled,
      Lexer.flatMap_text_lexemes, Place.advance_feed q r.isBreak_eq_false, hline, hoffset,
      String.length_toList]
  cases count with
  | zero => exact ⟨[], List.forall_mem_nil _, hrow p rfl rfl⟩
  | succ count =>
    obtain ⟨c, cs, hr, hb, _⟩ := r.exists_text
    have hlexemes : Lexer.lexemes (r.indented (count + 1) ++ ['\n'] ++ more) =
        .blank (String.ofList (List.replicate (count + 1) ' ')) ::
          Lexer.lexemes (r.text.toList ++ ['\n'] ++ more) := by
      rw [indented, hr, List.append_assoc, List.append_assoc, List.cons_append,
        Lexer.lexemes_indented count hb]
      simp
    have hplace : ∀ after, p.advance (List.replicate (count + 1) ' ') after =
        ⟨p.line, p.column + (count + 1), p.offset + (count + 1)⟩ := fun after => by
      rw [Place.advance_unbroken p after fun c hc => by rw [List.eq_of_mem_replicate hc]; rfl,
        List.length_replicate]
    refine ⟨[⟨.blank (String.ofList (List.replicate (count + 1) ' ')),
      ⟨p, (p.last (List.replicate (count + 1) ' ')).right⟩⟩], by simp [Lexeme.isTrivia], ?_⟩
    rw [hlexemes, Source.placed]
    simp only [Lexeme.text, String.toList_ofList, hplace]
    rw [hrow ⟨p.line, p.column + (count + 1), p.offset + (count + 1)⟩ rfl rfl]
    rfl

theorem exists_lexemes (r : Row) :
    ∃ l ls, Lexer.lexemes (r.text.toList ++ ['\n']) = l :: ls ∧ l.isTrivia = false := by
  obtain ⟨c, cs, hr, hb, hn⟩ := r.exists_text
  rw [hr, List.cons_append, Lexer.lexemes_cons]
  exact ⟨_, _, rfl, Lexer.isTrivia_next hb hn⟩

theorem code_ne_nil (r : Row) : r.code ≠ [] := by
  obtain ⟨l, ls, hl, htrivia⟩ := r.exists_lexemes
  rw [code, codeOfLine, hl, List.filter_cons_of_pos (by simp [htrivia])]
  exact List.cons_ne_nil _ _

theorem has_placed (r : Row) (p : Place) (count : Nat) (hp : p.column = count + 1) :
    r.Has count p.line ((Source.placed p (Lexer.lexemes (r.text.toList ++ ['\n']))).filter
      (!·.lexeme.isTrivia)) where
  code := by
    rw [Row.code, codeOfLine]
    conv => rhs; rw [← Source.map_lexeme_placed p (Lexer.lexemes _), List.filter_map]
    rfl
  line t ht := by
    have hmem := (List.mem_filter.mp ht).1
    have hle := Source.line_le_of_mem_placed hmem
    have hlt : t.endLine < p.line + 1 := by
      have hlt := Source.endLine_lt_of_mem_placed r.endsLine hmem
      rwa [Source.spelled, Lexer.flatMap_text_lexemes, Place.advance_feed p r.isBreak_eq_false]
        at hlt
    have hend : t.line ≤ t.endLine := by
      rw [Token.endLine, Source.span_of_mem_placed hmem]
      exact Place.line_le_last ..
    omega
  column t ht := by
    obtain ⟨l, ls, hl, htrivia⟩ := r.exists_lexemes
    rw [hl, Source.placed, List.filter_cons_of_pos (by simp [htrivia])] at ht
    cases ht
    exact hp

-- Row by row, the tokens of some rows from the line of the given number on.
def AllHave (line : Nat) (rows : List (Row × Nat)) (groups : List (List Token)) : Prop :=
  List.Forall₂ (fun row ts => row.1.1.Has row.1.2 row.2 ts) (rows.zipIdx line) groups

theorem exists_groups (rows : List (Row × Nat)) (p : Place) (hp : p.column = 1) :
    (∀ t ∈ Source.placed p (Lexer.lexemes (textOf rows)), t.lexeme.isComment = false) ∧
    ∃ groups, (Source.placed p (Lexer.lexemes (textOf rows))).filter (!·.lexeme.isTrivia) =
      groups.flatten ∧ AllHave p.line rows groups := by
  induction rows generalizing p with
  | nil =>
    rw [textOf, List.flatMap_nil, Lexer.lexemes_nil]
    exact ⟨nofun, [], rfl, .nil⟩
  | cons row rows ih =>
    obtain ⟨r, count⟩ := row
    obtain ⟨blanks, hblanks, hplaced⟩ := r.exists_placed count p (textOf rows)
    obtain ⟨hcomment, groups, hgroups, hall⟩ :=
      ih ⟨p.line + 1, 1, p.offset + count + r.text.length + 1⟩ rfl
    have hrow := r.has_placed ⟨p.line, p.column + count, p.offset + count⟩ count
      (hp ▸ Nat.add_comm ..)
    rw [textOf, List.flatMap_cons, ← textOf, hplaced]
    constructor
    · intro t ht
      simp only [List.mem_append, or_assoc] at ht
      rcases ht with ht | ht | ht
      · have htrivia := hblanks t ht
        cases hl : t.lexeme <;> first | rfl | (rw [hl] at htrivia; cases htrivia)
      · refine r.isComment_eq_false _ ?_
        rw [← Source.map_lexeme_placed _ (Lexer.lexemes (r.text.toList ++ ['\n']))]
        exact List.mem_map_of_mem ht
      · exact hcomment t ht
    · refine ⟨_ :: groups, ?_, .cons hrow hall⟩
      have hnone : blanks.filter (!·.lexeme.isTrivia) = [] :=
        List.filter_eq_nil_iff.mpr fun b hb => by simp [hblanks b hb]
      rw [List.filter_append, List.filter_append, hnone, hgroups]
      rfl

end Row

namespace Source

theorem splitLines_feed {cs : List Char} (h : ∀ c ∈ cs, Lexer.isBreak c = false)
    (ds : List Char) : splitLines (cs ++ '\n' :: ds) = cs :: splitLines ds := by
  induction cs with
  | nil => rw [List.nil_append, splitLines_cons]; rfl
  | cons c cs ih =>
    obtain ⟨hc, hcs⟩ := List.forall_mem_cons.mp h
    obtain ⟨hr, hn⟩ : c ≠ '\r' ∧ c ≠ '\n' := by simpa [Lexer.isBreak] using hc
    rw [List.cons_append, splitLines_cons, ih hcs]
    simp [Place.endsLine, hr, hn]

theorem splitLines_textOf (rows : List (Row × Nat)) :
    splitLines (Row.textOf rows) = rows.map (fun (r, count) => r.indented count) ++ [[]] := by
  induction rows with
  | nil => rfl
  | cons row rows ih =>
    obtain ⟨r, count⟩ := row
    rw [Row.textOf, List.flatMap_cons, ← Row.textOf, List.append_assoc, List.singleton_append,
      splitLines_feed (r.isBreak_indented count), ih]
    rfl

end Source

theorem Rule.leadingBlanks_indented (r : Row) (count : Nat) :
    leadingBlanks (String.ofList (r.indented count)) = List.replicate count ' ' := by
  obtain ⟨c, cs, hr, hb, _⟩ := r.exists_text
  have hc : ¬(c = ' ' ∨ c = '\t') := by
    rintro (rfl | rfl) <;> cases hb
  rw [leadingBlanks, String.toList_ofList, Row.indented, hr,
    List.takeWhile_append_of_pos fun d hd => by rw [List.eq_of_mem_replicate hd]; rfl,
    List.takeWhile_cons_of_neg (by simpa using hc), List.append_nil]

-- The blanks at the front of a line are those that its row was indented by.
theorem Source.leadingBlanks_lineText {path : String} {rows : List (Row × Nat)} {r : Row}
    {count line : Nat} (h : ((r, count), line) ∈ rows.zipIdx 1) :
    Rule.leadingBlanks ((ofText path (String.ofList (Row.textOf rows))).lineText line) =
      List.replicate count ' ' := by
  obtain ⟨n, rfl, hn⟩ : ∃ n, line = n + 1 ∧ rows[n]? = some (r, count) := by
    have hmem := List.mk_mem_zipIdx_iff_le_and_getElem?_sub.mp h
    exact ⟨line - 1, by omega, hmem.2⟩
  have hline : (ofText path (String.ofList (Row.textOf rows))).lineText (n + 1) =
      String.ofList (r.indented count) := by
    obtain ⟨hlt, hn⟩ := List.getElem?_eq_some_iff.mp hn
    simp [ofText, lineText, splitLines_textOf, List.getElem?_append, hlt, hn]
  rw [hline, Rule.leadingBlanks_indented]

namespace Divided

-- Where nothing begins a directive, all is code.
theorem ofMarked_of_not_begins {ms : List Marked} {previous : Option Token}
    (hfirst : ∀ m ∈ ms.head?, begins previous m.token = false)
    (h : ms.IsChain fun a b => begins (some a.token) b.token = false) :
    ofMarked previous none ms = { code := ms } := by
  induction ms generalizing previous with
  | nil => rfl
  | cons m ms ih =>
    have hm := hfirst m rfl
    have hc : continues previous none m.token = false := by
      unfold continues
      split <;> simp_all
    have hrest := ih (fun k hk => (List.isChain_cons.mp h).1 k hk) h.tail
    rw [ofMarked]
    simp [hc, hm, hrest]

end Divided

namespace Row

variable {rows : List (Row × Nat)} {groups : List (List Token)} {line : Nat}

theorem Has.begins_eq_false {r : Row} {count : Nat} {ts : List Token} (h : r.Has count line ts) :
    (∀ previous, ∀ t ∈ ts.head?, Divided.begins previous t = false) ∧
      ts.IsChain fun a b => Divided.begins (some a) b = false := by
  constructor
  · intro previous t ht
    have hne : t.lexeme ≠ .punct .hash := fun hl => r.ordinary <| by
      rw [← Row.code, ← h.code, List.head?_map, ht, Option.map_some, hl]
    simp [Divided.begins, Lexeme.isMark, hne]
  · refine (List.pairwise_of_forall_mem_list fun a ha b hb => ?_).isChain
    simp [Divided.begins, (h.line a ha).2, (h.line b hb).1]

-- No row begins a directive.
theorem AllHave.begins_eq_false (h : AllHave line rows groups) :
    (∀ previous, ∀ t ∈ groups.flatten.head?, Divided.begins previous t = false) ∧
      groups.flatten.IsChain fun a b => Divided.begins (some a) b = false := by
  rw [AllHave] at h
  generalize rows.zipIdx line = numbered at h
  induction h with
  | nil => exact ⟨by simp, .nil⟩
  | @cons row ts rows groups hrow _ ih =>
    obtain ⟨hhead, hchain⟩ := hrow.begins_eq_false
    rw [List.flatten_cons]
    refine ⟨fun previous t ht => ?_, List.isChain_append.mpr ⟨hchain, ih.2, ?_⟩⟩
    · rw [List.head?_append, Option.mem_def, Option.or_eq_some_iff] at ht
      exact ht.elim (hhead previous t) fun ht => ih.1 previous t ht.2
    · exact fun a _ b hb => ih.1 (some a) b hb

theorem AllHave.code (h : AllHave line rows groups) :
    groups.flatten.map (·.lexeme) = rows.flatMap fun row => row.1.code := by
  induction rows generalizing line groups with
  | nil =>
    cases h
    rfl
  | cons row rows ih =>
    cases h with
    | cons hrow hrows =>
      rw [List.flatten_cons, List.map_append, hrow.code, ih hrows, List.flatMap_cons]

-- A file of rows is all code, row by row.
theorem exists_code (path : String) (rows : List (Row × Nat)) :
    ∃ groups, (Outline.ofSource (.ofText path (String.ofList (textOf rows)))).code.toList =
      groups.flatten ∧ AllHave 1 rows groups := by
  obtain ⟨hcomment, groups, hgroups, hall⟩ := exists_groups rows .origin rfl
  refine ⟨groups, ?_, hall⟩
  obtain ⟨hhead, hchain⟩ := hall.begins_eq_false
  have hmarked : (Gathering.ofTokens
      (Source.placed .origin (Lexer.lexemes (textOf rows)))).markedList =
      groups.flatten.map (⟨·, none⟩) := by
    rw [Gathering.markedList, Gathering.ofTokens,
      (Gathering.foldl_step_plain hcomment {} rfl).2, hgroups, List.append_nil,
      List.reverse_reverse]
  have hdivided : Divided.ofMarked none none (groups.flatten.map (⟨·, none⟩)) =
      { code := groups.flatten.map (⟨·, none⟩) } := by
    refine Divided.ofMarked_of_not_begins (fun m hm => ?_) ((List.isChain_map _).mpr hchain)
    rw [List.head?_map] at hm
    obtain ⟨t, ht, rfl⟩ := Option.map_eq_some_iff.mp hm
    exact hhead none t ht
  simp only [Outline.ofSource, Parts.tokens, Parts.ofTokens, Source.ofText, String.toList_ofList,
    hmarked, hdivided]
  simp [Function.comp_def]

end Row
end CLint
