import CLint.Proofs.Flipped.Ending
import CLint.Proofs.Flipped.Formula
import CLint.Proofs.Partition
import CLint.Proofs.Spelling
import Mathlib.Data.List.Chain

namespace CLint.Lexer

variable {c d : Char} {cs rest : List Char} {l m : Lexeme} {ls as bs : List Lexeme}

-- A lexeme that is read as it is spelled, before any text that it does not run on into.
def Readable (l : Lexeme) : Prop :=
  ∀ more : List Char, (∀ d ∈ more.head?, l.runsOn d = false) → Reads l more

-- The first of two lexemes does not run on into the second one.
def Keeps (l m : Lexeme) : Prop :=
  ∀ d ∈ m.text.toList.head?, l.runsOn d = false

theorem Reads.lexemes_append (h : Reads l rest) :
    lexemes (l.text.toList ++ rest) = l :: lexemes rest := by
  obtain ⟨c, cs, htext, hnext⟩ := h
  rw [htext, List.cons_append, lexemes_cons, hnext]

theorem Readable.text_ne_nil (h : Readable l) : l.text.toList ≠ [] := by
  obtain ⟨c, cs, htext, -⟩ := h [] nofun
  rw [htext]
  exact List.cons_ne_nil c cs

theorem head?_flatMap_text (h : m.text.toList ≠ []) (ms : List Lexeme) :
    ((m :: ms).flatMap (·.text.toList)).head? = m.text.toList.head? := by
  obtain ⟨c, cs, hc⟩ := List.exists_cons_of_ne_nil h
  simp [hc]

-- Lexemes that do not run on into one another are read from the text that they make up.
theorem lexemes_flatMap_text (hr : ∀ l ∈ ls, Readable l) (hk : ls.IsChain Keeps) :
    lexemes (ls.flatMap (·.text.toList)) = ls := by
  induction ls with
  | nil => exact lexemes_nil
  | cons l ls ih =>
    obtain ⟨hl, hls⟩ := List.forall_mem_cons.mp hr
    obtain ⟨hnext, hchain⟩ := List.isChain_cons.mp hk
    rw [List.flatMap_cons, Reads.lexemes_append (hl _ ?_), ih hls hchain]
    cases ls with
    | nil => nofun
    | cons m ms =>
      rw [head?_flatMap_text (hls m List.mem_cons_self).text_ne_nil]
      exact hnext m rfl

theorem lexemes_behind (h : lexemes cs = as ++ bs) : lexemes (bs.flatMap (·.text.toList)) = bs := by
  induction as generalizing cs with
  | nil => rw [← List.nil_append bs, ← h, flatMap_text_lexemes]
  | cons a as ih =>
    cases cs with
    | nil =>
      rw [lexemes_nil] at h
      cases h
    | cons c cs =>
      rw [lexemes_cons] at h
      exact ih (List.cons.inj h).2

theorem ends_of_lexemes (h : lexemes cs = as ++ l :: bs) (hl : l.isSteady) :
    Ends l (bs.flatMap (·.text.toList)) := by
  have hmem : l ∈ lexemes cs := by simp [h]
  have hne := text_ne_nil_of_mem_lexemes hmem
  have hlexemes := lexemes_behind h
  obtain ⟨d, ds, hd⟩ := List.exists_cons_of_ne_nil hne
  rw [List.flatMap_cons, hd, List.cons_append, lexemes_cons] at hlexemes
  obtain ⟨hfirst, -⟩ := List.cons.inj hlexemes
  have hcut := next_append d (ds ++ bs.flatMap (·.text.toList))
  rw [hfirst, ← List.cons_append, ← hd] at hcut
  have hends := ends_next (hfirst ▸ hl)
  rwa [hfirst, List.append_cancel_left hcut] at hends

theorem keeps_of_lexemes (h : lexemes cs = as ++ l :: m :: bs) (hl : l.isSteady) : Keeps l m := by
  have hmem : m ∈ lexemes cs := by simp [h]
  have hm := text_ne_nil_of_mem_lexemes hmem
  have hstops := (ends_of_lexemes h hl).stops
  rwa [head?_flatMap_text hm] at hstops

theorem readable_of_lexemes (h : lexemes cs = as ++ l :: bs) (hl : l.isSteady)
    (hc : l.isComment → bs ≠ []) : Readable l := by
  refine (ends_of_lexemes h hl).reads fun hcomment => ?_
  obtain ⟨m, ms, rfl⟩ := List.exists_cons_of_ne_nil (hc hcomment)
  have hmem : m ∈ lexemes cs := by simp [h]
  have hm := text_ne_nil_of_mem_lexemes hmem
  simp [hm]

-- The first character of an operand, and one that no operand runs on into.

def opensOperand (d : Char) : Bool :=
  isWordChar d || d = '.' || d = '('

def isApart (d : Char) : Bool :=
  !isWordChar d && !isQuote d && d ≠ '.' && d ≠ '+' && d ≠ '-'

-- A word is as long as can be.
theorem takeWhile_of_next {name : String} (h : (next c cs).1 = .identifier name) :
    isWordStart c ∧ (c :: cs).takeWhile isWordChar = name.toList := by
  fun_cases next c cs with
  | case7 c cs _ hr hn hs hs' hb =>
    rw [next_of_ne hr hn hs hs', if_neg hb] at h
    unfold code at h
    split at h
    case h_1 =>
      unfold literal at h
      split at h <;> cases h
    case h_2 =>
      split at h
      case h_1 => cases h
      case h_2 =>
        split at h
        case isTrue hw =>
          have htext := congrArg Lexeme.text h
          rw [word, text_named] at htext
          exact ⟨hw, String.toList_ofList.symm.trans (congrArg String.toList htext)⟩
        case isFalse =>
          unfold mark at h
          split at h <;> cases h
  | _ => simp_all [next]

theorem exists_next_of_mem_lexemes (h : l ∈ lexemes cs) : ∃ c cs, (next c cs).1 = l := by
  fun_induction lexemes cs with
  | case1 => cases h
  | case2 c cs ih =>
    cases List.mem_cons.mp h
    case inl h => exact ⟨c, cs, h.symm⟩
    case inr h => exact ih h

-- A lexeme that was read begins with the character at which the reader stood.
theorem head?_text_of_next (h : (next c cs).1 = l) : l.text.toList.head? = some c := by
  have hne := next_text_ne_nil c cs
  have hcut := next_append c cs
  rw [h] at hne hcut
  obtain ⟨d, ds, hd⟩ := List.exists_cons_of_ne_nil hne
  rw [hd] at hcut
  rw [hd, List.head?_cons, (List.cons.inj hcut).1]

theorem opensOperand_of_mem_lexemes (h : l ∈ lexemes cs) (hl : l.startsOperand) :
    ∀ d ∈ l.text.toList.head?, opensOperand d := by
  intro d hd
  cases l with
  | identifier name =>
    obtain ⟨c, cs, hnext⟩ := exists_next_of_mem_lexemes h
    cases (head?_text_of_next hnext).symm.trans hd
    simp [opensOperand, isWordChar_of_isWordStart (takeWhile_of_next hnext).1]
  | number text =>
    obtain ⟨c, hc, hdigit⟩ := typical_of_mem_lexemes h
    cases Option.mem_unique hc hd
    rcases hdigit with hdigit | rfl
    · simp [opensOperand, isWordChar, Char.isAlphanum, hdigit]
    · rfl
  | punct p =>
    cases of_decide_eq_true hl
    cases hd
    rfl
  | _ => cases hl

theorem isApart_of_next (h : (next c cs).1.isTrivia ∨ (next c cs).1.isComment) : isApart c := by
  fun_cases next c cs with
  | case6 c cs _ _ _ _ _ hb =>
    simp only [isBlank, Bool.or_eq_true, decide_eq_true_eq] at hb
    rcases hb with ((rfl | rfl) | rfl) | rfl <;> rfl
  | case7 c cs _ hr hn hs hs' hb =>
    rw [next_of_ne hr hn hs hs', if_neg hb, isTrivia_code, isComment_code] at h
    simp at h
  | _ => rfl

theorem isApart_of_mem_lexemes (h : l ∈ lexemes cs) (hl : l.isTrivia ∨ l.isComment) :
    ∀ d ∈ l.text.toList.head?, isApart d := by
  intro d hd
  obtain ⟨c, cs, hnext⟩ := exists_next_of_mem_lexemes h
  cases (head?_text_of_next hnext).symm.trans hd
  exact isApart_of_next (hnext ▸ hl)

theorem not_runsOn_blank (hl : l.isArithmetic) : l.runsOn ' ' = false := by
  cases l with
  | identifier name => simp [Lexeme.runsOn, isWordChar, isQuote]
  | number text => simp [Lexeme.runsOn, isWordChar]
  | punct p =>
    have hno : p.chars ++ [' '] ∉ Punct.all.map Punct.chars := fun h =>
      absurd (Punct.mem_of_chars_append h) (by decide)
    simpa [Lexeme.runsOn] using hno
  | _ => cases hl

theorem not_runsOn_of_isApart (hl : l.endsOperand) (hd : isApart d) : l.runsOn d = false := by
  simp only [isApart, Bool.and_eq_true, Bool.not_eq_true', decide_eq_true_eq] at hd
  obtain ⟨⟨⟨⟨hw, hq⟩, hdot⟩, hplus⟩, hminus⟩ := hd
  cases l with
  | identifier name => simp [Lexeme.runsOn, hw, hq]
  | number text => simp [Lexeme.runsOn, hw, hdot, hplus, hminus]
  | punct p =>
    cases of_decide_eq_true hl
    have halone : ∀ q ∈ Punct.all, q.chars.head? = some ')' → q.chars.length = 1 := by decide
    have hno : Punct.rparen.chars ++ [d] ∉ Punct.all.map Punct.chars := by
      intro h
      obtain ⟨q, hq, hchars⟩ := List.mem_map.mp h
      have hlen := halone q hq (by rw [hchars]; rfl)
      rw [hchars] at hlen
      cases hlen
    simpa [Lexeme.runsOn] using hno
  | _ => cases hl

theorem plain_of_opensOperand (h : opensOperand d) :
    isBreak d = false ∧ isBlank d = false ∧ d ≠ '/' ∧ d ≠ '*' ∧
      d ∉ ['=', '<', '>', '+', '-', '&', '|', '#'] := by
  simp only [opensOperand, Bool.or_eq_true, decide_eq_true_eq] at h
  rcases h with h | rfl
  · obtain ⟨hb, hbl, hs⟩ := plain_of_isWordChar h
    refine ⟨hb, hbl, hs, ?_, ?_⟩
    · rintro rfl
      rcases h with h | h <;> cases h
    · intro hmem
      simp only [List.mem_cons, List.not_mem_nil, or_false] at hmem
      rcases hmem with rfl | rfl | rfl | rfl | rfl | rfl | rfl | rfl <;> rcases h with h | h <;>
        cases h
  · decide

-- A lexeme that stands before an operand can stand before any other one, unless it is a word or a
-- number itself.
theorem not_runsOn_of_opensOperand {e : Char} (hd : opensOperand d) (he : opensOperand e)
    (hl : l.isTrivia ∨ l.isComment ∨ l.level < 11) (h : l.runsOn d = false) :
    l.runsOn e = false := by
  obtain ⟨hd, -⟩ := plain_of_opensOperand hd
  obtain ⟨hbreak, hblank, hslash, hstar, hmarks⟩ := plain_of_opensOperand he
  cases l with
  | newline t =>
    have hne : e ≠ '\n' := by
      rintro rfl
      cases hbreak
    simp [Lexeme.runsOn, hne]
  | blank t => exact hblank
  | comment t => simp_all [Lexeme.runsOn]
  | punct p =>
    have hno : p.chars ++ [e] ∉ Punct.all.map Punct.chars := fun h =>
      hmarks (Punct.mem_of_chars_append h)
    simpa [Lexeme.runsOn, hslash, hstar] using hno
  | _ => simp [Lexeme.isTrivia, Lexeme.isComment, Lexeme.level] at hl

section

variable {before left mid right after ms : List Lexeme} {op : Punct}

theorem isSteady_of_arithmetic (h : l.isArithmetic ∨ l.isTrivia ∨ l.isComment) : l.isSteady := by
  cases l with
  | punct p => cases p <;> simp_all [Lexeme.isArithmetic, Lexeme.isSteady, Lexeme.isTrivia,
      Lexeme.isComment, Punct.level]
  | _ => simp_all [Lexeme.isArithmetic, Lexeme.isSteady, Lexeme.isTrivia, Lexeme.isComment]

theorem isChain_of_lexemes (h : lexemes cs = as ++ ms ++ bs) (hs : ∀ l ∈ ms, l.isSteady) :
    ms.IsChain Keeps := by
  refine List.isChain_iff_forall_rel_of_append_cons_cons.mpr fun l m front rest hms => ?_
  have hfile : lexemes cs = (as ++ front) ++ l :: m :: (rest ++ bs) := by simp [h, hms]
  exact keeps_of_lexemes hfile (hs l (by simp [hms]))

theorem readable_of_mem (h : lexemes cs = as ++ ms ++ bs) (hl : l ∈ ms) (hs : l.isSteady)
    (hlast : ∀ m ∈ ms.getLast?, m.isComment = false) : Readable l := by
  obtain ⟨front, rest, rfl⟩ := List.append_of_mem hl
  have hfile : lexemes cs = (as ++ front) ++ l :: (rest ++ bs) := by simp [h]
  refine readable_of_lexemes hfile hs fun hc hnil => ?_
  obtain ⟨rfl, -⟩ := List.append_eq_nil_iff.mp hnil
  have hlast := hlast l (by simp)
  rw [hc] at hlast
  cases hlast

theorem readable_blank : Readable (.blank " ") := by
  intro more hm
  have hstop : more.takeWhile isBlank = [] ∧ more.dropWhile isBlank = more :=
    takeWhile_append_of_stop (List.forall_mem_nil _) hm
  have hnext : next ' ' more = (.blank (String.ofList (' ' :: more.takeWhile isBlank)),
      more.dropWhile isBlank) :=
    next_of_ne (by decide) (by decide) (fun _ h => absurd h (by decide))
      (fun _ h => absurd h (by decide))
  rw [hstop.1, hstop.2] at hnext
  exact ⟨' ', [], rfl, hnext⟩

variable {l' : Lexeme}

theorem keeps_before_operand (hl : l ∈ lexemes cs) (hl' : l' ∈ lexemes cs) (hs : l.startsOperand)
    (hs' : l'.startsOperand) (hm : m.isTrivia ∨ m.isComment ∨ m.level < 11) (h : Keeps m l) :
    Keeps m l' := by
  intro d' hd'
  obtain ⟨d, ds, hd⟩ := List.exists_cons_of_ne_nil (text_ne_nil_of_mem_lexemes hl)
  have hfirst : d ∈ l.text.toList.head? := by rw [hd]; rfl
  exact not_runsOn_of_opensOperand (opensOperand_of_mem_lexemes hl hs d hfirst)
    (opensOperand_of_mem_lexemes hl' hs' d' hd') hm (h d hfirst)

theorem keeps_blank (hl : l.isArithmetic) : Keeps l (.blank " ") := by
  rintro d ⟨⟩
  exact not_runsOn_blank hl

theorem blank_keeps_punct (p : Punct) : Keeps (.blank " ") (.punct p) := by
  cases p <;> rintro d ⟨⟩ <;> rfl

theorem isArithmetic_of_isComparison (h : op.isComparison) : (Lexeme.punct op).isArithmetic := by
  cases op <;> first | rfl | cases h

theorem isArithmetic_of_endsOperand (h : l.endsOperand) : l.isArithmetic := by
  cases l with
  | identifier name | number text => rfl
  | punct p => cases of_decide_eq_true h; rfl
  | _ => cases h

-- The operands of a comparison are exchanged, with the operator between two blanks.
def exchanged (op : Punct) (before left right after : List Lexeme) : List Lexeme :=
  before ++ right ++ ([.blank " ", .punct op, .blank " "] ++ left ++ after)

-- What is read is just what is written.
theorem lexemes_exchanged (hop : op.isComparison)
    (h : lexemes cs = as ++ (before ++ left ++ (mid ++ right ++ after)) ++ bs)
    (hall : ∀ l ∈ before ++ left ++ (mid ++ right ++ after),
      l.isArithmetic ∨ l.isTrivia ∨ l.isComment)
    (hlast : ∀ l ∈ (before ++ left ++ (mid ++ right ++ after)).getLast?, l.isComment = false)
    (hbefore : ∀ l ∈ before.getLast?, l.isTrivia ∨ l.isComment ∨ l.level < 11)
    (hleft : ∃ l ∈ left.head?, l.startsOperand) (hleft' : ∃ l ∈ left.getLast?, l.endsOperand)
    (hright : ∃ l ∈ right.head?, l.startsOperand) (hright' : ∃ l ∈ right.getLast?, l.endsOperand)
    (hafter : ∀ l ∈ after.head?, ∀ d ∈ l.text.toList.head?, isApart d) :
    lexemes ((exchanged op before left right after).flatMap (·.text.toList)) =
      exchanged op before left right after := by
  have hsteady := fun l hl => isSteady_of_arithmetic (hall l hl)
  have hread := fun l hl => readable_of_mem h hl (hsteady l hl) hlast
  have hmem : ∀ l ∈ before ++ left ++ (mid ++ right ++ after), l ∈ lexemes cs := fun l hl => by
    rw [h]
    exact List.mem_append_left _ (List.mem_append_right _ hl)
  have hchain := isChain_of_lexemes h hsteady
  simp only [List.isChain_append] at hchain
  obtain ⟨⟨hbefores, hlefts, hopens⟩, ⟨⟨-, hrights, -⟩, hafters, -⟩, -⟩ := hchain
  obtain ⟨first, hfirst, hstarts⟩ := hleft
  obtain ⟨last, hlast', hends⟩ := hleft'
  obtain ⟨first', hfirst', hstarts'⟩ := hright
  obtain ⟨last', hlast'', hends'⟩ := hright'
  refine lexemes_flatMap_text (fun l hl => ?_) ?_
  · have hop' : Readable (.punct op) := fun more hm =>
      reads_punct (isSteady_of_arithmetic (.inl (isArithmetic_of_isComparison hop))) hm
    simp only [exchanged, List.mem_append, List.mem_cons, List.not_mem_nil, or_false] at hl hread
    rcases hl with (hl | hl) | (((rfl | rfl | rfl) | hl) | hl)
    · exact hread l (.inl (.inl hl))
    · exact hread l (.inr (.inl (.inr hl)))
    · exact readable_blank
    · exact hop'
    · exact readable_blank
    · exact hread l (.inl (.inr hl))
    · exact hread l (.inr (.inr hl))
  · have hoperator : [Lexeme.blank " ", .punct op, .blank " "].IsChain Keeps := by
      refine List.isChain_cons_cons.mpr ⟨blank_keeps_punct op, List.isChain_pair.mpr ?_⟩
      exact keeps_blank (isArithmetic_of_isComparison hop)
    have hleft : left ≠ [] := by
      rintro rfl
      cases hfirst
    simp only [exchanged, List.isChain_append]
    refine ⟨⟨hbefores, hrights, fun l hl m hm => ?_⟩, ⟨⟨hoperator, hlefts, fun l hl m hm => ?_⟩,
      hafters, fun l hl m hm => ?_⟩, fun l hl m hm => ?_⟩
    · cases Option.mem_unique hm hfirst'
      have hin : first ∈ left := List.mem_of_mem_head? hfirst
      have hin' : first' ∈ right := List.mem_of_mem_head? hfirst'
      exact keeps_before_operand (hmem first (by simp [hin])) (hmem first' (by simp [hin']))
        hstarts hstarts' (hbefore l hl) (hopens l hl first hfirst)
    · cases hl
      cases Option.mem_unique hm hfirst
      have hin : first ∈ left := List.mem_of_mem_head? hfirst
      exact fun d hd => (plain_of_opensOperand
        (opensOperand_of_mem_lexemes (hmem first (by simp [hin])) hstarts d hd)).2.1
    · rw [List.getLast?_append_of_ne_nil _ hleft] at hl
      cases Option.mem_unique hl hlast'
      exact fun d hd => not_runsOn_of_isApart hends (hafter m hm d hd)
    · have hright : right ≠ [] := by
        rintro rfl
        cases hfirst'
      rw [List.getLast?_append_of_ne_nil _ hright] at hl
      cases Option.mem_unique hl hlast''
      cases hm
      exact keeps_blank (isArithmetic_of_endsOperand hends')

end

end CLint.Lexer
