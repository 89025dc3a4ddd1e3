import CLint.Stmt.Read

namespace CLint

-- The words that a statement of its own kind begins with.
def Keyword.startsStatement : Keyword → Bool
  | .ifKw | .elseKw | .switchKw | .forKw | .whileKw | .doKw | .caseKw | .defaultKw => true
  | k => k.isJump

-- May a lexeme begin a statement that nothing but its end is known of?
def Lexeme.isPlain : Lexeme → Bool
  | punct .lbrace | punct .rbrace | punct .semicolon => false
  | keyword k => !k.startsStatement
  | _ => true

-- The control statements that consist of a group and a body.
def Keyword.groupHead? : Keyword → Option Head
  | .switchKw => some .switchHead
  | .forKw => some .forHead
  | .whileKw => some .whileHead
  | _ => none

namespace Stmt

-- What a reader of code is after: a statement, a block from behind its brace, the body of a
-- control statement, or what continues an `if`.
inductive Part
  | stmt (atFile : Bool) | block | body | tail

-- That `Reads p ls ss rest` holds says that the part `p` takes the statements `ss` from the front of
-- the code `ls`, and leaves the code `rest`.
inductive Reads : Part → List Lexeme → List Stmt → List Lexeme → Prop
  | stray {atFile : Bool} {ls : List Lexeme} :
      Reads (.stmt atFile) (.punct .rbrace :: ls) [stray] ls
  | empty {atFile : Bool} {ls : List Lexeme} :
      Reads (.stmt atFile) (.punct .semicolon :: ls) [empty] ls
  | block {atFile : Bool} {ls rest : List Lexeme} {ss : List Stmt}
      (b : Reads .block ls ss rest) : Reads (.stmt atFile) (.punct .lbrace :: ls) ss rest
  | branch {atFile : Bool} {ls more mid rest : List Lexeme} {group : Option Group}
      {body tail : List Stmt} (hg : readGroup false ls = (group, more))
      (b : Reads .body more body mid) (t : Reads .tail mid tail rest) :
      Reads (.stmt atFile) (.keyword .ifKw :: ls) [control .ifHead group (body ++ tail)] rest
  | loneElse {atFile : Bool} {ls rest : List Lexeme} {body : List Stmt}
      (b : Reads .body ls body rest) :
      Reads (.stmt atFile) (.keyword .elseKw :: ls) [control .loneElse none body] rest
  | headed {atFile : Bool} {k : Keyword} {head : Head} {ls more rest : List Lexeme}
      {group : Option Group} {body : List Stmt} (hk : k.groupHead? = some head)
      (hg : readGroup (head = .forHead) ls = (group, more)) (b : Reads .body more body rest) :
      Reads (.stmt atFile) (.keyword k :: ls) [control head group body] rest
  | doLoop {atFile : Bool} {ls mid rest : List Lexeme} {body tail : List Stmt}
      (b : Reads .body ls body mid) (hw : readDoWhile mid = (tail, rest)) :
      Reads (.stmt atFile) (.keyword .doKw :: ls) [control .doHead none (body ++ tail)] rest
  | caseLabel {atFile : Bool} {k : Keyword} {ls text rest : List Lexeme} (hk : isCaseWord k)
      (ht : readLabel 0 0 ls = (text, rest)) :
      Reads (.stmt atFile) (.keyword k :: ls) [label (.keyword k) text] rest
  | jump {atFile ended : Bool} {k : Keyword} {ls text rest : List Lexeme} (hk : k.isJump)
      (ht : readText (.keyword k) ls = (text, ended, rest)) :
      Reads (.stmt atFile) (.keyword k :: ls) [jump k text ended] rest
  | nameLabel {l : Lexeme} {ls : List Lexeme} (hl : l.isIdentifier) :
      Reads (.stmt false) (l :: .punct .colon :: ls) [label l [.punct .colon]] ls
  | simple {atFile ended : Bool} {l : Lexeme} {ls text rest : List Lexeme} (hp : l.isPlain)
      (hl : (!atFile && startsLabel l ls) = false) (ht : readText l ls = (text, ended, rest))
      (hf : startsFunction atFile l text ended rest = false) :
      Reads (.stmt atFile) (l :: ls) [simple atFile l text ended] rest
  | function {l : Lexeme} {ls text more rest : List Lexeme} {body : Stmt} (hp : l.isPlain)
      (ht : readText l ls = (text, false, .punct .lbrace :: more))
      (hf : Batch.definesFunction ⟨0, l :: text⟩) (b : Reads .block more [body] rest) :
      Reads (.stmt true) (l :: ls) [function (l :: text) body] rest
  | blockEnd : Reads .block [] [.block [] false] []
  | blockClose {ls : List Lexeme} : Reads .block (.punct .rbrace :: ls) [.block [] true] ls
  | blockItem {l : Lexeme} {ls mid rest : List Lexeme} {s : Stmt} {ss : List Stmt} {closed : Bool}
      (hl : l ≠ .punct .rbrace) (i : Reads (.stmt false) (l :: ls) [s] mid)
      (b : Reads .block mid [.block ss closed] rest) :
      Reads .block (l :: ls) [.block (s :: ss) closed] rest
  | bodyEnd : Reads .body [] [] []
  | bodyClose {ls : List Lexeme} : Reads .body (.punct .rbrace :: ls) [] (.punct .rbrace :: ls)
  | body {l : Lexeme} {ls rest : List Lexeme} {s : Stmt} (hl : l ≠ .punct .rbrace)
      (i : Reads (.stmt false) (l :: ls) [s] rest) : Reads .body (l :: ls) [s] rest
  | noTail {ls : List Lexeme} (h : ls.head? ≠ some (.keyword .elseKw)) : Reads .tail ls [] ls
  | elseIf {ls rest : List Lexeme} {group : Option Group} {parts : List Stmt}
      (b : Reads (.stmt false) (.keyword .ifKw :: ls) [control .ifHead group parts] rest) :
      Reads .tail (.keyword .elseKw :: .keyword .ifKw :: ls) [control .elseIf group parts] rest
  | elseBody {ls rest : List Lexeme} {body : List Stmt} (h : ls.head? ≠ some (.keyword .ifKw))
      (b : Reads .body ls body rest) :
      Reads .tail (.keyword .elseKw :: ls) [control .elseHead none body] rest

variable {ls rest : List Lexeme} {ss : List Stmt} {p : Part}

-- The code that is already behind the reader of a part when it starts.
def Part.lead : Part → List Lexeme
  | block => [.punct .lbrace]
  | _ => []

@[simp]
theorem listLexemes_append (ss ts : List Stmt) :
    listLexemes (ss ++ ts) = listLexemes ss ++ listLexemes ts := by
  induction ss with
  | nil => rfl
  | cons s ss ih => simp only [List.cons_append, listLexemes, ih, List.append_assoc]

@[simp]
theorem listLexemes_singleton (s : Stmt) : listLexemes [s] = s.lexemes :=
  List.append_nil _

theorem listSize_append (ss ts : List Stmt) :
    listSize (ss ++ ts) = listSize ss + listSize ts := by
  rw [← length_listLexemes, ← length_listLexemes, ← length_listLexemes, listLexemes_append,
    List.length_append]

theorem lexemes_of_groupHead? {k : Keyword} {head : Head} (h : k.groupHead? = some head) :
    head.lexemes = [.keyword k] := by
  cases k <;> cases h <;> rfl

theorem append_of_readGroup {semicolons : Bool} {group : Option Group}
    (h : readGroup semicolons ls = (group, rest)) : groupLexemes group ++ rest = ls := by
  simpa only [h] using readGroup_append semicolons ls

theorem append_of_readText {l : Lexeme} {text : List Lexeme} {ended : Bool}
    (h : readText l ls = (text, ended, rest)) : text ++ semicolonIf ended ++ rest = ls := by
  simpa only [h] using readText_append l ls

theorem append_of_readLabel {depth : Int} {pending : Nat} {text : List Lexeme}
    (h : readLabel depth pending ls = (text, rest)) : text ++ rest = ls := by
  simpa only [h] using readLabel_append depth pending ls

theorem append_of_readDoWhile (h : readDoWhile ls = (ss, rest)) : listLexemes ss ++ rest = ls := by
  simpa only [h] using readDoWhile_append ls

-- Nothing of the code is lost.
theorem Reads.append (h : Reads p ls ss rest) : listLexemes ss ++ rest = p.lead ++ ls := by
  induction h with
  | stray | empty | nameLabel | blockEnd | blockClose | bodyEnd | bodyClose | noTail => rfl
  | block _ ih => exact ih
  | branch hg _ _ ihb iht =>
    simp_all [lexemes, Head.lexemes, Part.lead, append_of_readGroup hg]
  | loneElse _ ih => simpa [lexemes, Head.lexemes, groupLexemes, Part.lead] using ih
  | headed hk hg _ ih =>
    simp_all [lexemes, lexemes_of_groupHead? hk, Part.lead, append_of_readGroup hg]
  | doLoop _ hw ih =>
    simp_all [lexemes, Head.lexemes, groupLexemes, Part.lead, append_of_readDoWhile hw]
  | caseLabel _ ht => simp [lexemes, Part.lead, append_of_readLabel ht]
  | jump _ ht | simple _ _ ht _ => simpa [lexemes, Part.lead] using append_of_readText ht
  | function _ ht _ _ ih =>
    have ht := append_of_readText ht
    simp_all [lexemes, Part.lead, semicolonIf]
  | blockItem _ _ _ ihi ihb => simp_all [lexemes, listLexemes, Part.lead]
  | body _ _ ih => exact ih
  | elseIf _ ih => simpa [lexemes, Head.lexemes, Part.lead] using ih
  | elseBody _ _ ih => simpa [lexemes, Head.lexemes, groupLexemes, Part.lead] using ih

theorem size_pos (s : Stmt) : 0 < s.size := by
  cases s with
  | function header body =>
    have := size_pos body
    simp only [size]
    omega
  | control head => cases head <;> simp only [size, Head.lexemes, List.length] <;> omega
  | _ => simp only [size]; omega

-- The functions of the reader behind one name.
def Part.run : Part → List Lexeme → List Stmt × List Lexeme
  | stmt _, [] => ([], [])
  | stmt atFile, l :: ls => ([(read atFile l ls).value], (read atFile l ls).rest)
  | block, ls =>
    ([.block (readItems ls).value.1 (readItems ls).value.2], (readItems ls).rest)
  | body, ls => ((readBody ls).value, (readBody ls).rest)
  | tail, ls => ((readTail ls).value, (readTail ls).rest)

theorem read_plain {l : Lexeme} {atFile : Bool} (hp : l.isPlain)
    (hl : (!atFile && startsLabel l ls) = false) : read atFile l ls = readSimple atFile l ls := by
  cases l with
  | punct p => cases p <;> simp_all [Lexeme.isPlain, read]
  | keyword k =>
    cases k <;>
      simp_all [Lexeme.isPlain, Keyword.startsStatement, Keyword.isJump, isCaseWord, read]
  | _ => simp_all [Lexeme.isPlain, read]

theorem read_headed {k : Keyword} {head : Head} (hk : k.groupHead? = some head) (atFile : Bool)
    (ls : List Lexeme) : read atFile (.keyword k) ls = readHeaded head ls := by
  cases k <;> cases hk <;> simp only [read]

theorem read_caseLabel {k : Keyword} (hk : isCaseWord k) (atFile : Bool) (ls : List Lexeme) :
    read atFile (.keyword k) ls =
      ⟨label (.keyword k) (readLabel 0 0 ls).1, (readLabel 0 0 ls).2, readLabel_length ..⟩ := by
  cases k <;> simp_all [isCaseWord, read]

theorem read_jump {k : Keyword} (hk : k.isJump) (atFile : Bool) (ls : List Lexeme) :
    read atFile (.keyword k) ls =
      ⟨jump k (readText (.keyword k) ls).1 (readText (.keyword k) ls).2.1,
        (readText (.keyword k) ls).2.2, readText_length ..⟩ := by
  cases k <;> simp_all [isCaseWord, Keyword.isJump, read]

theorem read_nameLabel {l : Lexeme} (hl : l.isIdentifier) :
    read false l (.punct .colon :: ls) = ⟨label l [.punct .colon], ls, Nat.le_succ _⟩ := by
  cases l <;> simp_all [Lexeme.isIdentifier, read, startsLabel, Lexeme.isMark]

theorem run_function {l : Lexeme} {text more : List Lexeme} (hp : l.isPlain)
    (ht : readText l ls = (text, false, .punct .lbrace :: more))
    (hd : Batch.definesFunction ⟨0, l :: text⟩) :
    (Part.stmt true).run (l :: ls) =
      ([function (l :: text) (.block (readItems more).value.1 (readItems more).value.2)],
        (readItems more).rest) := by
  have hf : startsFunction true l (readText l ls).1 (readText l ls).2.1 (readText l ls).2.2 := by
    simpa [ht, startsFunction, Lexeme.isMark] using hd
  have hm : (readText l ls).2.2.drop 1 = more := by rw [ht]; rfl
  have htext : (readText l ls).1 = text := by rw [ht]
  subst hm htext
  have hl : (!true && startsLabel l ls) = false := rfl
  simp only [Part.run, read_plain hp hl, readSimple, hf, if_true]
  rfl

theorem readTail_else (h : ls.head? ≠ some (.keyword .ifKw)) :
    readTail (.keyword .elseKw :: ls) =
      ((readBody ls).weaken (Nat.le_succ _)).map ([control .elseHead none ·]) := by
  rw [readTail]
  intro ls' hl
  simp [hl] at h

theorem readTail_none (h : ls.head? ≠ some (.keyword .elseKw)) :
    readTail ls = ⟨[], ls, Nat.le_refl _⟩ := by
  rw [readTail]
  all_goals
    intro ls' hl
    simp [hl] at h

-- What the relation allows is what the reader does.
theorem Reads.run_eq (h : Reads p ls ss rest) : p.run ls = (ss, rest) := by
  induction h with
  | stray | empty => simp [Part.run, read]
  | block _ ih =>
    obtain ⟨rfl, rfl⟩ := Prod.ext_iff.mp ih
    simp only [Part.run, read, Parsed.map]
  | branch hg _ _ ihb iht =>
    obtain ⟨rfl, rfl⟩ := Prod.ext_iff.mp hg
    obtain ⟨rfl, rfl⟩ := Prod.ext_iff.mp ihb
    obtain ⟨rfl, rfl⟩ := Prod.ext_iff.mp iht
    simp only [Part.run, read, readBranch, Parsed.map, Parsed.weaken]
  | loneElse _ ih =>
    obtain ⟨rfl, rfl⟩ := Prod.ext_iff.mp ih
    simp only [Part.run, read, Parsed.map]
  | headed hk hg _ ih =>
    obtain ⟨rfl, rfl⟩ := Prod.ext_iff.mp hg
    obtain ⟨rfl, rfl⟩ := Prod.ext_iff.mp ih
    simp only [Part.run, read_headed hk, readHeaded, Parsed.map, Parsed.weaken]
  | doLoop _ hw ih =>
    obtain ⟨rfl, rfl⟩ := Prod.ext_iff.mp ih
    obtain ⟨rfl, rfl⟩ := Prod.ext_iff.mp hw
    simp only [Part.run, read]
  | caseLabel hk ht => simp only [Part.run, read_caseLabel hk, ht]
  | jump hk ht => simp only [Part.run, read_jump hk, ht]
  | nameLabel hl => simp only [Part.run, read_nameLabel hl]
  | simple hp hl ht hf =>
    simp only [Part.run, read_plain hp hl, readSimple, ht, hf, Bool.false_eq_true, if_false]
  | function hp ht hd _ ih =>
    simp only [Part.run, Prod.mk.injEq, List.cons.injEq, and_true] at ih
    obtain ⟨rfl, rfl⟩ := ih
    exact run_function hp ht hd
  | blockEnd => simp [Part.run, readItems]
  | blockClose => simp [Part.run, readItems, Lexeme.isMark]
  | blockItem hl _ _ ihi ihb =>
    simp only [Part.run, Prod.mk.injEq, List.cons.injEq, Stmt.block.injEq, and_true] at ihi ihb
    obtain ⟨rfl, rfl⟩ := ihi
    obtain ⟨⟨rfl, rfl⟩, rfl⟩ := ihb
    rw [Part.run, readItems]
    simp [Lexeme.isMark, hl, Parsed.map, Parsed.weaken]
  | bodyEnd => simp [Part.run, readBody]
  | bodyClose => simp [Part.run, readBody, Lexeme.isMark]
  | body hl _ ih =>
    simp only [Part.run, Prod.mk.injEq, List.cons.injEq, and_true] at ih
    obtain ⟨rfl, rfl⟩ := ih
    simp [Part.run, readBody, Lexeme.isMark, hl, Parsed.map, Parsed.weaken]
  | noTail h => simp only [Part.run, readTail_none h]
  | elseIf _ ih =>
    simp only [Part.run, read, readBranch, Parsed.map, Parsed.weaken, Prod.mk.injEq,
      List.cons.injEq, control.injEq, true_and, and_true] at ih
    obtain ⟨⟨rfl, rfl⟩, rfl⟩ := ih
    simp only [Part.run, readTail, readBranch, Parsed.map, Parsed.weaken]
  | elseBody h _ ih =>
    obtain ⟨rfl, rfl⟩ := Prod.ext_iff.mp ih
    simp only [Part.run, readTail_else h, Parsed.map, Parsed.weaken]

theorem of_startsFunction {l : Lexeme} {text : List Lexeme} {atFile ended : Bool}
    (h : startsFunction atFile l text ended rest) :
    atFile = true ∧ Batch.definesFunction ⟨0, l :: text⟩ ∧ ended = false ∧
      rest = .punct .lbrace :: rest.drop 1 := by
  cases rest <;> simp_all [startsFunction, Lexeme.isMark]

-- An `if` is read in the same way wherever it stands, only its head differs.
def ReadsBranch (head : Head) (ls : List Lexeme) : Prop :=
  ∃ parts, (readBranch head ls).value = control head (readGroup false ls).1 parts ∧
    ∀ atFile, Reads (.stmt atFile) (.keyword .ifKw :: ls)
      [control .ifHead (readGroup false ls).1 parts] (readBranch head ls).rest

-- By induction on the calls of the readers: each of them takes one step of the relation.
theorem readers_read :
    (∀ atFile l ls, Reads (.stmt atFile) (l :: ls) [(read atFile l ls).value]
      (read atFile l ls).rest) ∧
    (∀ atFile l ls, l.isPlain → (!atFile && startsLabel l ls) = false →
      Reads (.stmt atFile) (l :: ls) [(readSimple atFile l ls).value]
        (readSimple atFile l ls).rest) ∧
    (∀ ls, Reads .block ls [.block (readItems ls).value.1 (readItems ls).value.2]
      (readItems ls).rest) ∧
    (∀ head ls, ∀ k : Keyword, k.groupHead? = some head → ∀ atFile,
      Reads (.stmt atFile) (.keyword k :: ls) [(readHeaded head ls).value]
        (readHeaded head ls).rest) ∧
    (∀ ls, Reads .body ls (readBody ls).value (readBody ls).rest) ∧
    (∀ head ls, ReadsBranch head ls) ∧
    (∀ ls, Reads .tail ls (readTail ls).value (readTail ls).rest) := by
  apply read.mutual_induct
  case case1 =>
    intro atFile ls ih
    simp only [read]
    exact .block ih
  case case2 =>
    intro atFile ls
    simp only [read]
    exact .stray
  case case3 =>
    intro atFile ls
    simp only [read]
    exact .empty
  case case4 =>
    intro atFile ls ⟨parts, hv, h⟩
    simp only [read, hv]
    exact h atFile
  case case5 =>
    intro atFile ls ih
    simp only [read]
    exact .loneElse ih
  case case6 | case7 | case8 =>
    intro atFile ls ih
    simp only [read]
    exact ih _ rfl atFile
  case case9 =>
    intro atFile ls ih
    simp only [read]
    exact .doLoop ih rfl
  case case10 =>
    intro atFile ls k _ _ _ _ _ _ hk
    rw [read_caseLabel hk]
    exact .caseLabel hk rfl
  case case11 =>
    intro atFile ls k _ _ _ _ _ _ _ hk
    rw [read_jump hk]
    exact .jump hk rfl
  case case12 =>
    intro atFile ls k _ _ _ _ _ _ hc hj ih
    have hp : (Lexeme.keyword k).isPlain := by
      cases k <;> simp_all [Lexeme.isPlain, Keyword.startsStatement, isCaseWord]
    have hl : (!atFile && startsLabel (.keyword k) ls) = false := by
      simp [startsLabel, Lexeme.isIdentifier]
    rw [read_plain hp hl]
    exact ih hp hl
  case case13 =>
    intro atFile ls l _ _ _ _ _ _ _ _ _ _ hl
    simp only [startsLabel, Bool.and_eq_true, Bool.not_eq_true'] at hl
    obtain ⟨rfl, hi, hc⟩ := hl
    cases ls with
    | nil => simp at hc
    | cons m ls =>
      simp only [List.head?_cons, Option.any_some, Lexeme.isMark, decide_eq_true_eq] at hc
      subst hc
      rw [read_nameLabel hi]
      exact .nameLabel hi
  case case14 =>
    intro atFile ls l h₁ h₂ h₃ _ _ _ _ _ _ hk hl ih
    have hp : l.isPlain := by
      unfold Lexeme.isPlain
      split <;> simp_all
    rw [read_plain hp (by simpa using hl)]
    exact ih hp (by simpa using hl)
  case case15 =>
    intro atFile l ls r hf _ ih hp hl
    simp only [r] at hf ih
    obtain ⟨rfl, hd, he, hr⟩ := of_startsFunction hf
    rw [readSimple]
    simp only [hf, if_true]
    exact .function hp (Prod.ext rfl (Prod.ext he hr)) hd ih
  case case16 =>
    intro atFile l ls r hf hp hl
    simp only [r, Bool.not_eq_true] at hf
    rw [readSimple]
    simp only [hf, Bool.false_eq_true, if_false]
    exact .simple hp hl rfl hf
  case case17 =>
    simp only [readItems]
    exact .blockEnd
  case case18 =>
    intro l ls hl
    simp only [Lexeme.isMark, decide_eq_true_eq] at hl
    subst hl
    simp only [readItems, Lexeme.isMark, decide_true, if_true]
    exact .blockClose
  case case19 =>
    intro l ls hl s ihs ihr
    rw [readItems]
    simp only [hl, Bool.false_eq_true, if_false]
    exact .blockItem (by simpa [Lexeme.isMark] using hl) ihs ihr
  case case20 =>
    intro head ls g ih k hk atFile
    rw [readHeaded]
    exact .headed hk rfl ih
  case case21 =>
    simp only [readBody]
    exact .bodyEnd
  case case22 =>
    intro l ls hl
    simp only [Lexeme.isMark, decide_eq_true_eq] at hl
    subst hl
    simp only [readBody, Lexeme.isMark, decide_true, if_true]
    exact .bodyClose
  case case23 =>
    intro l ls hl ih
    rw [readBody]
    simp only [hl, Bool.false_eq_true, if_false]
    exact .body (by simpa [Lexeme.isMark] using hl) ih
  case case24 =>
    intro head ls g body _ _ ihb iht
    simp only [ReadsBranch, readBranch]
    exact ⟨_, rfl, fun atFile => .branch rfl ihb iht⟩
  case case25 =>
    intro ls ⟨parts, hv, h⟩
    simp only [readTail, Parsed.map, Parsed.weaken, hv]
    exact .elseIf (h false)
  case case26 =>
    intro ls hi ih
    have hi : ls.head? ≠ some (.keyword .ifKw) := by cases ls <;> simp_all
    rw [readTail_else hi]
    exact .elseBody hi ih
  case case27 =>
    intro ls _ he
    have he : ls.head? ≠ some (.keyword .elseKw) := by cases ls <;> simp_all
    rw [readTail_none he]
    exact .noTail he

theorem reads_read (atFile : Bool) (l : Lexeme) (ls : List Lexeme) :
    Reads (.stmt atFile) (l :: ls) [(read atFile l ls).value] (read atFile l ls).rest :=
  readers_read.1 atFile l ls

theorem reads_iff {l : Lexeme} {s : Stmt} {atFile : Bool} :
    Reads (.stmt atFile) (l :: ls) [s] rest ↔
      (read atFile l ls).value = s ∧ (read atFile l ls).rest = rest := by
  constructor
  · intro h
    simpa [Part.run] using h.run_eq
  · rintro ⟨rfl, rfl⟩
    exact reads_read atFile l ls

-- The statements of a file are read one after another.
theorem listLexemes_readFile (ls : List Lexeme) : listLexemes (readFile ls) = ls := by
  fun_induction readFile ls with
  | case1 => rfl
  | case2 l ls s ih =>
    have h := (reads_read true l ls).append
    simpa [listLexemes, Part.lead, ih] using h

end Stmt
end CLint
