import CLint.Proofs.Balance
import CLint.Proofs.Join.Outline
import CLint.Rule.Structure

namespace CLint

namespace Code

-- A property of code that holds of statements if it holds of the texts in them: it is kept when
-- code is put together and when braces are put around it.
structure Composes (P : List Lexeme → Prop) : Prop where
  nil : P []
  append {as bs : List Lexeme} : P as → P bs → P (as ++ bs)
  braced {ls : List Lexeme} : P ls → P (.punct .lbrace :: ls ++ [.punct .rbrace])
  semicolon : P [.punct .semicolon]
  keyword k : P [.keyword k]

theorem braces_append (as bs : List Lexeme) : braces (as ++ bs) = (braces as).join (braces bs) :=
  Unmatched.unmatched_append as bs

theorem parens_append (as bs : List Lexeme) : parens (as ++ bs) = (parens as).join (parens bs) :=
  Unmatched.unmatched_append as bs

theorem braces_braced (ls : List Lexeme) :
    braces (.punct .lbrace :: ls ++ [.punct .rbrace]) =
      (Unmatched.join ⟨0, 1⟩ (braces ls)).join ⟨1, 0⟩ := by
  rw [← List.singleton_append, braces_append, braces_append]
  rfl

theorem parens_braced (ls : List Lexeme) :
    parens (.punct .lbrace :: ls ++ [.punct .rbrace]) = parens ls := by
  rw [← List.singleton_append, parens_append, parens_append]
  have hopen : (parens [.punct .lbrace]).join (parens ls) = parens ls := by
    simp [Unmatched.join, parens, unmatched, Unmatched.step, Lexeme.isMark]
  exact (Unmatched.join_empty _).trans hopen

theorem composes_closing_braces : Composes fun ls => (braces ls).closing = 0 where
  nil := rfl
  append ha hb := braces_append .. ▸ Unmatched.closing_join ha hb
  braced h := by
    rw [braces_braced]
    simp [Unmatched.join, h]
  semicolon := rfl
  keyword _ := rfl

theorem composes_opening_braces : Composes fun ls => (braces ls).opening = 0 where
  nil := rfl
  append ha hb := braces_append .. ▸ Unmatched.opening_join ha hb
  braced h := by
    rw [braces_braced]
    simp only [Unmatched.join, h]
    omega
  semicolon := rfl
  keyword _ := rfl

theorem composes_opening_parens : Composes fun ls => (parens ls).opening = 0 where
  nil := rfl
  append ha hb := parens_append .. ▸ Unmatched.opening_join ha hb
  braced h := (congrArg Unmatched.opening (parens_braced _)).trans h
  semicolon := rfl
  keyword _ := rfl

variable {P : List Lexeme → Prop}

theorem Composes.semicolonIf (h : Composes P) (ended : Bool) : P (Stmt.semicolonIf ended) := by
  cases ended
  · exact h.nil
  · exact h.semicolon

theorem Composes.head (h : Composes P) (head : Head) : P head.lexemes := by
  cases head with
  | elseIf => exact h.append (h.keyword .elseKw) (h.keyword .ifKw)
  | _ => exact h.keyword _

end Code

namespace Stmt

variable {P : List Lexeme → Prop}

mutual

-- The code of a tidy statement has what its texts have.
theorem holds_lexemes (h : Code.Composes P) (s : Stmt) {start : Nat} (hs : s.isTidy)
    (ht : ∀ t ∈ sites start s, P t.stmt.text) : P s.lexemes := by
  cases s with
  | empty => exact h.semicolon
  | stray => cases hs
  | label word text => exact ht ⟨start, label word text⟩ (.head _)
  | jump word text ended =>
    exact h.append (ht ⟨start, jump word text ended⟩ (.head _)) (h.semicolonIf ended)
  | simple atFile first text ended =>
    exact h.append (ht ⟨start, simple atFile first text ended⟩ (.head _)) (h.semicolonIf ended)
  | block items closed =>
    simp only [isTidy, Bool.and_eq_true] at hs
    obtain ⟨rfl, hs⟩ := hs
    exact h.braced (holds_listLexemes h items hs fun t hmem => ht t (.tail _ hmem))
  | function header body =>
    rw [isTidy] at hs
    have hheader := ht ⟨start, function header body⟩ (List.mem_append_right _ (.head _))
    exact h.append hheader
      (holds_lexemes h body hs fun t hmem => ht t (List.mem_append_left _ hmem))
  | control head group parts =>
    simp only [isTidy, Bool.and_eq_true] at hs
    have hgroup := ht ⟨start, control head group parts⟩ (.head _)
    exact h.append (h.append (h.head head) hgroup)
      (holds_listLexemes h parts hs.2 fun t hmem => ht t (.tail _ hmem))
  | doWhile group ended =>
    have hgroup := ht ⟨start, doWhile group ended⟩ (.head _)
    exact h.append (h.append (h.keyword .whileKw) hgroup) (h.semicolonIf ended)

theorem holds_listLexemes (h : Code.Composes P) (ss : List Stmt) {start : Nat}
    (hs : listTidy ss) (ht : ∀ t ∈ listSites start ss, P t.stmt.text) : P (listLexemes ss) := by
  cases ss with
  | nil => exact h.nil
  | cons s ss =>
    rw [listTidy, Bool.and_eq_true] at hs
    exact h.append (holds_lexemes h s hs.1 fun t hmem => ht t (List.mem_append_left _ hmem))
      (holds_listLexemes h ss hs.2 fun t hmem => ht t (List.mem_append_right _ hmem))

end

-- The texts of the statements of a file are contained as they are read.
theorem areContained_readFile (ls : List Lexeme) (start : Nat) :
    AreContained start (readFile ls) := by
  fun_induction readFile ls generalizing start with
  | case1 => exact areContained_nil start
  | case2 l ls s ih => exact areContained_cons.mpr ⟨(reads_read true l ls).areContained, ih _⟩

end Stmt

namespace Rule

theorem earliest_ne_none {ds : List Diagnostic} (h : ds ≠ []) : earliest ds ≠ none := by
  cases ds with
  | nil => exact absurd rfl h
  | cons d ds =>
    rw [earliest]
    split
    · nofun
    · split <;> nofun

-- Where there are problems, there is one remark about all of them.
theorem exists_structuralRemarks {o : Outline} (h : o.diagnostics ≠ []) :
    ∃ m, structuralRemarks o = [m] := by
  obtain ⟨d, hd⟩ := Option.ne_none_iff_exists'.mp (earliest_ne_none h)
  rw [structuralRemarks, hd]
  exact ⟨_, rfl⟩

theorem exists_findings_unterminatedBlock (settings : RuleSettings) {o : Outline}
    (h : o.diagnostics ≠ []) : ∃ f, unterminatedBlock.findings settings o = .ok [f] := by
  obtain ⟨m, hm⟩ := exists_structuralRemarks h
  refine ⟨unterminatedBlock.finding o.source.path m, ?_⟩
  rw [findings, show unterminatedBlock.check settings o = .ok [m] from congrArg Except.ok hm]
  rfl

end Rule

namespace Outline

variable {source : Source}

theorem tidy_of_diagnostics (h : (ofSource source).diagnostics = []) :
    Stmt.listTidy (Stmt.readFile (ofSource source).lexemes) := by
  have hproblems := (diagnosticsOf_eq_nil_iff.mp h).2
  rw [List.map_eq_nil_iff] at hproblems
  rw [lexemes_ofSource]
  exact Stmt.problemsOf_listSites_eq_nil_iff.mp hproblems

-- In a file without problems, the code is as the texts of its statements are.
theorem holds_of_diagnostics {P : List Lexeme → Prop} (h : Code.Composes P)
    (hd : (ofSource source).diagnostics = [])
    (ht : ∀ s ∈ (Parts.ofTokens source.tokens).sites, P s.stmt.text) :
    P (ofSource source).lexemes := by
  rw [← Stmt.listLexemes_readFile (ofSource source).lexemes]
  have hsites : ∀ s ∈ Stmt.listSites 0 (Stmt.readFile (ofSource source).lexemes),
      P s.stmt.text := by
    rw [lexemes_ofSource]
    exact ht
  exact Stmt.holds_listLexemes h _ (tidy_of_diagnostics hd) hsites

theorem isContained_of_mem_sites {s : Site} (h : s ∈ (Parts.ofTokens source.tokens).sites) :
    s.stmt.IsContained :=
  Stmt.areContained_readFile _ 0 s h

-- A closing brace that closes nothing is always reported. An opening brace or parenthesis that is
-- never closed is reported unless it is in a text that itself leaves one open, which only
-- happens where no semicolon and no brace of a function end that text.
theorem reported_of_unmatched (settings : RuleSettings) (source : Source)
    (h : (Code.braces (ofSource source).lexemes).closing ≠ 0 ∨
      ((Code.braces (ofSource source).lexemes).opening ≠ 0 ∧
        ∀ s ∈ (Parts.ofTokens source.tokens).sites, s.stmt.isEnded = false →
          (Code.braces s.stmt.text).opening = 0) ∨
      ((Code.parens (ofSource source).lexemes).opening ≠ 0 ∧
        ∀ s ∈ (Parts.ofTokens source.tokens).sites, s.stmt.isEnded = false →
          (Code.parens s.stmt.text).opening = 0)) :
    (ofSource source).diagnostics ≠ [] ∧
      ∃ f, Rule.unterminatedBlock.findings settings (ofSource source) = .ok [f] := by
  have hne : (ofSource source).diagnostics ≠ [] := by
    intro hd
    rcases h with h | ⟨h, ht⟩ | ⟨h, ht⟩
    · exact h <| holds_of_diagnostics Code.composes_closing_braces hd fun s hs =>
        (isContained_of_mem_sites hs).closing
    · refine h <| holds_of_diagnostics Code.composes_opening_braces hd fun s hs => ?_
      cases he : s.stmt.isEnded with
      | true => exact (isContained_of_mem_sites hs).braces he
      | false => exact ht s hs he
    · refine h <| holds_of_diagnostics Code.composes_opening_parens hd fun s hs => ?_
      cases he : s.stmt.isEnded with
      | true => exact (isContained_of_mem_sites hs).parens he
      | false => exact ht s hs he
  exact ⟨hne, Rule.exists_findings_unterminatedBlock settings hne⟩

-- A block that is not closed, with a call in it.
theorem reported_of_unmatched_block :
    let source := Source.ofText "a.c" "void f(void)\n\x7b\n  g(1);\n"
    (Code.braces (ofSource source).lexemes).opening = 1 ∧
      (ofSource source).diagnostics ≠ [] ∧
      ∃ f, Rule.unterminatedBlock.findings {} (ofSource source) = .ok [f] := by
  intro source
  have hopen : (Code.braces (ofSource source).lexemes).opening = 1 := by decide +kernel
  refine ⟨hopen, reported_of_unmatched {} source (.inr (.inl ⟨by rw [hopen]; decide, ?_⟩))⟩
  decide +kernel

-- A statement that runs into the end of the file hides the parenthesis that it leaves open.
theorem unreported_openParen :
    let o := ofSource (.ofText "sample.c" "int a = f(1;\n")
    (∀ c ∈ o.comments, c.terminated) ∧ (Code.parens o.lexemes).opening = 1 ∧
      o.diagnostics = [] ∧ Rule.unterminatedBlock.findings {} o = .ok [] := by
  intro o
  have hd : o.diagnostics = [] := by decide +kernel
  refine ⟨by decide +kernel, by decide +kernel, hd, ?_⟩
  simp only [Rule.findings, Rule.unterminatedBlock, Rule.structuralRemarks, hd, Rule.earliest]
  rfl

end Outline
end CLint
