import CLint.Proofs.Indented.Braces
import CLint.Proofs.Indented.Within
import CLint.Proofs.Orderly

namespace CLint

-- Does a lexeme begin a line that is not a statement, other than a signature?
def Lexeme.heads : Lexeme → Bool
  | punct .lbrace | punct .rbrace => true
  | keyword k =>
    (k.headsBlock || k = .switchKw) || (k = .elseKw || k = .doKw) || Stmt.isCaseWord k
  | _ => false

theorem Lexeme.isPlain_eq_false {l : Lexeme} (h : l.heads) : l.isPlain = false := by
  cases l with
  | punct p => cases p <;> first | rfl | cases h
  | keyword k => cases k <;> first | rfl | cases h
  | _ => cases h

theorem Lexeme.isPlain_of_isIdentifier {l : Lexeme} (h : l.isIdentifier) : l.isPlain := by
  cases l <;> first | rfl | cases h

theorem Lexeme.heads_of_isPlain {l : Lexeme} (h : l.isPlain) : l.heads = false := by
  cases hl : l.heads with
  | false => rfl
  | true => rw [isPlain_eq_false hl] at h; cases h

theorem Keyword.heads_of_isJump {k : Keyword} (h : k.isJump) :
    (Lexeme.keyword k).heads = false ∧ (Lexeme.keyword k).isPlain = false := by
  cases k <;> first | exact ⟨rfl, rfl⟩ | cases h

namespace Stmt

-- A lexeme and, if it is known, whether it is the brace that begins the body of a `switch`.
abbrev Hinted := Lexeme × Option Bool

def unhinted (ls : List Lexeme) : List Hinted :=
  ls.map (·, none)

-- The flags say what is known of the lexemes.
def Agree (bs : List Bool) (hs : List Hinted) : Prop :=
  List.Forall₂ (fun b h => ∀ c ∈ h.2, b = c) bs hs

variable {bs cs : List Bool} {as hs : List Hinted} {l : Lexeme} {ls ms rest : List Lexeme}
  {d n : Nat}

@[simp]
theorem unhinted_nil : unhinted [] = [] :=
  rfl

@[simp]
theorem unhinted_cons (l : Lexeme) (ls : List Lexeme) :
    unhinted (l :: ls) = (l, none) :: unhinted ls :=
  rfl

@[simp]
theorem unhinted_append (ls ms : List Lexeme) : unhinted (ls ++ ms) = unhinted ls ++ unhinted ms :=
  List.map_append

@[simp]
theorem map_fst_unhinted (ls : List Lexeme) : (unhinted ls).map Prod.fst = ls := by
  simp [unhinted, Function.comp_def]

theorem map_fst_unhinted_append (ls : List Lexeme) (hs : List Hinted) :
    (unhinted ls ++ hs).map Prod.fst = ls ++ hs.map Prod.fst := by
  rw [List.map_append, map_fst_unhinted]

theorem Agree.append (h : Agree bs hs) (h' : Agree cs as) : Agree (bs ++ cs) (hs ++ as) :=
  List.rel_append h h'

theorem agree_unhinted (h : bs.length = ls.length) : Agree bs (unhinted ls) := by
  rw [Agree, unhinted, List.forall₂_map_right_iff]
  exact List.forall₂_iff_zip.mpr ⟨h, fun _ => nofun⟩

theorem agree_replicate (ls : List Lexeme) :
    Agree (List.replicate ls.length false) (unhinted ls) :=
  agree_unhinted List.length_replicate

-- The code behind any point where a reader with `d` open blocks may stand. A line may have been
-- read in part, of all others it is known what they are.
inductive Seam : Nat → List Hinted → Prop
  | done : Seam 0 []
  | row {d n : Nat} {l : Lexeme} {ls : List Lexeme} {hs : List Hinted}
      (ht : Code.IsTail n (l :: ls)) (h : Seam (d + 1) hs) :
      Seam (d + 1 + n) (unhinted (l :: ls) ++ hs)
  | function {l : Lexeme} {ls : List Lexeme} {hs : List Hinted} (hp : l.isPlain)
      (ht : ∀ more, readText l (ls ++ .punct .lbrace :: more) =
        (ls, false, .punct .lbrace :: more)) (h : Seam 1 hs) :
      Seam 0 (unhinted (l :: ls) ++ (.punct .lbrace, some false) :: hs)
  | block {d : Nat} {hs : List Hinted} (h : Seam (d + 1) hs) :
      Seam d ((.punct .lbrace, some false) :: hs)
  | headed {d : Nat} {word : Keyword} {group : Option Group} {hs : List Hinted}
      (hw : word.headsBlock ∨ word = .switchKw)
      (hg : ∀ more, readGroup (word = .forKw) (groupLexemes group ++ more) = (group, more))
      (h : Seam (d + 2) hs) :
      Seam (d + 1) (unhinted (.keyword word :: groupLexemes group) ++
        (.punct .lbrace, some (word = .switchKw : Bool)) :: hs)
  | word {d : Nat} {word : Keyword} {hs : List Hinted} (hw : word = .elseKw ∨ word = .doKw)
      (h : Seam (d + 2) hs) :
      Seam (d + 1) ((.keyword word, none) :: (.punct .lbrace, some false) :: hs)
  | closing {d : Nat} {hs : List Hinted} (h : Seam d hs) :
      Seam (d + 1) ((.punct .rbrace, none) :: hs)
  | label {d : Nat} {word : Keyword} {text : List Lexeme} {hs : List Hinted}
      (hw : isCaseWord word) (hl : ∀ more, readLabel 0 0 (text ++ more) = (text, more))
      (h : Seam (d + 1) hs) :
      Seam (d + 1) (unhinted (.keyword word :: text) ++ hs)

variable {group : Option Group}

namespace Seam

-- What is left of a line with statements may be nothing.
theorem tail (ht : Code.IsTail n ls) (h : Seam (d + 1) hs) :
    Seam (d + 1 + n) (unhinted ls ++ hs) := by
  cases ls with
  | nil =>
    rw [ht.eq_zero]
    exact h
  | cons l ls => exact .row ht h

theorem of_head (h : Seam d as) (hm : as.map Prod.fst = l :: ls) (hl : l.heads = false)
    (hd : l.isPlain → d ≠ 0) :
    ∃ m n t more, d = m + 1 + n ∧ as = unhinted (l :: t) ++ more ∧ Code.IsTail n (l :: t) ∧
      Seam (m + 1) more ∧ ls = t ++ more.map Prod.fst := by
  cases h with
  | done => cases hm
  | row ht h =>
    rw [map_fst_unhinted_append] at hm
    obtain ⟨rfl, rfl⟩ := List.cons.inj hm
    exact ⟨_, _, _, _, rfl, rfl, ht, h, rfl⟩
  | function hp =>
    cases (List.cons.inj hm).1
    exact absurd rfl (hd hp)
  | block | closing =>
    cases (List.cons.inj hm).1
    cases hl
  | headed hw | word hw | label hw =>
    cases (List.cons.inj hm).1
    simp_all [Lexeme.heads]

-- A header with a group, behind which a block begins that may be the body of a `switch`.
theorem of_group {word : Keyword} (h : Seam d as) (hm : as.map Prod.fst = .keyword word :: ls)
    (hw : word.headsBlock ∨ word = .switchKw) (hg : readGroup (word = .forKw) ls = (group, rest)) :
    ∃ more, as = unhinted (.keyword word :: groupLexemes group) ++ more ∧
      more.map Prod.fst = rest ∧
      (Seam d more ∧ (∃ l hs, more = (l, none) :: hs) ∨
        ∃ hs, more = (.punct .lbrace, some (word = .switchKw : Bool)) :: hs ∧ Seam (d + 1) hs) := by
  cases h with
  | done => cases hm
  | @row d n _ t hs ht h =>
    rw [map_fst_unhinted_append] at hm
    obtain ⟨rfl, rfl⟩ := List.cons.inj hm
    obtain ⟨group', t', hread, happ, hne, htail⟩ := readGroup_within (ht.tail rfl)
      (ht.ends.ne_nil (by simp)) (hs.map Prod.fst)
    obtain ⟨rfl, rfl⟩ := Prod.mk.inj (hg.symm.trans hread)
    obtain ⟨l, t', rfl⟩ := List.exists_cons_of_ne_nil hne
    refine ⟨unhinted (l :: t') ++ hs, by simp [← happ], by simp, .inl ⟨.tail htail h, ?_⟩⟩
    exact ⟨l, unhinted t' ++ hs, rfl⟩
  | function hp =>
    cases (List.cons.inj hm).1
    rw [Lexeme.isPlain_eq_false (by simp [Lexeme.heads, hw])] at hp
    cases hp
  | block | closing => cases (List.cons.inj hm).1
  | headed hw' hg' h =>
    rw [map_fst_unhinted_append] at hm
    obtain ⟨hword, rfl⟩ := List.cons.inj hm
    cases hword
    obtain ⟨rfl, rfl⟩ := Prod.mk.inj (hg.symm.trans (hg' _))
    exact ⟨_, rfl, rfl, .inr ⟨_, rfl, h⟩⟩
  | word hw' | label hw' =>
    cases (List.cons.inj hm).1
    cases word <;> simp_all [Keyword.headsBlock, isCaseWord]

theorem of_headed {word : Keyword} (h : Seam d as) (hm : as.map Prod.fst = .keyword word :: ls)
    (hw : word.headsBlock) (hg : readGroup (word = .forKw) ls = (group, rest)) :
    ∃ more, as = unhinted (.keyword word :: groupLexemes group) ++ more ∧
      more.map Prod.fst = rest ∧ Seam d more := by
  obtain ⟨more, happ, hmore, ⟨hseam, _⟩ | ⟨hs, rfl, hseam⟩⟩ := h.of_group hm (.inl hw) hg
  · exact ⟨more, happ, hmore, hseam⟩
  · have hs : decide (word = .switchKw) = false := by
      rw [decide_eq_false_iff_not]
      rintro rfl
      cases hw
    rw [hs] at happ hmore
    exact ⟨_, happ, hmore, .block hseam⟩

-- A word that begins a line stands in a block.
theorem ne_zero {word : Keyword} (h : Seam d as) (hm : as.map Prod.fst = .keyword word :: ls)
    (hw : (Lexeme.keyword word).heads) : d ≠ 0 := by
  cases h with
  | done => cases hm
  | function hp =>
    cases (List.cons.inj hm).1
    rw [Lexeme.isPlain_eq_false hw] at hp
    cases hp
  | block => cases (List.cons.inj hm).1
  | _ => omega

theorem of_word {word : Keyword} (h : Seam d as) (hm : as.map Prod.fst = .keyword word :: ls)
    (hw : word = .elseKw ∨ word = .doKw) :
    ∃ more, as = (.keyword word, none) :: more ∧ more.map Prod.fst = ls ∧ Seam d more := by
  cases h with
  | done => cases hm
  | row ht h =>
    rw [map_fst_unhinted_append] at hm
    obtain ⟨rfl, rfl⟩ := List.cons.inj hm
    exact ⟨unhinted _ ++ _, rfl, map_fst_unhinted_append .., .tail (ht.tail rfl) h⟩
  | function hp =>
    cases (List.cons.inj hm).1
    rw [Lexeme.isPlain_eq_false (by simp [Lexeme.heads, hw])] at hp
    cases hp
  | block | closing => cases (List.cons.inj hm).1
  | headed hw' | label hw' =>
    cases (List.cons.inj hm).1
    cases word <;> simp_all [Keyword.headsBlock, isCaseWord]
  | word hw' h =>
    obtain ⟨hword, rfl⟩ := List.cons.inj hm
    cases hword
    exact ⟨_, rfl, rfl, .block h⟩

theorem of_label {word : Keyword} {text : List Lexeme} (h : Seam d as)
    (hm : as.map Prod.fst = .keyword word :: ls) (hw : isCaseWord word)
    (hl : readLabel 0 0 ls = (text, rest)) :
    ∃ more, as = unhinted (.keyword word :: text) ++ more ∧ more.map Prod.fst = rest ∧
      Seam d more := by
  cases h with
  | done => cases hm
  | @row d n _ t hs ht h =>
    rw [map_fst_unhinted_append] at hm
    obtain ⟨rfl, rfl⟩ := List.cons.inj hm
    obtain ⟨text', t', hread, happ, htail⟩ := readLabel_within ht rfl (hs.map Prod.fst)
    obtain ⟨rfl, rfl⟩ := Prod.mk.inj (hl.symm.trans hread)
    exact ⟨unhinted t' ++ hs, by simp [← happ], map_fst_unhinted_append .., .tail htail h⟩
  | function hp =>
    cases (List.cons.inj hm).1
    rw [Lexeme.isPlain_eq_false (by simp [Lexeme.heads, hw])] at hp
    cases hp
  | block | closing => cases (List.cons.inj hm).1
  | headed hw' | word hw' =>
    cases (List.cons.inj hm).1
    cases word <;> simp_all [Keyword.headsBlock, isCaseWord]
  | label hw' hl' h =>
    rw [map_fst_unhinted_append] at hm
    obtain ⟨hword, rfl⟩ := List.cons.inj hm
    cases hword
    obtain ⟨rfl, rfl⟩ := Prod.mk.inj (hl.symm.trans (hl' _))
    exact ⟨_, rfl, rfl, h⟩

theorem of_lbrace (h : Seam d as) (hm : as.map Prod.fst = .punct .lbrace :: ls) :
    ∃ hint more, as = (.punct .lbrace, hint) :: more ∧ (∀ c ∈ hint, false = c) ∧
      more.map Prod.fst = ls ∧ Seam (d + 1) more := by
  cases h with
  | done => cases hm
  | row ht h =>
    rw [map_fst_unhinted_append] at hm
    obtain ⟨rfl, rfl⟩ := List.cons.inj hm
    exact ⟨none, unhinted _ ++ _, rfl, nofun, map_fst_unhinted_append .., .tail ht.lbrace h⟩
  | function hp =>
    cases (List.cons.inj hm).1
    cases hp
  | block h =>
    obtain ⟨_, rfl⟩ := List.cons.inj hm
    exact ⟨_, _, rfl, by simp, rfl, h⟩
  | headed | word | closing | label => cases (List.cons.inj hm).1

theorem of_semicolon (h : Seam d as) (hm : as.map Prod.fst = .punct .semicolon :: ls) :
    ∃ more, as = (.punct .semicolon, none) :: more ∧ more.map Prod.fst = ls ∧ Seam d more := by
  obtain ⟨m, n, t, more, rfl, rfl, ht, hmore, rfl⟩ := h.of_head hm rfl nofun
  have ht : Code.IsTail n ([.punct .semicolon] ++ t) := ht
  exact ⟨unhinted t ++ more, rfl, map_fst_unhinted_append .., .tail (ht.of_even rfl) hmore⟩

-- Outside of all blocks only a signature begins with a plain lexeme.
theorem of_signature (h : Seam 0 as) (hm : as.map Prod.fst = l :: ls) (hp : l.isPlain) :
    ∃ text more, as = unhinted (l :: text) ++ (.punct .lbrace, some false) :: more ∧
      readText l ls = (text, false, .punct .lbrace :: more.map Prod.fst) ∧ Seam 1 more := by
  generalize hd : 0 = d at h
  cases h with
  | done => cases hm
  | function _ ht h =>
    rw [map_fst_unhinted_append] at hm
    obtain ⟨rfl, rfl⟩ := List.cons.inj hm
    exact ⟨_, _, rfl, ht _, h⟩
  | block =>
    cases (List.cons.inj hm).1
    cases hp
  | _ => omega

theorem ne_nil (h : Seam d as) (hd : d ≠ 0) : as ≠ [] := by
  rintro rfl
  generalize has : [] = as at h
  cases h with
  | done => exact hd rfl
  | _ => cases has

theorem of_rbrace (h : Seam d as) (hm : as.map Prod.fst = .punct .rbrace :: ls) :
    ∃ m more, d = m + 1 ∧ as = (.punct .rbrace, none) :: more ∧
      more.map Prod.fst = ls ∧ Seam m more := by
  cases h with
  | done => cases hm
  | row ht h =>
    rw [map_fst_unhinted_append] at hm
    obtain ⟨rfl, rfl⟩ := List.cons.inj hm
    obtain ⟨m, rfl, hrest⟩ := ht.rbrace
    exact ⟨_, unhinted _ ++ _, rfl, rfl, map_fst_unhinted_append .., .tail hrest h⟩
  | function hp =>
    cases (List.cons.inj hm).1
    cases hp
  | closing h =>
    obtain ⟨_, rfl⟩ := List.cons.inj hm
    exact ⟨_, _, rfl, rfl, rfl, h⟩
  | block | headed | word | label => cases (List.cons.inj hm).1

end Seam

-- A reader that stood before the code `hs` with `d` open blocks took a front of it, of which the
-- flags `bs` tell, and left the code `rest`.
def Yields (d : Nat) (hs : List Hinted) (bs : List Bool) (rest : List Lexeme) : Prop :=
  ∃ taken more, hs = taken ++ more ∧ more.map Prod.fst = rest ∧ Seam d more ∧ Agree bs taken

namespace Yields

variable {h h' : Hinted} {b : Bool} {e : Nat}

theorem prepend (hb : Agree bs hs) (h : Yields d as cs rest) :
    Yields d (hs ++ as) (bs ++ cs) rest := by
  obtain ⟨taken, more, rfl, hrest, hmore, hcs⟩ := h
  exact ⟨hs ++ taken, more, (List.append_assoc ..).symm, hrest, hmore, hb.append hcs⟩

theorem append (h : Yields d as bs ls)
    (hc : ∀ more, more.map Prod.fst = ls → Seam d more → Yields d more cs rest) :
    Yields d as (bs ++ cs) rest := by
  obtain ⟨taken, more, rfl, hrest, hmore, hbs⟩ := h
  exact (hc more hrest hmore).prepend hbs

-- What is known of the first lexeme may be changed with its flag.
theorem change_first {c : Bool} (ha : Yields d (h :: as) (b :: bs) rest) (hc : ∀ x ∈ h'.2, c = x) :
    Yields d (h' :: as) (c :: bs) rest := by
  obtain ⟨taken, more, happ, hrest, hmore, hbs⟩ := ha
  cases hbs with
  | cons _ hbs =>
    obtain ⟨rfl, rfl⟩ := List.cons.inj happ
    exact ⟨h' :: _, more, rfl, hrest, hmore, .cons hc hbs⟩

-- A block begins with a statement if it may begin with what is behind that.
theorem insert (ha : Yields e as bs ls)
    (hc : ∀ more, more.map Prod.fst = ls → Seam e more → Yields d (h :: more) (b :: cs) rest) :
    Yields d (h :: as) (b :: (bs ++ cs)) rest := by
  obtain ⟨taken, more, rfl, hrest, hmore, hbs⟩ := ha
  obtain ⟨taken', more', happ, hrest', hmore', hcs⟩ := hc more hrest hmore
  cases hcs with
  | cons hb hcs =>
    obtain ⟨rfl, rfl⟩ := List.cons.inj happ
    refine ⟨h :: (taken ++ _), more', ?_, hrest', hmore', .cons hb (hbs.append hcs)⟩
    exact congrArg _ (List.append_assoc ..).symm

variable {parts : List Stmt}

-- Nothing is known of what is taken from a line with statements.
theorem of_append (ss : List Stmt) (hm : as.map Prod.fst = rest) (h : Seam d as) :
    Yields d (unhinted (listLexemes ss) ++ as) (listSwitchBraces ss) rest := by
  refine ⟨_, as, rfl, hm, h, agree_unhinted ?_⟩
  rw [length_listSwitchBraces, length_listLexemes]

theorem control (head : Head) (group : Option Group)
    (hh : (head = .switchHead && startsWithBlock parts) = false)
    (h : Yields d as (listSwitchBraces parts) rest) :
    Yields d (unhinted (head.lexemes ++ groupLexemes group) ++ as)
      (listSwitchBraces [.control head group parts]) rest := by
  have hflags := h.prepend (agree_replicate (head.lexemes ++ groupLexemes group))
  simpa [listSwitchBraces, switchBraces, hh] using hflags

-- The body of a `switch` is read like any other, and then its brace is known for what it is.
theorem switchOn (group : Option Group) (hb : startsWithBlock parts) (hh : ∀ c ∈ h'.2, true = c)
    (ha : Yields d (h :: as) (listSwitchBraces parts) rest) :
    Yields d (unhinted (.keyword .switchKw :: groupLexemes group) ++ h' :: as)
      (listSwitchBraces [.control .switchHead group parts]) rest := by
  obtain ⟨f, fs, hf⟩ : ∃ f fs, listSwitchBraces parts = f :: fs := by
    unfold startsWithBlock at hb
    split at hb
    case h_1 => exact ⟨_, _, rfl⟩
    case h_2 => cases hb
  rw [hf] at ha
  have hflags := (ha.change_first hh).prepend
    (agree_replicate (.keyword .switchKw :: groupLexemes group))
  simpa [listSwitchBraces, switchBraces, hb, hf, flagFirst, Head.lexemes, Nat.add_comm] using hflags

end Yields

namespace Seam

variable {ss : List Stmt}

-- A reader that takes a part of a line with statements.
theorem yields_row {m n : Nat} {t left : List Lexeme} (h : Seam (m + 1) as)
    (ht : Code.IsTail n left) (happ : listLexemes ss ++ left = t) :
    Yields (m + 1 + n) (unhinted t ++ as) (listSwitchBraces ss) (left ++ as.map Prod.fst) := by
  rw [← happ, unhinted_append, List.append_assoc]
  exact .of_append ss (map_fst_unhinted_append ..) (.tail ht h)

theorem semicolon_none (h : ls.head? ≠ some (.punct .semicolon)) : semicolon ls = (false, ls) := by
  rw [semicolon]
  intro ls' hl
  simp [hl] at h

-- What ends a `do`, if anything, is no block.
theorem yields_doWhile {tail : List Stmt} (h : Seam d as)
    (hw : readDoWhile (as.map Prod.fst) = (tail, rest)) :
    Yields d as (listSwitchBraces tail) rest := by
  by_cases hm : (as.map Prod.fst).head? = some (.keyword .whileKw)
  case neg =>
    obtain ⟨rfl, rfl⟩ := Prod.mk.inj (hw.symm.trans (readDoWhile_none hm))
    exact .of_append [] rfl h
  case pos =>
    obtain ⟨ls, hm⟩ := List.head?_eq_some_iff.mp hm
    obtain ⟨⟨group, mid⟩, hg⟩ : ∃ r, readGroup false ls = r := ⟨_, rfl⟩
    obtain ⟨more, rfl, rfl, hseam⟩ := h.of_headed hm rfl hg
    rw [hm, readDoWhile, hg] at hw
    cases hw
    by_cases hs : (more.map Prod.fst).head? = some (.punct .semicolon)
    case pos =>
      obtain ⟨ls', hs⟩ := List.head?_eq_some_iff.mp hs
      obtain ⟨more, rfl, rfl, hseam⟩ := hseam.of_semicolon hs
      simpa [semicolon, listLexemes, lexemes, semicolonIf] using
        Yields.of_append [doWhile group true] rfl hseam
    case neg =>
      rw [semicolon_none hs]
      simpa [listLexemes, lexemes, semicolonIf] using
        Yields.of_append [doWhile group false] rfl hseam

end Seam

theorem word_of_groupHead? {k : Keyword} {head : Head} (hk : k.groupHead? = some head) :
    (k.headsBlock ∧ head ≠ .switchHead ∨ k = .switchKw ∧ head = .switchHead) ∧
      decide (head = .forHead) = decide (k = .forKw) ∧ head.lexemes = [.keyword k] := by
  cases k <;> cases hk <;> decide

theorem Reads.exists_block {ss : List Stmt} (h : Reads .block ls ss rest) :
    ∃ items closed, ss = [.block items closed] := by
  cases h <;> exact ⟨_, _, rfl⟩

theorem Reads.startsWithBlock {ss : List Stmt} (h : Reads .body (.punct .lbrace :: ls) ss rest) :
    startsWithBlock ss := by
  cases h with
  | body _ i =>
    cases i with
    | block b =>
      obtain ⟨items, closed, hs⟩ := b.exists_block
      rw [hs]
      rfl
    | _ => simp_all [Lexeme.isPlain, Lexeme.isIdentifier]

theorem Seam.yields_switch {parts : List Stmt} {mid : List Lexeme} (h : Seam d as)
    (hm : as.map Prod.fst = .keyword .switchKw :: ls) (hg : readGroup false ls = (group, mid))
    (hb : Reads .body mid parts rest)
    (ih : ∀ more, Seam d more → more.map Prod.fst = mid →
      Yields d more (listSwitchBraces parts) rest) :
    Yields d as (listSwitchBraces [.control .switchHead group parts]) rest := by
  obtain ⟨more, rfl, rfl, ⟨hseam, l, hs, rfl⟩ | ⟨hs, rfl, hseam⟩⟩ := h.of_group hm (.inr rfl) hg
  · have hparts := ih _ hseam rfl
    cases hblock : startsWithBlock parts with
    | false => exact hparts.control .switchHead _ (by simp [hblock])
    | true => exact hparts.switchOn _ hblock nofun
  · exact (ih _ (.block hseam) rfl).switchOn _ hb.startsWithBlock (by simp)

-- What a reader of the part `p` finds, its lead included, if `d` blocks are open around the part.
inductive Part.Finds : Part → Nat → List Hinted → Prop
  | stmt {atFile : Bool} {d : Nat} {as : List Hinted} (h : Seam d as) (hd : atFile ↔ d = 0)
      (hr : (as.map Prod.fst).head? ≠ some (.punct .rbrace)) : Finds (.stmt atFile) d as
  | block {d : Nat} {as : List Hinted} (h : Seam (d + 1) as) :
      Finds .block d ((.punct .lbrace, none) :: as)
  | body {d : Nat} {as : List Hinted} (h : Seam d as) (hd : d ≠ 0) : Finds .body d as
  | tail {d : Nat} {as : List Hinted} (h : Seam d as) (hd : d ≠ 0) : Finds .tail d as

variable {p : Part} {ss : List Stmt}

-- By induction on the reader: it never loses track of the lines between the statements.
theorem Reads.yields (h : Reads p ls ss rest) {d : Nat} {as : List Hinted} (ha : p.Finds d as)
    (hm : as.map Prod.fst = p.lead ++ ls) :
    Yields d as (listSwitchBraces ss) rest := by
  induction h generalizing d as with
  | stray =>
    cases ha with | stmt _ _ hr => exact absurd (by rw [hm]; rfl) hr
  | empty =>
    cases ha with | stmt h =>
    obtain ⟨more, rfl, hmore, hseam⟩ := h.of_semicolon hm
    exact .of_append [.empty] hmore hseam
  | block b ih =>
    cases ha with | stmt h =>
    obtain ⟨hint, more, rfl, hhint, rfl, hmore⟩ := h.of_lbrace hm
    have hblock := ih (.block hmore) rfl
    obtain ⟨items, closed, rfl⟩ := b.exists_block
    exact hblock.change_first hhint
  | branch hg _ _ ihb iht =>
    cases ha with | stmt h =>
    obtain ⟨more, rfl, hmore, hseam⟩ := h.of_headed hm rfl hg
    have hd := h.ne_zero hm rfl
    have hparts := (ihb (.body hseam hd) hmore).append fun more hm h => iht (.tail h hd) hm
    rw [← listSwitchBraces_append] at hparts
    exact hparts.control .ifHead _ rfl
  | loneElse _ ih =>
    cases ha with | stmt h =>
    obtain ⟨more, rfl, hmore, hseam⟩ := h.of_word hm (.inl rfl)
    exact (ih (.body hseam (h.ne_zero hm rfl)) hmore).control .loneElse none rfl
  | @headed _ _ head _ _ _ _ _ hk hg hb ih =>
    cases ha with | stmt h =>
    obtain ⟨hw, hfor, hlexemes⟩ := word_of_groupHead? hk
    rw [hfor] at hg
    have hd := h.ne_zero hm (by simp [Lexeme.heads, hw.imp And.left And.left])
    rcases hw with ⟨hblock, hhead⟩ | ⟨rfl, rfl⟩
    · obtain ⟨more, rfl, hmore, hseam⟩ := h.of_headed hm hblock hg
      have hparts := ih (.body hseam hd) hmore
      simpa [hlexemes] using hparts.control head _ (by simp [hhead])
    · exact h.yields_switch hm hg hb fun more hseam hmore => ih (.body hseam hd) hmore
  | doLoop hb hw ih =>
    cases ha with | stmt h =>
    obtain ⟨more, rfl, hmore, hseam⟩ := h.of_word hm (.inr rfl)
    have hd := h.ne_zero hm rfl
    have hparts := (ih (.body hseam hd) hmore).append fun more hm h =>
      h.yields_doWhile (hm ▸ hw)
    rw [← listSwitchBraces_append] at hparts
    exact hparts.control .doHead none rfl
  | caseLabel hk ht =>
    cases ha with | stmt h =>
    obtain ⟨more, rfl, hmore, hseam⟩ := h.of_label hm hk ht
    simpa [listLexemes, lexemes] using Yields.of_append [label (.keyword _) _] hmore hseam
  | jump hk ht =>
    cases ha with | stmt h =>
    obtain ⟨hheads, hplain⟩ := Keyword.heads_of_isJump hk
    obtain ⟨m, n, t, more, rfl, rfl, htail, hmore, rfl⟩ := h.of_head hm hheads (by simp [hplain])
    obtain ⟨text, ended, left, hread, happ, hleft⟩ :=
      readText_within htail rfl (more.map Prod.fst)
    cases ht.symm.trans hread
    exact hmore.yields_row hleft (by simp [listLexemes, lexemes, ← happ])
  | nameLabel hl =>
    cases ha with | stmt h hd =>
    have hplain := Lexeme.isPlain_of_isIdentifier hl
    obtain ⟨m, n, t, more, rfl, rfl, htail, hmore, ht⟩ :=
      h.of_head hm (Lexeme.heads_of_isPlain hplain) fun _ hzero => by simpa using hd.mpr hzero
    obtain ⟨l, t, rfl⟩ := List.exists_cons_of_ne_nil (htail.ends.ne_nil (by rintro rfl; cases hl))
    obtain ⟨rfl, rfl⟩ := List.cons.inj ht
    exact hmore.yields_row ((htail.tail (Lexeme.breaksOff_of_isPlain hplain)).tail rfl) rfl
  | simple hp hl ht hf =>
    cases ha with | stmt h hd =>
    by_cases hzero : d = 0
    case pos =>
      subst hzero
      obtain ⟨text, more, rfl, hread, hmore⟩ := h.of_signature hm hp
      cases ht.symm.trans hread
      simpa [listLexemes, lexemes, semicolonIf] using
        Yields.of_append [Stmt.simple _ _ _ false] rfl (.block hmore)
    case neg =>
      obtain ⟨m, n, t, more, rfl, rfl, htail, hmore, rfl⟩ :=
        h.of_head hm (Lexeme.heads_of_isPlain hp) fun _ => hzero
      obtain ⟨text, ended, left, hread, happ, hleft⟩ :=
        readText_within htail (Lexeme.breaksOff_of_isPlain hp) (more.map Prod.fst)
      cases ht.symm.trans hread
      exact hmore.yields_row hleft (by simp [listLexemes, lexemes, ← happ])
  | function hp ht hf b ih =>
    cases ha with | stmt h hd =>
    cases hd.mp rfl
    obtain ⟨text, more, rfl, hread, hmore⟩ := h.of_signature hm hp
    cases ht.symm.trans hread
    have hbody := ih (.block hmore) rfl
    obtain ⟨items, closed, hb⟩ := b.exists_block
    cases hb
    have hhint : ∀ x ∈ (Lexeme.punct .lbrace, some false).2, false = x := by simp
    have hbody := hbody.change_first hhint
    simpa [listSwitchBraces, switchBraces] using hbody.prepend (agree_replicate (_ :: _))
  | blockEnd =>
    cases ha with | block h =>
    exact absurd (List.map_eq_nil_iff.mp (List.cons.inj hm).2) (h.ne_nil (Nat.succ_ne_zero _))
  | blockClose =>
    cases ha with | block h =>
    obtain ⟨m, more, hd, rfl, hmore, h⟩ := h.of_rbrace (List.cons.inj hm).2
    cases hd
    exact .of_append [.block [] true] hmore h
  | blockItem hl hi hb ihi ihb =>
    cases ha with | block h =>
    have hm := (List.cons.inj hm).2
    have hitem := ihi (.stmt h (by simp) (by simpa [hm] using hl)) hm
    have hblock := hitem.insert fun more hm h => ihb (.block h) (by rw [List.map_cons, hm]; rfl)
    simpa [listSwitchBraces, switchBraces] using hblock
  | bodyEnd | bodyClose =>
    cases ha with | body h =>
    exact .of_append [] hm h
  | noTail =>
    cases ha with | tail h =>
    exact .of_append [] hm h
  | body hl hi ih =>
    cases ha with | body h hd =>
    exact ih (.stmt h (by simp [hd]) (by simpa [hm, Part.lead] using hl)) hm
  | elseIf hb ih =>
    cases ha with | tail h hd =>
    obtain ⟨more, rfl, hmore, hseam⟩ := h.of_word hm (.inl rfl)
    have hif := ih (.stmt hseam (by simp [hd]) (by simp [hmore])) hmore
    have helse := hif.prepend (agree_replicate [.keyword .elseKw])
    simpa [listSwitchBraces, switchBraces, Head.lexemes, Nat.add_comm 1, Nat.add_comm 2,
      List.replicate_succ] using helse
  | elseBody h hb ih =>
    cases ha with | tail h =>
    obtain ⟨more, rfl, hmore, hseam⟩ := h.of_word hm (.inl rfl)
    exact (ih (.body hseam (h.ne_zero hm rfl)) hmore).control .elseHead none rfl

-- Outside of all blocks no brace is closed.
theorem Seam.head?_ne_rbrace (h : Seam 0 as) :
    (as.map Prod.fst).head? ≠ some (.punct .rbrace) := by
  intro hm
  obtain ⟨ls, hm⟩ := List.head?_eq_some_iff.mp hm
  obtain ⟨m, more, hd, _⟩ := h.of_rbrace hm
  cases hd

-- What is known of the braces of a file is how they are read.
theorem Seam.agree_readFile (ls : List Lexeme) :
    ∀ as : List Hinted, Seam 0 as → as.map Prod.fst = ls →
      Agree (listSwitchBraces (readFile ls)) as := by
  fun_induction readFile ls with
  | case1 =>
    intro as _ hm
    cases List.map_eq_nil_iff.mp hm
    exact .nil
  | case2 l ls s ih =>
    intro as h hm
    have hread := (reads_read true l ls).yields (.stmt h (by simp) h.head?_ne_rbrace) hm
    obtain ⟨taken, more, rfl, hmore, hseam, hflags⟩ := hread
    have hrest := hflags.append (ih more hseam hmore)
    rwa [← listSwitchBraces_append] at hrest

end Stmt

end CLint
