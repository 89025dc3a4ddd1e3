import CLint.Proofs.Completing
import CLint.Proofs.Join.Clauses
import Mathlib.Data.List.Chain

namespace CLint

namespace Stmt

variable {code : List Lexeme} {start : Nat} {t x : Site}

-- A statement of a block that was read from the code at its place.
structure IsReadAt (code : List Lexeme) (s : Site) : Prop where
  reads : Reads (.stmt false) (code.drop s.start) [s.stmt] (code.drop s.stop)
  opens : (code.drop s.start).head? ≠ some (.punct .rbrace)

-- The statements of a block were read from the code at their places, and behind them the block is
-- closed unless the code ends there.
structure AreReadFrom (code : List Lexeme) (start : Nat) (items : List Stmt) : Prop where
  each : ∀ x ∈ Site.placed start items, IsReadAt code x
  close : ∀ l ∈ (code.drop (start + listSize items)).head?, l = .punct .rbrace

-- The same for all blocks among some statements.
def BlocksAreRead (code : List Lexeme) (start : Nat) (ss : List Stmt) : Prop :=
  ∀ t ∈ listSites start ss, ∀ items closed, t.stmt = block items closed →
    AreReadFrom code (t.start + 1) items

variable {ss ts : List Stmt} {ls rest : List Lexeme} {p : Part} {head : Head}
  {group : Option Group} {parts : List Stmt} {n : Nat}

theorem drop_add_of_append {n : Nat} {a b : List Lexeme} (h : code.drop start = a ++ b)
    (hn : a.length = n) : code.drop (start + n) = b := by
  rw [← List.drop_drop, h, ← hn, List.drop_left]

theorem blocksAreRead_nil : BlocksAreRead code start [] := by
  intro t ht
  cases ht

theorem blocksAreRead_append : BlocksAreRead code start (ss ++ ts) ↔
    BlocksAreRead code start ss ∧ BlocksAreRead code (start + listSize ss) ts := by
  simp only [BlocksAreRead, listSites_append, List.forall_mem_append]

theorem blocksAreRead_cons {s : Stmt} : BlocksAreRead code start (s :: ss) ↔
    BlocksAreRead code start [s] ∧ BlocksAreRead code (start + s.size) ss := by
  rw [← List.singleton_append, blocksAreRead_append]
  rfl

theorem blocksAreRead_leaf {s : Stmt} (hs : sites start s = [⟨start, s⟩])
    (hb : ∀ items closed, s ≠ block items closed) : BlocksAreRead code start [s] := by
  intro t ht items closed hblock
  simp only [listSites, hs, List.append_nil, List.mem_singleton] at ht
  subst ht
  exact absurd hblock (hb items closed)

theorem blocksAreRead_control : BlocksAreRead code start [control head group parts] ↔
    BlocksAreRead code (partsStart start head group) parts := by
  simp [BlocksAreRead, listSites, sites]

theorem blocksAreRead_block {items : List Stmt} {closed : Bool} :
    BlocksAreRead code start [block items closed] ↔
      AreReadFrom code (start + 1) items ∧ BlocksAreRead code (start + 1) items := by
  simp only [BlocksAreRead, listSites, sites, List.append_nil, List.forall_mem_cons]
  refine and_congr_left fun _ => ⟨fun h => h items closed rfl, ?_⟩
  rintro h _ _ ⟨⟩
  exact h

theorem blocksAreRead_function {header : List Lexeme} {body : Stmt} :
    BlocksAreRead code start [function header body] ↔
      BlocksAreRead code (start + header.length) [body] := by
  simp [BlocksAreRead, listSites, sites, or_imp, forall_and]

theorem drop_partsStart {keyword : Lexeme} {more : List Lexeme}
    (hs : code.drop start = keyword :: ls) (hh : head.lexemes = [keyword])
    (hg : groupLexemes group ++ more = ls) : code.drop (partsStart start head group) = more := by
  rw [partsStart, Nat.add_assoc]
  refine drop_add_of_append (a := keyword :: groupLexemes group) ?_ ?_
  · rw [hs, ← hg, List.cons_append]
  · simp [hh, Nat.add_comm]

-- By induction on how the code is read: each part stands behind what was read before it.
theorem Reads.blocksAreRead (h : Reads p ls ss rest)
    (hs : code.drop (start + p.lead.length) = ls) : BlocksAreRead code start ss := by
  induction h generalizing start with
  | stray | empty | caseLabel | jump | nameLabel | simple =>
    exact blocksAreRead_leaf rfl fun _ _ h => by cases h
  | block b ih => exact ih (drop_add_of_append (a := [_]) hs rfl)
  | @branch atFile ls more mid rest group body tail hg b t ihb iht =>
    have hmore : code.drop (partsStart start .ifHead group) = more :=
      drop_partsStart hs rfl (append_of_readGroup hg)
    have hmid : code.drop (partsStart start .ifHead group + listSize body) = mid :=
      drop_add_of_append (hmore.trans b.append.symm) (length_listLexemes body)
    exact blocksAreRead_control.mpr (blocksAreRead_append.mpr ⟨ihb hmore, iht hmid⟩)
  | loneElse b ih => exact blocksAreRead_control.mpr (ih (drop_partsStart hs rfl rfl))
  | headed hk hg b ih =>
    exact blocksAreRead_control.mpr
      (ih (drop_partsStart hs (lexemes_of_groupHead? hk) (append_of_readGroup hg)))
  | doLoop b hw ih =>
    refine blocksAreRead_control.mpr (blocksAreRead_append.mpr
      ⟨ih (drop_partsStart hs rfl rfl), ?_⟩)
    unfold readDoWhile at hw
    split at hw
    case h_1 =>
      cases hw
      exact blocksAreRead_leaf rfl fun _ _ h => by cases h
    case h_2 =>
      cases hw
      exact blocksAreRead_nil
  | @function l ls text more rest body hp ht hf b ih =>
    have hs : code.drop start = l :: ls := hs
    refine blocksAreRead_function.mpr (ih ?_)
    rw [Nat.add_assoc]
    refine drop_add_of_append (a := l :: text ++ [.punct .lbrace]) ?_ (by simp [Part.lead])
    rw [hs, ← append_of_readText ht]
    simp [semicolonIf]
  | blockEnd | blockClose =>
    have hs := hs
    refine blocksAreRead_block.mpr ⟨⟨List.forall_mem_nil _, ?_⟩, blocksAreRead_nil⟩
    intro l hl
    have hl : l ∈ (code.drop (start + 1)).head? := hl
    simp_all [Part.lead]
  | @blockItem l ls mid rest s ss closed hl i b ihi ihb =>
    have hs : code.drop (start + 1) = l :: ls := hs
    have hmid : code.drop (start + 1 + s.size) = mid :=
      drop_add_of_append (hs.trans (i.append.symm.trans (by simp))) (length_lexemes s)
    have hbehind : code.drop (start + s.size + [Lexeme.punct .lbrace].length) = mid := by
      rw [← hmid, Nat.add_right_comm]
      rfl
    have hitems := blocksAreRead_block.mp (ihb hbehind)
    rw [Nat.add_right_comm] at hitems
    refine blocksAreRead_block.mpr ⟨⟨?_, ?_⟩, blocksAreRead_cons.mpr ⟨ihi hs, hitems.2⟩⟩
    · refine List.forall_mem_cons.mpr ⟨⟨?_, ?_⟩, hitems.1.each⟩
      · rwa [hs, Site.stop, hmid]
      · rw [hs]
        exact fun h => hl (Option.some.inj h)
    · rw [listSize, ← Nat.add_assoc]
      exact hitems.1.close
  | bodyEnd | bodyClose | noTail => exact blocksAreRead_nil
  | body hl i ih => exact ih hs
  | elseIf b ih =>
    have hs : code.drop start = .keyword .elseKw :: _ := hs
    have hif : code.drop (start + 1) = .keyword .ifKw :: _ :=
      drop_add_of_append (a := [_]) hs rfl
    have h := blocksAreRead_control.mp (ih hif)
    refine blocksAreRead_control.mpr ?_
    simpa [partsStart, Head.lexemes, Nat.add_assoc] using h
  | elseBody h b ih => exact blocksAreRead_control.mpr (ih (drop_partsStart hs rfl rfl))

theorem blocksAreRead_readFile (ls : List Lexeme) :
    ∀ start, code.drop start = ls → BlocksAreRead code start (readFile ls) := by
  fun_induction readFile ls with
  | case1 => exact fun _ _ => blocksAreRead_nil
  | case2 l ls s ih =>
    intro start hs
    have h : Reads (.stmt true) (l :: ls) [s.value] s.rest := reads_read true l ls
    refine blocksAreRead_cons.mpr ⟨h.blocksAreRead hs, ih _ ?_⟩
    exact drop_add_of_append (hs.trans (h.append.symm.trans (by simp))) (length_lexemes _)

mutual

-- The parts of a control statement are among the statements of the file.
theorem mem_sites_of_mem_parts (s : Stmt) {start : Nat}
    (h : ⟨n, control head group parts⟩ ∈ sites start s)
    (ht : t ∈ listSites (partsStart n head group) parts) : t ∈ sites start s := by
  cases s with
  | function header body =>
    rw [sites] at h ⊢
    rcases List.mem_append.mp h with h | h
    · exact List.mem_append_left _ (mem_sites_of_mem_parts body h ht)
    · cases List.mem_singleton.mp h
  | block items closed =>
    rw [sites] at h ⊢
    rcases List.mem_cons.mp h with h | h
    · cases h
    · exact List.mem_cons_of_mem _ (mem_listSites_of_mem_parts items h ht)
  | control head' group' parts' =>
    rw [sites] at h ⊢
    rcases List.mem_cons.mp h with h | h
    · cases h
      exact List.mem_cons_of_mem _ ht
    · exact List.mem_cons_of_mem _ (mem_listSites_of_mem_parts parts' h ht)
  | _ =>
    rw [sites] at h
    · cases List.mem_singleton.mp h
    all_goals simp

theorem mem_listSites_of_mem_parts (ss : List Stmt) {start : Nat}
    (h : ⟨n, control head group parts⟩ ∈ listSites start ss)
    (ht : t ∈ listSites (partsStart n head group) parts) : t ∈ listSites start ss := by
  cases ss with
  | nil => cases h
  | cons s ss =>
    rw [listSites] at h ⊢
    rcases List.mem_append.mp h with h | h
    · exact List.mem_append_left _ (mem_sites_of_mem_parts s h ht)
    · exact List.mem_append_right _ (mem_listSites_of_mem_parts ss h ht)

end

theorem IsReadAt.drop_start (h : IsReadAt code x) :
    code.drop x.start = x.stmt.lexemes ++ code.drop x.stop := by
  simpa [Part.lead] using h.reads.append.symm

theorem drop_of_areReadAt (h : ∀ x ∈ Site.placed start ss, IsReadAt code x) :
    code.drop start = listLexemes ss ++ code.drop (start + listSize ss) := by
  induction ss generalizing start with
  | nil => rfl
  | cons s ss ih =>
    obtain ⟨hs, hss⟩ := List.forall_mem_cons.mp h
    have hstop : Site.stop ⟨start, s⟩ = start + s.size := rfl
    rw [hs.drop_start, hstop, ih hss, listLexemes, List.append_assoc, listSize, Nat.add_assoc]

end Stmt

theorem Site.isChain_placed (start : Nat) (ss : List Stmt) :
    (placed start ss).IsChain fun x y => y.start = x.stop := by
  induction ss generalizing start with
  | nil => exact .nil
  | cons s ss ih =>
    refine List.isChain_cons.mpr ⟨fun y hy => ?_, ih _⟩
    cases ss with
    | nil => cases hy
    | cons t ss =>
      cases hy
      rfl

-- A label that begins a section.
def Site.IsCase (s : Site) : Prop :=
  ∃ word text, s.stmt = .label (.keyword word) text ∧ Stmt.isCaseWord word

-- What ends a section: the end of its block, or the next label.
def Lexeme.endsSection (l : Lexeme) : Bool :=
  l = .punct .rbrace || l = .keyword .caseKw || l = .keyword .defaultKw

namespace Section

variable {start : Nat} {ss items : List Site} {c : Section} {code : List Lexeme}

-- Statements that follow one another from a given place on, up to the next label or to the end of
-- their block.
structure Follow (ss : List Site) (stop start : Nat) (items : List Site) : Prop where
  placed : items = Site.placed start (items.map (·.stmt))
  ends : let n := start + Stmt.listSize (items.map (·.stmt))
    n = stop ∨ ∃ x ∈ ss, x.start = n ∧ x.IsCase
  plain : ∀ x ∈ items, ¬x.IsCase

theorem Follow.mono {stop : Nat} {ts : List Site} (h : Follow ss stop start items)
    (hs : ss ⊆ ts) : Follow ts stop start items where
  placed := h.placed
  ends := h.ends.imp_right fun ⟨x, hx, hend⟩ => ⟨x, hs hx, hend⟩
  plain := h.plain

theorem Follow.cons {stop : Nat} {s : Stmt} (h : Follow ss stop (start + s.size) items)
    (hs : ¬(Site.mk start s).IsCase) : Follow ss stop start (⟨start, s⟩ :: items) where
  placed := by
    rw [List.map_cons, Site.placed]
    exact congrArg _ h.placed
  ends := by
    have hends := h.ends
    rwa [Nat.add_assoc] at hends
  plain := List.forall_mem_cons.mpr ⟨hs, h.plain⟩

theorem follow_split (start : Nat) (items : List Stmt) :
    let ss := Site.placed start items
    Follow ss (start + Stmt.listSize items) start (split ss).1 ∧
    ∀ c ∈ (split ss).2, c.label.IsCase ∧
      Follow ss (start + Stmt.listSize items) c.label.stop c.items := by
  induction items generalizing start with
  | nil => exact ⟨⟨rfl, .inl rfl, List.forall_mem_nil _⟩, List.forall_mem_nil _⟩
  | cons s items ih =>
    obtain ⟨hfirst, hrest⟩ := ih (start + s.size)
    rw [Nat.add_assoc] at hfirst hrest
    have hsub := List.subset_cons_self (⟨start, s⟩ : Site) (Site.placed (start + s.size) items)
    have hrest := fun c hc => (hrest c hc).imp_right fun h => h.mono hsub
    intro ss
    simp only [ss, Site.placed, split]
    split
    case h_1 word text hrest =>
      split
      case isTrue hk =>
        have hcase : (Site.mk start (.label (.keyword word) text)).IsCase := ⟨word, text, rfl, hk⟩
        refine ⟨⟨rfl, .inr ⟨_, List.mem_cons_self, rfl, hcase⟩, List.forall_mem_nil _⟩, ?_⟩
        exact List.forall_mem_cons.mpr ⟨⟨hcase, hfirst.mono hsub⟩, hrest⟩
      case isFalse hk =>
        refine ⟨(hfirst.mono hsub).cons ?_, hrest⟩
        rintro ⟨_, _, ⟨⟩, hk'⟩
        exact hk hk'
    case h_2 hne =>
      refine ⟨(hfirst.mono hsub).cons ?_, hrest⟩
      rintro ⟨word, text, hs, _⟩
      exact hne word text hs

-- A section was read from the code at its place, with all that belongs to it.
structure IsRead (code : List Lexeme) (c : Section) : Prop where
  isCase : c.label.IsCase
  label : Stmt.IsReadAt code c.label
  items : ∀ x ∈ c.items, Stmt.IsReadAt code x ∧ ¬x.IsCase
  placed : c.items = Site.placed c.label.stop (c.items.map (·.stmt))
  rest : ∃ more, code.drop c.label.stop = Stmt.listLexemes (c.items.map (·.stmt)) ++ more ∧
    ∀ l ∈ more.head?, l.endsSection

-- Behind a statement of a section comes the next one, unless the section ends there.
theorem IsRead.getLast?_eq (h : c.IsRead code) {x : Site} (hx : x ∈ c.items)
    (hends : ∀ l ∈ (code.drop x.stop).head?, l.endsSection) : c.items.getLast? = some x := by
  obtain ⟨as, bs, hitems⟩ := List.append_of_mem hx
  cases bs with
  | nil => simp [hitems]
  | cons y bs =>
    have hy : y ∈ c.items := by simp [hitems]
    obtain ⟨⟨hreads, hopens⟩, hplain⟩ := h.items y hy
    have hstart : y.start = x.stop := by
      have hchain := Site.isChain_placed c.label.stop (c.items.map (·.stmt))
      rw [← h.placed] at hchain
      exact List.isChain_iff_forall_rel_of_append_cons_cons.mp hchain hitems
    rw [← hstart] at hends
    cases hl : code.drop y.start with
    | nil => cases hl ▸ hreads
    | cons l ls =>
      rw [hl] at hreads hopens
      have hl := hends l (by simp [hl])
      simp only [Lexeme.endsSection, Bool.or_eq_true, decide_eq_true_eq] at hl
      have hcase : ∀ k, l = .keyword k → Stmt.isCaseWord k → y.IsCase := by
        rintro k rfl hk
        have hvalue := (Stmt.reads_iff.mp hreads).1
        rw [Stmt.read_caseLabel hk] at hvalue
        exact ⟨k, _, hvalue.symm, hk⟩
      rcases hl with (rfl | hl) | hl
      · exact absurd rfl hopens
      · exact absurd (hcase _ hl rfl) hplain
      · exact absurd (hcase _ hl rfl) hplain

theorem isRead_of_mem_split {items : List Stmt} (h : Stmt.AreReadFrom code start items)
    (hc : c ∈ (split (Site.placed start items)).2) : c.IsRead code := by
  obtain ⟨hcase, hfollow⟩ := (follow_split start items).2 c hc
  have hitems : ∀ x ∈ c.items, Stmt.IsReadAt code x := fun x hx =>
    h.each x ((sublist_of_mem_split hc).mem (List.mem_cons_of_mem _ hx))
  refine ⟨hcase, h.each _ ((sublist_of_mem_split hc).mem List.mem_cons_self),
    fun x hx => ⟨hitems x hx, hfollow.plain x hx⟩, hfollow.placed, _,
    Stmt.drop_of_areReadAt (hfollow.placed ▸ hitems), ?_⟩
  rcases hfollow.ends with hstop | ⟨x, hx, hstart, word, text, hx', hk⟩
  · intro l hl
    rw [hstop] at hl
    simp [Lexeme.endsSection, h.close l hl]
  · rw [← hstart, (h.each x hx).drop_start, hx']
    rintro l ⟨⟩
    cases word <;> first | rfl | cases hk

end Section

-- Each section of a `switch` in a file was read from the code at its place.
theorem Parts.isRead_of_mem_sections {p : Parts} {s : Site} (hs : s ∈ p.sites) {c : Section}
    (hc : c ∈ s.sections) : c.IsRead p.lexemes := by
  obtain ⟨start, stmt⟩ := s
  unfold Site.sections at hc
  split at hc
  case h_1 head group parts hstmt =>
    cases hstmt
    unfold Control.sections at hc
    split at hc
    case h_1 items closed more =>
      have hblock := Stmt.mem_listSites_of_mem_parts _ hs List.mem_cons_self
      have hread := Stmt.blocksAreRead_readFile p.lexemes 0 rfl _ hblock items closed rfl
      exact Section.isRead_of_mem_split hread hc
    case h_2 => cases hc
  case h_2 => cases hc

-- The sections of a `switch` are the clauses of the block that it is.
theorem Site.exists_switchBlock {s : Site} {c : Section} (hc : c ∈ s.sections)
    (constants : List String) (announced : List Nat) :
    ∃ b ∈ s.controlBlocks constants announced, b.kind = .switchBlock ∧
      b.clauses = s.sections.map (·.clause announced) := by
  obtain ⟨start, stmt⟩ := s
  cases stmt with
  | control head group parts =>
    have hc : c ∈ Control.sections start head group parts := hc
    have hhead : head = .switchHead := by
      unfold Control.sections at hc
      split at hc
      case h_1 => rfl
      case h_2 => cases hc
    subst hhead
    exact ⟨_, List.mem_cons_self, rfl, rfl⟩
  | _ => cases hc

theorem Outline.exists_clause {source : Source} {s : Site}
    (hs : s ∈ (Parts.ofTokens source.tokens).sites) {c : Section} (hc : c ∈ s.sections) :
    let p := Parts.ofTokens source.tokens
    ∃ b ∈ (ofSource source).blocks, b.kind = .switchBlock ∧
      (c.clause (announced p.code p.comments)).map (locate (ofSource source).code) ∈ b.clauses := by
  intro p
  let known := announced p.code p.comments
  obtain ⟨b, hb, hkind, hclauses⟩ :=
    Site.exists_switchBlock hc (constantNames p.declarations) known
  have hmem : b ∈ p.blocks := List.mem_flatMap.mpr ⟨s, hs, hb⟩
  have hclause : c.clause known ∈ b.clauses := hclauses ▸ List.mem_map_of_mem hc
  exact ⟨b.map (locate p.tokens), (List.mergeSort_perm ..).mem_iff.mpr (List.mem_map_of_mem hmem),
    hkind, List.mem_map_of_mem hclause⟩

end CLint
