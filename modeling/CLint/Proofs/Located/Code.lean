import CLint.Proofs.Located.Outline
import CLint.Rule.Hazard
import CLint.Rule.Indentation
import CLint.Rule.MagicNumber
import CLint.Rule.Naming
import CLint.Rule.Spacing

namespace CLint

section

variable {ε α β : Type}

theorem exists_of_bind_eq_ok {x : Except ε α} {f : α → Except ε β} {b : β}
    (h : x >>= f = .ok b) : ∃ a, x = .ok a ∧ f a = .ok b := by
  cases x with
  | error => cases h
  | ok a => exact ⟨a, rfl, h⟩

theorem exists_of_mapM_eq_ok {f : α → Except ε β} {as : List α} {bs : List β}
    (h : as.mapM f = .ok bs) : ∀ b ∈ bs, ∃ a ∈ as, f a = .ok b := by
  induction as generalizing bs with
  | nil =>
    cases h
    exact List.forall_mem_nil _
  | cons a as ih =>
    rw [List.mapM_cons] at h
    obtain ⟨b, hb, h⟩ := exists_of_bind_eq_ok h
    obtain ⟨bs', hbs, h⟩ := exists_of_bind_eq_ok h
    cases h
    refine List.forall_mem_cons.mpr ⟨⟨a, List.mem_cons_self, hb⟩, fun b' hb' => ?_⟩
    obtain ⟨a', ha', he⟩ := ih hbs b' hb'
    exact ⟨a', List.mem_cons_of_mem a ha', he⟩

end

namespace Rule

open Outline Remark

-- The tokens that a rule looks at, one after another, are `us`.
variable {settings : RuleSettings} {o : Outline} {lines : List String} {ts us : List Token}
  {t u : Token} {m : Remark}

theorem isAnchored_noGoto (ho : o.IsOver ts) : noGoto.IsAnchored settings o ts :=
  isAnchored_of_ok rfl <| List.forall_mem_map.mpr fun _ ht =>
    .span (Span.over_of_mem (ho.code.mem (List.mem_filter.mp ht).1))

theorem isAnchored_returnRemark (ho : o.IsOver ts) {d : Declaration Span}
    (hm : returnRemark o d = some m) : m.IsAnchored lines ts := by
  simp only [returnRemark] at hm
  split at hm
  case h_1 => cases hm
  case h_2 r _ =>
    split at hm
    case h_1 first extra others hbody =>
      cases hm
      have hmem := List.mem_filter.mp (hbody ▸ List.mem_cons_of_mem first List.mem_cons_self)
      exact .span (Span.over_of_mem ((ho.sublist_extract ..).mem hmem.1))
    case h_2 => cases hm

theorem isAnchored_singleReturn (ho : o.IsOver ts) : singleReturn.IsAnchored settings o ts :=
  isAnchored_of_ok rfl <| List.forall_mem_filterMap.mpr fun _ _ _ hm =>
    isAnchored_returnRemark ho hm

theorem isAnchored_integerRemark {ks : List Keyword} {following : Option Token} (h : t ∈ ts)
    (hm : integerRemark t ks following = some m) : m.IsAnchored lines ts := by
  simp only [integerRemark] at hm
  split at hm <;> cases hm
  exact .token h

theorem isAnchored_close {run : List (Token × Keyword)} {following : Option Token}
    (h : ∀ p ∈ run, p.1 ∈ ts) :
    ∀ m ∈ (integerRemarks.close run following).toList, m.IsAnchored lines ts := by
  intro m hm
  rw [Option.mem_toList, integerRemarks.close] at hm
  split at hm
  case h_1 => cases hm
  case h_2 first k hrun =>
    exact isAnchored_integerRemark (h _ (List.mem_of_getLast? hrun)) hm

-- A run that is not at its end yet consists of tokens that were passed.
theorem isAnchored_integerRemarks {run : List (Token × Keyword)} (hrun : ∀ p ∈ run, p.1 ∈ ts)
    (h : us ⊆ ts) : ∀ m ∈ integerRemarks run us, m.IsAnchored lines ts := by
  induction us generalizing run with
  | nil => exact isAnchored_close hrun
  | cons t us ih =>
    obtain ⟨ht, hus⟩ := List.cons_subset.mp h
    unfold integerRemarks
    split
    case h_1 => exact ih (List.forall_mem_cons.mpr ⟨ht, hrun⟩) hus
    case h_2 =>
      exact List.forall_mem_append.mpr ⟨isAnchored_close hrun, ih (List.forall_mem_nil _) hus⟩

theorem isAnchored_stdintTypes (ho : o.IsOver ts) : stdintTypes.IsAnchored settings o ts :=
  isAnchored_of_ok rfl (isAnchored_integerRemarks (List.forall_mem_nil _) ho.code.subset)

-- Only a semicolon is remarked on, and otherwise the remarks are those on the tokens behind.
theorem isAnchored_statementRemarks {depth : Nat} {line : Option Nat} {reported : Bool}
    (h : us ⊆ ts) : ∀ m ∈ statementRemarks depth line reported us, m.IsAnchored lines ts := by
  fun_induction statementRemarks depth line reported us with
  | case1 => exact List.forall_mem_nil _
  | case7 depth line reported t us _ _ _ _ ih =>
    obtain ⟨ht, hus⟩ := List.cons_subset.mp h
    exact List.forall_mem_cons.mpr ⟨.token ht, ih hus⟩
  | case2 | case3 | case4 | case5 | case6 | case8 =>
    rename_i ih
    exact ih (List.cons_subset.mp h).2

theorem isAnchored_oneStatementPerLine (ho : o.IsOver ts) :
    oneStatementPerLine.IsAnchored settings o ts :=
  isAnchored_of_ok rfl (isAnchored_statementRemarks ho.code.subset)

theorem isAnchored_allocationRemarks (h : us ⊆ ts) :
    ∀ m ∈ allocationRemarks us, m.IsAnchored lines ts := by
  induction us with
  | nil => exact List.forall_mem_nil _
  | cons t us ih =>
    obtain ⟨ht, hus⟩ := List.cons_subset.mp h
    refine List.forall_mem_append.mpr ⟨?_, ih hus⟩
    split
    · exact List.forall_mem_singleton.mpr (.span (Span.over_of_mem ht))
    · exact List.forall_mem_nil _

theorem isAnchored_dynamicAllocation (ho : o.IsOver ts) :
    dynamicAllocation.IsAnchored settings o ts :=
  isAnchored_of_ok rfl (isAnchored_allocationRemarks ho.code.subset)

theorem argumentTokens_subset (depth : Nat) (us : List Token) : argumentTokens depth us ⊆ us := by
  fun_induction argumentTokens depth us with
  | case1 => exact List.Subset.refl _
  | case2 | case4 | case6 =>
    rename_i ih
    exact List.cons_subset_cons _ ih
  | case3 | case5 => exact List.nil_subset _

theorem isAnchored_sideEffectRemarks {reported : List Nat} (h : us ⊆ ts) :
    ∀ m ∈ sideEffectRemarks reported us, m.IsAnchored lines ts := by
  induction us generalizing reported with
  | nil => exact List.forall_mem_nil _
  | cons t us ih =>
    obtain ⟨_, hus⟩ := List.cons_subset.mp h
    unfold sideEffectRemarks
    split
    case isTrue =>
      refine List.forall_mem_append.mpr ⟨List.forall_mem_map.mpr fun s hs => ?_, ih hus⟩
      have hs := List.mem_of_mem_drop (argumentTokens_subset 0 _ (List.mem_filter.mp hs).1)
      exact .span (Span.over_of_mem (hus hs))
    case isFalse => exact ih hus

theorem isAnchored_sideEffectInCall (ho : o.IsOver ts) :
    sideEffectInCall.IsAnchored settings o ts :=
  isAnchored_of_ok rfl (isAnchored_sideEffectRemarks ho.code.subset)

theorem isAnchored_operatorRemarks {before : List Token} (h : us ⊆ ts) :
    ∀ m ∈ operatorRemarks before us, m.IsAnchored lines ts := by
  induction us generalizing before with
  | nil => exact List.forall_mem_nil _
  | cons t us ih =>
    obtain ⟨ht, hus⟩ := List.cons_subset.mp h
    refine List.forall_mem_append.mpr ⟨?_, ih hus⟩
    split
    case h_1 =>
      split
      · exact List.forall_mem_singleton.mpr (.span (Span.over_of_mem ht))
      · exact List.forall_mem_nil _
    case h_2 => exact List.forall_mem_nil _

theorem isAnchored_spaceAroundOperators (ho : o.IsOver ts) :
    spaceAroundOperators.IsAnchored settings o ts :=
  isAnchored_of_ok rfl (isAnchored_operatorRemarks ho.code.subset)

theorem mem_of_enclosedAfter {depth : Nat} {inner : List Token}
    (h : enclosedAfter depth us = some (inner, u)) : u ∈ us := by
  induction us generalizing depth inner with
  | nil => cases h
  | cons t us ih =>
    have hmore : ∀ {depth}, (enclosedAfter depth us).map (fun p => (t :: p.1, p.2)) =
        some (inner, u) → u ∈ t :: us := fun h => by
      obtain ⟨_, hp, he⟩ := Option.map_eq_some_iff.mp h
      cases he
      exact List.mem_cons_of_mem t (ih hp)
    simp only [enclosedAfter] at h
    split at h
    case isTrue => exact hmore h
    case isFalse =>
      split at h
      case isTrue =>
        split at h
        case h_1 =>
          cases h
          exact List.mem_cons_self
        case h_2 => exact hmore h
      case isFalse =>
        split at h
        case isTrue => cases h
        case isFalse => exact hmore h

-- The parentheses of a condition are remarked on from the opening to the closing one.
theorem isAnchored_conditionSpaceRemark (h : (t :: us).Sublist ts) {keyword : Token}
    (hm : conditionSpaceRemark keyword t us = some m) : m.IsAnchored lines ts := by
  simp only [conditionSpaceRemark] at hm
  split at hm
  case h_1 hafter =>
    split at hm <;> cases hm
    have hclose := List.singleton_sublist.mpr (mem_of_enclosedAfter hafter)
    exact .span (Span.over_cover_of_sublist ((hclose.cons_cons t).trans h))
  case h_2 => cases hm

theorem isAnchored_conditionSpaceRemarks (h : us.Sublist ts) :
    ∀ m ∈ conditionSpaceRemarks us, m.IsAnchored lines ts := by
  induction us with
  | nil => exact List.forall_mem_nil _
  | cons t us ih =>
    have hus := (List.sublist_cons_self t us).trans h
    refine List.forall_mem_append.mpr ⟨fun m hm => ?_, ih hus⟩
    rw [Option.mem_toList] at hm
    split at hm
    case h_1 =>
      split at hm
      · exact isAnchored_conditionSpaceRemark hus hm
      · cases hm
    case h_2 => cases hm

theorem isAnchored_spaceInsideParentheses (ho : o.IsOver ts) :
    spaceInsideParentheses.IsAnchored settings o ts :=
  isAnchored_of_ok rfl (isAnchored_conditionSpaceRemarks ho.code)

theorem isAnchored_emptyPairRemarks (h : us.Sublist ts) :
    ∀ m ∈ emptyPairRemarks us, m.IsAnchored lines ts := by
  fun_induction emptyPairRemarks us with
  | case1 t n us found ih =>
    have hpair : [t, n].Sublist ts := ((List.nil_sublist us).cons_cons n |>.cons_cons t).trans h
    refine List.forall_mem_append.mpr ⟨?_, ih ((List.sublist_cons_self t _).trans h)⟩
    unfold found
    split
    · exact List.forall_mem_singleton.mpr (.span (Span.over_cover_of_sublist hpair))
    · exact List.forall_mem_nil _
  | case2 => exact List.forall_mem_nil _

theorem isAnchored_emptyParentheses (ho : o.IsOver ts) :
    emptyParentheses.IsAnchored settings o ts :=
  isAnchored_of_ok rfl (isAnchored_emptyPairRemarks ho.code)

-- A sign stands right before its number.
theorem head?_of_sign? {before : List Token} (h : sign? before = some t) :
    before.head? = some t := by
  unfold sign? at h
  split at h
  case h_1 => cases h
  case h_2 =>
    split at h <;> cases h
    rfl

-- The tokens before a number are listed backwards, and with it they are in the order of the text.
theorem isAnchored_numberRemark {before : List Token} (h : (before.reverse ++ [t]).Sublist ts)
    (hm : numberRemark settings o before t = .ok (some m)) : m.IsAnchored lines ts := by
  unfold numberRemark at hm
  split at hm
  case isTrue => cases hm
  case isFalse =>
    obtain ⟨value, _, hm⟩ := exists_of_bind_eq_ok hm
    dsimp only at hm
    split at hm <;> cases hm
    refine .span ?_
    cases hsign : sign? before with
    | none => exact Span.over_of_mem (h.mem (List.mem_append_right _ List.mem_cons_self))
    | some s =>
      obtain ⟨rest, rfl⟩ := List.head?_eq_some_iff.mp (head?_of_sign? hsign)
      have hpair : [s, t].Sublist ((s :: rest).reverse ++ [t]) := by
        rw [List.reverse_cons, List.append_assoc]
        exact List.sublist_append_right ..
      exact Span.over_cover_of_sublist (hpair.trans h)

theorem isAnchored_numberRemarks {before : List Token} {ms : List Remark}
    (h : (before.reverse ++ us).Sublist ts) (hms : numberRemarks settings o before us = .ok ms) :
    ∀ m ∈ ms, m.IsAnchored lines ts := by
  induction us generalizing before ms with
  | nil =>
    cases hms
    exact List.forall_mem_nil _
  | cons t us ih =>
    unfold numberRemarks at hms
    obtain ⟨found, hfound, hms⟩ := exists_of_bind_eq_ok hms
    obtain ⟨others, hothers, hms⟩ := exists_of_bind_eq_ok hms
    cases hms
    rw [List.append_cons, ← List.reverse_cons] at h
    refine List.forall_mem_append.mpr ⟨fun m hm => ?_, ih h hothers⟩
    rw [List.reverse_cons] at h
    rw [Option.mem_toList.mp hm] at hfound
    exact isAnchored_numberRemark ((List.sublist_append_left ..).trans h) hfound

theorem isAnchored_magicNumber (ho : o.IsOver ts) : magicNumber.IsAnchored settings o ts := by
  intro ms hms
  have hcode : (([] : List Token).reverse ++ o.code.toList).Sublist ts := ho.code
  exact isAnchored_numberRemarks hcode hms

theorem first_of_checkLine {margin : Margin} {width : Int} {lead : List Char}
    {following : Option Token} {w : WrongIndent}
    (h : (margin.checkLine width lead t following).1 = some w) : w.first = t := by
  unfold Margin.checkLine at h
  split at h
  case isTrue => cases h
  case isFalse =>
    dsimp only at h
    split at h <;> cases h
    rfl

-- A line that is wrongly indented is known by its first token.
theorem mem_of_mem_wrongIndents {width : Int} {switchBodies : List Nat} {margin : Margin}
    {w : WrongIndent} (h : w ∈ margin.wrongIndents o width switchBodies us) : w.first ∈ us := by
  induction us generalizing margin with
  | nil => cases h
  | cons t us ih =>
    unfold Margin.wrongIndents at h
    cases List.mem_append.mp h
    case inl h =>
      rw [Option.mem_toList] at h
      split at h
      case isTrue => exact first_of_checkLine h ▸ List.mem_cons_self
      case isFalse => cases h
    case inr h => exact List.mem_cons_of_mem t (ih h)

theorem isAnchored_indentation (ho : o.IsOver ts) : indentation.IsAnchored settings o ts := by
  intro ms hms m hm
  obtain ⟨w, hw, hm⟩ := exists_of_mapM_eq_ok hms m hm
  obtain ⟨expected, _, hm⟩ := exists_of_bind_eq_ok hm
  cases hm
  exact .token (ho.code.mem (mem_of_mem_wrongIndents hw))

theorem exists_of_mem_numberedLines {l : String} {n : Nat} (h : (l, n) ∈ numberedLines o) :
    ∃ k, n = k + 1 ∧ o.source.lines[k]? = some l := by
  obtain ⟨hle, hlt, he⟩ := List.mem_zipIdx h
  exact ⟨n - 1, by omega, List.getElem?_eq_some_iff.mpr ⟨by omega, he.symm⟩⟩

-- The tab is one of the characters of the line.
theorem isAnchored_tabIndentation : tabIndentation.IsAnchored settings o ts := by
  intro ms hms m hm
  obtain ⟨⟨l, n⟩, hl, hm⟩ := exists_of_mapM_eq_ok hms m hm
  obtain ⟨width, _, hm⟩ := exists_of_bind_eq_ok hm
  cases hm
  obtain ⟨k, rfl, hk⟩ := exists_of_mem_numberedLines (List.mem_filter.mp hl).1
  refine .line hk ?_
  rw [← String.length_toList]
  exact ((List.takeWhile_prefix _).length_le).trans (List.takeWhile_prefix _).length_le

-- A line is remarked on where it becomes too long.
theorem isAnchored_lineLength (h : 0 < settings.maxLineLength) :
    lineLength.IsAnchored settings o ts :=
  isAnchored_of_ok rfl <| List.forall_mem_filterMap.mpr fun (l, n) hl m hm => by
    obtain ⟨k, rfl, hk⟩ := exists_of_mem_numberedLines hl
    obtain ⟨limit, hlimit⟩ := Int.eq_ofNat_of_zero_le (Int.le_of_lt h)
    simp only [lineRemark, hlimit] at hm
    split at hm <;> cases hm
    case isFalse.refl hlt =>
      exact .line hk (by omega)

end Rule
end CLint
