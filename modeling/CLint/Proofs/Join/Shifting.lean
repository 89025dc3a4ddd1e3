import CLint.Proofs.Join.Basic
import CLint.Proofs.Within.Declaration
import Mathlib.Data.List.Basic

namespace CLint

-- What is read of code does not depend on the numbers of its lexemes: where these are greater by
-- some number, so are those of all that is found.

namespace Move

variable (m : Move)

def stretch (s : Stretch) : Stretch where
  start := s.start + m.tokens
  lexemes := s.lexemes

@[simp]
theorem lexemes_stretch (s : Stretch) : (m.stretch s).lexemes = s.lexemes :=
  rfl

@[simp]
theorem start_stretch (s : Stretch) : (m.stretch s).start = s.start + m.tokens :=
  rfl

theorem inner_stretch (s : Stretch) (ls : List Lexeme) :
    Stretch.mk ((m.stretch s).start + 1) ls = m.stretch ⟨s.start + 1, ls⟩ := by
  simp only [stretch, Nat.add_right_comm]

def tagBody (b : TagBody) : TagBody where
  tag := b.tag
  inner := m.stretch b.inner
  run := m.run b.run

def specifiers (d : Specifiers) : Specifiers :=
  { d with
    rest := m.stretch d.rest
    body := d.body.map m.tagBody }

def head (h : DeclaratorHead) : DeclaratorHead :=
  { h with
    nameAt := h.nameAt + m.tokens
    rest := m.stretch h.rest }

def parameterList (l : ParameterList) : ParameterList where
  parameters := l.parameters.map (·.map m.run)
  close := l.close + m.tokens

def declarator (d : Declarator) : Declarator :=
  { d with
    code := m.stretch d.code
    head := m.head d.head
    list := d.list.map m.parameterList }

def declarationRun (d : Declaration Run) : Declaration Run :=
  { d.map m.run with bodyRun := d.bodyRun.map m.run }

def batch (b : Batch) : Batch where
  declarations := b.declarations.map m.declarationRun
  region := b.region.map m.run

end Move

namespace Code

theorem laidOut_add (m : Move) (start : Nat) (pieces : List (List Lexeme)) :
    laidOut (start + m.tokens) pieces = (laidOut start pieces).map m.stretch := by
  induction pieces generalizing start with
  | nil => rfl
  | cons piece pieces ih =>
    rw [laidOut, laidOut, List.map_cons, ← ih, Nat.add_right_comm start,
      Nat.add_right_comm _ m.tokens]
    rfl

end Code

namespace Stretch

variable {s : Stretch}

theorem cut_stretch (m : Move) (nest : Lexeme → Int) (mark : Punct) (s : Stretch) :
    (m.stretch s).cut nest mark = (s.cut nest mark).map m.stretch :=
  Code.laidOut_add m s.start _

theorem parts_stretch (m : Move) (mark : Punct) (s : Stretch) :
    (m.stretch s).parts mark = (s.parts mark).map m.stretch := by
  rw [parts, parts, cut_stretch, List.filter_map]
  rfl

theorem drop_stretch (m : Move) (s : Stretch) (n : Nat) :
    (m.stretch s).drop n = m.stretch (s.drop n) := by
  simp only [drop, Move.stretch, Nat.add_right_comm]

theorem last_stretch (m : Move) (h : s.lexemes ≠ []) : (m.stretch s).last = s.last + m.tokens := by
  have := List.length_pos_iff.mpr h
  simp only [last, length, Move.stretch]
  omega

theorem run_stretch (m : Move) (h : s.lexemes ≠ []) : (m.stretch s).run = m.run s.run := by
  rw [run, last_stretch m h]
  rfl

end Stretch

namespace Specifiers

theorem bodyFrom_add (m : Move) (start : Nat) (ss : List Specifier) :
    bodyFrom (start + m.tokens) ss = (bodyFrom start ss).map m.tagBody := by
  induction ss generalizing start with
  | nil => rfl
  | cons s ss ih =>
    rw [bodyFrom.eq_def, bodyFrom.eq_def start]
    dsimp only
    rw [Nat.add_right_comm, ih, Option.map_or]
    congr 1
    split
    case h_1 tag hasName e =>
      have hsize : 0 < e.size := by simp only [Enclosed.size]; omega
      simp only [Option.map_some, Option.some.injEq, Move.tagBody, Move.stretch, Move.run,
        TagBody.mk.injEq, Stretch.mk.injEq, Run.mk.injEq, true_and, and_true]
      split <;> omega
    case h_2 => rfl

theorem read?_stretch (m : Move) (s : Stretch) :
    read? (m.stretch s) = (read? s).map m.specifiers := by
  simp only [read?, Move.lexemes_stretch, Move.start_stretch, Stretch.drop_stretch, bodyFrom_add]
  split <;> rfl

end Specifiers

namespace DeclaratorHead

theorem firstName?_stretch (m : Move) (s : Stretch) :
    firstName? (m.stretch s) = (firstName? s).map fun (name, n) => (name, n + m.tokens) := by
  unfold firstName?
  rw [m.lexemes_stretch]
  split
  · simp [Nat.add_right_comm]
  · rfl

theorem read?_stretch (m : Move) (s : Stretch) : read? (m.stretch s) = (read? s).map m.head := by
  simp only [read?, Move.lexemes_stretch, Stretch.drop_stretch]
  generalize s.drop (s.lexemes.takeWhile isPointerPart).length = t
  split
  case h_1 ls _ =>
    rw [m.inner_stretch, firstName?_stretch, Option.map_map, Option.map_map]
    rfl
  case h_2 => rfl
  case h_3 => rfl

theorem first?_stretch (m : Move) (s : Stretch) :
    first? (m.stretch s) = (first? s).map m.head := by
  rw [first?, first?, Stretch.parts_stretch]
  induction s.parts .comma with
  | nil => rfl
  | cons t ts ih =>
    rw [List.map_cons, List.findSome?_cons, List.findSome?_cons, read?_stretch, ih]
    cases read? t <;> rfl

end DeclaratorHead

namespace Parameter

theorem read_stretch (m : Move) {s : Stretch} (h : s.lexemes ≠ []) :
    read (m.stretch s) = (read s).map m.run := by
  have hhead : (Specifiers.read? (m.stretch s)).bind (DeclaratorHead.first? ·.rest) =
      ((Specifiers.read? s).bind (DeclaratorHead.first? ·.rest)).map m.head := by
    rw [Specifiers.read?_stretch]
    cases Specifiers.read? s with
    | none => rfl
    | some d => exact DeclaratorHead.first?_stretch m d.rest
  unfold read
  rw [hhead, Stretch.run_stretch m h, m.lexemes_stretch]
  cases (Specifiers.read? s).bind (DeclaratorHead.first? ·.rest) with
  | none => rfl
  | some head =>
    have hat : head.nameAt + m.tokens - (s.start + m.tokens) = head.nameAt - s.start :=
      Nat.add_sub_add_right ..
    simp only [Option.map_some, Move.head, Move.stretch, hat]
    rfl

theorem readAll_stretch (m : Move) (s : Stretch) :
    readAll (m.stretch s) = (readAll s).map (·.map m.run) := by
  rw [readAll, readAll, Stretch.parts_stretch, List.filter_map, List.map_map, List.map_map]
  refine List.map_congr_left fun t ht => ?_
  exact read_stretch m (Stretch.ne_nil_of_mem_parts (List.mem_filter.mp ht).1)

end Parameter

namespace Declarator

theorem list?_head (m : Move) (head : DeclaratorHead) :
    list? (m.head head) =
      (list? head).map fun (l, rest) => (m.parameterList l, m.stretch rest) := by
  have hrest : (m.head head).rest = m.stretch head.rest := rfl
  have hparenthesized : (m.head head).parenthesized = head.parenthesized := rfl
  unfold list?
  rw [hrest, m.lexemes_stretch, hparenthesized]
  split
  case h_1 ls _ _ =>
    have hsize : 0 < (Enclosed.inBrackets ls).size := by simp only [Enclosed.size]; omega
    have hclose : (m.stretch head.rest).start + (Enclosed.inBrackets ls).size - 1 =
        head.rest.start + (Enclosed.inBrackets ls).size - 1 + m.tokens := by
      rw [m.start_stretch]
      omega
    dsimp only
    rw [m.inner_stretch, Parameter.readAll_stretch, hclose, Stretch.drop_stretch]
    rfl
  case h_2 => rfl

theorem read?_stretch (m : Move) (s : Stretch) :
    read? (m.stretch s) = (read? s).map m.declarator := by
  rw [read?, read?, DeclaratorHead.read?_stretch, Option.map_map, Option.map_map]
  congr 1
  funext head
  simp only [Function.comp, list?_head]
  cases list? head <;> rfl

theorem parameters_declarator (m : Move) (d : Declarator) :
    (m.declarator d).parameters = d.parameters.map (·.map m.run) := by
  cases h : d.list <;> simp [parameters, Move.declarator, Move.parameterList, h]

theorem readAll_stretch (m : Move) (s : Stretch) :
    readAll (m.stretch s) = (readAll s).map m.declarator := by
  rw [readAll, readAll, Stretch.parts_stretch, List.filterMap_map, List.map_filterMap]
  simp only [Function.comp_def, read?_stretch]

end Declarator

namespace Batch

variable {container : Option Keyword} {scope : Scope}

theorem enumerator?_stretch (m : Move) (s : Stretch) :
    enumerator? (m.stretch s) = (enumerator? s).map m.declarationRun := by
  unfold enumerator?
  rw [m.lexemes_stretch]
  split
  case h_1 name ls hs =>
    rw [Stretch.run_stretch m (hs ▸ List.cons_ne_nil _ _)]
    rfl
  case h_2 => rfl

theorem enumerators_tagBody (m : Move) (b : TagBody) :
    enumerators (m.tagBody b) = m.batch (enumerators b) := by
  simp only [enumerators, Move.batch, Move.tagBody, Stretch.parts_stretch, List.filterMap_map,
    List.map_filterMap, Function.comp_def, enumerator?_stretch, Option.map_some]

theorem declaration_declarator (m : Move) (d : Specifiers) (first : Nat) {o : Declarator}
    (h : o.code.lexemes ≠ []) :
    declaration container scope (m.specifiers d) (first + m.tokens) (m.declarator o) =
      m.declarationRun (declaration container scope d first o) := by
  have hlast : (m.declarator o).code.last = o.code.last + m.tokens := Stretch.last_stretch m h
  have hlist : (m.declarator o).list.isSome = o.list.isSome := Option.isSome_map
  have hkind : kindOf scope (m.specifiers d) (m.declarator o) = kindOf scope d o := by
    simp only [kindOf, hlist]
    rfl
  simp only [declaration, hlast, hkind, Declarator.parameters_declarator]
  rfl

theorem declared_stretch (m : Move) (s : Stretch) (d : Specifiers) :
    declared container scope (m.stretch s) (m.specifiers d) =
      m.batch (declared container scope s d) := by
  have hrest : (m.specifiers d).rest = m.stretch d.rest := rfl
  have hne : ∀ o ∈ Declarator.readAll d.rest, o.code.lexemes ≠ [] := fun o ho =>
    (Declarator.of_mem_readAll ho).2.1
  unfold declared
  rw [hrest, Declarator.readAll_stretch]
  cases hall : Declarator.readAll d.rest with
  | nil => rfl
  | cons o os =>
    rw [hall] at hne
    have hfirst : declaration container scope (m.specifiers d) (s.start + m.tokens)
        (m.declarator o) = m.declarationRun (declaration container scope d s.start o) :=
      declaration_declarator m d s.start (hne o List.mem_cons_self)
    have hothers : (os.map m.declarator).map (fun o =>
        declaration container scope (m.specifiers d) o.code.start o) =
        (os.map fun o => declaration container scope d o.code.start o).map m.declarationRun := by
      rw [List.map_map, List.map_map]
      refine List.map_congr_left fun o ho => ?_
      exact declaration_declarator m d o.code.start (hne o (List.mem_cons_of_mem _ ho))
    simp only [List.map_cons, Move.batch, hothers, Option.map_none]
    exact congrArg (fun b => Batch.mk (b :: _) _) hfirst

theorem ofDeclaration_stretch (m : Move) (container : Option Keyword) (scope : Scope)
    (s : Stretch) : ofDeclaration container scope (m.stretch s) =
      (ofDeclaration container scope s).map m.batch := by
  induction container, scope, s using ofDeclaration.induct with
  | case1 container scope s hs =>
    have hs' : Specifiers.read? (m.stretch s) = none := by rw [Specifiers.read?_stretch, hs]; rfl
    rw [ofDeclaration_of_none hs, ofDeclaration_of_none hs']
    rfl
  | case2 container scope s d hd ih =>
    have hd' : Specifiers.read? (m.stretch s) = some (m.specifiers d) := by
      rw [Specifiers.read?_stretch, hd]
      rfl
    rw [ofDeclaration_of_some hd, ofDeclaration_of_some hd', List.map_append, declared_stretch]
    congr 1
    have hbody : (m.specifiers d).body = d.body.map m.tagBody := rfl
    unfold members
    rw [hbody]
    cases hb : d.body with
    | none => rfl
    | some b =>
      simp only [Option.map_some]
      have htag : (m.tagBody b).tag = b.tag := rfl
      have hinner : (m.tagBody b).inner = m.stretch b.inner := rfl
      rw [htag, hinner]
      split
      case isTrue => rw [enumerators_tagBody]; rfl
      case isFalse =>
        rw [Stretch.parts_stretch, List.flatMap_map, List.map_flatMap]
        exact List.flatMap_congr fun member hm => ih b hb member hm

theorem ofFunction_stretch (m : Move) (header : Stretch) (body : Run) :
    ofFunction (m.stretch header) (m.run body) = (ofFunction header body).map m.batch := by
  unfold ofFunction
  rw [Specifiers.read?_stretch]
  cases Specifiers.read? header with
  | none => rfl
  | some d =>
    have hrest : (m.specifiers d).rest = m.stretch d.rest := rfl
    dsimp only [Option.map_some]
    rw [hrest, Declarator.readAll_stretch]
    cases Declarator.readAll d.rest with
    | nil => rfl
    | cons o os =>
      simp only [List.map_cons, Declarator.parameters_declarator]
      rfl

end Batch
end CLint
