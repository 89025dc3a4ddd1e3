import CLint.Command.Check
import Mathlib

namespace CLint

namespace Utf8

variable {b : UInt8} {bs more rest : List UInt8} {limits : List (UInt8 × UInt8)} {c : Char}
  {cs : List Char}

-- Do some bytes keep within bounds?
def Fits (limits : List (UInt8 × UInt8)) (more : List UInt8) : Prop :=
  List.Forall₂ (fun limit b => limit.1 ≤ b ∧ b ≤ limit.2) limits more

theorem within_append (h : Fits limits more) (rest : List UInt8) :
    within limits (more ++ rest) = more := by
  induction h with
  | nil => cases rest <;> rfl
  | cons hb _ ih => simp [within, hb, ih]

theorem isPrefix_within (limits : List (UInt8 × UInt8)) (bs : List UInt8) :
    within limits bs <+: bs := by
  fun_induction within limits bs with
  | case1 low high limits b bs h ih => exact (List.prefix_cons_inj b).mpr ih
  | case2 | case3 => exact List.nil_prefix

theorem fits_within (h : (within limits bs).length = limits.length) :
    Fits limits (within limits bs) := by
  fun_induction within limits bs with
  | case1 low high limits b bs hb ih =>
    refine .cons (by simpa using hb) (ih ?_)
    simpa using h
  | case2 => cases h
  | case3 limits bs hne =>
    cases limits with
    | nil => exact .nil
    | cons => cases h

-- A first byte of a character with all bytes that have to follow it.
def IsCharacter (b : UInt8) (more : List UInt8) : Prop :=
  ∃ limits, bounds b = some limits ∧ Fits limits more

theorem piece_append (h : IsCharacter b more) (rest : List UInt8) :
    piece b (more ++ rest) = ⟨.ok (charOf b more), b :: more⟩ := by
  obtain ⟨limits, hb, hmore⟩ := h
  rw [piece, hb]
  simp only [within_append hmore, hmore.length_eq, if_true]

theorem isCharacter_of_piece (h : (piece b bs).content = .ok c) :
    ∃ more rest, bs = more ++ rest ∧ IsCharacter b more ∧ c = charOf b more ∧
      (piece b bs).bytes = b :: more := by
  unfold piece at h ⊢
  split at h
  case h_1 => cases h
  case h_2 limits hb =>
    dsimp only at h ⊢
    split at h
    case isTrue hlength =>
      obtain ⟨rest, hrest⟩ := isPrefix_within limits bs
      cases h
      refine ⟨within limits bs, rest, hrest.symm, ⟨limits, hb, fits_within hlength⟩, rfl, ?_⟩
      rw [if_pos hlength]
    case isFalse => split at h <;> cases h

def IsContinuation (b : UInt8) : Prop :=
  0x80 ≤ b.toNat ∧ b.toNat < 0xc0

-- The forms of a character. The second byte is bounded further where the character would have a
-- shorter form, or where no character has the number.
inductive Form (b : UInt8) : List UInt8 → Prop
  | one (hb : b.toNat < 0x80) : Form b []
  | two {x} (hb : 0xc2 ≤ b.toNat ∧ b.toNat < 0xe0) (hx : IsContinuation x) : Form b [x]
  | three {x y} (hb : 0xe0 ≤ b.toNat ∧ b.toNat < 0xf0) (hx : IsContinuation x)
      (hy : IsContinuation y) (low : b.toNat = 0xe0 → 0xa0 ≤ x.toNat)
      (high : b.toNat = 0xed → x.toNat < 0xa0) : Form b [x, y]
  | four {x y z} (hb : 0xf0 ≤ b.toNat ∧ b.toNat < 0xf5) (hx : IsContinuation x)
      (hy : IsContinuation y) (hz : IsContinuation z) (low : b.toNat = 0xf0 → 0x90 ≤ x.toNat)
      (high : b.toNat = 0xf4 → x.toNat < 0x90) : Form b [x, y, z]

theorem isCharacter_iff_form : IsCharacter b more ↔ Form b more := by
  simp only [IsCharacter, bounds, UInt8.lt_iff_toNat_lt, ← UInt8.toNat_inj, UInt8.reduceToNat]
  constructor
  case mp =>
    rintro ⟨limits, hb, h⟩
    split_ifs at hb <;> cases hb <;>
      simp only [Fits, List.forall₂_cons_left_iff, List.forall₂_nil_left_iff,
        UInt8.le_iff_toNat_le, UInt8.reduceToNat] at h
    · obtain rfl := h
      exact .one (by omega)
    · obtain ⟨x, _, hx, rfl, rfl⟩ := h
      exact .two (by omega) ⟨by omega, by omega⟩
    iterate 3
      · obtain ⟨x, _, hx, ⟨y, _, hy, rfl, rfl⟩, rfl⟩ := h
        exact .three (by omega) ⟨by omega, by omega⟩ ⟨by omega, by omega⟩ (by omega) (by omega)
    iterate 3
      · obtain ⟨x, _, hx, ⟨y, _, hy, ⟨z, _, hz, rfl, rfl⟩, rfl⟩, rfl⟩ := h
        exact .four (by omega) ⟨by omega, by omega⟩ ⟨by omega, by omega⟩ ⟨by omega, by omega⟩
          (by omega) (by omega)
  case mpr =>
    intro h
    cases h with
    | one hb => exact ⟨[], by simp [hb], .nil⟩
    | two hb hx =>
      refine ⟨_, by rw [if_neg (by omega), if_neg (by omega), if_pos (by omega)], ?_⟩
      exact .cons ⟨hx.1, Nat.le_of_lt_succ hx.2⟩ .nil
    | three hb hx hy low high =>
      obtain ⟨hx, hx'⟩ := hx
      obtain ⟨hy, hy'⟩ := hy
      rw [if_neg (by omega), if_neg (by omega), if_neg (by omega)]
      split_ifs <;> simp [Fits, UInt8.le_iff_toNat_le] <;> omega
    | four hb hx hy hz low high =>
      obtain ⟨hx, hx'⟩ := hx
      obtain ⟨hy, hy'⟩ := hy
      obtain ⟨hz, hz'⟩ := hz
      rw [if_neg (by omega), if_neg (by omega), if_neg (by omega), if_neg (by omega),
        if_neg (by omega), if_neg (by omega)]
      split_ifs <;> simp [Fits, UInt8.le_iff_toNat_le] <;> omega

theorem toNat_charOf {n : Nat} (h : n.isValidChar)
    (hn : more.foldl (fun n b => n * 64 + b.toNat % 64) (payload b more.length) = n) :
    (charOf b more).val.toNat = n := by
  rw [charOf, hn]
  exact (Char.toNat_ofNat n).trans (if_pos h)

theorem Form.encode_charOf (h : Form b more) :
    String.utf8EncodeChar (charOf b more) = b :: more := by
  cases h with
  | one hb =>
    have hv : (charOf b []).val.toNat = b.toNat := toNat_charOf (.inl (by omega)) rfl
    rw [String.utf8EncodeChar, hv]
    simp only [if_pos (show b.toNat ≤ 0x7f by omega), UInt8.ofNat_toNat]
  | @two x hb hx =>
    obtain ⟨hx, hx'⟩ := hx
    have hv : (charOf b [x]).val.toNat = b.toNat % 32 * 64 + x.toNat % 64 :=
      toNat_charOf (.inl (by omega)) rfl
    rw [String.utf8EncodeChar, hv, if_neg (by omega), if_pos (by omega)]
    simp [← UInt8.toNat_inj]
    omega
  | @three x y hb hx hy low high =>
    obtain ⟨hx, hx'⟩ := hx
    obtain ⟨hy, hy'⟩ := hy
    have hv : (charOf b [x, y]).val.toNat =
        (b.toNat % 16 * 64 + x.toNat % 64) * 64 + y.toNat % 64 :=
      toNat_charOf (by simp only [Nat.isValidChar]; omega) rfl
    rw [String.utf8EncodeChar, hv, if_neg (by omega), if_neg (by omega), if_pos (by omega)]
    simp [← UInt8.toNat_inj]
    omega
  | @four x y z hb hx hy hz low high =>
    obtain ⟨hx, hx'⟩ := hx
    obtain ⟨hy, hy'⟩ := hy
    obtain ⟨hz, hz'⟩ := hz
    have hv : (charOf b [x, y, z]).val.toNat =
        ((b.toNat % 8 * 64 + x.toNat % 64) * 64 + y.toNat % 64) * 64 + z.toNat % 64 :=
      toNat_charOf (by simp only [Nat.isValidChar]; omega) rfl
    rw [String.utf8EncodeChar, hv, if_neg (by omega), if_neg (by omega), if_neg (by omega)]
    simp [← UInt8.toNat_inj]
    omega

theorem exists_form_encode (c : Char) :
    ∃ b more, String.utf8EncodeChar c = b :: more ∧ Form b more := by
  have hc := c.valid
  fun_cases String.utf8EncodeChar c
  case case1 => exact ⟨_, _, rfl, .one (by simp; omega)⟩
  case case2 => exact ⟨_, _, rfl, .two (by simp; omega) (by simp [IsContinuation]; omega)⟩
  case case3 =>
    exact ⟨_, _, rfl, .three (by simp; omega) (by simp [IsContinuation]; omega)
      (by simp [IsContinuation]; omega) (by simp; omega) (by simp; omega)⟩
  case case4 =>
    exact ⟨_, _, rfl, .four (by simp; omega) (by simp [IsContinuation]; omega)
      (by simp [IsContinuation]; omega) (by simp [IsContinuation]; omega) (by simp; omega)
      (by simp; omega)⟩

@[simp]
theorem utf8EncodeChar_inj {c d : Char} :
    String.utf8EncodeChar c = String.utf8EncodeChar d ↔ c = d := by
  refine ⟨fun h => Option.some.inj ?_, congrArg _⟩
  rw [← ByteArray.utf8DecodeChar?_utf8EncodeChar_append (b := ByteArray.empty) (c := c), h,
    ByteArray.utf8DecodeChar?_utf8EncodeChar_append]

-- A character is read where its bytes stand, whatever follows them, and nowhere else.
theorem content_piece_eq_ok_iff :
    (piece b bs).content = .ok c ↔ String.utf8EncodeChar c <+: b :: bs := by
  constructor
  case mp =>
    intro h
    obtain ⟨more, rest, rfl, hmore, rfl, -⟩ := isCharacter_of_piece h
    rw [(isCharacter_iff_form.mp hmore).encode_charOf]
    exact ⟨rest, rfl⟩
  case mpr =>
    rintro ⟨rest, h⟩
    obtain ⟨b', more, hc, hmore⟩ := exists_form_encode c
    rw [hc, List.cons_append, List.cons.injEq] at h
    obtain ⟨rfl, rfl⟩ := h
    rw [piece_append (isCharacter_iff_form.mpr hmore)]
    rw [← hmore.encode_charOf, utf8EncodeChar_inj] at hc
    rw [hc]

theorem bytes_piece_of_ok (h : (piece b bs).content = .ok c) :
    (piece b bs).bytes = String.utf8EncodeChar c := by
  obtain ⟨more, rest, -, hmore, rfl, hbytes⟩ := isCharacter_of_piece h
  rw [hbytes, (isCharacter_iff_form.mp hmore).encode_charOf]

theorem bytes_piece_append (b : UInt8) (bs : List UInt8) :
    (piece b bs).bytes ++ bs.drop ((piece b bs).bytes.length - 1) = b :: bs := by
  unfold piece
  split
  case h_1 => rfl
  case h_2 limits _ =>
    have hmore := List.prefix_append_drop (isPrefix_within limits bs)
    dsimp only
    split_ifs <;> rw [List.cons_append, List.length_cons, Nat.add_sub_cancel, ← hmore]

-- No byte is passed over, and none is read twice.
theorem flatMap_bytes_pieces (bs : List UInt8) : (pieces bs).flatMap Piece.bytes = bs := by
  fun_induction pieces bs with
  | case1 => rfl
  | case2 b bs p ih => rw [List.flatMap_cons, ih, bytes_piece_append]

theorem pieces_encode_append (c : Char) (bs : List UInt8) :
    pieces (String.utf8EncodeChar c ++ bs) = ⟨.ok c, String.utf8EncodeChar c⟩ :: pieces bs := by
  obtain ⟨b, more, hc, -⟩ := exists_form_encode c
  have hok : (piece b (more ++ bs)).content = .ok c :=
    content_piece_eq_ok_iff.mpr (by rw [hc]; exact List.prefix_append ..)
  have hbytes := bytes_piece_of_ok hok
  have hdrop : (more ++ bs).drop ((String.utf8EncodeChar c).length - 1) = bs := by simp [hc]
  rw [hc, List.cons_append, pieces, hbytes, hdrop, ← hc, ← hbytes, ← hok]

theorem pieces_encode (cs : List Char) :
    pieces (cs.flatMap String.utf8EncodeChar) =
      cs.map fun c => ⟨.ok c, String.utf8EncodeChar c⟩ := by
  induction cs with
  | nil => rw [List.flatMap_nil, pieces, List.map_nil]
  | cons c cs ih => rw [List.flatMap_cons, pieces_encode_append, ih, List.map_cons]

-- Nothing is marked in what is the encoding of a text.
theorem decodeAnyway_encode (cs : List Char) :
    decodeAnyway (cs.flatMap String.utf8EncodeChar) = cs := by
  rw [decodeAnyway, pieces_encode, List.map_map]
  exact List.map_id cs

theorem read_eq_ok_iff {position : Nat} {ps : List Piece} :
    read position ps = .ok cs ↔ ps.map (·.content) = cs.map .ok := by
  induction ps generalizing position cs with
  | nil => simp [read, eq_comm]
  | cons p ps ih =>
    unfold read
    split
    case h_1 c hp =>
      have hps := fun cs => @ih cs (position + p.bytes.length)
      cases hr : read (position + p.bytes.length) ps <;> cases cs <;>
        simp [Except.map, hp, ← hps, hr]
    case h_2 fault hp => cases cs <;> simp [hp]

theorem eq_encode_of_contents (h : (pieces bs).map (·.content) = cs.map .ok) :
    bs = cs.flatMap String.utf8EncodeChar := by
  fun_induction pieces bs generalizing cs
  case case1 =>
    cases cs with
    | nil => rfl
    | cons => cases h
  case case2 ih =>
    cases cs with
    | nil => cases h
    | cons c cs =>
      rw [List.map_cons, List.map_cons, List.cons.injEq] at h
      rw [List.flatMap_cons, ← ih h.2, ← bytes_piece_of_ok h.1, bytes_piece_append]

-- The bytes of a text are those of its characters, and no others stand for a text.
theorem decode_eq_ok_iff : decode bs = .ok cs ↔ bs = cs.flatMap String.utf8EncodeChar := by
  rw [decode, read_eq_ok_iff]
  refine ⟨eq_encode_of_contents, fun h => ?_⟩
  rw [h, pieces_encode, List.map_map]
  rfl

end Utf8

namespace Text

theorem not_mem_unifyBreaks (cs : List Char) : '\r' ∉ unifyBreaks cs := by
  fun_induction unifyBreaks cs <;> simp_all [eq_comm]

theorem unifyBreaks_eq_self_iff {cs : List Char} : unifyBreaks cs = cs ↔ '\r' ∉ cs := by
  refine ⟨fun h => h ▸ not_mem_unifyBreaks cs, fun h => ?_⟩
  fun_induction unifyBreaks cs <;> simp_all

end Text

namespace Command

theorem sourceText_encode (cs : List Char) :
    sourceText (cs.flatMap String.utf8EncodeChar) = String.ofList (Text.unifyBreaks cs) := by
  rw [sourceText, Utf8.decodeAnyway_encode]

theorem sourceText_of_decode {bytes : List UInt8} {cs : List Char}
    (h : Utf8.decode bytes = .ok cs) (hcs : '\r' ∉ cs) : sourceText bytes = String.ofList cs := by
  rw [Utf8.decode_eq_ok_iff.mp h, sourceText_encode, Text.unifyBreaks_eq_self_iff.mpr hcs]

-- Faults or none, lines end with line feeds only.
theorem not_mem_sourceText (bytes : List UInt8) : '\r' ∉ (sourceText bytes).toList := by
  rw [sourceText, String.toList_ofList]
  exact Text.not_mem_unifyBreaks _

end Command

end CLint
