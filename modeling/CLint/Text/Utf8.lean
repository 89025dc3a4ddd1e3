namespace CLint

namespace Utf8

-- Why bytes are not a character.
inductive Fault
  | start | continuation | unfinished
  deriving DecidableEq, Repr

-- The bounds of the bytes that follow the first byte of a character, if that can be one.
def bounds (b : UInt8) : Option (List (UInt8 × UInt8)) :=
  if b < 0x80 then some []
  else if b < 0xc2 then none
  else if b < 0xe0 then some [(0x80, 0xbf)]
  else if b = 0xe0 then some [(0xa0, 0xbf), (0x80, 0xbf)]
  else if b = 0xed then some [(0x80, 0x9f), (0x80, 0xbf)]
  else if b < 0xf0 then some [(0x80, 0xbf), (0x80, 0xbf)]
  else if b = 0xf0 then some [(0x90, 0xbf), (0x80, 0xbf), (0x80, 0xbf)]
  else if b < 0xf4 then some [(0x80, 0xbf), (0x80, 0xbf), (0x80, 0xbf)]
  else if b = 0xf4 then some [(0x80, 0x8f), (0x80, 0xbf), (0x80, 0xbf)]
  else none

-- The longest beginning of some bytes that keeps within bounds.
def within : List (UInt8 × UInt8) → List UInt8 → List UInt8
  | (low, high) :: limits, b :: bs => if low ≤ b && b ≤ high then b :: within limits bs else []
  | _, _ => []

-- What the first byte contributes to a character that `n` more bytes belong to.
def payload (b : UInt8) : Nat → Nat
  | 0 => b.toNat
  | 1 => b.toNat % 32
  | 2 => b.toNat % 16
  | _ => b.toNat % 8

def charOf (b : UInt8) (bs : List UInt8) : Char :=
  Char.ofNat (bs.foldl (fun n b => n * 64 + b.toNat % 64) (payload b bs.length))

-- A character, or what is there in its place, with the bytes that it takes.
structure Piece where
  content : Except Fault Char
  bytes : List UInt8

-- The front of some bytes. A fault takes the bytes that a character could begin with.
def piece (b : UInt8) (bs : List UInt8) : Piece :=
  match bounds b with
  | none => ⟨.error .start, [b]⟩
  | some limits =>
    let more := within limits bs
    if more.length = limits.length then ⟨.ok (charOf b more), b :: more⟩
    else if more.length = bs.length then ⟨.error .unfinished, b :: more⟩
    else ⟨.error .continuation, b :: more⟩

def pieces : List UInt8 → List Piece
  | [] => []
  | b :: bs =>
    let p := piece b bs
    p :: pieces (bs.drop (p.bytes.length - 1))
termination_by bs => bs.length
decreasing_by
  simp only [List.length_drop, List.length_cons]
  omega

-- The first fault in a text.
structure Error where
  position : Nat
  bytes : List UInt8
  fault : Fault
  deriving DecidableEq, Repr

def read (position : Nat) : List Piece → Except Error (List Char)
  | [] => .ok []
  | p :: ps =>
    match p.content with
    | .ok c => (read (position + p.bytes.length) ps).map (c :: ·)
    | .error fault => .error ⟨position, p.bytes, fault⟩

-- The text that some bytes stand for, if they stand for one.
def decode (bs : List UInt8) : Except Error (List Char) :=
  read 0 (pieces bs)

-- The same with a mark wherever there is a fault.
def decodeAnyway (bs : List UInt8) : List Char :=
  (pieces bs).map fun p => match p.content with
    | .ok c => c
    | .error _ => '\uFFFD'

def Fault.message : Fault → String
  | start => "invalid start byte"
  | continuation => "invalid continuation byte"
  | unfinished => "unexpected end of data"

def hexByte (b : UInt8) : String :=
  String.ofList (([b.toNat / 16, b.toNat % 16]).map Nat.digitChar)

def Error.message (e : Error) : String :=
  let place := match e.bytes with
    | [b] => s!"byte 0x{hexByte b} in position {e.position}"
    | bs => s!"bytes in position {e.position}-{e.position + bs.length - 1}"
  s!"'utf-8' codec can't decode {place}: {e.fault.message}"

end Utf8

namespace Text

-- Every kind of line break becomes a line feed.
def unifyBreaks : List Char → List Char
  | '\r' :: '\n' :: cs => '\n' :: unifyBreaks cs
  | '\r' :: cs => '\n' :: unifyBreaks cs
  | c :: cs => c :: unifyBreaks cs
  | [] => []

end Text
end CLint
