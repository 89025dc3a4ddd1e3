namespace CLint

-- Numbers with 53 significant binary digits. A finite one that is not negative is given as
-- `mantissa * 2 ^ exponent`.
inductive Binary64
  | finite (mantissa : Nat) (exponent : Int)
  | infinite
  deriving DecidableEq, Repr

namespace Binary64

-- A number with `n` more binary digits, which are zeros.
def shift (m n : Nat) : Nat :=
  m * Nat.pow 2 n

-- The nearest whole number to a quotient, and of two equally near ones the even one.
def roundDiv (num den : Nat) : Nat :=
  let m := num / den
  let r := num % den
  if den < 2 * r || (2 * r = den && m % 2 = 1) then m + 1 else m

-- The binary exponent of the last digit that a positive quotient keeps.
def lastPlace (num den : Nat) : Int :=
  let guess : Int := num.log2 - den.log2
  let reaches : Bool :=
    if 0 ≤ guess then shift den guess.toNat ≤ num else den ≤ shift num (-guess).toNat
  max (if reaches then guess - 52 else guess - 53) (-1074)

def ofQuotient (num den : Nat) : Binary64 :=
  let q := lastPlace num den
  let m :=
    if 0 ≤ q then roundDiv num (shift den q.toNat) else roundDiv (shift num (-q).toNat) den
  if 0 ≤ q && shift 1 1024 ≤ shift m q.toNat then infinite else finite m q

def decimalLength (n : Nat) : Nat :=
  (Nat.toDigits 10 n).length

-- The number nearest to `digits * 10 ^ exponent`. Far outside of the range of the format there is
-- nothing to compute.
def ofDecimal (digits : Nat) (exponent : Int) : Binary64 :=
  let magnitude := decimalLength digits + exponent
  if digits = 0 || magnitude < -400 then finite 0 0
  else if 400 < magnitude then infinite
  else if 0 ≤ exponent then ofQuotient (digits * Nat.pow 10 exponent.toNat) 1
  else ofQuotient digits (Nat.pow 10 (-exponent).toNat)

def equalsNat (x : Binary64) (n : Nat) : Bool :=
  match x with
  | infinite => false
  | finite m q => if 0 ≤ q then shift m q.toNat = n else m = shift n (-q).toNat

end Binary64
end CLint
