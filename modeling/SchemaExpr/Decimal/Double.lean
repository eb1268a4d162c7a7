/-!
# Double-precision numbers

A number of the binary64 format is a sign and a magnitude of 63 bits: eleven bits of exponent above
fifty-two bits of fraction. Magnitudes are ordered as the numbers they stand for, so the neighbours
of a number are the neighbours of its magnitude.
-/
namespace SchemaExpr.Decimal

structure Double where
  negative : Bool
  magnitude : Nat
  deriving DecidableEq, Repr

namespace Double

/-- The magnitude of infinity; smaller magnitudes are finite. -/
def infinity : Nat := 2047 * Nat.pow 2 52

def isFinite (x : Double) : Bool := x.magnitude < infinity

/-- Magnitudes above infinity stand for no number. -/
def isNaN (x : Double) : Bool := infinity < x.magnitude

def bits (x : Double) : Nat := x.magnitude + if x.negative then Nat.pow 2 63 else 0

/-- The integer `m` of a finite number `m * 2 ^ (q - 1074)`. -/
def mantissa (x : Double) : Nat :=
  if x.magnitude < Nat.pow 2 52 then x.magnitude else x.magnitude % Nat.pow 2 52 + Nat.pow 2 52

/-- The exponent `q` of a finite number `m * 2 ^ (q - 1074)`. -/
def exponent (x : Double) : Nat := x.magnitude / Nat.pow 2 52 - 1

/-- The integer nearest to `num / den`, the even one of two. -/
def roundHalfEven (num den : Nat) : Nat :=
  let q := num / den
  let r := num % den
  if 2 * r < den then q
  else if den < 2 * r then q + 1
  else if q % 2 = 0 then q else q + 1

/-- The largest `k` with `2 ^ k ≤ num / den`, moved up by `shift` and cut off at zero. -/
def floorLog2 (num den shift : Nat) : Nat :=
  let k := num.log2 + shift - den.log2
  if num * Nat.pow 2 shift < den * Nat.pow 2 k then k - 1 else k

/-- The magnitude nearest to `num / den`. The exponent places 53 bits of the quotient before the
point, unless that is below the smallest exponent; rounding up to `2 ^ 53` carries into the
exponent, and past the largest number it gives infinity. -/
def nearestMagnitude (num den : Nat) : Nat :=
  let q := floorLog2 num den 1074 - 52
  min (q * Nat.pow 2 52 + roundHalfEven (num * Nat.pow 2 1074) (den * Nat.pow 2 q)) infinity

/-- The number nearest to `digits * 10 ^ exponent`. Exponents that are far out of range are
decided without a power of ten: the quotient is then above every finite number, or below half of
the smallest. -/
def ofDecimal (digits : Nat) (exponent : Int) : Double :=
  if digits = 0 then ⟨false, 0⟩
  else
    match exponent with
    | .ofNat e =>
      if 400 < e then ⟨false, infinity⟩
      else ⟨false, nearestMagnitude (digits * Nat.pow 10 e) 1⟩
    | .negSucc e =>
      if digits.log2 + 1101 ≤ 3 * (e + 1) then ⟨false, 0⟩
      else ⟨false, nearestMagnitude digits (Nat.pow 10 (e + 1))⟩

def neg (x : Double) : Double := { x with negative := !x.negative }

end Double

end SchemaExpr.Decimal
