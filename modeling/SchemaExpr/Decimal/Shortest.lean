import SchemaExpr.Decimal.Double

/-!
# Shortest decimals

The decimal with the fewest digits that reads back as a given double, and of those the nearest.
The reals that read back form an interval, closed if the mantissa is even. On the grid of decimals
with `n` digits only the two neighbours of the number need to be tried.
-/
namespace SchemaExpr.Decimal

/-- Which of two equally near neighbours is taken. -/
inductive Tie where
  | up
  | even
  deriving DecidableEq, Repr

/-- The decimal `digits * 10 ^ exponent`. -/
structure Numeral where
  digits : Nat
  exponent : Int
  deriving DecidableEq, Repr

namespace Numeral

/-- The same decimal with at most `fuel` zeros moved from the digits to the exponent. -/
def strip (d : Numeral) : Nat → Numeral
  | 0 => d
  | fuel + 1 =>
    if d.digits ≠ 0 ∧ d.digits % 10 = 0 then strip ⟨d.digits / 10, d.exponent + 1⟩ fuel else d

end Numeral

namespace Double

/-- Powers of ten by which a number is scaled up, so that the seventeenth digit of the smallest
number is still before the point. -/
def decimalShift : Nat := 340

/-- The numerator of the number scaled by `4 * 2 ^ 1074 * 10 ^ decimalShift`. -/
def scaled (x : Double) : Nat := 4 * x.mantissa * Nat.pow 2 x.exponent * Nat.pow 10 decimalShift

/-- The numerator of the lower end of the interval: half way to the number below, which is nearer
if the exponent changes there. -/
def scaledLow (x : Double) : Nat :=
  let gap := if x.mantissa = Nat.pow 2 52 ∧ 0 < x.exponent then 1 else 2
  (4 * x.mantissa - gap) * Nat.pow 2 x.exponent * Nat.pow 10 decimalShift

def scaledHigh (x : Double) : Nat :=
  (4 * x.mantissa + 2) * Nat.pow 2 x.exponent * Nat.pow 10 decimalShift

/-- Whether the decimal with the given scaled numerator reads back as `x`. -/
def readsBack (x : Double) (n : Nat) : Bool :=
  if x.mantissa % 2 = 0 then x.scaledLow ≤ n && n ≤ x.scaledHigh
  else x.scaledLow < n && n < x.scaledHigh

/-- The neighbour of `x` on the grid with steps of `10 ^ (place - decimalShift)` that reads back,
the nearer if both do. -/
def onGrid? (tie : Tie) (x : Double) (place : Nat) : Option Nat :=
  let step := 4 * Nat.pow 2 1074 * Nat.pow 10 place
  let d := x.scaled / step
  match x.readsBack (d * step), x.readsBack ((d + 1) * step) with
  | false, false => none
  | true, false => some d
  | false, true => some (d + 1)
  | true, true =>
    let r := x.scaled % step
    if 2 * r < step then some d
    else if step < 2 * r then some (d + 1)
    else match tie with
      | .up => some (d + 1)
      | .even => some (if d % 2 = 0 then d else d + 1)

/-- Tries coarser grids first: `places` counts down from the first digit. -/
def search (tie : Tie) (x : Double) : List Nat → Numeral
  | [] => ⟨0, 0⟩
  | place :: finer =>
    match x.onGrid? tie place with
    | some d => ⟨d, (place : Int) - decimalShift⟩
    | none => search tie x finer

/-- The shortest decimal that reads back as the finite number `x`, its sign apart. -/
def shortest (tie : Tie) (x : Double) : Numeral :=
  let length := (Nat.toDigits 10 (x.scaled / (4 * Nat.pow 2 1074))).length
  (x.search tie ((List.range 17).map fun i => length - 1 - i)).strip 17

end Double

end SchemaExpr.Decimal
