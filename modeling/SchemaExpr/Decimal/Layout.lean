import SchemaExpr.Decimal.Shortest

/-!
# Layout of floating-point numbers

A layout decides between positional notation, which always has a digit after the point, and
scientific notation, which has a point only if it needs one.
-/
namespace SchemaExpr.Decimal

structure Layout where
  /-- The least exponent of the first digit that is written positionally. -/
  least : Int
  /-- The least exponent of the first digit that is too large for positional notation. -/
  tooLarge : Int
  /-- Whether an exponent that is not negative carries a plus sign. -/
  plus : Bool
  tie : Tie
  /-- What is written for a number that is not finite. -/
  unbounded : Double → String

namespace Layout

def zeros (n : Nat) : List Char := List.replicate n '0'

/-- Digits with a point after the digit of exponent zero, where the first has exponent `e`. -/
def positional (digits : List Char) (e : Int) : List Char :=
  match e with
  | .negSucc n => '0' :: '.' :: (zeros n ++ digits)
  | .ofNat n =>
    let whole := digits.take (n + 1)
    let part := digits.drop (n + 1)
    whole ++ zeros (n + 1 - whole.length) ++ '.' :: (if part = [] then ['0'] else part)

def scientific (layout : Layout) (digits : List Char) (e : Int) : List Char :=
  let point := match digits with
    | [] => []
    | [d] => [d]
    | d :: ds => d :: '.' :: ds
  let sign := if e < 0 then ['-'] else if layout.plus then ['+'] else []
  point ++ 'e' :: (sign ++ Nat.toDigits 10 e.natAbs)

/-- The text of a number with the fewest digits that read back. -/
def text (layout : Layout) (x : Double) : String :=
  if x.isFinite then
    let d := x.shortest layout.tie
    let digits := Nat.toDigits 10 d.digits
    let e := d.exponent + digits.length - 1
    let sign := if x.negative then ['-'] else []
    let body :=
      if x.magnitude = 0 then ['0', '.', '0']
      else if layout.least ≤ e ∧ e < layout.tooLarge then positional digits e
      else layout.scientific digits e
    String.ofList (sign ++ body)
  else layout.unbounded x

end Layout

/-- Infinity keeps its sign, and what is no number has none. -/
def unboundedText (x : Double) : String :=
  if x.isNaN then "NaN" else if x.negative then "-inf" else "inf"

/-- Numbers as messages, S-expressions and target text show them. -/
def display : Layout := ⟨-4, 16, false, .up, unboundedText⟩

def json : Layout := ⟨-5, 16, true, .even, fun _ => "null"⟩

end SchemaExpr.Decimal
