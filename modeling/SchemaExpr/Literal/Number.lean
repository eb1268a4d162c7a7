import SchemaExpr.Decimal.Double

/-!
# Number literals

The value of a number literal. Underscores separate digits and mean nothing. A letter after a
leading zero sets the radix of an integer; a point or an exponent makes a floating-point number.
-/
namespace SchemaExpr.Literal

open Decimal (Double)

inductive Number where
  | int (value : Nat)
  | float (value : Double)
  deriving DecidableEq, Repr

inductive NumberFault where
  /-- A radix letter without a digit. -/
  | noDigits
  /-- An integer that needs more than 64 bits. -/
  | integerRange
  /-- A floating-point number that rounds to infinity. -/
  | floatRange
  | malformedFloat
  deriving DecidableEq, Repr

def NumberFault.message (text : String) : NumberFault → String
  | noDigits => "invalid number literal '" ++ text ++ "'"
  | integerRange => "integer literal '" ++ text ++ "' is out of range"
  | floatRange => "float literal '" ++ text ++ "' is out of range"
  | malformedFloat => "invalid float literal '" ++ text ++ "'"

def digitValue (c : Char) : Nat :=
  if c.isDigit then c.toNat - '0'.toNat
  else if 'a' ≤ c ∧ c ≤ 'z' then c.toNat - 'a'.toNat + 10
  else if 'A' ≤ c ∧ c ≤ 'Z' then c.toNat - 'A'.toNat + 10
  else 0

def positional (radix : Nat) (digits : List Char) : Nat :=
  digits.foldl (fun n c => n * radix + digitValue c) 0

def readInteger (radix : Nat) (digits : List Char) : Except NumberFault Number :=
  let value := positional radix digits
  if value < UInt64.size then .ok (.int value) else .error .integerRange

/-- The radix that a letter after a leading zero sets. -/
def radix? (letter : Char) : Option Nat :=
  if letter = 'x' ∨ letter = 'X' then some 16
  else if letter = 'o' ∨ letter = 'O' then some 8
  else if letter = 'b' ∨ letter = 'B' then some 2
  else none

/-- The exponent after the digits of a floating-point number; no text is the exponent zero. -/
def readExponent? : List Char → Option Int
  | [] => some 0
  | letter :: cs =>
    if letter = 'e' ∨ letter = 'E' then
      let (negative, digits) := match cs with
        | '-' :: ds => (true, ds)
        | '+' :: ds => (false, ds)
        | ds => (false, ds)
      if digits ≠ [] ∧ digits.all Char.isDigit then
        let n : Int := positional 10 digits
        some (if negative then -n else n)
      else none
    else none

/-- The number nearest to the text of whole digits, a point with digits, and an exponent. -/
def readFloat? (text : List Char) : Option Double :=
  let whole := text.takeWhile Char.isDigit
  let rest := text.dropWhile Char.isDigit
  let (part, rest) := match rest with
    | '.' :: ds => (ds.takeWhile Char.isDigit, ds.dropWhile Char.isDigit)
    | _ => ([], rest)
  if whole ++ part = [] then none
  else (readExponent? rest).map fun e =>
    Double.ofDecimal (positional 10 (whole ++ part)) (e - part.length)

def readDecimal (digits : List Char) : Except NumberFault Number :=
  if digits.any fun c => c == '.' || c == 'e' || c == 'E' then
    match readFloat? digits with
    | some value => if value.isFinite then .ok (.float value) else .error .floatRange
    | none => .error .malformedFloat
  else readInteger 10 digits

def readNumber (text : List Char) : Except NumberFault Number :=
  let digits := text.filter (· ≠ '_')
  match digits with
  | '0' :: letter :: tail =>
    match radix? letter with
    | some radix => if tail = [] then .error .noDigits else readInteger radix tail
    | none => readDecimal digits
  | _ => readDecimal digits

end SchemaExpr.Literal
