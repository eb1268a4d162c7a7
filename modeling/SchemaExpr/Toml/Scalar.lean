import SchemaExpr.Literal.Text
import SchemaExpr.Toml.Value

/-!
# Scalar words

A word is a run of letters, digits and the signs of numbers and times. Truth values, numbers and
date-times are words; the space between a date and a time is the one that a word may hold.
-/
namespace SchemaExpr.Toml

open Decimal (Double)

def isWordChar (c : Char) : Bool :=
  c.isAlphanum || c == '_' || c == '+' || c == '-' || c == '.' || c == ':'

/-- Digits with single underscores between them. -/
def isGrouped (isDigit : Char → Bool) : List Char → Bool
  | [] => false
  | [c] => isDigit c
  | c :: '_' :: cs => isDigit c && isGrouped isDigit cs
  | c :: cs => isDigit c && isGrouped isDigit cs

/-- Decimal digits without a zero in front. -/
def isPlainDecimal (cs : List Char) : Bool :=
  isGrouped Char.isDigit cs && (cs.head? != some '0' || cs.length == 1)

def withoutUnderscores (cs : List Char) : List Char := cs.filter (· ≠ '_')

/-- A sign in front of a text, and the text after it. -/
def splitSign : List Char → Bool × List Char
  | '-' :: cs => (true, cs)
  | '+' :: cs => (false, cs)
  | cs => (false, cs)

/-- An integer that fits in 64 bits with a sign. -/
def inRange (n : Int) : Option Int :=
  if -9223372036854775808 ≤ n ∧ n ≤ 9223372036854775807 then some n else none

def readRadix? (radix : Nat) (isDigit : Char → Bool) (cs : List Char) : Option Int :=
  if isGrouped isDigit cs then inRange (Literal.positional radix (withoutUnderscores cs)) else none

def readInteger? : List Char → Option Int
  | '0' :: 'x' :: cs => readRadix? 16 (fun c => (Literal.hexDigit? c).isSome) cs
  | '0' :: 'o' :: cs => readRadix? 8 (fun c => '0' ≤ c && c ≤ '7') cs
  | '0' :: 'b' :: cs => readRadix? 2 (fun c => c == '0' || c == '1') cs
  | cs =>
    let (negative, digits) := splitSign cs
    if isPlainDecimal digits then
      let n : Int := Literal.positional 10 (withoutUnderscores digits)
      inRange (if negative then -n else n)
    else none

def isDigitOrUnderscore (c : Char) : Bool := c.isDigit || c == '_'

def isExponent : List Char → Bool
  | [] => true
  | mark :: cs => (mark == 'e' || mark == 'E') && isGrouped Char.isDigit (splitSign cs).2

/-- Whether a text without a sign is a decimal number with a fraction, an exponent or both. -/
def isFloatText (cs : List Char) : Bool :=
  let rest := cs.dropWhile isDigitOrUnderscore
  isPlainDecimal (cs.takeWhile isDigitOrUnderscore) &&
    match rest with
    | [] => false
    | '.' :: part =>
      isGrouped Char.isDigit (part.takeWhile isDigitOrUnderscore) &&
        isExponent (part.dropWhile isDigitOrUnderscore)
    | _ => isExponent rest

/-- A quiet number that is none. -/
def notANumber (negative : Bool) : Double := ⟨negative, Double.infinity + Nat.pow 2 51⟩

/-- A number that is too large is refused, unless it is negative and so stands for the negative
infinity. -/
def readFloat? (cs : List Char) : Option Double :=
  let (negative, body) := splitSign cs
  if body = ['i', 'n', 'f'] then some ⟨negative, Double.infinity⟩
  else if body = ['n', 'a', 'n'] then some (notANumber negative)
  else if isFloatText body then do
    let x ← Literal.readFloat? (withoutUnderscores body)
    if negative then some x.neg else if x.isFinite then some x else none
  else none

def readWord? (word : List Char) : Option Value :=
  if word = ['t', 'r', 'u', 'e'] then some (.boolean true)
  else if word = ['f', 'a', 'l', 's', 'e'] then some (.boolean false)
  else ((Datetime.read? word).map .datetime).or <|
    ((readFloat? word).map .float).or ((readInteger? word).map .integer)

/-- The value of the word at the start of a text, and the text after it. A date takes the next word
as its time if that starts with a digit after one space. -/
def scalar (cs : List Char) : Option (Value × List Char) :=
  let word := cs.takeWhile isWordChar
  let rest := cs.dropWhile isWordChar
  match Datetime.read? word, rest with
  | some (.date _), ' ' :: d :: more =>
    if d.isDigit then
      let time := (d :: more).takeWhile isWordChar
      (readWord? (word ++ 'T' :: time)).map (·, (d :: more).dropWhile isWordChar)
    else (readWord? word).map (·, rest)
  | _, _ => (readWord? word).map (·, rest)

end SchemaExpr.Toml
