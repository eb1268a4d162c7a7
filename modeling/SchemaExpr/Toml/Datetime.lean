import SchemaExpr.Literal.Number

/-!
# Dates and times

Dates, times of day and offsets from universal time as TOML writes them. A time keeps nine digits
of its fraction, without the zeros at the end.
-/
namespace SchemaExpr.Toml

structure Date where
  year : Nat
  month : Nat
  day : Nat
  deriving DecidableEq, Repr

structure Time where
  hour : Nat
  minute : Nat
  second : Nat
  /-- The digits after the point. -/
  fraction : List Char
  deriving DecidableEq, Repr

inductive Offset where
  | utc
  /-- A number of minutes, written with a sign. -/
  | minutes (negative : Bool) (count : Nat)
  deriving DecidableEq, Repr

inductive Datetime where
  | date (date : Date)
  | time (time : Time)
  | both (date : Date) (time : Time) (offset : Option Offset)
  deriving DecidableEq, Repr

def digits? (cs : List Char) : Option Nat :=
  if cs.all Char.isDigit then some (Literal.positional 10 cs) else none

/-- The value of a text of digits that lies between two bounds. -/
def digitsBetween? (least most : Nat) (cs : List Char) : Option Nat :=
  (digits? cs).filter fun n => least ≤ n && n ≤ most

namespace Date

def isLeap (year : Nat) : Bool := year % 4 == 0 && (year % 100 != 0 || year % 400 == 0)

def daysIn (year month : Nat) : Nat :=
  if month = 2 then if isLeap year then 29 else 28
  else if month = 4 ∨ month = 6 ∨ month = 9 ∨ month = 11 then 30
  else 31

/-- A date at the start of a text, and the text after it. -/
def read? : List Char → Option (Date × List Char)
  | a :: b :: c :: d :: '-' :: e :: f :: '-' :: g :: h :: cs => do
    let year ← digits? [a, b, c, d]
    let month ← digitsBetween? 1 12 [e, f]
    let day ← digitsBetween? 1 (daysIn year month) [g, h]
    some (⟨year, month, day⟩, cs)
  | _ => none

end Date

namespace Time

/-- The digits of a fraction that are kept. -/
def keptFraction (cs : List Char) : List Char :=
  ((cs.take 9).reverse.dropWhile (· == '0')).reverse

/-- A time at the start of a text, and the text after it. The second sixty is a leap second. -/
def read? : List Char → Option (Time × List Char)
  | a :: b :: ':' :: c :: d :: ':' :: e :: f :: cs => do
    let hour ← digitsBetween? 0 23 [a, b]
    let minute ← digitsBetween? 0 59 [c, d]
    let second ← digitsBetween? 0 60 [e, f]
    match cs with
    | '.' :: g :: rest =>
      if g.isDigit then
        some (⟨hour, minute, second, keptFraction (g :: rest.takeWhile Char.isDigit)⟩,
          rest.dropWhile Char.isDigit)
      else none
    | _ => some (⟨hour, minute, second, []⟩, cs)
  | _ => none

end Time

/-- The offset that a text states; no text states no offset. -/
def Offset.read? : List Char → Option (Option Offset)
  | [] => some none
  | ['Z'] => some (some .utc)
  | ['z'] => some (some .utc)
  | [sign, a, b, ':', c, d] => do
    let hours ← digitsBetween? 0 23 [a, b]
    let minutes ← digitsBetween? 0 59 [c, d]
    if sign = '+' ∨ sign = '-' then some (some (.minutes (sign == '-') (60 * hours + minutes)))
    else none
  | _ => none

namespace Datetime

/-- The date-time that a whole text states. -/
def read? (cs : List Char) : Option Datetime :=
  match Date.read? cs with
  | some (d, []) => some (.date d)
  | some (d, mark :: rest) =>
    if mark = 'T' ∨ mark = 't' then
      match Time.read? rest with
      | some (t, rest) => (Offset.read? rest).map (.both d t)
      | none => none
    else none
  | none =>
    match Time.read? cs with
    | some (t, []) => some (.time t)
    | _ => none

end Datetime

/-- Decimal digits of a number, with zeros in front up to a width. -/
def padded (width n : Nat) : String :=
  let digits := Nat.toDigits 10 n
  String.ofList (List.replicate (width - digits.length) '0' ++ digits)

def Date.text (d : Date) : String :=
  padded 4 d.year ++ "-" ++ padded 2 d.month ++ "-" ++ padded 2 d.day

def Time.text (t : Time) : String :=
  padded 2 t.hour ++ ":" ++ padded 2 t.minute ++ ":" ++ padded 2 t.second ++
    if t.fraction.isEmpty then "" else "." ++ String.ofList t.fraction

def Offset.text : Offset → String
  | utc => "Z"
  | minutes negative count =>
    (if negative && count != 0 then "-" else "+") ++ padded 2 (count / 60) ++ ":" ++
      padded 2 (count % 60)

def Datetime.text : Datetime → String
  | date d => d.text
  | time t => t.text
  | both d t offset => d.text ++ "T" ++ t.text ++ (offset.map Offset.text).getD ""

end SchemaExpr.Toml
