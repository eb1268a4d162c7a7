/-!
# String literals

The text between the quotes of a string literal is a sequence of pieces, each with a decoding of
its own, and the literal stands for the concatenation of the decodings. `quote` writes a literal
that stands for a given text.
-/
namespace SchemaExpr.Literal

def hexDigit? (c : Char) : Option Nat :=
  if '0' ≤ c ∧ c ≤ '9' then some (c.toNat - '0'.toNat)
  else if 'a' ≤ c ∧ c ≤ 'f' then some (c.toNat - 'a'.toNat + 10)
  else if 'A' ≤ c ∧ c ≤ 'F' then some (c.toNat - 'A'.toNat + 10)
  else none

/-- The character named by four hexadecimal digits, if they name one. -/
def scalar? (a b c d : Char) : Option Char := do
  let n := ((← hexDigit? a) * 16 + (← hexDigit? b)) * 256 + (← hexDigit? c) * 16 + (← hexDigit? d)
  if n.isValidChar then some (Char.ofNat n) else none

inductive Piece where
  /-- A character that stands for itself. -/
  | plain (c : Char)
  /-- A backslash with the character after it. -/
  | escape (c : Char)
  /-- The escape of a character by four hexadecimal digits. -/
  | scalar (a b c d : Char) (value : Char)
  /-- A backslash that ends the source. -/
  | trailing
  deriving DecidableEq, Repr

namespace Piece

/-- The text the piece stands for. An escape without a meaning stands for itself. -/
def decoded : Piece → List Char
  | plain c => [c]
  | escape c =>
    if c = 'n' then ['\n']
    else if c = 't' then ['\t']
    else if c = 'r' then ['\r']
    else if c = '\\' ∨ c = '"' ∨ c = '\'' then [c]
    else ['\\', c]
  | scalar _ _ _ _ value => [value]
  | trailing => ['\\']

def spelling : Piece → List Char
  | plain c => [c]
  | escape c => ['\\', c]
  | scalar a b c d _ => ['\\', 'u', a, b, c, d]
  | trailing => ['\\']

end Piece

/-- The pieces of a text up to the first closing quote or to its end. -/
def pieces (quote : Char) : List Char → List Piece
  | [] => []
  | ['\\'] => [.trailing]
  | '\\' :: 'u' :: a :: b :: c :: d :: cs =>
    match scalar? a b c d with
    | some value => .scalar a b c d value :: pieces quote cs
    | none => .escape 'u' :: pieces quote (a :: b :: c :: d :: cs)
  | '\\' :: c :: cs => .escape c :: pieces quote cs
  | c :: cs => if c = quote then [] else .plain c :: pieces quote cs

/-- The text a literal stands for, its opening quote included in `literal`. -/
def decode : List Char → List Char
  | [] => []
  | quote :: cs => (pieces quote cs).flatMap Piece.decoded

def isControl (c : Char) : Bool := c.toNat < 0x20 || (0x7f ≤ c.toNat && c.toNat ≤ 0x9f)

def hex4 (n : Nat) : List Char :=
  [n / 4096 % 16, n / 256 % 16, n / 16 % 16, n % 16].map Nat.digitChar

def quoteChar (c : Char) : List Char :=
  if c = '"' then ['\\', '"']
  else if c = '\\' then ['\\', '\\']
  else if c = '\n' then ['\\', 'n']
  else if c = '\t' then ['\\', 't']
  else if c = '\r' then ['\\', 'r']
  else if isControl c then '\\' :: 'u' :: hex4 c.toNat
  else [c]

/-- The literal for `s` in double quotes. -/
def quote (s : List Char) : List Char := '"' :: (s.flatMap quoteChar ++ ['"'])

end SchemaExpr.Literal
