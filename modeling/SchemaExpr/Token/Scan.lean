import SchemaExpr.Token

/-!
# The lexeme at the start of a text

Every kind of token has a pattern, and the longest match of any pattern is taken; a keyword wins
over an identifier of the same length. A form that cannot be completed is given back: `1e+` is a
number, a word and a sign. A character that starts no token is illegal and stands alone.
-/
namespace SchemaExpr.Scan

def isDigitOrSeparator (c : Char) : Bool := c.isDigit || c == '_'

def isWordStart (c : Char) : Bool := c.isAlpha || c == '_'

def isWordChar (c : Char) : Bool := c.isAlphanum || c == '_'

def isHexDigit (c : Char) : Bool :=
  c.isDigit || ('a' ≤ c && c ≤ 'f') || ('A' ≤ c && c ≤ 'F')

/-- The digits, separators included, that may follow a leading zero and the given letter. -/
def radixDigit? (letter : Char) : Option (Char → Bool) :=
  if letter = 'x' ∨ letter = 'X' then some fun c => isHexDigit c || c == '_'
  else if letter = 'o' ∨ letter = 'O' then some fun c => ('0' ≤ c && c ≤ '7') || c == '_'
  else if letter = 'b' ∨ letter = 'B' then some fun c => c == '0' || c == '1' || c == '_'
  else none

/-- The radix letter and the digits after it, if there are any. -/
def radixTail : List Char → List Char
  | [] => []
  | letter :: cs =>
    match radixDigit? letter with
    | some digit => if cs.takeWhile digit = [] then [] else letter :: cs.takeWhile digit
    | none => []

/-- A point with at least one digit after it, or nothing. -/
def fraction : List Char → List Char
  | '.' :: d :: cs => if d.isDigit then '.' :: d :: cs.takeWhile isDigitOrSeparator else []
  | _ => []

def sign : List Char → List Char
  | [] => []
  | c :: _ => if c = '+' ∨ c = '-' then [c] else []

/-- An exponent letter, a sign if there is one, and at least one digit; or nothing. -/
def exponent : List Char → List Char
  | [] => []
  | letter :: cs =>
    let digits := (cs.drop (sign cs).length).takeWhile Char.isDigit
    if (letter = 'e' ∨ letter = 'E') ∧ digits ≠ [] then letter :: (sign cs ++ digits) else []

def decimalTail (cs : List Char) : List Char :=
  let whole := cs.takeWhile isDigitOrSeparator
  let point := fraction (cs.drop whole.length)
  whole ++ point ++ exponent (cs.drop (whole ++ point).length)

def number (c : Char) (cs : List Char) : List Char :=
  if c = '0' ∧ radixTail cs ≠ [] then c :: radixTail cs else c :: decimalTail cs

/-- What follows the opening quote of a string: up to the closing quote, or to the end. -/
def stringTail (quote : Char) : List Char → List Char
  | [] => []
  | ['\\'] => ['\\']
  | '\\' :: c :: cs => '\\' :: c :: stringTail quote cs
  | c :: cs => if c = quote then [c] else c :: stringTail quote cs

def keywords : List (String × Kind) :=
  [("true", .boolean), ("false", .boolean), ("null", .null),
    ("_", .special .selfValue), ("self", .special .selfValue), ("_io", .special .stream),
    ("_parent", .special .parent), ("_root", .special .root),
    ("_bytes_remaining", .special .bytesRemaining),
    ("sizeof", .sizeof), ("alignof", .alignof), ("as", .asCast)]

def wordKind (word : List Char) : Kind :=
  (keywords.lookup (String.ofList word)).getD .ident

def singles : List (Char × Kind) :=
  [('+', .plus), ('-', .minus), ('*', .star), ('/', .slash), ('%', .percent), ('&', .amp),
    ('|', .pipe), ('^', .caret), ('~', .tilde), ('!', .bang), ('<', .lt), ('>', .gt),
    ('(', .lparen), (')', .rparen), ('[', .lbracket), (']', .rbracket), ('.', .dot),
    (',', .comma), ('?', .question), (':', .colon)]

def pairs : List ((Char × Char) × Kind) :=
  [(('=', '='), .eqEq), (('!', '='), .bangEq), (('<', '='), .ltEq), (('>', '='), .gtEq),
    (('<', '<'), .shl), (('>', '>'), .shr), (('&', '&'), .ampAmp), (('|', '|'), .pipePipe)]

/-- A symbol of two characters wins over its first character. -/
def symbol (c : Char) (cs : List Char) : Kind × List Char :=
  let single := ((singles.lookup c).getD .illegal, [c])
  match cs with
  | [] => single
  | d :: _ =>
    match pairs.lookup (c, d) with
    | some k => (k, [c, d])
    | none => single

/-- The kind and the text of the lexeme that starts `c :: cs`. -/
def first (c : Char) (cs : List Char) : Kind × List Char :=
  if c.isDigit then (.number, number c cs)
  else if c = '"' ∨ c = '\'' then (.string, c :: stringTail c cs)
  else if isWordStart c then
    let word := c :: cs.takeWhile isWordChar
    (wordKind word, word)
  else symbol c cs

theorem symbol_ne_nil (c : Char) (cs : List Char) : (symbol c cs).2 ≠ [] := by
  unfold symbol
  cases cs with
  | nil => simp
  | cons d ds =>
    simp only
    split <;> simp

theorem number_ne_nil (c : Char) (cs : List Char) : number c cs ≠ [] := by
  unfold number
  split <;> simp

theorem first_ne_nil (c : Char) (cs : List Char) : (first c cs).2 ≠ [] := by
  unfold first
  split
  · exact number_ne_nil c cs
  · split
    · simp
    · split
      · simp
      · exact symbol_ne_nil c cs

end SchemaExpr.Scan
