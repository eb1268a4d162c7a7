import SchemaExpr.Literal.Text

/-!
# Quoted strings

The four kinds of strings in TOML. Each reader starts after the opening quotes and gives the text
that the string stands for with what follows the closing quotes. Line ends are single line feeds.
-/
namespace SchemaExpr.Toml

/-- Characters that stand for themselves in a string or a comment: all but controls, the tab
excepted. -/
def isPrintable (c : Char) : Bool := c == '\t' || (0x20 ≤ c.toNat && c.toNat != 0x7f)

/-- The character that hexadecimal digits name, if they name one. -/
def named? (digits : List Char) : Option Char := do
  let n ← digits.foldlM (fun n c => (Literal.hexDigit? c).map (n * 16 + ·)) 0
  if n.isValidChar then some (Char.ofNat n) else none

def escaped? (c : Char) : Option Char :=
  if c = 'b' then some '\x08'
  else if c = 't' then some '\t'
  else if c = 'n' then some '\n'
  else if c = 'f' then some '\x0c'
  else if c = 'r' then some '\r'
  else if c = '"' ∨ c = '\\' then some c
  else none

/-- The character that the text after a backslash starts with, and the rest. -/
def readEscape? : List Char → Option (Char × List Char)
  | 'u' :: a :: b :: c :: d :: cs => (named? [a, b, c, d]).map (·, cs)
  | 'U' :: a :: b :: c :: d :: e :: f :: g :: h :: cs =>
    (named? [a, b, c, d, e, f, g, h]).map (·, cs)
  | c :: cs => (escaped? c).map (·, cs)
  | [] => none

theorem readEscape?_length_lt {cs rest : List Char} {c : Char}
    (h : readEscape? cs = some (c, rest)) : rest.length < cs.length := by
  unfold readEscape? at h
  split at h
  all_goals simp only [Option.map_eq_some_iff, Prod.mk.injEq, reduceCtorEq] at h
  all_goals obtain ⟨_, _, _, rfl⟩ := h
  all_goals simp only [List.length_cons]
  all_goals omega

def basic (cs : List Char) : Option (List Char × List Char) :=
  match cs with
  | [] => none
  | '"' :: rest => some ([], rest)
  | '\\' :: rest =>
    match h : readEscape? rest with
    | none => none
    | some (c, rest) =>
      have := readEscape?_length_lt h
      (basic rest).map fun (text, after) => (c :: text, after)
  | c :: rest =>
    if isPrintable c then (basic rest).map fun (text, after) => (c :: text, after) else none
termination_by cs.length

/-- A string between single quotes, on one line, without escapes. -/
def literal : List Char → Option (List Char × List Char)
  | [] => none
  | '\'' :: cs => some ([], cs)
  | c :: cs =>
    if isPrintable c then (literal cs).map fun (text, after) => (c :: text, after) else none

/-- What follows three closing quotes: up to two more quotes belong to the string. -/
def afterQuotes (quote : Char) : List Char → List Char × List Char
  | a :: b :: cs =>
    if a = quote then if b = quote then ([a, b], cs) else ([a], b :: cs) else ([], a :: b :: cs)
  | [a] => if a = quote then ([a], []) else ([], [a])
  | [] => ([], [])

def isSpace (c : Char) : Bool := c == ' ' || c == '\t'

/-- The text after a line feed and all blanks and line feeds that follow it, if a text starts with a
line feed after blanks. -/
def joinLines? (cs : List Char) : Option (List Char) :=
  match cs.dropWhile isSpace with
  | '\n' :: rest => some (rest.dropWhile fun c => isSpace c || c == '\n')
  | _ => none

theorem length_dropWhile_le (p : Char → Bool) (cs : List Char) :
    (cs.dropWhile p).length ≤ cs.length := (List.dropWhile_suffix p).length_le

theorem joinLines?_length_le {cs rest : List Char} (h : joinLines? cs = some rest) :
    rest.length ≤ cs.length := by
  unfold joinLines? at h
  split at h
  · next more hm =>
    have := length_dropWhile_le isSpace cs
    have := length_dropWhile_le (fun c => isSpace c || c == '\n') more
    grind
  · contradiction

/-- A string between three double quotes, over any number of lines. A backslash at the end of a
line joins it with the next text. -/
def longBasic (cs : List Char) : Option (List Char × List Char) :=
  match cs with
  | [] => none
  | '"' :: '"' :: '"' :: rest => some (afterQuotes '"' rest)
  | '\\' :: rest =>
    match hj : joinLines? rest with
    | some rest =>
      have := joinLines?_length_le hj
      longBasic rest
    | none =>
      match h : readEscape? rest with
      | none => none
      | some (c, rest) =>
        have := readEscape?_length_lt h
        (longBasic rest).map fun (text, after) => (c :: text, after)
  | c :: rest =>
    if isPrintable c || c == '\n' then
      (longBasic rest).map fun (text, after) => (c :: text, after)
    else none
termination_by cs.length

/-- A string between three single quotes, over any number of lines, without escapes. -/
def longLiteral : List Char → Option (List Char × List Char)
  | [] => none
  | '\'' :: '\'' :: '\'' :: cs => some (afterQuotes '\'' cs)
  | c :: cs =>
    if isPrintable c || c == '\n' then
      (longLiteral cs).map fun (text, after) => (c :: text, after)
    else none

/-- A line feed right after three opening quotes does not belong to the string. -/
def skipLineFeed : List Char → List Char
  | '\n' :: cs => cs
  | cs => cs

/-- A string of any kind at the start of a text, and the text after it. -/
def quoted : List Char → Option (List Char × List Char)
  | '"' :: '"' :: '"' :: cs => longBasic (skipLineFeed cs)
  | '"' :: cs => basic cs
  | '\'' :: '\'' :: '\'' :: cs => longLiteral (skipLineFeed cs)
  | '\'' :: cs => literal cs
  | _ => none

end SchemaExpr.Toml
