import SchemaExpr.Toml.Quoted
import SchemaExpr.Toml.Scalar
import SchemaExpr.Toml.Table

/-!
# Reading TOML

A reader takes something from the start of a text, or fails. Failures carry no cause: a text that
is no TOML document is refused as a whole.
-/
namespace SchemaExpr.Toml

abbrev Reader (α : Type) := StateT (List Char) Option α

namespace Reader

variable {α : Type}

def char (c : Char) : Reader Unit := fun
  | d :: cs => if d = c then some ((), cs) else none
  | [] => none

/-- Drops the characters at the start for which `p` holds. -/
def skip (p : Char → Bool) : Reader Unit := fun cs => some ((), cs.dropWhile p)

/-- Takes something if it is there. -/
def attempt (r : Reader α) : Reader (Option α) := fun cs =>
  match r cs with
  | some (a, rest) => some (some a, rest)
  | none => some (none, cs)

/-- Takes as many as there are. One that takes no text is the end. -/
def many (r : Reader α) (cs : List Char) : List α × List Char :=
  match r cs with
  | none => ([], cs)
  | some (a, rest) =>
    if rest.length < cs.length then
      let (more, after) := many r rest
      (a :: more, after)
    else ([], cs)
termination_by cs.length

/-- One or more with a separator between them. -/
def separated (separator : Char) (r : Reader α) : Reader (List α) := do
  let first ← r
  let more ← fun cs => some (many (do char separator; r) cs)
  pure (first :: more)

end Reader

open Reader

def blanks : Reader Unit := skip isSpace

def comment : Reader Unit := do
  char '#'
  skip isPrintable

def lineFeedOrEnd : Reader Unit := fun
  | [] => some ((), [])
  | c :: cs => if c = '\n' then some ((), cs) else none

/-- The end of a line, with blanks and a comment before it. -/
def lineEnd : Reader Unit := do
  blanks
  let _ ← attempt comment
  lineFeedOrEnd

/-- Blanks, line feeds and comments, which an array may hold anywhere. -/
def arrayLayout : Reader Unit := do
  let _ ← fun cs => some (many (do blanks; let _ ← attempt comment; char '\n') cs)
  blanks

def isBareKeyChar (c : Char) : Bool := c.isAlphanum || c == '_' || c == '-'

/-- One part of a key, bare or quoted on one line. -/
def simpleKey : Reader String := fun
  | '"' :: cs => (basic cs).map fun (text, rest) => (String.ofList text, rest)
  | '\'' :: cs => (literal cs).map fun (text, rest) => (String.ofList text, rest)
  | cs =>
    let word := cs.takeWhile isBareKeyChar
    if word.isEmpty then none else some (String.ofList word, cs.dropWhile isBareKeyChar)

/-- No more than this many parts or levels follow each other. -/
def maxNesting : Nat := 79

def key : Reader (List String) := do
  let parts ← separated '.' (do blanks; let part ← simpleKey; blanks; pure part)
  if parts.length ≤ maxNesting then pure parts else failure

def entry (value : Reader Value) : Reader (List String × Value) := do
  let path ← key
  char '='
  blanks
  let v ← value
  pure (path, v)

def array (value : Reader Value) : Reader Value := do
  char '['
  let elements ← attempt <| separated ',' (do arrayLayout; let v ← value; arrayLayout; pure v)
  match elements with
  | none =>
    arrayLayout
    char ']'
    pure (.array [])
  | some elements =>
    let _ ← attempt (char ',')
    arrayLayout
    char ']'
    pure (.array elements)

def braceTable (value : Reader Value) : Reader Value := do
  char '\x7b'
  let entries ← attempt <| separated ',' (do let e ← entry value; blanks; pure e)
  blanks
  char '\x7d'
  match insertAll (.table .header []) (entries.getD []) with
  | some (.table _ fields) => pure (.table .braces fields)
  | _ => failure

def string : Reader Value := fun cs =>
  (quoted cs).map fun (text, rest) => (.string (String.ofList text), rest)

/-- A value with at most the given number of arrays and tables around each other. -/
def value : (levels : Nat) → Reader Value
  | 0 => fun cs => (string cs).or (scalar cs)
  | n + 1 => fun cs =>
    match cs with
    | '[' :: _ => array (value n) cs
    | '\x7b' :: _ => braceTable (value n) cs
    | _ => (string cs).or (scalar cs)

inductive Header where
  /-- A name in brackets opens a table. -/
  | table (path : List String)
  /-- A name in double brackets adds a table to an array. -/
  | element (path : List String)
  deriving DecidableEq, Repr

inductive Statement where
  | header (header : Header)
  | entry (path : List String) (value : Value)

def header : Reader Header := do
  char '['
  let double ← attempt (char '[')
  let path ← key
  char ']'
  if double.isSome then
    char ']'
    pure (.element path)
  else pure (.table path)

/-- A line of a document with the line feed that ends it; a value may take further lines. -/
def line : Reader (Option Statement) := do
  blanks
  let statement ← fun cs : List Char =>
    match cs with
    | [] => some (none, cs)
    | '#' :: _ => some (none, cs)
    | '\n' :: _ => some (none, cs)
    | '[' :: _ => (header cs).map fun (h, rest) => (some (.header h), rest)
    | _ => (entry (value maxNesting) cs).map fun ((path, v), rest) => (some (.entry path v), rest)
  lineEnd
  pure statement

end SchemaExpr.Toml
