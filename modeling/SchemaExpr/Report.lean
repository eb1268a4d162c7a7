import SchemaExpr.Error
import SchemaExpr.Text.Blank
import SchemaExpr.Text.Columns

/-!
# Error reports

A report shows the line of the source that an error belongs to, with a label under the characters
at fault. Labels count characters where spans count bytes, and a label is never empty.
-/
namespace SchemaExpr.Report

/-- The number of characters in the first `byte` bytes, counted up to the end of the text; nothing
if the offset lies inside a character. -/
def charOffset? : List Char → (byte : Nat) → Option Nat
  | [], _ => some 0
  | c :: cs, byte =>
    if byte = 0 then some 0
    else if byte < c.utf8Size then none
    else (charOffset? cs (byte - c.utf8Size)).map (· + 1)

/-- The number of characters before a byte; an offset inside a character counts as the end. -/
def charOffset (source : List Char) (byte : Nat) : Nat :=
  (charOffset? source byte).getD source.length

/-- A range of characters, from the first to the one after the last. -/
structure Label where
  start : Nat
  stop : Nat
  deriving DecidableEq, Repr

/-- The characters at fault. Where the span is empty these are the character at its place, or the
last one of the source. -/
def Label.ofSpan (source : List Char) (span : Span) : Label :=
  let start := charOffset source span.start
  let stop := max (charOffset source span.stop) start
  if start = stop then
    if stop < source.length then ⟨start, stop + 1⟩ else ⟨start - 1, stop⟩
  else ⟨start, stop⟩

def isLineBreak (c : Char) : Bool :=
  c == '\n' || c == '\r' || c == '\x0b' || c == '\x0c' || c == '\u0085' || c == '\u2028'
    || c == '\u2029'

def lines : List Char → List (List Char)
  | [] => []
  | '\r' :: '\n' :: cs => ['\r', '\n'] :: lines cs
  | c :: cs =>
    if isLineBreak c then [c] :: lines cs
    else match lines cs with
      | [] => [[c]]
      | l :: ls => (c :: l) :: ls

structure Line where
  number : Nat
  offset : Nat
  text : List Char

/-- The line that holds the character `i`, where `first` is the number and `offset` the start of the
first of the given lines. -/
def lineOf (first offset i : Nat) : List (List Char) → Line
  | [] => ⟨first, offset, []⟩
  | l :: ls =>
    if i < offset + l.length then ⟨first, offset, l⟩
    else lineOf (first + 1) (offset + l.length) i ls

/-- The number of columns that the character with index `i` in its line takes. -/
def charWidth (i : Nat) (c : Char) : Nat :=
  if c = '\t' then 4 - i % 4
  else if Text.isBlank c then 1
  else Text.columns c

/-- The width of the character with index `i`; past the end of the line it is one. -/
def widthAt (line : List Char) (i : Nat) : Nat := ((line.drop i).head?.map (charWidth i)).getD 1

/-- The line as it is shown, with white space as blanks. -/
def shown (line : List Char) : List Char :=
  line.zipIdx.flatMap fun (c, i) =>
    if Text.isBlank c then List.replicate (charWidth i c) ' ' else [c]

/-- A piece of `w` columns that opens with a joint, if there is room for it. -/
def joined (joint : Char) (w : Nat) : List Char := (joint :: List.replicate (w - 1) '─').take w

theorem length_joined (joint : Char) (w : Nat) : (joined joint w).length = w := by
  cases w <;> simp [joined]

def markRow (line : List Char) (label : Label) : List Char :=
  let joint := (label.start + label.stop) / 2
  (List.range (label.stop + 2)).flatMap fun i =>
    let w := widthAt line i
    if i = joint then joined '┬' w
    else List.replicate w (if label.start ≤ i ∧ i < label.stop then '─' else ' ')

/-- The row that leads from the joint to the message. -/
def messageRow (line : List Char) (label : Label) : List Char :=
  let joint := (label.start + label.stop) / 2
  (List.range (label.stop + 2)).flatMap fun i =>
    let w := widthAt line i
    if i = joint then joined '╰' w
    else List.replicate w (if i < joint then ' ' else '─')

def text (source filename kind message : String) (span : Span) : String :=
  let title := kind ++ " in " ++ filename ++ " at " ++ span.pos.text
  let chars := source.toList
  if chars.isEmpty then "error: " ++ title ++ ": " ++ message ++ "\n"
  else
    let label := Label.ofSpan chars span
    let line := lineOf 1 0 label.start (lines chars)
    let label : Label := ⟨label.start - line.offset, label.stop - line.offset⟩
    let body := Text.trimEnd line.text
    let number := toString line.number
    let margin (c : Char) : String := String.ofList (List.replicate (number.length + 2) c)
    "Error: " ++ title ++ "\n" ++
    margin ' ' ++ "╭─[<unknown>:" ++ number ++ ":" ++ toString (label.start + 1) ++ "]\n" ++
    margin ' ' ++ "│\n" ++
    " " ++ number ++ " │ " ++ String.ofList (shown body) ++ "\n" ++
    margin ' ' ++ "│ " ++ String.ofList (markRow body label) ++ "\n" ++
    margin ' ' ++ "│ " ++ String.ofList (messageRow body label) ++ " " ++ message ++ "\n" ++
    margin '─' ++ "╯\n"

/-- All that is reported for an error: one report for each syntax error. -/
def ofError (source filename : String) : Error → String
  | .malformed errors =>
    String.join (errors.map fun e => text source filename "syntax error" e.message e.span)
  | .lowering e => text source filename "lowering error" e.message e.span
  | .engine message => "error[engine]: " ++ message ++ "\n"
  | .settings message path => "error[config]: " ++ message ++ "\n  --> " ++ path ++ "\n"

end SchemaExpr.Report
