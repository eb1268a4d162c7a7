import SchemaExpr.Literal.Text
import SchemaExpr.Token.Scan

/-!
# Reading tokens

A lexer is the text that is still to be read with the place where it starts. Blanks, tabs,
carriage returns and line feeds separate tokens and are skipped.
-/
namespace SchemaExpr

def isLayout (c : Char) : Bool := c == ' ' || c == '\t' || c == '\r' || c == '\n'

structure Lexer where
  rest : List Char
  offset : Nat
  pos : Position

namespace Lexer

def ofText (text : List Char) : Lexer := ⟨text, 0, Position.start⟩

def skip (l : Lexer) (text : List Char) : Lexer where
  rest := l.rest.drop text.length
  offset := text.foldl (fun n c => n + c.utf8Size) l.offset
  pos := text.foldl Position.next l.pos

/-- The span of `text`, which starts the rest. -/
def spanOf (l : Lexer) (text : List Char) : Span :=
  ⟨l.offset, (l.skip text).offset, l.pos⟩

/-- The lexer at the end of its text. -/
def atEnd (l : Lexer) : Lexer := l.skip l.rest

/-- The end of the input as a token: an empty span after the last character. -/
def eof (l : Lexer) : Token := ⟨Lexeme.eof, l.atEnd.spanOf []⟩

/-- The literal of a lexeme: strings are decoded, all else is the source text. -/
def literal (kind : Kind) (text : List Char) : String :=
  String.ofList (if kind = .string then Literal.decode text else text)

def skipLayout (l : Lexer) : Lexer := l.skip (l.rest.takeWhile isLayout)

/-- The next token and the lexer after it; nothing at the end of the text. -/
def next? (l : Lexer) : Option (Token × Lexer) :=
  match l.skipLayout.rest with
  | [] => none
  | c :: cs =>
    let (kind, text) := Scan.first c cs
    some (⟨⟨kind, literal kind text⟩, l.skipLayout.spanOf text⟩, l.skipLayout.skip text)

theorem next?_length_lt {l l' : Lexer} {t : Token} (h : l.next? = some (t, l')) :
    l'.rest.length < l.rest.length := by
  unfold next? at h
  split at h
  · contradiction
  · next c cs hrest =>
    simp only [Option.some.injEq, Prod.mk.injEq] at h
    rw [← h.2]
    have hpos := List.length_pos_iff.mpr (Scan.first_ne_nil c cs)
    have hlen : (c :: cs).length ≤ l.rest.length := by
      rw [← hrest]
      simp [skipLayout, skip]
    simp only [skip, hrest, List.length_drop, List.length_cons] at *
    omega

/-- The tokens that are still to be read, without the end of the input. -/
def tokens (l : Lexer) : List Token :=
  match h : l.next? with
  | none => []
  | some (t, l') =>
    have := next?_length_lt h
    t :: tokens l'
termination_by l.rest.length

/-- The next token, which at the end of the text is the end of the input again and again. -/
def pull (l : Lexer) : Token × Lexer := l.next?.getD (l.eof, l.atEnd)

end Lexer

def tokenize (source : String) : List Token :=
  (Lexer.ofText source.toList).tokens ++ [(Lexer.ofText source.toList).eof]

end SchemaExpr
