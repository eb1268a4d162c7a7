import SchemaExpr.Fault

/-!
# Parsers

A parser reads tokens from the front of a list. It yields a value or gives up, and in both cases
it reports errors and leaves the tokens that it has not read. What is left is always a suffix of
what was there, which is why loops over parsers end.
-/
namespace SchemaExpr

structure Outcome (α : Type) where
  value : Option α
  rest : List Token
  errors : List SyntaxError

def Parser (α : Type) : Type := List Token → Outcome α

namespace Parser

variable {α β : Type}

/-- Runs `p` and continues with its value; a parser that gives up ends the whole. -/
def andThen (p : Parser α) (f : α → Parser β) : Parser β := fun ts =>
  let first := p ts
  match first.value with
  | none => ⟨none, first.rest, first.errors⟩
  | some a =>
    let second := f a first.rest
    ⟨second.value, second.rest, first.errors ++ second.errors⟩

instance : Monad Parser where
  pure a := fun ts => ⟨some a, ts, []⟩
  bind := andThen

def report (fault : Fault) (span : Span) : Parser Unit := fun ts => ⟨some (), ts, [⟨fault, span⟩]⟩

/-- Reports an error and gives up. -/
def fail (fault : Fault) (span : Span) : Parser α := fun ts => ⟨none, ts, [⟨fault, span⟩]⟩

/-- Runs `p` and goes on whether or not it gives up. -/
def attempt (p : Parser α) : Parser (Option α) := fun ts =>
  let out := p ts
  ⟨some out.value, out.rest, out.errors⟩

/-- The first token; where there is none, the end of the input at `stop`. -/
def current (stop : Span) (ts : List Token) : Token := ts.headD ⟨Lexeme.eof, stop⟩

/-- Gives up with an error about the first token. -/
def failHere (stop : Span) (fault : Lexeme → Fault) : Parser α := fun ts =>
  fail (fault (current stop ts).toLexeme) (current stop ts).span ts

def peek : Parser (Option Token) := fun ts => ⟨some ts.head?, ts, []⟩

def advance : Parser Unit := fun ts => ⟨some (), ts.drop 1, []⟩

def expect (stop : Span) (kind : Kind) : Parser Token
  | [] => failHere stop (.expected kind) []
  | t :: ts => if t.kind = kind then ⟨some t, ts, []⟩ else failHere stop (.expected kind) (t :: ts)

/-- What `p` leaves is a suffix of what it was given. -/
def Shrinks (p : Parser α) : Prop := ∀ ts, (p ts).rest <:+ ts

theorem shrinks_pure (a : α) : (pure a : Parser α).Shrinks := fun ts => List.suffix_refl ts

theorem Shrinks.bind {p : Parser α} {f : α → Parser β} (hp : p.Shrinks)
    (hf : ∀ a, (f a).Shrinks) : (p >>= f).Shrinks := by
  intro ts
  show (andThen p f ts).rest <:+ ts
  unfold andThen
  simp only
  split
  · exact hp ts
  · exact (hf _ _).trans (hp ts)

theorem shrinks_report (fault : Fault) (span : Span) : (report fault span).Shrinks :=
  fun ts => List.suffix_refl ts

theorem shrinks_fail (fault : Fault) (span : Span) : (fail fault span : Parser α).Shrinks :=
  fun ts => List.suffix_refl ts

theorem Shrinks.attempt {p : Parser α} (hp : p.Shrinks) : p.attempt.Shrinks := hp

theorem shrinks_failHere (stop : Span) (fault : Lexeme → Fault) :
    (failHere stop fault : Parser α).Shrinks :=
  fun ts => List.suffix_refl ts

theorem shrinks_peek : peek.Shrinks := fun ts => List.suffix_refl ts

theorem shrinks_advance : advance.Shrinks := fun ts => List.drop_suffix 1 ts

theorem shrinks_expect (stop : Span) (kind : Kind) : (expect stop kind).Shrinks := by
  intro ts
  cases ts with
  | nil => exact List.suffix_refl _
  | cons t ts =>
    simp only [expect]
    split
    · exact List.suffix_cons t ts
    · exact List.suffix_refl _

end Parser

end SchemaExpr
