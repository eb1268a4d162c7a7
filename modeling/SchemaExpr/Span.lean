/-!
# Positions and spans

A span is a range of bytes of the source together with the line and column of its first
character. Lines and columns count from one, columns count characters, and only a line feed
starts a new line.
-/
namespace SchemaExpr

structure Position where
  line : Nat
  column : Nat
  deriving DecidableEq, Repr

namespace Position

/-- The position of the first character of any source. -/
def start : Position := ⟨1, 1⟩

def next (p : Position) (c : Char) : Position :=
  if c = '\n' then ⟨p.line + 1, 1⟩ else ⟨p.line, p.column + 1⟩

/-- Earlier lines first, then earlier columns. -/
def order (p q : Position) : Ordering :=
  (compare p.line q.line).then (compare p.column q.column)

def text (p : Position) : String := s!"{p.line}:{p.column}"

end Position

structure Span where
  start : Nat
  stop : Nat
  pos : Position
  deriving DecidableEq, Repr

namespace Span

/-- The empty span at the start of a source, for errors that belong to no place in it. -/
def origin : Span := ⟨0, 0, Position.start⟩

/-- The span from the start of `s` to the later of the two ends. -/
def join (s t : Span) : Span := ⟨s.start, max t.stop s.stop, s.pos⟩

/-- Offsets are 64-bit words, so the length of a span that ends before it starts wraps around. -/
def length (s : Span) : Nat := (s.stop + UInt64.size - s.start) % UInt64.size

def isEmpty (s : Span) : Bool := s.start == s.stop

theorem length_eq_sub {s : Span} (ordered : s.start ≤ s.stop) (word : s.stop < UInt64.size) :
    s.length = s.stop - s.start := by
  simp only [length, UInt64.size] at *
  omega

end Span

end SchemaExpr
