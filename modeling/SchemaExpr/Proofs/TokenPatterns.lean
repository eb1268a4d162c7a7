import Mathlib.Computability.Language
import SchemaExpr.Token

/-!
# The patterns of tokens

Tokens are declared by patterns: regular expressions for numbers, strings and identifiers, and fixed
texts for everything else. The language of a pattern is built from union, concatenation and
iteration, without a scanner in mind. A longest match of a text is a token of the greatest length
that any pattern gives; a fixed text wins over an identifier of the same length, and where nothing
matches, one character is illegal.
-/
namespace SchemaExpr

open Computability

inductive Pattern where
  | empty
  /-- One character of some ranges, both ends included. -/
  | oneOf (ranges : List (Char × Char))
  /-- One character that is not among the given ones. -/
  | noneOf (chars : List Char)
  | seq (first second : Pattern)
  | alt (first second : Pattern)
  | star (repeated : Pattern)

namespace Pattern

def inRanges (ranges : List (Char × Char)) (c : Char) : Bool :=
  ranges.any fun range => range.1 ≤ c && c ≤ range.2

def language : Pattern → Language Char
  | empty => 1
  | oneOf ranges => {w | ∃ c, w = [c] ∧ inRanges ranges c = true}
  | noneOf chars => {w | ∃ c, w = [c] ∧ c ∉ chars}
  | seq first second => first.language * second.language
  | alt first second => first.language + second.language
  | star repeated => repeated.language∗

def char (c : Char) : Pattern := oneOf [(c, c)]

def text (cs : List Char) : Pattern := cs.foldr (fun c p => seq (char c) p) empty

def optional (p : Pattern) : Pattern := alt empty p

def oneOrMore (p : Pattern) : Pattern := seq p (star p)

section Membership

variable {w : List Char} {p q : Pattern} {ranges : List (Char × Char)} {c d : Char}

@[simp] theorem mem_empty : w ∈ empty.language ↔ w = [] := Iff.rfl

@[simp] theorem mem_oneOf : w ∈ (oneOf ranges).language ↔
    ∃ c, w = [c] ∧ inRanges ranges c = true := Iff.rfl

@[simp] theorem mem_noneOf {chars : List Char} : w ∈ (noneOf chars).language ↔
    ∃ c, w = [c] ∧ c ∉ chars := Iff.rfl

theorem mem_seq : w ∈ (seq p q).language ↔ ∃ u ∈ p.language, ∃ v ∈ q.language, u ++ v = w :=
  Language.mem_mul

@[simp] theorem mem_alt : w ∈ (alt p q).language ↔ w ∈ p.language ∨ w ∈ q.language := Iff.rfl

@[simp] theorem mem_optional : w ∈ (optional p).language ↔ w = [] ∨ w ∈ p.language := Iff.rfl

@[simp] theorem inRanges_self : inRanges [(c, c)] d = true ↔ d = c := by
  simp only [inRanges, List.any_cons, List.any_nil, Bool.or_false, Bool.and_eq_true,
    decide_eq_true_eq]
  exact ⟨fun h => Char.le_antisymm h.2 h.1, fun h => h ▸ ⟨Char.le_refl _, Char.le_refl _⟩⟩

@[simp] theorem mem_char : w ∈ (char c).language ↔ w = [c] := by
  simp [char]

@[simp] theorem mem_seq_oneOf : w ∈ (seq (oneOf ranges) q).language ↔
    ∃ c u, w = c :: u ∧ inRanges ranges c = true ∧ u ∈ q.language := by
  rw [mem_seq]
  constructor
  · rintro ⟨-, ⟨c, rfl, hc⟩, u, hu, rfl⟩
    exact ⟨c, u, rfl, hc, hu⟩
  · rintro ⟨c, u, rfl, hc, hu⟩
    exact ⟨[c], ⟨c, rfl, hc⟩, u, hu, rfl⟩

@[simp] theorem mem_seq_char : w ∈ (seq (char c) q).language ↔
    ∃ u, w = c :: u ∧ u ∈ q.language := by
  simp [char]

theorem mem_text {cs : List Char} : w ∈ (text cs).language ↔ w = cs := by
  induction cs generalizing w with
  | nil => exact mem_empty
  | cons c cs ih =>
    have htext : text (c :: cs) = seq (char c) (text cs) := rfl
    simp [htext, ih]

/-- Iteration peels off one nonempty word after the other. -/
theorem mem_star_iff : w ∈ (star p).language ↔
    w = [] ∨ ∃ u ∈ p.language, ∃ v ∈ (star p).language, u ++ v = w := by
  change w ∈ p.language∗ ↔ _
  rw [← Language.one_add_self_mul_kstar_eq_kstar, Language.mem_add, Language.mem_one,
    Language.mem_mul]
  rfl

@[simp] theorem nil_mem_star : [] ∈ (star p).language := Language.nil_mem_kstar _

@[simp] theorem mem_star_oneOf : w ∈ (star (oneOf ranges)).language ↔
    ∀ c ∈ w, inRanges ranges c = true := by
  induction w with
  | nil => simp
  | cons c w ih =>
    rw [mem_star_iff, List.forall_mem_cons, ← ih]
    simp

@[simp] theorem mem_oneOrMore_oneOf : w ∈ (oneOrMore (oneOf ranges)).language ↔
    w ≠ [] ∧ ∀ c ∈ w, inRanges ranges c = true := by
  cases w with
  | nil => simp [oneOrMore]
  | cons c w => simp [oneOrMore]

end Membership

/-- Decimal digits, among which separators may stand after the first one. -/
def digits : Pattern :=
  seq (oneOf [('0', '9')]) (star (oneOf [('0', '9'), ('_', '_')]))

def exponent : Pattern :=
  seq (oneOf [('e', 'e'), ('E', 'E')])
    (seq (optional (oneOf [('+', '+'), ('-', '-')])) (oneOrMore (oneOf [('0', '9')])))

/-- A zero, a letter and digits of some radix. -/
def radix (letters digits : List (Char × Char)) : Pattern :=
  seq (char '0') (seq (oneOf letters) (oneOrMore (oneOf digits)))

def numbers : List Pattern :=
  [digits,
    radix [('x', 'x'), ('X', 'X')] [('0', '9'), ('a', 'f'), ('A', 'F'), ('_', '_')],
    radix [('o', 'o'), ('O', 'O')] [('0', '7'), ('_', '_')],
    radix [('b', 'b'), ('B', 'B')] [('0', '0'), ('1', '1'), ('_', '_')],
    seq digits (seq (char '.') (seq digits (optional exponent))),
    seq digits exponent]

/-- The units between quotes: any character but the quote and the backslash, or a backslash with
whatever follows it. -/
def units (quote : Char) : Pattern :=
  star (alt (noneOf [quote, '\\']) (seq (char '\\') (alt (noneOf ['\n']) (char '\n'))))

/-- A string with its closing quote, and one that runs to the end of the text. -/
def strings (quote : Char) : List Pattern :=
  [seq (char quote) (seq (units quote) (char quote)),
    seq (char quote) (seq (units quote) (optional (char '\\')))]

def ident : Pattern :=
  seq (oneOf [('a', 'z'), ('A', 'Z'), ('_', '_')])
    (star (oneOf [('a', 'z'), ('A', 'Z'), ('0', '9'), ('_', '_')]))

def fixed : List (String × Kind) :=
  [("true", .boolean), ("false", .boolean), ("null", .null),
    ("_", .special .selfValue), ("self", .special .selfValue), ("_io", .special .stream),
    ("_parent", .special .parent), ("_root", .special .root),
    ("_bytes_remaining", .special .bytesRemaining),
    ("sizeof", .sizeof), ("alignof", .alignof), ("as", .asCast),
    ("+", .plus), ("-", .minus), ("*", .star), ("/", .slash), ("%", .percent), ("&", .amp),
    ("|", .pipe), ("^", .caret), ("~", .tilde), ("!", .bang), ("==", .eqEq), ("!=", .bangEq),
    ("<", .lt), (">", .gt), ("<=", .ltEq), (">=", .gtEq), ("<<", .shl), (">>", .shr),
    ("&&", .ampAmp), ("||", .pipePipe), ("(", .lparen), (")", .rparen), ("[", .lbracket),
    ("]", .rbracket), (".", .dot), (",", .comma), ("?", .question), (":", .colon)]

/-- All patterns of tokens, each with the kind of token that it declares. -/
def declared : List (Kind × Pattern) :=
  numbers.map (.number, ·) ++ (strings '"' ++ strings '\'').map (.string, ·) ++ [(.ident, ident)] ++
    fixed.map fun entry => (entry.2, text entry.1.toList)

end Pattern

/-- A pattern of this kind matches the whole text. -/
def Matches (kind : Kind) (text : List Char) : Prop :=
  ∃ p, (kind, p) ∈ Pattern.declared ∧ text ∈ p.language

/-- The token that starts `input`: its kind and its text. -/
structure LongestMatch (input : List Char) (kind : Kind) (text : List Char) : Prop where
  isPrefix : text <+: input
  /-- A pattern of its kind matches the token, or it is one illegal character. -/
  matched : Matches kind text ∧ text ≠ [] ∨ kind = .illegal ∧ text.length = 1
  /-- No match is longer. -/
  longest : ∀ other w, w <+: input → Matches other w → w.length ≤ text.length
  fixed : ∀ other, (String.ofList text, other) ∈ Pattern.fixed → kind = other
  illegal : kind = .illegal ∧ text.length = 1 ↔
    ∀ other w, w ≠ [] → w <+: input → ¬Matches other w

end SchemaExpr
