import SchemaExpr.Span
import SchemaExpr.Special
import SchemaExpr.Text.Display

/-!
# Tokens

A lexeme is a kind with the text that it stands for; a token is a lexeme with its place in the
source. The end of the input is a lexeme of its own.
-/
namespace SchemaExpr

inductive Kind where
  | eof
  | illegal
  | number
  | string
  | boolean
  | null
  | ident
  | special (name : Special)
  | sizeof
  | alignof
  | asCast
  | plus
  | minus
  | star
  | slash
  | percent
  | amp
  | pipe
  | caret
  | tilde
  | bang
  | eqEq
  | bangEq
  | lt
  | gt
  | ltEq
  | gtEq
  | shl
  | shr
  | ampAmp
  | pipePipe
  | lparen
  | rparen
  | lbracket
  | rbracket
  | dot
  | comma
  | question
  | colon
  deriving DecidableEq, Repr

namespace Kind

def all : List Kind :=
  [eof, illegal, number, string, boolean, null, ident] ++ Special.all.map special ++
  [sizeof, alignof, asCast, plus, minus, star, slash, percent, amp, pipe, caret, tilde, bang,
    eqEq, bangEq, lt, gt, ltEq, gtEq, shl, shr, ampAmp, pipePipe,
    lparen, rparen, lbracket, rbracket, dot, comma, question, colon]

theorem mem_all (k : Kind) : k ∈ all := by
  cases k with
  | special s => cases s <;> decide
  | _ => decide

/-- The name of the kind in token listings. -/
def label : Kind → String
  | eof => "Eof"
  | illegal => "Illegal"
  | number => "Number"
  | string => "Str"
  | boolean => "Boolean"
  | null => "Null"
  | ident => "Ident"
  | special .selfValue => "SelfKw"
  | special .stream => "Stream"
  | special .parent => "Parent"
  | special .root => "Root"
  | special .bytesRemaining => "BytesRemaining"
  | sizeof => "Sizeof"
  | alignof => "Alignof"
  | asCast => "As"
  | plus => "Plus"
  | minus => "Minus"
  | star => "Star"
  | slash => "Slash"
  | percent => "Percent"
  | amp => "Amp"
  | pipe => "Pipe"
  | caret => "Caret"
  | tilde => "Tilde"
  | bang => "Bang"
  | eqEq => "EqEq"
  | bangEq => "BangEq"
  | lt => "Lt"
  | gt => "Gt"
  | ltEq => "LtEq"
  | gtEq => "GtEq"
  | shl => "Shl"
  | shr => "Shr"
  | ampAmp => "AmpAmp"
  | pipePipe => "PipePipe"
  | lparen => "LParen"
  | rparen => "RParen"
  | lbracket => "LBracket"
  | rbracket => "RBracket"
  | dot => "Dot"
  | comma => "Comma"
  | question => "Question"
  | colon => "Colon"

def ofLabel? (name : String) : Option Kind := all.find? (·.label == name)

/-- How messages name the kind: its fixed spelling, or a word for the class of its spellings. -/
def text : Kind → String
  | eof => "end of input"
  | illegal => "illegal character"
  | number => "number"
  | string => "string"
  | boolean => "boolean"
  | null => "null"
  | ident => "identifier"
  | special s => s.targetName
  | sizeof => "sizeof"
  | alignof => "alignof"
  | asCast => "as"
  | plus => "+"
  | minus => "-"
  | star => "*"
  | slash => "/"
  | percent => "%"
  | amp => "&"
  | pipe => "|"
  | caret => "^"
  | tilde => "~"
  | bang => "!"
  | eqEq => "=="
  | bangEq => "!="
  | lt => "<"
  | gt => ">"
  | ltEq => "<="
  | gtEq => ">="
  | shl => "<<"
  | shr => ">>"
  | ampAmp => "&&"
  | pipePipe => "||"
  | lparen => "("
  | rparen => ")"
  | lbracket => "["
  | rbracket => "]"
  | dot => "."
  | comma => ","
  | question => "?"
  | colon => ":"

def special? : Kind → Option Special
  | special s => some s
  | _ => none

def isSpecial (k : Kind) : Bool := k.special?.isSome

end Kind

/-- A kind with its literal: the source text, or the decoded content of a string. -/
structure Lexeme where
  kind : Kind
  literal : String
  deriving DecidableEq, Repr

namespace Lexeme

def eof : Lexeme := ⟨.eof, ""⟩

/-- How messages describe the lexeme. -/
def describe (l : Lexeme) : String :=
  match l.kind with
  | .eof => "end of input"
  | .illegal => "illegal character '" ++ l.literal ++ "'"
  | .number | .boolean | .ident => l.kind.text ++ " '" ++ l.literal ++ "'"
  | .string => "string " ++ Text.displayQuoted l.literal
  | k => "'" ++ k.text ++ "'"

end Lexeme

structure Token extends Lexeme where
  span : Span
  deriving DecidableEq, Repr

end SchemaExpr
