import SchemaExpr.Decimal.Layout
import SchemaExpr.Error
import SchemaExpr.Literal.Text
import SchemaExpr.Target.Names

/-!
# Emission of target text

An emission adds text to a buffer and stops at the first node that the host engine has no form for,
with what was written up to there still in the buffer. A tree is emitted in one pass from its root:
native operators in parentheses, everything else as a call of a library function.
-/
namespace SchemaExpr.Target

/-- The buffer after an emission, and the error that stopped it. -/
structure Emitted where
  buffer : String
  failure : Option LowerError

def Emission : Type := String → Emitted

namespace Emission

def write (s : String) : Emission := fun buffer => ⟨buffer ++ s, none⟩

def fail (error : LowerError) : Emission := fun buffer => ⟨buffer, some error⟩

def andThen (p q : Emission) : Emission := fun buffer =>
  let first := p buffer
  match first.failure with
  | none => q first.buffer
  | some _ => first

instance : Append Emission := ⟨andThen⟩

/-- A buffer in two parts, what it has before a mark and what it has from there on. A mark counts
bytes. -/
def cut (buffer : String) (mark : Nat) : String × String :=
  (String.Pos.Raw.extract buffer 0 ⟨mark⟩, String.Pos.Raw.extract buffer ⟨mark⟩ buffer.rawEndPos)

/-- A call of the function `name` with the arguments that `args` emits. -/
def call (name : String) (args : Emission) : Emission :=
  write name ++ write "(" ++ args ++ write ")"

/-- A call of the function `name` with the text that `p` emits as a string literal. The text is
written to the buffer and, once `p` has succeeded, cut off again where it starts. -/
def callQuoting (name : String) (p : Emission) : Emission := fun buffer =>
  let mark := buffer.utf8ByteSize
  let content := p buffer
  match content.failure with
  | none =>
    let parts := cut content.buffer mark
    call name (write (String.ofList (Literal.quote parts.2.toList))) parts.1
  | some _ => content

end Emission

open Emission

def signedLimit : Nat := 9223372036854775808

/-- Integers beyond the signed range carry the mark of the unsigned type. -/
def integerText (n : Nat) : String :=
  if n < signedLimit then toString n else toString n ++ "u"

def literalText (s : String) : String := String.ofList (Literal.quote s.toList)

/-- Emits a tree. The least signed integer exists only as a negated literal, and larger literals
cannot be negated. The operand of `sizeof` is a type name, or its own target text in place of
one. -/
def emit : Expr Span → Emission
  | .bool _ value => write (if value then "true" else "false")
  | .int _ value => write (integerText value)
  | .float _ value => write (Decimal.display.text value)
  | .text _ value => write (literalText value)
  | .null _ => write "null"
  | .ident _ name => write name
  | .special _ name => write name.targetName
  | .unary loc .neg (.int _ n) =>
    if n = signedLimit then write "-9223372036854775808"
    else if signedLimit < n then fail (.unsupported (.negativeLiteral n) loc)
    else write "-" ++ write (integerText n)
  | .unary _ op operand =>
    match unaryForm op with
    | .native symbol => write symbol ++ emit operand
    | .function name => Emission.call name (emit operand)
  | .binary _ op lhs rhs =>
    match binaryForm op with
    | .native symbol =>
      write "(" ++ emit lhs ++ write (" " ++ symbol ++ " ") ++ emit rhs ++ write ")"
    | .function name => Emission.call name (emit lhs ++ write ", " ++ emit rhs)
  | .ternary _ condition yes no =>
    Emission.call ternaryFunction
      (emit condition ++ write ", " ++ emit yes ++ write ", " ++ emit no)
  | .attr _ object name _ =>
    match attribute? object name with
    | some function => Emission.call function (emit object)
    | none => emit object ++ write "." ++ write name
  | .call _ (.attr _ object name _) args =>
    Emission.call (method object name) (emit object ++ emitMore args)
  | .call _ (.ident _ name) args => Emission.call ((function? name).getD name) (emitList args)
  | .call _ callee _ => fail (.unsupported .call callee.loc)
  | .index _ object place => Emission.call indexFunction (emit object ++ write ", " ++ emit place)
  | .array _ elements => write "[" ++ emitList elements ++ write "]"
  | .cast _ operand type typeLoc =>
    match castFunction? type with
    | some function => Emission.call function (emit operand)
    | none => fail (.unsupportedCast type typeLoc)
  | .sizeof _ (.ident _ name) => Emission.call sizeofFunction (write (literalText name))
  | .sizeof _ (.text _ name) => Emission.call sizeofFunction (write (literalText name))
  | .sizeof _ operand => callQuoting sizeofFunction (emit operand)
  | .alignof loc _ => fail (.unsupported .alignof loc)
where
  /-- Emits trees with a comma before each. -/
  emitMore : List (Expr Span) → Emission
    | [] => write ""
    | e :: es => write ", " ++ emit e ++ emitMore es
  /-- Emits trees with commas between them. -/
  emitList : List (Expr Span) → Emission
    | [] => write ""
    | e :: es => emit e ++ emitMore es

/-- An emitter keeps one buffer for all trees that it lowers, and empties it before each. -/
structure Emitter where
  buffer : String

namespace Emitter

def new : Emitter := ⟨""⟩

def clear (_ : Emitter) : Emitter := new

/-- The target text of a tree. It is taken out of the buffer; an error leaves the text written up
to it behind. -/
def lower (m : Emitter) (e : Expr Span) : Except LowerError String × Emitter :=
  let out := emit e m.clear.buffer
  match out.failure with
  | none => (.ok out.buffer, new)
  | some error => (.error error, ⟨out.buffer⟩)

end Emitter

/-- The target text of a tree. -/
def lower (e : Expr Span) : Except LowerError String := (Emitter.new.lower e).1

end SchemaExpr.Target
