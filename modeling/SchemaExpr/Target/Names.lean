import SchemaExpr.Expr

/-!
# Names in the host engine

Which operators the host engine has, and which functions of its library stand for the operators,
attributes, methods and casts that it does not have. The tables are fixed.
-/
namespace SchemaExpr.Target

/-- How an operator is written for the host engine. -/
inductive OperatorForm where
  /-- An operator of the engine. -/
  | native (symbol : String)
  /-- A function that takes the operands in order. -/
  | function (name : String)
  deriving DecidableEq, Repr

/-- Division and remainder are functions because they round to the floor. -/
def binaryForm : BinaryOp → OperatorForm
  | .add => .native "+"
  | .sub => .native "-"
  | .mul => .native "*"
  | .eq => .native "=="
  | .neq => .native "!="
  | .lt => .native "<"
  | .gt => .native ">"
  | .ltEq => .native "<="
  | .gtEq => .native ">="
  | .and => .native "&&"
  | .or => .native "||"
  | .div => .function "div"
  | .mod => .function "mod"
  | .bitAnd => .function "bitAnd"
  | .bitOr => .function "bitOr"
  | .bitXor => .function "bitXor"
  | .shl => .function "bitShiftLeft"
  | .shr => .function "bitShiftRight"

def unaryForm : UnaryOp → OperatorForm
  | .not => .native "!"
  | .neg => .native "-"
  | .bitNot => .function "bitNot"

def ternaryFunction : String := "ternary"

def indexFunction : String := "at"

def sizeofFunction : String := "sizeof_type"

def streamAttributes : List (String × String) :=
  [("pos", "pos"), ("size", "stream_size"), ("eof", "isEOF"), ("is_eof", "isEOF")]

def valueAttributes : List (String × String) :=
  [("length", "length"), ("size", "size"), ("to_s", "to_s"), ("to_i", "to_i"),
    ("first", "first"), ("last", "last"), ("min", "min"), ("max", "max"),
    ("reverse", "reverse"), ("_sizeof", "sizeof_value")]

def streamMethods : List (String × String) :=
  [("read_u1", "readU1"), ("read_s1", "readS1"),
    ("read_u2le", "readU2LE"), ("read_u2be", "readU2BE"),
    ("read_u4le", "readU4LE"), ("read_u4be", "readU4BE"),
    ("read_u8le", "readU8LE"), ("read_u8be", "readU8BE"),
    ("read_s2le", "readS2LE"), ("read_s2be", "readS2BE"),
    ("read_s4le", "readS4LE"), ("read_s4be", "readS4BE"),
    ("read_s8le", "readS8LE"), ("read_s8be", "readS8BE"),
    ("read_f4le", "readF4LE"), ("read_f4be", "readF4BE"),
    ("read_f8le", "readF8LE"), ("read_f8be", "readF8BE"),
    ("read_bytes", "readBytes"), ("read_bytes_full", "readBytesFull"),
    ("read_bytes_term", "readBytesTerm"),
    ("read_bits_int_be", "readBitsIntBE"), ("read_bits_int_le", "readBitsIntLE"),
    ("align_to_byte", "alignToByte"), ("seek", "seek"), ("is_eof", "isEOF"),
    ("write_u1", "writeU1"), ("write_s1", "writeS1"),
    ("write_u2le", "writeU2LE"), ("write_u2be", "writeU2BE"),
    ("write_u4le", "writeU4LE"), ("write_u4be", "writeU4BE"),
    ("write_u8le", "writeU8LE"), ("write_u8be", "writeU8BE"),
    ("write_s2le", "writeS2LE"), ("write_s2be", "writeS2BE"),
    ("write_s4le", "writeS4LE"), ("write_s4be", "writeS4BE"),
    ("write_s8le", "writeS8LE"), ("write_s8be", "writeS8BE"),
    ("write_f4le", "writeF4LE"), ("write_f4be", "writeF4BE"),
    ("write_f8le", "writeF8LE"), ("write_f8be", "writeF8BE"),
    ("write_bytes", "writeBytes")]

/-- Functions that are called by name or as a method of any value. -/
def functions : List (String × String) :=
  [("substring", "substring"), ("to_s", "bytesToStr"), ("to_i", "parseInt"),
    ("process_xor", "processXOR"), ("process_rotate_left", "processRotateLeft"),
    ("process_zlib", "processZlib"), ("bytes_terminate", "bytesTerminate"),
    ("bytes_strip_right", "bytesStripRight"), ("write_bytes_limit", "writeBytesLimit")]

def streamAttribute? (name : String) : Option String := streamAttributes.lookup name

def valueAttribute? (name : String) : Option String := valueAttributes.lookup name

def streamMethod? (name : String) : Option String := streamMethods.lookup name

def function? (name : String) : Option String := functions.lookup name

/-- Types that may carry a byte order. -/
def numericTypes : List String := ["s1", "s2", "s4", "s8", "u1", "u2", "u4", "u8", "f4", "f8"]

def castFunctions : List (String × String) :=
  [("s1", "to_i"), ("s2", "to_i"), ("s4", "to_i"), ("s8", "to_i"),
    ("u1", "to_i"), ("u2", "to_i"), ("u4", "to_i"), ("u8", "to_i"),
    ("f4", "to_f"), ("f8", "to_f"), ("str", "to_s"), ("strz", "to_s"), ("string", "to_s"),
    ("bool", "to_b"), ("bytes", "to_bytes")]

/-- A type name without its byte order, if it has one. -/
def withoutByteOrder (type : String) : String :=
  match type.toList.reverse with
  | 'e' :: order :: base =>
    let base := String.ofList base.reverse
    if (order = 'l' ∨ order = 'b') ∧ base ∈ numericTypes then base else type
  | _ => type

def castFunction? (type : String) : Option String := castFunctions.lookup (withoutByteOrder type)

/-- The function for an attribute of `object`; the stream has attributes of its own. -/
def attribute? {ι : Type} (object : Expr ι) (name : String) : Option String :=
  match object with
  | .special _ .stream => streamAttribute? name <|> valueAttribute? name
  | _ => valueAttribute? name

/-- The function for a method of `object`; a method that no table has keeps its name. -/
def method {ι : Type} (object : Expr ι) (name : String) : String :=
  match object with
  | .special _ .stream => (streamMethod? name <|> function? name).getD name
  | _ => (function? name).getD name

end SchemaExpr.Target
