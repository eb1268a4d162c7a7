import SchemaExpr.Decimal.Double
import SchemaExpr.Special

/-!
# Expressions

The trees of the language. Every node, member name and type name carries an annotation: a span
after parsing, and nothing where only the shape of a tree matters.
-/
namespace SchemaExpr

open Decimal (Double)

inductive UnaryOp where
  | not
  | neg
  | bitNot
  deriving DecidableEq, Repr

namespace UnaryOp

def symbol : UnaryOp → String
  | not => "!"
  | neg => "-"
  | bitNot => "~"

def label : UnaryOp → String
  | not => "Not"
  | neg => "Neg"
  | bitNot => "BitNot"

def all : List UnaryOp := [not, neg, bitNot]

def ofLabel? (name : String) : Option UnaryOp := all.find? (·.label == name)

end UnaryOp

inductive BinaryOp where
  | add
  | sub
  | mul
  | div
  | mod
  | eq
  | neq
  | lt
  | gt
  | ltEq
  | gtEq
  | and
  | or
  | bitAnd
  | bitOr
  | bitXor
  | shl
  | shr
  deriving DecidableEq, Repr

namespace BinaryOp

def symbol : BinaryOp → String
  | add => "+"
  | sub => "-"
  | mul => "*"
  | div => "/"
  | mod => "%"
  | eq => "=="
  | neq => "!="
  | lt => "<"
  | gt => ">"
  | ltEq => "<="
  | gtEq => ">="
  | and => "&&"
  | or => "||"
  | bitAnd => "&"
  | bitOr => "|"
  | bitXor => "^"
  | shl => "<<"
  | shr => ">>"

def label : BinaryOp → String
  | add => "Add"
  | sub => "Sub"
  | mul => "Mul"
  | div => "Div"
  | mod => "Mod"
  | eq => "Eq"
  | neq => "Neq"
  | lt => "Lt"
  | gt => "Gt"
  | ltEq => "LtEq"
  | gtEq => "GtEq"
  | and => "And"
  | or => "Or"
  | bitAnd => "BitAnd"
  | bitOr => "BitOr"
  | bitXor => "BitXor"
  | shl => "Shl"
  | shr => "Shr"

def all : List BinaryOp :=
  [add, sub, mul, div, mod, eq, neq, lt, gt, ltEq, gtEq, and, or, bitAnd, bitOr, bitXor, shl, shr]

def ofLabel? (name : String) : Option BinaryOp := all.find? (·.label == name)

/-- How tightly the operator binds, from one for the loosest to ten for the tightest. -/
def tier : BinaryOp → Nat
  | or => 1
  | and => 2
  | bitOr => 3
  | bitXor => 4
  | bitAnd => 5
  | eq | neq => 6
  | lt | gt | ltEq | gtEq => 7
  | shl | shr => 8
  | add | sub => 9
  | mul | div | mod => 10

end BinaryOp

inductive Expr (ι : Type) where
  | bool (loc : ι) (value : Bool)
  | int (loc : ι) (value : Nat)
  | float (loc : ι) (value : Double)
  | text (loc : ι) (value : String)
  | null (loc : ι)
  | ident (loc : ι) (name : String)
  | special (loc : ι) (name : Special)
  | unary (loc : ι) (op : UnaryOp) (operand : Expr ι)
  | binary (loc : ι) (op : BinaryOp) (lhs rhs : Expr ι)
  | ternary (loc : ι) (condition yes no : Expr ι)
  | attr (loc : ι) (object : Expr ι) (name : String) (nameLoc : ι)
  | call (loc : ι) (callee : Expr ι) (args : List (Expr ι))
  | index (loc : ι) (object place : Expr ι)
  | array (loc : ι) (elements : List (Expr ι))
  | cast (loc : ι) (operand : Expr ι) (type : String) (typeLoc : ι)
  | sizeof (loc : ι) (operand : Expr ι)
  | alignof (loc : ι) (operand : Expr ι)

namespace Expr

variable {ι κ : Type}

def loc : Expr ι → ι
  | bool l _ | int l _ | float l _ | text l _ | null l | ident l _ | special l _ | unary l _ _
  | binary l _ _ _ | ternary l _ _ _ | attr l _ _ _ | call l _ _ | index l _ _ | array l _
  | cast l _ _ _ | sizeof l _ | alignof l _ => l

def withLoc (l : ι) : Expr ι → Expr ι
  | bool _ value => bool l value
  | int _ value => int l value
  | float _ value => float l value
  | text _ value => text l value
  | null _ => null l
  | ident _ name => ident l name
  | special _ name => special l name
  | unary _ op operand => unary l op operand
  | binary _ op lhs rhs => binary l op lhs rhs
  | ternary _ condition yes no => ternary l condition yes no
  | attr _ object name nameLoc => attr l object name nameLoc
  | call _ callee args => call l callee args
  | index _ object place => index l object place
  | array _ elements => array l elements
  | cast _ operand type typeLoc => cast l operand type typeLoc
  | sizeof _ operand => sizeof l operand
  | alignof _ operand => alignof l operand

@[simp] theorem loc_withLoc (l : ι) (e : Expr ι) : (e.withLoc l).loc = l := by cases e <;> rfl

/-- The name of the node in the JSON form of a tree. -/
def label : Expr ι → String
  | bool .. => "BoolLit"
  | int .. => "IntLit"
  | float .. => "FloatLit"
  | text .. => "StringLit"
  | null .. => "NullLit"
  | ident .. => "Ident"
  | special .. => "Special"
  | unary .. => "UnaryOp"
  | binary .. => "BinOp"
  | ternary .. => "Ternary"
  | attr .. => "Attr"
  | call .. => "Call"
  | index .. => "Index"
  | array .. => "ArrayLit"
  | cast .. => "Cast"
  | sizeof .. => "SizeOf"
  | alignof .. => "AlignOf"

def children : Expr ι → List (Expr ι)
  | bool .. | int .. | float .. | text .. | null .. | ident .. | special .. => []
  | unary _ _ operand | cast _ operand _ _ | sizeof _ operand | alignof _ operand => [operand]
  | binary _ _ lhs rhs => [lhs, rhs]
  | ternary _ condition yes no => [condition, yes, no]
  | attr _ object _ _ => [object]
  | call _ callee args => callee :: args
  | index _ object place => [object, place]
  | array _ elements => elements

/-- Only names and members can be called. -/
def isCallable : Expr ι → Bool
  | ident .. | attr .. => true
  | _ => false

/-- The number of nodes on the longest path from the root. -/
def height : Expr ι → Nat
  | bool .. | int .. | float .. | text .. | null .. | ident .. | special .. => 1
  | unary _ _ operand | cast _ operand _ _ | sizeof _ operand | alignof _ operand =>
    operand.height + 1
  | binary _ _ lhs rhs => max lhs.height rhs.height + 1
  | ternary _ condition yes no => max condition.height (max no.height yes.height) + 1
  | attr _ object _ _ => object.height + 1
  | call _ callee args => max callee.height (heightList args) + 1
  | index _ object place => max object.height place.height + 1
  | array _ elements => heightList elements + 1
where
  /-- The height of the tallest of some trees. -/
  heightList : List (Expr ι) → Nat
    | [] => 0
    | e :: es => max e.height (heightList es)

def map (f : ι → κ) : Expr ι → Expr κ
  | bool l value => bool (f l) value
  | int l value => int (f l) value
  | float l value => float (f l) value
  | text l value => text (f l) value
  | null l => null (f l)
  | ident l name => ident (f l) name
  | special l name => special (f l) name
  | unary l op operand => unary (f l) op (operand.map f)
  | binary l op lhs rhs => binary (f l) op (lhs.map f) (rhs.map f)
  | ternary l condition yes no => ternary (f l) (condition.map f) (yes.map f) (no.map f)
  | attr l object name nameLoc => attr (f l) (object.map f) name (f nameLoc)
  | call l callee args => call (f l) (callee.map f) (mapList args)
  | index l object place => index (f l) (object.map f) (place.map f)
  | array l elements => array (f l) (mapList elements)
  | cast l operand type typeLoc => cast (f l) (operand.map f) type (f typeLoc)
  | sizeof l operand => sizeof (f l) (operand.map f)
  | alignof l operand => alignof (f l) (operand.map f)
where
  /-- The images of some trees. -/
  mapList : List (Expr ι) → List (Expr κ)
    | [] => []
    | e :: es => e.map f :: mapList es

/-- The shape of a tree, all annotations dropped. -/
def bare (e : Expr ι) : Expr Unit := e.map fun _ => ()

end Expr

end SchemaExpr
