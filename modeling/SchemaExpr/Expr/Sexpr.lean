import SchemaExpr.Decimal.Layout
import SchemaExpr.Expr
import SchemaExpr.Text.Display

/-!
# S-expressions

The shape of a tree as fully parenthesised text: `1 + 2 * 3` is written `(+ 1 (* 2 3))`.
-/
namespace SchemaExpr

def form (head : String) (parts : List String) : String :=
  "(" ++ head ++ String.join (parts.map (" " ++ ·)) ++ ")"

def Expr.sexpr {ι : Type} : Expr ι → String
  | bool _ value => if value then "true" else "false"
  | int _ value => toString value
  | float _ value => Decimal.display.text value
  | text _ value => Text.displayQuoted value
  | null _ => "null"
  | ident _ name => name
  | special _ name => name.targetName
  | unary _ op operand => form op.symbol [operand.sexpr]
  | binary _ op lhs rhs => form op.symbol [lhs.sexpr, rhs.sexpr]
  | ternary _ condition yes no => form "?" [condition.sexpr, yes.sexpr, no.sexpr]
  | attr _ object name _ => form "." [object.sexpr, name]
  | call _ callee args => form "call" (callee.sexpr :: sexprs args)
  | index _ object place => form "index" [object.sexpr, place.sexpr]
  | array _ elements => form "array" (sexprs elements)
  | cast _ operand type _ => form "as" [operand.sexpr, type]
  | sizeof _ operand => form "sizeof" [operand.sexpr]
  | alignof _ operand => form "alignof" [operand.sexpr]
where
  /-- The texts of some trees. -/
  sexprs : List (Expr ι) → List String
    | [] => []
    | e :: es => e.sexpr :: sexprs es

end SchemaExpr
