import SchemaExpr.Expr
import SchemaExpr.Json
import SchemaExpr.Token

/-!
# JSON forms of tokens and trees

A node is an object with the content of the node and its span. The content is an object whose only
key names the kind of node, except that a null literal is its name alone.
-/
namespace SchemaExpr

def Position.toJson (p : Position) : Json := .obj [("line", .nat p.line), ("column", .nat p.column)]

def Span.toJson (s : Span) : Json :=
  .obj [("start", .nat s.start), ("end", .nat s.stop), ("pos", s.pos.toJson)]

def Token.toJson (t : Token) : Json :=
  .obj [("kind", .str t.kind.label), ("literal", .str t.literal), ("span", t.span.toJson)]

def Json.located (node : Json) (span : Span) : Json := .obj [("node", node), ("span", span.toJson)]

def Expr.toJson : Expr Span → Json
  | bool loc value => Json.located (.obj [("BoolLit", .bool value)]) loc
  | int loc value => Json.located (.obj [("IntLit", .nat value)]) loc
  | float loc value => Json.located (.obj [("FloatLit", .float value)]) loc
  | text loc value => Json.located (.obj [("StringLit", .str value)]) loc
  | null loc => Json.located (.str "NullLit") loc
  | ident loc name => Json.located (.obj [("Ident", .str name)]) loc
  | special loc name => Json.located (.obj [("Special", .str name.label)]) loc
  | unary loc op operand =>
    Json.located (.obj [("UnaryOp", .obj [("op", .str op.label), ("operand", operand.toJson)])]) loc
  | binary loc op lhs rhs =>
    Json.located (.obj [("BinOp",
      .obj [("op", .str op.label), ("lhs", lhs.toJson), ("rhs", rhs.toJson)])]) loc
  | ternary loc condition yes no =>
    Json.located (.obj [("Ternary", .obj [("condition", condition.toJson),
      ("then_expr", yes.toJson), ("else_expr", no.toJson)])]) loc
  | attr loc object name nameLoc =>
    Json.located (.obj [("Attr",
      .obj [("object", object.toJson), ("name", Json.located (.str name) nameLoc)])]) loc
  | call loc callee args =>
    Json.located (.obj [("Call",
      .obj [("callee", callee.toJson), ("args", .arr (toJsons args))])]) loc
  | index loc object place =>
    Json.located (.obj [("Index",
      .obj [("object", object.toJson), ("index", place.toJson)])]) loc
  | array loc elements =>
    Json.located (.obj [("ArrayLit", .obj [("elements", .arr (toJsons elements))])]) loc
  | cast loc operand type typeLoc =>
    Json.located (.obj [("Cast",
      .obj [("operand", operand.toJson), ("ty", Json.located (.str type) typeLoc)])]) loc
  | sizeof loc operand => Json.located (.obj [("SizeOf", .obj [("operand", operand.toJson)])]) loc
  | alignof loc operand => Json.located (.obj [("AlignOf", .obj [("operand", operand.toJson)])]) loc
where
  /-- The forms of some trees. -/
  toJsons : List (Expr Span) → List Json
    | [] => []
    | e :: es => e.toJson :: toJsons es

end SchemaExpr
