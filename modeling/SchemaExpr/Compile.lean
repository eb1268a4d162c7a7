import SchemaExpr.Expr.Parse
import SchemaExpr.Target.Emission

/-!
# From source to target text

The two steps before the host engine: reading a source as an expression, in which any error counts,
and writing the expression for the engine.
-/
namespace SchemaExpr

/-- The tree of a source without syntax errors. -/
def readExpr (source : String) : Except Error (Expr Span) :=
  (parse source).toExcept.mapError .malformed

def compileToTarget (source : String) : Except Error String := do
  let e ← readExpr source
  (Target.lower e).mapError .lowering

end SchemaExpr
