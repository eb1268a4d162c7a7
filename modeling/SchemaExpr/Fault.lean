import SchemaExpr.Literal.Number
import SchemaExpr.Token

/-!
# Syntax errors

What can be wrong with the text of an expression, and the sentence that says so.
-/
namespace SchemaExpr

open Literal (NumberFault)

inductive Fault where
  | tooDeep
  | notCallable
  | emptyTypeName
  | emptyExpression
  | noExpression
  | illegal (found : Lexeme)
  | unexpected (found : Lexeme)
  | trailing (found : Lexeme)
  | expected (kind : Kind) (found : Lexeme)
  | expectedSeparator (closer : Kind) (found : Lexeme)
  | expectedTypeList (found : Lexeme)
  | expectedMember (found : Lexeme)
  | expectedTypeName (found : Lexeme)
  | number (fault : NumberFault) (text : String)
  /-- A fault stated by a caller in its own words. -/
  | stated (message : String)
  deriving DecidableEq, Repr

def Fault.message : Fault → String
  | tooDeep => "expression nested too deeply"
  | notCallable => "expression is not callable"
  | emptyTypeName => "empty type name in cast"
  | emptyExpression => "empty expression"
  | noExpression => "expected expression, found end of input"
  | illegal found => found.describe
  | unexpected found => "unexpected " ++ found.describe ++ " in expression"
  | trailing found => "unexpected " ++ found.describe ++ " after expression"
  | expected kind found => "expected '" ++ kind.text ++ "', found " ++ found.describe
  | expectedSeparator closer found =>
    "expected ',' or '" ++ closer.text ++ "', found " ++ found.describe
  | expectedTypeList found => "expected '<' after 'as', found " ++ found.describe
  | expectedMember found => "expected identifier after '.', found " ++ found.describe
  | expectedTypeName found => "expected type name in cast, found " ++ found.describe
  | number fault text => fault.message text
  | stated message => message

structure SyntaxError where
  fault : Fault
  span : Span
  deriving DecidableEq, Repr

namespace SyntaxError

def message (e : SyntaxError) : String := e.fault.message

/-- The message with the position of the error. -/
def text (e : SyntaxError) : String := e.message ++ " at " ++ e.span.pos.text

end SyntaxError

end SchemaExpr
