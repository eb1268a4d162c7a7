import SchemaExpr.Fault

/-!
# Errors

What can go wrong between the text of an expression and its compiled program.
-/
namespace SchemaExpr

/-- Something that cannot be written for the host engine. -/
inductive Construct where
  | alignof
  /-- The negation of an integer whose negation needs more than 64 bits. -/
  | negativeLiteral (value : Nat)
  /-- A call of something that is not a name or a member. -/
  | call
  /-- A construct named by a caller in its own words. -/
  | stated (name : String)
  deriving DecidableEq, Repr

def Construct.text : Construct → String
  | alignof => "alignof"
  | negativeLiteral value => "negative literal -" ++ toString value
  | call => "call of a non-callable expression"
  | stated name => name

inductive LowerError where
  | unsupportedCast (type : String) (span : Span)
  | unsupported (what : Construct) (span : Span)
  deriving DecidableEq, Repr

namespace LowerError

def span : LowerError → Span
  | unsupportedCast _ span | unsupported _ span => span

def message : LowerError → String
  | unsupportedCast type _ => "unsupported cast target type '" ++ type ++ "'"
  | unsupported what _ => what.text ++ " has no target representation"

end LowerError

inductive Error where
  | malformed (errors : List SyntaxError)
  | lowering (error : LowerError)
  | engine (message : String)
  | settings (message path : String)
  deriving DecidableEq, Repr

def joinWith (separator : String) : List String → String
  | [] => ""
  | [s] => s
  | s :: ss => s ++ separator ++ joinWith separator ss

def Error.message : Error → String
  | malformed errors => "Syntax error: " ++ joinWith "; " (errors.map (·.text))
  | lowering error => "Lowering error: " ++ error.message
  | engine message => "Engine error: " ++ message
  | settings message _ => "Config error: " ++ message

end SchemaExpr
