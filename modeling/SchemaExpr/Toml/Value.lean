import SchemaExpr.Toml.Datetime

/-!
# TOML values

Tables keep their fields in order and remember how they came about, because that decides what may
still be added to them.
-/
namespace SchemaExpr.Toml

open Decimal (Double)

/-- How a table came about. -/
inductive Origin where
  /-- It was written in braces and is complete. -/
  | braces
  /-- It was opened by a header of its own. -/
  | header
  /-- A header of a table inside it named it. -/
  | implied
  /-- A dotted key named it. -/
  | dotted
  deriving DecidableEq, Repr

inductive Value where
  | string (value : String)
  | integer (value : Int)
  | float (value : Double)
  | boolean (value : Bool)
  | datetime (value : Datetime)
  | array (elements : List Value)
  /-- Tables that headers in double brackets added one by one. -/
  | tables (elements : List Value)
  | table (origin : Origin) (fields : List (String × Value))

abbrev Fields := List (String × Value)

namespace Value

def isEmptyCollection : Value → Bool
  | array elements | tables elements => elements.isEmpty
  | table _ fields => fields.isEmpty
  | _ => false

end Value

end SchemaExpr.Toml
