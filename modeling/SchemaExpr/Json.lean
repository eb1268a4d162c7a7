import SchemaExpr.Decimal.Layout
import SchemaExpr.Literal.Text

/-!
# JSON

JSON values with the fields of an object in order, and their compact text.
-/
namespace SchemaExpr

open Decimal (Double)

inductive Json where
  | null
  | bool (value : Bool)
  | nat (value : Nat)
  | float (value : Double)
  | str (value : String)
  | arr (elements : List Json)
  | obj (fields : List (String × Json))

namespace Json

/-- Quotes, backslashes and control characters below the space are escaped; all else is written as
it is. -/
def escapeChar (c : Char) : List Char :=
  if c = '"' then ['\\', '"']
  else if c = '\\' then ['\\', '\\']
  else if c = '\x08' then ['\\', 'b']
  else if c = '\x0c' then ['\\', 'f']
  else if c = '\n' then ['\\', 'n']
  else if c = '\r' then ['\\', 'r']
  else if c = '\t' then ['\\', 't']
  else if c.toNat < 0x20 then '\\' :: 'u' :: Literal.hex4 c.toNat
  else [c]

def quoted (s : String) : String :=
  String.ofList ('"' :: (s.toList.flatMap escapeChar ++ ['"']))

def text : Json → String
  | null => "null"
  | bool value => if value then "true" else "false"
  | nat value => toString value
  | float value => Decimal.json.text value
  | str value => quoted value
  | arr elements => "[" ++ elementsText elements ++ "]"
  | obj fields => "\x7b" ++ fieldsText fields ++ "\x7d"
where
  /-- The texts of the elements with commas between them. -/
  elementsText : List Json → String
    | [] => ""
    | [v] => v.text
    | v :: vs => v.text ++ "," ++ elementsText vs
  /-- The texts of the fields with commas between them. -/
  fieldsText : List (String × Json) → String
    | [] => ""
    | [(key, v)] => quoted key ++ ":" ++ v.text
    | (key, v) :: fs => quoted key ++ ":" ++ v.text ++ "," ++ fieldsText fs

end Json

end SchemaExpr
