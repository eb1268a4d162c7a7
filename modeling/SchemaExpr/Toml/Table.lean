import SchemaExpr.Toml.Value

/-!
# Filling tables

Tables of a document are filled piece by piece, through paths of keys. What may be added to a table
depends on how it came about: a table in braces is complete, a table with a header takes no values
through dotted keys from outside, and no key is set twice.
-/
namespace SchemaExpr.Toml

/-- The table that a path goes through here, and the value after a change of that table. Arrays of
tables lead to their last element. -/
def Value.enter? (viaDots : Bool) : Value → Option (Value × (Value → Value))
  | tables elements =>
    elements.getLast?.map fun last => (last, fun v => tables (elements.dropLast ++ [v]))
  | table .braces _ => none
  | table .header fields => if viaDots then none else some (table .header fields, id)
  | table origin fields => some (table origin fields, id)
  | _ => none

namespace Fields

def replace (key : String) (value : Value) (fields : Fields) : Fields :=
  fields.map fun (k, v) => if k = key then (k, value) else (k, v)

def erase (key : String) (fields : Fields) : Fields := fields.filter (·.1 ≠ key)

def add (key : String) (value : Value) (fields : Fields) : Fields := fields ++ [(key, value)]

end Fields

/-- Changes the fields of the table at the end of a path. Tables on the path that are not there
yet are made. -/
def updateAt (viaDots : Bool) (change : Origin → Fields → Option Fields) :
    List String → Value → Option Value
  | [], .table origin fields => (change origin fields).map (.table origin)
  | key :: path, .table origin fields =>
    match fields.lookup key with
    | none => do
      let child ← updateAt viaDots change path (.table (if viaDots then .dotted else .implied) [])
      some (.table origin (Fields.add key child fields))
    | some child => do
      let (inner, rebuild) ← child.enter? viaDots
      let inner ← updateAt viaDots change path inner
      some (.table origin (Fields.replace key (rebuild inner) fields))
  | _, _ => none

/-- Splits a nonempty path into the path of the parent and the last key. -/
def splitLast? (path : List String) : Option (List String × String) :=
  path.getLast?.map fun key => (path.dropLast, key)

/-- Adds the value of a possibly dotted key. The key must be new, and a table that dotted keys
made takes values through dotted keys only. -/
def insert (table : Value) (path : List String) (value : Value) : Option Value := do
  let (parents, key) ← splitLast? path
  updateAt true (fun origin fields =>
    if (origin == .dotted) == parents.isEmpty then none
    else if (fields.lookup key).isSome then none
    else some (Fields.add key value fields)) parents table

def insertAll (table : Value) (entries : List (List String × Value)) : Option Value :=
  entries.foldlM (fun t (path, value) => insert t path value) table

end SchemaExpr.Toml
