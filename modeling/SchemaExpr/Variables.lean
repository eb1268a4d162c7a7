import SchemaExpr.Json

/-!
# Variable declarations

The types that the host engine is told for the variables of an expression.
-/
namespace SchemaExpr

inductive VarType where
  | dyn
  | int
  | uint
  | double
  | bool
  | string
  | bytes
  | list
  | map
  deriving DecidableEq, Repr

namespace VarType

def text : VarType → String
  | dyn => "dyn"
  | int => "int"
  | uint => "uint"
  | double => "double"
  | bool => "bool"
  | string => "string"
  | bytes => "bytes"
  | list => "list"
  | map => "map"

def all : List VarType := [dyn, int, uint, double, bool, string, bytes, list, map]

def ofText? (s : String) : Option VarType := all.find? (·.text == s)

theorem ofText?_text (t : VarType) : ofText? t.text = some t := by cases t <;> decide

end VarType

structure Declaration where
  name : String
  type : VarType
  deriving DecidableEq, Repr

namespace Declaration

def text (d : Declaration) : String := d.name ++ ": " ++ d.type.text

def toJson (d : Declaration) : Json := .obj [("name", .str d.name), ("type", .str d.type.text)]

end Declaration

/-- The types of named variables, in increasing order of the names, and the type of all others. -/
structure Variables where
  defaultType : VarType
  types : List (String × VarType)
  deriving DecidableEq, Repr

namespace Variables

def standard : Variables := ⟨.dyn, []⟩

def setType (name : String) (type : VarType) : List (String × VarType) → List (String × VarType)
  | [] => [(name, type)]
  | (n, t) :: rest =>
    if name < n then (name, type) :: (n, t) :: rest
    else if name = n then (name, type) :: rest
    else (n, t) :: setType name type rest

theorem lookup_cons_eq_ite (name : String) (type : VarType) (rest : List (String × VarType))
    (other : String) :
    ((name, type) :: rest).lookup other =
      if other = name then some type else rest.lookup other := by
  rw [List.lookup_cons]
  by_cases h : other = name
  · simp [h]
  · rw [beq_false_of_ne h, if_neg h]

/-- Setting a type changes the type of that name only. -/
theorem lookup_setType (name : String) (type : VarType) (types : List (String × VarType))
    (other : String) :
    (setType name type types).lookup other =
      if other = name then some type else types.lookup other := by
  induction types with
  | nil => exact lookup_cons_eq_ite name type [] other
  | cons entry rest ih =>
    obtain ⟨n, t⟩ := entry
    unfold setType
    split
    · exact lookup_cons_eq_ite name type _ other
    · split
      · next hn =>
        subst hn
        simp only [lookup_cons_eq_ite]
        split <;> rfl
      · next hn =>
        simp only [lookup_cons_eq_ite, ih]
        by_cases h : other = n
        · simp [h, Ne.symm hn]
        · simp [h]

def typeOf (v : Variables) (name : String) : VarType := (v.types.lookup name).getD v.defaultType

def declare (v : Variables) (names : List String) : List Declaration :=
  names.map fun name => ⟨name, v.typeOf name⟩

end Variables

end SchemaExpr
