import SchemaExpr.Toml.Document
import SchemaExpr.Variables

/-!
# Settings

A settings file is a TOML document of two tables, both optional: the types of the variables and the
format of the output. Fields are decoded in the order in which the document holds them, and the
first problem counts.
-/
namespace SchemaExpr

inductive OutputFormat where
  | text
  | json
  deriving DecidableEq, Repr

structure Settings where
  vars : Variables
  format : OutputFormat
  deriving DecidableEq, Repr

namespace Settings

open Toml (Value Fields)

/-- The settings of an empty file. -/
def standard : Settings := ⟨Variables.standard, .text⟩

inductive Problem where
  | notToml
  /-- A value is of a kind that has no meaning at its place. -/
  | misplacedValue
  | unknownField (name : String) (known : List String)
  | unknownChoice (name : String) (known : List String)
  deriving DecidableEq, Repr

def expected : List String → String
  | [a] => "expected `" ++ a ++ "`"
  | [a, b] => "expected `" ++ a ++ "` or `" ++ b ++ "`"
  | names => "expected one of " ++ ", ".intercalate (names.map fun a => "`" ++ a ++ "`")

/-- What is said about a problem beyond that there is one. -/
def Problem.detail? : Problem → Option String
  | notToml => none
  | misplacedValue => none
  | unknownField name known => some ("unknown field `" ++ name ++ "`, " ++ expected known)
  | unknownChoice name known => some ("unknown variant `" ++ name ++ "`, " ++ expected known)

variable {α σ : Type}

/-- The one field of a date-time where a table is expected. -/
def datetimeField : String := "$__toml_private_datetime"

/-- The fields of a value in the place of a table. -/
def tableFields? : Value → Option Fields
  | .table _ fields => some fields
  | .datetime d => some [(datetimeField, .string d.text)]
  | _ => none

/-- The fields of a value in the place of a table with fixed fields, which may also be an array with
values for the first of them. -/
def recordFields? (names : List String) : Value → Option Fields
  | .array elements | .tables elements => some (names.zip elements)
  | v => tableFields? v

/-- Decodes the fields of a record one after the other; `set` knows the given names only. -/
def decodeRecord (names : List String) (set : σ → String → Value → Option (Except Problem σ))
    (start : σ) (v : Value) : Except Problem σ :=
  match recordFields? names v with
  | none => .error .misplacedValue
  | some fields =>
    fields.foldlM (fun s (name, v) => (set s name v).getD (.error (.unknownField name names))) start

def choose (choices : List (String × α)) (name : String) : Except Problem α :=
  match choices.lookup name with
  | some a => .ok a
  | none => .error (.unknownChoice name (choices.map (·.1)))

/-- Decodes one of several named things: its name, or a table with the name as the only field and
nothing in it. -/
def decodeChoice (choices : List (String × α)) : Value → Except Problem α
  | .string name => choose choices name
  | .table _ [(name, content)] => do
    let a ← choose choices name
    if content.isEmptyCollection then .ok a else .error .misplacedValue
  | _ => .error .misplacedValue

def decodeType : Value → Except Problem VarType :=
  decodeChoice (VarType.all.map fun t => (t.text, t))

def decodeFormat : Value → Except Problem OutputFormat :=
  decodeChoice [("text", .text), ("json", .json)]

def decodeTypes (v : Value) : Except Problem (List (String × VarType)) :=
  match tableFields? v with
  | none => .error .misplacedValue
  | some fields =>
    fields.foldlM (fun types (name, v) => (decodeType v).map (Variables.setType name · types)) []

def decodeVariables : Value → Except Problem Variables :=
  decodeRecord ["default_type", "types"] (fun s name v =>
    match name with
    | "default_type" => some ((decodeType v).map fun t => { s with defaultType := t })
    | "types" => some ((decodeTypes v).map fun types => { s with types := types })
    | _ => none) Variables.standard

def decodeOutput : Value → Except Problem OutputFormat :=
  decodeRecord ["format"] (fun _ name v =>
    match name with
    | "format" => some (decodeFormat v)
    | _ => none) .text

def decode : Value → Except Problem Settings :=
  decodeRecord ["variables", "output"] (fun s name v =>
    match name with
    | "variables" => some ((decodeVariables v).map fun vars => { s with vars := vars })
    | "output" => some ((decodeOutput v).map fun format => { s with format := format })
    | _ => none) standard

/-- A document without fields states the standard settings. -/
theorem decode_nil (origin : Toml.Origin) : decode (.table origin []) = .ok standard := rfl

def parse (text : String) : Except Problem Settings :=
  match Toml.parse? text with
  | none => .error .notToml
  | some fields => decode (.table .header fields)

end Settings

end SchemaExpr
