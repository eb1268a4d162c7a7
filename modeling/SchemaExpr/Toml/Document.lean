import SchemaExpr.Toml.Reader

/-!
# TOML documents

A document is a list of statements: values that stand at the top, then sections, each opened by a
header.
-/
namespace SchemaExpr.Toml

/-- Writes every line end as a single line feed. -/
def unifyLineEnds : List Char → List Char
  | [] => []
  | '\r' :: '\n' :: cs => '\n' :: unifyLineEnds cs
  | c :: cs => c :: unifyLineEnds cs

def skipByteOrderMark : List Char → List Char
  | '\ufeff' :: cs => cs
  | cs => cs

def statements? (text : String) : Option (List Statement) :=
  match Reader.many line (unifyLineEnds (skipByteOrderMark text.toList)) with
  | (found, []) => some (found.filterMap id)
  | _ => none

/-- A header with the values that stand under it. -/
structure Section where
  header : Header
  entries : List (List String × Value)

/-- Adds a section to the table of a document. A header may open a table that so far was only
implied, which then moves behind the other fields. -/
def Section.addTo (s : Section) (root : Value) : Option Value :=
  match s.header with
  | .table path => do
    let (parents, key) ← splitLast? path
    updateAt false (fun _ fields =>
      match fields.lookup key with
      | none => do
        let t ← insertAll (.table .header []) s.entries
        some (Fields.add key t fields)
      | some (.table .implied inner) => do
        let t ← insertAll (.table .header inner) s.entries
        some (Fields.add key t (Fields.erase key fields))
      | some _ => none) parents root
  | .element path => do
    let (parents, key) ← splitLast? path
    let t ← insertAll (.table .header []) s.entries
    updateAt false (fun _ fields =>
      match fields.lookup key with
      | none => some (Fields.add key (.tables [t]) fields)
      | some (.tables elements) => some (Fields.replace key (.tables (elements ++ [t])) fields)
      | some _ => none) parents root

/-- The values before the first header, and the sections. -/
def sections : List Statement → List (List String × Value) × List Section
  | [] => ([], [])
  | .entry path value :: rest =>
    let (entries, later) := sections rest
    ((path, value) :: entries, later)
  | .header header :: rest =>
    let (entries, later) := sections rest
    ([], ⟨header, entries⟩ :: later)

/-- The fields of a document, or nothing if the text is not TOML. -/
def parse? (text : String) : Option Fields := do
  let (top, later) := sections (← statements? text)
  let root ← insertAll (.table .header []) top
  match ← later.foldlM (fun root s => s.addTo root) root with
  | .table _ fields => some fields
  | _ => none

end SchemaExpr.Toml
