import SchemaExpr.Files

/-!
# A file system as a value

Files and directories by the names on the way to them. A directory is there if it is listed or if
something is listed below it.
-/
namespace SchemaExpr

inductive FileNode where
  | file (bytes : ByteArray)
  | directory

structure FileTree where
  nodes : List (List String × FileNode)

namespace FileTree

def find? (t : FileTree) (names : List String) : Option FileNode :=
  match t.nodes.lookup names with
  | some node => some node
  | none =>
    if names.isEmpty || t.nodes.any (fun node => names.isPrefixOf node.1) then some .directory
    else none

/-- Goes from a place to the one that a name leads to, which need not be there. -/
def step (t : FileTree) (place : List String) (name : String) :
    Except ReadFault (List String) :=
  match t.find? place with
  | none => .error .missing
  | some (.file _) => .error .notDirectory
  | some .directory =>
    if name = "" ∨ name = "." then .ok place
    else if name = ".." then .ok place.dropLast
    else .ok (place ++ [name])

/-- The place that a path leads to from a working directory. -/
def resolve (t : FileTree) (work : List String) (path : String) :
    Except ReadFault (List String) :=
  if path = "" then .error .missing
  else (path.splitOn "/").foldlM t.step (if path.toList.head? = some '/' then [] else work)

def node? (t : FileTree) (work : List String) (path : String) : Except ReadFault FileNode := do
  match t.find? (← t.resolve work path) with
  | some node => .ok node
  | none => .error .missing

/-- Access to the tree from a working directory. -/
def files (t : FileTree) (work : List String) : Files Id where
  isFile path :=
    match t.node? work path with
    | .ok (.file _) => true
    | _ => false
  isPresent path := (t.node? work path).toBool
  read path := do
    match t.node? work path with
    | .error fault => .error fault
    | .ok .directory => .error .isDirectory
    | .ok (.file bytes) =>
      match String.fromUTF8? bytes with
      | some text => .ok text
      | none => .error .notText

end FileTree

end SchemaExpr
