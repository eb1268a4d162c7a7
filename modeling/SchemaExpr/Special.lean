/-!
# Special variables

The five variables that every evaluation provides under a reserved name: the current value, the
stream it is read from, the enclosing structure, the outermost structure and the number of unread
bytes.
-/
namespace SchemaExpr

inductive Special where
  | selfValue
  | stream
  | parent
  | root
  | bytesRemaining
  deriving DecidableEq, Repr

namespace Special

/-- The name under which the host engine knows the variable. -/
def targetName : Special → String
  | selfValue => "_"
  | stream => "_io"
  | parent => "_parent"
  | root => "_root"
  | bytesRemaining => "_bytes_remaining"

/-- The name of the variable in the JSON form of a tree. -/
def label : Special → String
  | selfValue => "SelfValue"
  | stream => "Stream"
  | parent => "Parent"
  | root => "Root"
  | bytesRemaining => "BytesRemaining"

def all : List Special := [selfValue, stream, parent, root, bytesRemaining]

theorem mem_all (s : Special) : s ∈ all := by cases s <;> decide

end Special

end SchemaExpr
