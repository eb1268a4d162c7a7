/-!
# Access to files

What the program asks of a file system, in any monad that can answer.
-/
namespace SchemaExpr

inductive ReadFault where
  | missing
  /-- A name on the way to the file is not a directory. -/
  | notDirectory
  | isDirectory
  /-- The file does not hold text. -/
  | notText
  | stated (message : String)
  deriving DecidableEq, Repr

def ReadFault.message : ReadFault → String
  | missing => "No such file or directory (os error 2)"
  | notDirectory => "Not a directory (os error 20)"
  | isDirectory => "Is a directory (os error 21)"
  | notText => "stream did not contain valid UTF-8"
  | stated message => message

structure Files (m : Type → Type) where
  isFile : (path : String) → m Bool
  isPresent : (path : String) → m Bool
  read : (path : String) → m (Except ReadFault String)

end SchemaExpr
