import SchemaExpr.Error
import SchemaExpr.Files
import SchemaExpr.Path
import SchemaExpr.Settings

/-!
# Finding and loading settings

Settings are loaded from a file that is named, or from the nearest one at or above a directory. The
search does not leave a repository.
-/
namespace SchemaExpr.Settings

def fileName : String := "ksexpr.toml"

inductive Cause where
  | unreadable (fault : ReadFault)
  | invalid (problem : Problem)
  deriving DecidableEq, Repr

structure LoadError where
  path : String
  cause : Cause
  deriving DecidableEq, Repr

namespace LoadError

def summary (e : LoadError) : String :=
  match e.cause with
  | .unreadable fault => fileName ++ ": could not read file: " ++ fault.message
  | .invalid _ => fileName ++ ": invalid config"

def detail? (e : LoadError) : Option String :=
  match e.cause with
  | .unreadable _ => none
  | .invalid problem => problem.detail?

def toError (e : LoadError) : Error :=
  .settings (e.summary ++ (e.detail?.map (": " ++ ·)).getD "") e.path

end LoadError

/-- The settings that a text states; `path` says where the text is from. -/
def parseAt (path text : String) : Except LoadError Settings :=
  (parse text).mapError fun problem => ⟨path, .invalid problem⟩

variable {m : Type → Type} [Monad m]

def load (files : Files m) (path : String) : m (Except LoadError Settings) := do
  match ← files.read path with
  | .error fault => pure (.error ⟨path, .unreadable fault⟩)
  | .ok text => pure (parseAt path text)

/-- The first settings file in a list of directories, up to the root of a repository. -/
def locateIn (files : Files m) : List String → m (Option String)
  | [] => pure none
  | dir :: dirs => do
    let candidate := Path.join dir fileName
    if ← files.isFile candidate then pure (some candidate)
    else if ← files.isPresent (Path.join dir ".git") then pure none
    else locateIn files dirs

/-- The nearest settings at or above a directory; without a file they are the standard ones. -/
def discover (files : Files m) (dir : String) : m (Except LoadError Settings) := do
  match ← locateIn files (Path.upward dir) with
  | some path => load files path
  | none => pure (.ok standard)

end SchemaExpr.Settings
