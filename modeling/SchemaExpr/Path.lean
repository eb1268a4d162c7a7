/-!
# Paths

Paths are texts. Names are separated by slashes, and a path that starts with a slash is absolute.
-/
namespace SchemaExpr.Path

def isAbsolute (path : String) : Bool := path.toList.head? == some '/'

def join (dir name : String) : String :=
  if dir.isEmpty || isAbsolute name then name
  else if dir.toList.getLast? == some '/' then dir ++ name
  else dir ++ "/" ++ name

/-- Drops separators, and names that stay in place, from the end of a path, which is given in
reverse. -/
def settle : List Char → List Char
  | '/' :: cs => settle cs
  | '.' :: '/' :: cs => settle cs
  | cs => cs

theorem settle_length_le (cs : List Char) : (settle cs).length ≤ cs.length := by
  fun_induction settle cs with
  | case1 cs ih => simp only [List.length_cons]; omega
  | case2 cs ih => simp only [List.length_cons]; omega
  | case3 cs => exact Nat.le_refl _

/-- The path without its last name, in reverse; nothing for a path without a name. -/
def dropName (cs : List Char) : Option (List Char) :=
  match settle cs with
  | [] => none
  | _ :: rest => some (settle (rest.dropWhile (· ≠ '/')))

theorem dropName_length_lt {cs rest : List Char} (h : dropName cs = some rest) :
    rest.length < cs.length := by
  unfold dropName at h
  split at h
  · contradiction
  · next c more hs =>
    have h1 := settle_length_le cs
    have h2 := settle_length_le (more.dropWhile (· ≠ '/'))
    have h3 := (List.dropWhile_suffix (l := more) (· ≠ '/')).length_le
    simp only [Option.some.injEq] at h
    subst h
    rw [hs, List.length_cons] at h1
    omega

/-- The directories above a path, the nearest first; the path is given in reverse. -/
def above (absolute : Bool) (cs : List Char) : List String :=
  match h : dropName cs with
  | none => []
  | some rest =>
    have := dropName_length_lt h
    (if rest.isEmpty && absolute then "/" else String.ofList rest.reverse) :: above absolute rest
termination_by cs.length

/-- A path and all directories above it, from the inside out. -/
def upward (path : String) : List String :=
  path :: above (isAbsolute path) path.toList.reverse

end SchemaExpr.Path
