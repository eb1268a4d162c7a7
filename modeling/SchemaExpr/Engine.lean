import SchemaExpr.Variables

/-!
# Host engines

An engine compiles target text, under declarations of its variables, to programs of its own and
evaluates them. It may change its state with every call.
-/
namespace SchemaExpr

structure Engine (State Program Value : Type) where
  compile : State → (target : String) → List Declaration → Except String Program × State
  evaluate : State → Program → (bindings : String → Option Value) → Except String Value × State

/-- A program of the echo engine: its target text, numbered by the compilations so far. -/
structure EchoProgram where
  serial : Nat
  target : String
  deriving DecidableEq, Repr

def mentions (word : List Char) : (text : List Char) → Bool
  | [] => word.isEmpty
  | c :: cs => word.isPrefixOf (c :: cs) || mentions word cs

/-- An engine without a host. It counts the calls of `compile`, rejects every target that mentions
`reject`, and evaluates a program to the value bound to its whole target text. -/
def Engine.echo : Engine Nat EchoProgram String where
  compile calls target _ :=
    if mentions "reject".toList target.toList then (.error ("cannot compile " ++ target), calls + 1)
    else (.ok ⟨calls + 1, target⟩, calls + 1)
  evaluate calls program bindings :=
    match bindings program.target with
    | some value => (.ok value, calls)
    | none => (.error ("unbound variable '" ++ program.target ++ "'"), calls)

end SchemaExpr
