import SchemaExpr.Compile
import SchemaExpr.Engine
import SchemaExpr.Expr.Walk

/-!
# The expression cache

A cache keeps the compiled program of every source that was compiled through it, by the exact text
of the source. Failures are not kept. Three counters say how lookups went.
-/
namespace SchemaExpr

/-- A compiled program with the target text and the declarations it was compiled from. -/
structure Compiled (Program : Type) where
  program : Program
  target : String
  declarations : List Declaration

structure Prepared where
  target : String
  declarations : List Declaration

/-- The target text of a source and the declarations of its variables. -/
def prepare (vars : Variables) (source : String) : Except Error Prepared := do
  let e ← readExpr source
  let target ← (Target.lower e).mapError .lowering
  pure ⟨target, vars.declare e.freeVariables⟩

structure CacheStats where
  hits : Nat
  misses : Nat
  /-- The number of successful compilations. -/
  compiles : Nat
  deriving DecidableEq, Repr

/-- A cache in front of an engine, with the state of the engine. -/
structure Cache (State Program Value : Type) where
  engine : Engine State Program Value
  vars : Variables
  state : State
  entries : List (String × Compiled Program)
  stats : CacheStats

namespace Cache

variable {State Program Value : Type}

def new (engine : Engine State Program Value) (state : State) (vars : Variables) :
    Cache State Program Value :=
  ⟨engine, vars, state, [], ⟨0, 0, 0⟩⟩

def size (c : Cache State Program Value) : Nat := c.entries.length

def isEmpty (c : Cache State Program Value) : Bool := c.entries.isEmpty

/-- Forgets all programs. The counters stay. -/
def clear (c : Cache State Program Value) : Cache State Program Value := { c with entries := [] }

/-- Compiles a source, past the entries of the cache. -/
def compile (c : Cache State Program Value) (source : String) :
    Except Error (Compiled Program) × State :=
  match prepare c.vars source with
  | .error e => (.error e, c.state)
  | .ok p =>
    match c.engine.compile c.state p.target p.declarations with
    | (.error message, state) => (.error (.engine message), state)
    | (.ok program, state) => (.ok ⟨program, p.target, p.declarations⟩, state)

/-- The compiled program of a source, which is compiled on first use. -/
def getOrCompile (c : Cache State Program Value) (source : String) :
    Except Error (Compiled Program) × Cache State Program Value :=
  match c.entries.lookup source with
  | some compiled => (.ok compiled, { c with stats.hits := c.stats.hits + 1 })
  | none =>
    let (result, state) := c.compile source
    let c := { c with state := state, stats.misses := c.stats.misses + 1 }
    match result with
    | .error e => (.error e, c)
    | .ok compiled =>
      (.ok compiled, { c with
        entries := (source, compiled) :: c.entries
        stats.compiles := c.stats.compiles + 1 })

/-- The value of a source under bindings of its variables. -/
def evaluate (c : Cache State Program Value) (source : String)
    (bindings : String → Option Value) : Except Error Value × Cache State Program Value :=
  match c.getOrCompile source with
  | (.error e, c) => (.error e, c)
  | (.ok compiled, c) =>
    let (result, state) := c.engine.evaluate c.state compiled.program bindings
    (result.mapError .engine, { c with state := state })

end Cache

end SchemaExpr
