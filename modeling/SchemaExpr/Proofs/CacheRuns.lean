import SchemaExpr.Cache

/-!
# Runs of a cache

A cache is asked for programs and values, is cleared and shows its counters, one request after the
other. Everything that a request can do goes back to one lookup, and a lookup goes one of four ways:
it finds an entry, the source has no target text, the engine rejects the target text, or a new
entry is made. What holds along a run is derived from these four.
-/
namespace SchemaExpr

inductive Request (Value : Type) where
  | compile (source : String)
  | evaluate (source : String) (bindings : String → Option Value)
  | clear
  | stats

inductive Reply (Program Value : Type) where
  | compiled (result : Except Error (Compiled Program))
  | value (result : Except Error Value)
  | cleared
  | stats (stats : CacheStats)

namespace Request

variable {Value : Type}

def source? : Request Value → Option String
  | compile source | evaluate source _ => some source
  | clear | stats => none

def isLookup (r : Request Value) : Bool := r.source?.isSome

def isClear : Request Value → Bool
  | clear => true
  | _ => false

theorem not_isClear {r : Request Value} {source : String} (h : r.source? = some source) :
    r.isClear = false := by
  cases r with
  | clear => cases h
  | _ => rfl

end Request

namespace Cache

variable {State Program Value : Type}

/-- The reply to a request and the cache after it. -/
def answer (c : Cache State Program Value) :
    Request Value → Reply Program Value × Cache State Program Value
  | .compile source => (.compiled (c.getOrCompile source).1, (c.getOrCompile source).2)
  | .evaluate source bindings =>
    (.value (c.evaluate source bindings).1, (c.evaluate source bindings).2)
  | .clear => (.cleared, c.clear)
  | .stats => (.stats c.stats, c)

def after (c : Cache State Program Value) (requests : List (Request Value)) :
    Cache State Program Value :=
  requests.foldl (fun c r => (c.answer r).2) c

def replies (c : Cache State Program Value) : List (Request Value) → List (Reply Program Value)
  | [] => []
  | r :: rs => (c.answer r).1 :: (c.answer r).2.replies rs

theorem after_concat (c : Cache State Program Value) (requests : List (Request Value))
    (r : Request Value) : c.after (requests ++ [r]) = ((c.after requests).answer r).2 := by
  simp [after]

/-- The ways a lookup can go, with its result and the cache after it. -/
inductive Lookup (c : Cache State Program Value) (source : String) :
    Except Error (Compiled Program) → Cache State Program Value → Prop
  | hit {compiled : Compiled Program} : c.entries.lookup source = some compiled →
      Lookup c source (.ok compiled) { c with stats.hits := c.stats.hits + 1 }
  | unprepared {e : Error} : c.entries.lookup source = none → prepare c.vars source = .error e →
      Lookup c source (.error e) { c with stats.misses := c.stats.misses + 1 }
  | rejected {p : Prepared} {message : String} {state : State} :
      c.entries.lookup source = none → prepare c.vars source = .ok p →
      c.engine.compile c.state p.target p.declarations = (.error message, state) →
      Lookup c source (.error (.engine message))
        { c with state := state, stats.misses := c.stats.misses + 1 }
  | added {p : Prepared} {program : Program} {state : State} :
      c.entries.lookup source = none → prepare c.vars source = .ok p →
      c.engine.compile c.state p.target p.declarations = (.ok program, state) →
      Lookup c source (.ok ⟨program, p.target, p.declarations⟩)
        { c with
          state := state
          entries := (source, ⟨program, p.target, p.declarations⟩) :: c.entries
          stats := ⟨c.stats.hits, c.stats.misses + 1, c.stats.compiles + 1⟩ }

theorem lookup_getOrCompile (c : Cache State Program Value) (source : String) :
    c.Lookup source (c.getOrCompile source).1 (c.getOrCompile source).2 := by
  unfold getOrCompile
  cases hlookup : c.entries.lookup source with
  | some compiled => exact .hit hlookup
  | none =>
    simp only [compile]
    cases hprepare : prepare c.vars source with
    | error e => exact .unprepared hlookup hprepare
    | ok p =>
      simp only
      rcases hcompile : c.engine.compile c.state p.target p.declarations with ⟨result, state⟩
      cases result with
      | error message => exact .rejected hlookup hprepare hcompile
      | ok program => exact .added hlookup hprepare hcompile

theorem Lookup.engine_eq {c next : Cache State Program Value} {source : String}
    {result : Except Error (Compiled Program)} (h : c.Lookup source result next) :
    next.engine = c.engine := by
  cases h <;> rfl

/-- Evaluation goes on from the lookup and changes at most the state of the engine. -/
theorem evaluate_eq (c : Cache State Program Value) (source : String)
    (bindings : String → Option Value) :
    c.evaluate source bindings =
      match (c.getOrCompile source).1 with
      | .error e => (.error e, (c.getOrCompile source).2)
      | .ok compiled =>
        let next := (c.getOrCompile source).2
        let out := next.engine.evaluate next.state compiled.program bindings
        (out.1.mapError .engine, { next with state := out.2 }) := by
  unfold evaluate
  rcases c.getOrCompile source with ⟨result, next⟩
  cases result <;> rfl

theorem answer_of_lookup (c : Cache State Program Value) {r : Request Value} {source : String}
    (h : r.source? = some source) :
    ∃ state, (c.answer r).2 = { (c.getOrCompile source).2 with state := state } := by
  cases r with
  | compile s =>
    cases h
    exact ⟨_, rfl⟩
  | evaluate s bindings =>
    cases h
    simp only [answer, evaluate_eq]
    cases (c.getOrCompile source).1 with
    | error e => exact ⟨_, rfl⟩
    | ok compiled => exact ⟨_, rfl⟩
  | clear => cases h
  | stats => cases h

end Cache

end SchemaExpr
