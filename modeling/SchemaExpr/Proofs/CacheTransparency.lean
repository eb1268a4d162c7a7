import Mathlib.Data.List.Forall2
import SchemaExpr.Proofs.CacheRuns

/-!
# A cache does not change results

For an engine whose results depend only on what it is given, the cache is a matter of cost: every
reply is the one that compiling from scratch would give, whatever was asked before. The invariant is
that each entry is what the pipeline makes of the very source that it is kept under.
-/
namespace SchemaExpr

variable {State Program Value : Type}

/-- The results of the engine are given by two functions, whatever its state. -/
structure Engine.Computes (engine : Engine State Program Value)
    (compile : String → List Declaration → Except String Program)
    (evaluate : Program → (String → Option Value) → Except String Value) : Prop where
  compile_eq : ∀ state target declarations,
    (engine.compile state target declarations).1 = compile target declarations
  evaluate_eq : ∀ state program bindings,
    (engine.evaluate state program bindings).1 = evaluate program bindings

def sourceVariables (source : String) : List String :=
  match readExpr source with
  | .ok e => e.freeVariables
  | .error _ => []

/-- What compiling a source without a cache gives: an error of the source, an error of the engine,
or the program with what it was compiled from. -/
def pipeline (compile : String → List Declaration → Except String Program) (vars : Variables)
    (source : String) : Except Error (Compiled Program) :=
  match compileToTarget source with
  | .error e => .error e
  | .ok target =>
    match compile target (vars.declare (sourceVariables source)) with
    | .error message => .error (.engine message)
    | .ok program => .ok ⟨program, target, vars.declare (sourceVariables source)⟩

def pipelineValue (compile : String → List Declaration → Except String Program)
    (evaluate : Program → (String → Option Value) → Except String Value) (vars : Variables)
    (source : String) (bindings : String → Option Value) : Except Error Value :=
  match pipeline compile vars source with
  | .error e => .error e
  | .ok compiled => (evaluate compiled.program bindings).mapError .engine

/-- The reply is the one that a request has without a cache. The counters are the cache's own. -/
inductive Faithful (compile : String → List Declaration → Except String Program)
    (evaluate : Program → (String → Option Value) → Except String Value) (vars : Variables) :
    Request Value → Reply Program Value → Prop
  | compiled (source : String) :
      Faithful compile evaluate vars (.compile source) (.compiled (pipeline compile vars source))
  | value (source : String) (bindings : String → Option Value) :
      Faithful compile evaluate vars (.evaluate source bindings)
        (.value (pipelineValue compile evaluate vars source bindings))
  | cleared : Faithful compile evaluate vars .clear .cleared
  | stats (stats : CacheStats) : Faithful compile evaluate vars .stats (.stats stats)

theorem prepare_eq (vars : Variables) (source : String) :
    prepare vars source = match compileToTarget source with
      | .error e => .error e
      | .ok target => .ok ⟨target, vars.declare (sourceVariables source)⟩ := by
  unfold prepare compileToTarget sourceVariables
  cases readExpr source with
  | error e => rfl
  | ok e =>
    simp only [bind, Except.bind]
    cases (Target.lower e).mapError Error.lowering <;> rfl

theorem pipeline_of_prepare_error {compile : String → List Declaration → Except String Program}
    {vars : Variables} {source : String} {e : Error} (h : prepare vars source = .error e) :
    pipeline compile vars source = .error e := by
  rw [prepare_eq] at h
  unfold pipeline
  split at h <;> cases h
  simp_all

theorem pipeline_of_prepare {compile : String → List Declaration → Except String Program}
    {vars : Variables} {source : String} {p : Prepared} (h : prepare vars source = .ok p) :
    pipeline compile vars source =
      match compile p.target p.declarations with
      | .error message => .error (.engine message)
      | .ok program => .ok ⟨program, p.target, p.declarations⟩ := by
  rw [prepare_eq] at h
  unfold pipeline
  split at h <;> cases h
  simp_all

namespace Cache

variable {compile : String → List Declaration → Except String Program}
  {evaluate : Program → (String → Option Value) → Except String Value} {vars : Variables}

/-- The engine computes the given functions, and each entry is what the pipeline makes of its
source. -/
structure Exact (compile : String → List Declaration → Except String Program)
    (evaluate : Program → (String → Option Value) → Except String Value) (vars : Variables)
    (c : Cache State Program Value) : Prop where
  computes : c.engine.Computes compile evaluate
  vars_eq : c.vars = vars
  entries : ∀ source compiled, c.entries.lookup source = some compiled →
    pipeline compile vars source = .ok compiled

namespace Exact

variable {c : Cache State Program Value}

theorem new {engine : Engine State Program Value} (h : engine.Computes compile evaluate)
    (state : State) : Exact compile evaluate vars (Cache.new engine state vars) :=
  ⟨h, rfl, by simp [Cache.new]⟩

theorem clear (h : c.Exact compile evaluate vars) : c.clear.Exact compile evaluate vars :=
  ⟨h.computes, h.vars_eq, by simp [Cache.clear]⟩

theorem withState (h : c.Exact compile evaluate vars) (state : State) :
    Exact compile evaluate vars { c with state := state } :=
  ⟨h.computes, h.vars_eq, h.entries⟩

/-- A lookup gives what the pipeline gives and keeps the entries exact. -/
theorem lookup (h : c.Exact compile evaluate vars) {source : String}
    {result : Except Error (Compiled Program)} {next : Cache State Program Value}
    (hlookup : c.Lookup source result next) :
    result = pipeline compile vars source ∧ next.Exact compile evaluate vars := by
  obtain ⟨hcomputes, rfl, hentries⟩ := h
  cases hlookup with
  | hit hfound => exact ⟨(hentries _ _ hfound).symm, hcomputes, rfl, hentries⟩
  | unprepared _ hprepare =>
    exact ⟨(pipeline_of_prepare_error hprepare).symm, hcomputes, rfl, hentries⟩
  | @rejected p message state _ hprepare hcompile =>
    have hresult := hcomputes.compile_eq c.state p.target p.declarations
    rw [hcompile] at hresult
    refine ⟨?_, hcomputes, rfl, hentries⟩
    rw [pipeline_of_prepare hprepare, ← hresult]
  | @added p program state _ hprepare hcompile =>
    have hresult := hcomputes.compile_eq c.state p.target p.declarations
    rw [hcompile] at hresult
    have hpipeline : pipeline compile c.vars source = .ok ⟨program, p.target, p.declarations⟩ := by
      rw [pipeline_of_prepare hprepare, ← hresult]
    refine ⟨hpipeline.symm, hcomputes, rfl, fun other compiled hother => ?_⟩
    rw [List.lookup_cons] at hother
    by_cases heq : other = source
    · subst heq
      simp only [beq_self_eq_true, Option.some.injEq] at hother
      rw [hpipeline, hother]
    · rw [beq_false_of_ne heq] at hother
      exact hentries other compiled hother

/-- One request: its reply is faithful and the cache after it is exact again. -/
theorem answer (h : c.Exact compile evaluate vars) (r : Request Value) :
    Faithful compile evaluate vars r (c.answer r).1 ∧
      (c.answer r).2.Exact compile evaluate vars := by
  cases r with
  | compile source =>
    obtain ⟨hresult, hnext⟩ := h.lookup (c.lookup_getOrCompile source)
    refine ⟨?_, hnext⟩
    rw [Cache.answer, hresult]
    exact .compiled source
  | evaluate source bindings =>
    obtain ⟨hresult, hnext⟩ := h.lookup (c.lookup_getOrCompile source)
    have hvalue : pipelineValue compile evaluate vars source bindings =
        (c.evaluate source bindings).1 := by
      rw [evaluate_eq, pipelineValue, ← hresult]
      cases (c.getOrCompile source).1 with
      | error e => rfl
      | ok compiled => simp only [hnext.computes.evaluate_eq]
    constructor
    · rw [Cache.answer, ← hvalue]
      exact .value source bindings
    · obtain ⟨state, hstate⟩ := c.answer_of_lookup
        (show (Request.evaluate source bindings).source? = some source from rfl)
      rw [hstate]
      exact hnext.withState state
  | clear => exact ⟨.cleared, h.clear⟩
  | stats => exact ⟨.stats c.stats, h⟩

theorem replies (h : c.Exact compile evaluate vars) (requests : List (Request Value)) :
    List.Forall₂ (Faithful compile evaluate vars) requests (c.replies requests) := by
  induction requests generalizing c with
  | nil => exact .nil
  | cons r rs ih => exact .cons (h.answer r).1 (ih (h.answer r).2)

end Exact

end Cache

/-- Every reply of a fresh cache, after any requests, is what the pipeline without a cache gives. -/
theorem cache_replies_are_faithful {engine : Engine State Program Value}
    {compile : String → List Declaration → Except String Program}
    {evaluate : Program → (String → Option Value) → Except String Value}
    (h : engine.Computes compile evaluate) (state : State) (vars : Variables)
    (requests : List (Request Value)) :
    List.Forall₂ (Faithful compile evaluate vars) requests
      ((Cache.new engine state vars).replies requests) :=
  (Cache.Exact.new h state).replies requests

/-- An engine whose programs are target texts. It counts the compilations, and it can evaluate a
program that is the name of a bound variable. -/
def Engine.naming : Engine Nat String String where
  compile calls target _ := (.ok target, calls + 1)
  evaluate calls program bindings :=
    match bindings program with
    | some value => (.ok value, calls)
    | none => (.error ("unbound variable '" ++ program ++ "'"), calls)

theorem Engine.computes_naming : Engine.naming.Computes (fun target _ => .ok target)
    (fun program bindings => ((Engine.naming.evaluate 0 program bindings).1)) := by
  constructor
  · intro state target declarations
    rfl
  · intro state program bindings
    simp only [Engine.naming]
    cases bindings program <;> rfl

theorem cache_replies_are_faithful_naming :
    Engine.naming.Computes (fun target _ => .ok target)
        (fun program bindings => (Engine.naming.evaluate 0 program bindings).1) ∧
      List.Forall₂ (Faithful (fun target _ => .ok target)
          (fun program bindings => (Engine.naming.evaluate 0 program bindings).1) .standard)
        [.compile "_io.pos + len", .evaluate "x" fun _ => some "42", .evaluate "x" fun _ => none,
          .clear, .compile "a +", .compile "_io.pos + len", .stats]
        ((Cache.new Engine.naming 0 .standard).replies
          [.compile "_io.pos + len", .evaluate "x" fun _ => some "42", .evaluate "x" fun _ => none,
            .clear, .compile "a +", .compile "_io.pos + len", .stats]) :=
  ⟨Engine.computes_naming, cache_replies_are_faithful Engine.computes_naming 0 .standard _⟩

end SchemaExpr
