import Mathlib.Data.Finset.Card
import Mathlib.Data.List.DropRight
import SchemaExpr.Proofs.CacheTransparency

/-!
# What the counters of a cache count

The counters of a cache are compared with a record of the calls that reach its engine, and its
entries with the history of its requests. The record is kept by the engine itself: a recording
engine goes through the same states as the plain one and notes each call of `compile`. No assumption
is made about the engine, so a program may differ from one compilation of a source to the next.
-/
namespace SchemaExpr

variable {State Program Value : Type}

/-- A call of an engine's `compile`, with what it returned. -/
structure EngineCall (Program : Type) where
  target : String
  declarations : List Declaration
  result : Except String Program

def EngineCall.succeeded (call : EngineCall Program) : Bool := call.result.isOk

/-- The engine with a record of the calls of its `compile`, the latest one last. -/
def Engine.recorded (engine : Engine State Program Value) :
    Engine (State × List (EngineCall Program)) Program Value where
  compile s target declarations :=
    let out := engine.compile s.1 target declarations
    (out.1, out.2, s.2 ++ [⟨target, declarations, out.1⟩])
  evaluate s program bindings :=
    let out := engine.evaluate s.1 program bindings
    (out.1, out.2, s.2)

/-- A request with the cache that it is put to. -/
structure Step (State Program Value : Type) where
  before : Cache State Program Value
  request : Request Value

namespace Cache

def steps (c : Cache State Program Value) :
    List (Request Value) → List (Step State Program Value)
  | [] => []
  | r :: rs => ⟨c, r⟩ :: (c.answer r).2.steps rs

theorem steps_concat (c : Cache State Program Value) (requests : List (Request Value))
    (r : Request Value) :
    c.steps (requests ++ [r]) = c.steps requests ++ [⟨c.after requests, r⟩] := by
  induction requests generalizing c with
  | nil => rfl
  | cons q qs ih => simp [steps, ih, after]

theorem countP_steps (c : Cache State Program Value) (requests : List (Request Value)) :
    (c.steps requests).countP (·.request.isLookup) = requests.countP Request.isLookup := by
  induction requests generalizing c with
  | nil => rfl
  | cons r rs ih => simp [steps, List.countP_cons, ih]

def calls (c : Cache (State × List (EngineCall Program)) Program Value) :
    List (EngineCall Program) :=
  c.state.2

/-- The cache in front of the plain engine in place of the recording one. -/
def unrecorded (engine : Engine State Program Value)
    (c : Cache (State × List (EngineCall Program)) Program Value) : Cache State Program Value :=
  ⟨engine, c.vars, c.state.1, c.entries, c.stats⟩

section Recording

variable {engine : Engine State Program Value}
  {c : Cache (State × List (EngineCall Program)) Program Value}

theorem getOrCompile_unrecorded (h : c.engine = engine.recorded) (source : String) :
    (c.unrecorded engine).getOrCompile source =
      ((c.getOrCompile source).1, (c.getOrCompile source).2.unrecorded engine) := by
  unfold getOrCompile compile
  simp only [unrecorded, h, Engine.recorded]
  cases c.entries.lookup source with
  | some compiled => rfl
  | none =>
    simp only
    cases prepare c.vars source with
    | error e => rfl
    | ok p =>
      simp only
      rcases engine.compile c.state.1 p.target p.declarations with ⟨result, state⟩
      cases result <;> rfl

theorem engine_answer (c : Cache State Program Value) (r : Request Value) :
    (c.answer r).2.engine = c.engine := by
  cases r with
  | compile source => exact (c.lookup_getOrCompile source).engine_eq
  | evaluate source bindings =>
    obtain ⟨state, hstate⟩ := c.answer_of_lookup
      (show (Request.evaluate source bindings).source? = some source from rfl)
    rw [hstate]
    exact (c.lookup_getOrCompile source).engine_eq
  | clear => rfl
  | stats => rfl

/-- Recording changes neither the replies nor the cache. -/
theorem answer_unrecorded (h : c.engine = engine.recorded) (r : Request Value) :
    (c.unrecorded engine).answer r = ((c.answer r).1, (c.answer r).2.unrecorded engine) := by
  cases r with
  | compile source => simp only [answer, getOrCompile_unrecorded h]
  | evaluate source bindings =>
    simp only [answer, evaluate_eq, getOrCompile_unrecorded h]
    have hengine := (c.lookup_getOrCompile source).engine_eq.trans h
    cases (c.getOrCompile source).1 with
    | error e => rfl
    | ok compiled => simp only [unrecorded, hengine, Engine.recorded]
  | clear => rfl
  | stats => rfl

theorem calls_of_compile (h : c.engine = engine.recorded) {target : String}
    {declarations : List Declaration} {result : Except String Program}
    {state : State × List (EngineCall Program)}
    (hcompile : c.engine.compile c.state target declarations = (result, state)) :
    state.2 = c.calls ++ [⟨target, declarations, result⟩] := by
  rw [h] at hcompile
  cases hcompile
  rfl

/-- Evaluation adds no call to those of its lookup. -/
theorem calls_answer (h : c.engine = engine.recorded) {r : Request Value} {source : String}
    (hsource : r.source? = some source) :
    (c.answer r).2.calls = (c.getOrCompile source).2.calls := by
  cases r with
  | compile s =>
    cases hsource
    rfl
  | evaluate s bindings =>
    cases hsource
    have hengine := (c.lookup_getOrCompile source).engine_eq.trans h
    simp only [answer, evaluate_eq]
    cases (c.getOrCompile source).1 with
    | error e => rfl
    | ok compiled => simp only [calls, hengine, Engine.recorded]
  | clear => cases hsource
  | stats => cases hsource

end Recording

end Cache

theorem compileToTarget_of_prepare {vars : Variables} {source : String} {p : Prepared}
    (h : prepare vars source = .ok p) : compileToTarget source = .ok p.target := by
  rw [prepare_eq] at h
  split at h <;> cases h
  assumption

theorem compileToTarget_of_prepare_error {vars : Variables} {source : String} {e : Error}
    (h : prepare vars source = .error e) : compileToTarget source = .error e := by
  rw [prepare_eq] at h
  split at h <;> cases h
  assumption

namespace Cache

/-- A lookup calls the engine once, just for a miss whose source has a target text, and then it
succeeds just if the call does. -/
theorem Lookup.calls_cases {engine : Engine State Program Value}
    {c next : Cache (State × List (EngineCall Program)) Program Value} {source : String}
    {result : Except Error (Compiled Program)} (hlookup : c.Lookup source result next)
    (h : c.engine = engine.recorded) :
    (next.calls = c.calls ∧
        ¬(c.entries.lookup source = none ∧ ∃ target, compileToTarget source = .ok target)) ∨
      ∃ call, next.calls = c.calls ++ [call] ∧
        (c.entries.lookup source = none ∧ ∃ target, compileToTarget source = .ok target) ∧
        (call.succeeded = true ↔ ∃ compiled, result = .ok compiled) := by
  cases hlookup with
  | hit hfound => exact .inl ⟨rfl, by simp [hfound]⟩
  | unprepared _ hprepare =>
    exact .inl ⟨rfl, by simp [compileToTarget_of_prepare_error hprepare]⟩
  | rejected hnone hprepare hcompile =>
    refine .inr ⟨_, calls_of_compile h hcompile,
      ⟨hnone, _, compileToTarget_of_prepare hprepare⟩, ?_⟩
    simp [EngineCall.succeeded, Except.isOk, Except.toBool]
  | added hnone hprepare hcompile =>
    refine .inr ⟨_, calls_of_compile h hcompile,
      ⟨hnone, _, compileToTarget_of_prepare hprepare⟩, ?_⟩
    simp [EngineCall.succeeded, Except.isOk, Except.toBool]

end Cache

namespace Step

def reply (s : Step State Program Value) : Reply Program Value :=
  (s.before.answer s.request).1

def after (s : Step State Program Value) : Cache State Program Value :=
  (s.before.answer s.request).2

/-- What the lookup of a source gives in the step. -/
def result (s : Step State Program Value) (source : String) :
    Except Error (Compiled Program) :=
  (s.before.getOrCompile source).1

def Misses (s : Step State Program Value) (source : String) : Prop :=
  s.before.entries.lookup source = none

/-- The step looks the source up, and the engine compiles it with success. -/
def Compiles (s : Step (State × List (EngineCall Program)) Program Value) (source : String) :
    Prop :=
  s.request.source? = some source ∧
    ∃ call, s.after.calls = s.before.calls ++ [call] ∧ call.succeeded = true

/-- What a request is answered with, once the lookup of its source has its result. -/
structure Answered (s : Step State Program Value) : Prop where
  compile : ∀ source, s.request = .compile source → s.reply = .compiled (s.result source)
  evaluate : ∀ source bindings, s.request = .evaluate source bindings →
    ∃ out, s.reply = .value out ∧ ∀ e, s.result source = .error e → out = .error e
  clear : s.request = .clear → s.reply = .cleared
  stats : s.request = .stats → s.reply = .stats s.before.stats

theorem answered (s : Step State Program Value) : s.Answered := by
  obtain ⟨c, r⟩ := s
  constructor
  · rintro source rfl
    rfl
  · rintro source bindings rfl
    refine ⟨_, rfl, fun e he => ?_⟩
    rw [Cache.evaluate_eq, show (c.getOrCompile source).1 = .error e from he]
  · rintro rfl
    rfl
  · rintro rfl
    rfl

/-- What a step does to the counters, the entries and the engine, and what it replies. -/
structure Accounted (s : Step (State × List (EngineCall Program)) Program Value) : Prop where
  answered : s.Answered
  /-- A lookup counts as a miss or as a hit. -/
  counted : ∀ source, s.request.source? = some source →
    s.Misses source ∧ s.after.stats.hits = s.before.stats.hits ∧
        s.after.stats.misses = s.before.stats.misses + 1 ∨
      ¬s.Misses source ∧ s.after.stats.hits = s.before.stats.hits + 1 ∧
        s.after.stats.misses = s.before.stats.misses
  /-- The engine is called, once, just for a miss whose source has a target text. -/
  called : ∀ source, s.request.source? = some source →
    ((∃ call, s.after.calls = s.before.calls ++ [call]) ↔
      s.Misses source ∧ ∃ target, compileToTarget source = .ok target) ∧
    (s.after.calls = s.before.calls ↔
      ¬(s.Misses source ∧ ∃ target, compileToTarget source = .ok target))
  /-- Where the engine is called, the lookup succeeds just if the call does. -/
  succeeded : ∀ source call, s.request.source? = some source →
    s.after.calls = s.before.calls ++ [call] →
    (call.succeeded = true ↔ ∃ compiled, s.result source = .ok compiled)
  /-- A failed lookup changes the number of misses and nothing else, the engine apart. -/
  failed : ∀ source e, s.request.source? = some source → s.result source = .error e →
    ∃ state, s.after =
      { s.before with state := state, stats.misses := s.before.stats.misses + 1 }
  cleared : s.request = .clear → s.after = { s.before with entries := [] }
  shown : s.request = .stats → s.after = s.before

section

variable {engine : Engine State Program Value}
  {s : Step (State × List (EngineCall Program)) Program Value} {source : String}

/-- A step that looks a source up ends as the lookup does, the state of the engine apart. -/
theorem exists_lookup (h : s.before.engine = engine.recorded)
    (hsource : s.request.source? = some source) :
    ∃ next state, s.before.Lookup source (s.result source) next ∧
      s.after = { next with state := state } ∧ state.2 = next.calls := by
  obtain ⟨state, hstate⟩ := s.before.answer_of_lookup hsource
  have hcalls := Cache.calls_answer h hsource
  rw [hstate] at hcalls
  exact ⟨_, state, s.before.lookup_getOrCompile source, hstate, hcalls⟩

theorem accounted (h : s.before.engine = engine.recorded) : s.Accounted := by
  constructor
  · exact s.answered
  · intro source hsource
    obtain ⟨next, state, hlookup, hafter, -⟩ := exists_lookup h hsource
    rw [hafter, Misses]
    generalize s.result source = result at hlookup
    cases hlookup with
    | hit hfound => simp [hfound]
    | unprepared hnone => simp [hnone]
    | rejected hnone => simp [hnone]
    | added hnone => simp [hnone]
  · intro source hsource
    obtain ⟨next, state, hlookup, hafter, hcalls⟩ := exists_lookup h hsource
    rw [hafter, Misses, Cache.calls, hcalls]
    rcases hlookup.calls_cases h with ⟨hsame, hno⟩ | ⟨call, hmore, hyes, -⟩
    · rw [hsame]
      exact ⟨iff_of_false (by simp) hno, iff_of_true rfl hno⟩
    · rw [hmore]
      exact ⟨iff_of_true ⟨call, rfl⟩ hyes, iff_of_false (by simp) (not_not_intro hyes)⟩
  · intro source call hsource hcall
    obtain ⟨next, state, hlookup, hafter, hcalls⟩ := exists_lookup h hsource
    rw [hafter, Cache.calls, hcalls] at hcall
    rcases hlookup.calls_cases h with ⟨hsame, -⟩ | ⟨call', hmore, -, hsucceeded⟩
    · simp [hsame] at hcall
    · rw [hmore, List.append_cancel_left_eq] at hcall
      cases hcall
      exact hsucceeded
  · intro source e hsource hresult
    obtain ⟨next, state, hlookup, hafter, -⟩ := exists_lookup h hsource
    rw [hresult] at hlookup
    rw [hafter]
    cases hlookup <;> exact ⟨state, rfl⟩
  · intro hclear
    rw [after, hclear]
    rfl
  · intro hstats
    rw [after, hstats]
    rfl

end

/-- The source that the step looks up with success. -/
def found? (s : Step State Program Value) : Option String :=
  s.request.source?.filter fun source => (s.result source).isOk

theorem found?_eq_some_iff {s : Step State Program Value} {source : String} :
    s.found? = some source ↔
      s.request.source? = some source ∧ ∃ compiled, s.result source = .ok compiled := by
  rw [found?, Option.filter_eq_some_iff]
  cases s.result source <;> simp [Except.isOk, Except.toBool]

/-- If both steps look up a source and the first one succeeds, the second one gives the same program
without a call of the engine. -/
def Repeats (s t : Step (State × List (EngineCall Program)) Program Value) : Prop :=
  ∀ source compiled, s.request.source? = some source → s.result source = .ok compiled →
    t.request.source? = some source →
    t.result source = .ok compiled ∧ t.after.calls = t.before.calls

end Step

theorem Cache.replies_eq_map (c : Cache State Program Value) (requests : List (Request Value)) :
    c.replies requests = (c.steps requests).map Step.reply := by
  induction requests generalizing c with
  | nil => rfl
  | cons r rs ih =>
    rw [replies, steps, List.map_cons, ih]
    rfl

def sinceClear (steps : List (Step State Program Value)) : List (Step State Program Value) :=
  steps.rtakeWhile fun s => !s.request.isClear

theorem sinceClear_concat {s : Step State Program Value} (h : s.request.isClear = false)
    (steps : List (Step State Program Value)) :
    sinceClear (steps ++ [s]) = sinceClear steps ++ [s] :=
  List.rtakeWhile_concat_pos _ _ _ (by simp [h])

namespace Cache

section Entries

variable {c next : Cache State Program Value} {source : String}
  {result : Except Error (Compiled Program)}

/-- A lookup keeps the entries and adds at most its own result. -/
theorem Lookup.entries_iff (h : c.Lookup source result next) (other : String)
    (compiled : Compiled Program) : next.entries.lookup other = some compiled ↔
      c.entries.lookup other = some compiled ∨ other = source ∧ result = .ok compiled := by
  cases h with
  | hit hfound =>
    constructor
    · exact .inl
    · rintro (h | ⟨rfl, h⟩)
      · exact h
      · cases h
        exact hfound
  | unprepared => simp
  | rejected => simp
  | added hnone =>
    rw [List.lookup_cons]
    by_cases heq : other = source
    · subst heq
      simp [hnone]
    · simp [beq_false_of_ne heq, heq]

theorem Lookup.nodup (h : c.Lookup source result next) (hc : (c.entries.map (·.1)).Nodup) :
    (next.entries.map (·.1)).Nodup := by
  cases h with
  | hit => exact hc
  | unprepared => exact hc
  | rejected => exact hc
  | added hnone =>
    refine List.nodup_cons.mpr ⟨fun hmem => ?_, hc⟩
    obtain ⟨entry, hentry, hkey⟩ := List.mem_map.mp hmem
    have hne := List.lookup_eq_none_iff.mp hnone entry hentry
    simp [hkey] at hne

theorem mem_keys_iff : source ∈ c.entries.map (·.1) ↔
    ∃ compiled, c.entries.lookup source = some compiled := by
  rw [← Option.ne_none_iff_exists', ne_eq, List.lookup_eq_none_iff]
  simp only [List.mem_map, bne_iff_ne, ne_eq, not_forall, not_not, exists_prop]
  exact exists_congr fun entry => and_congr_right fun _ => eq_comm

theorem Lookup.stats_eq (h : c.Lookup source result next) :
    next.stats.hits + next.stats.misses = c.stats.hits + c.stats.misses + 1 := by
  cases h <;> simp only <;> omega

end Entries

/-- How the cache after some steps goes with the steps. -/
structure Tallies (engine : Engine State Program Value)
    (c : Cache (State × List (EngineCall Program)) Program Value)
    (steps : List (Step (State × List (EngineCall Program)) Program Value)) : Prop where
  engine_eq : c.engine = engine.recorded
  lookups : c.stats.hits + c.stats.misses = steps.countP (·.request.isLookup)
  compiles : c.stats.compiles = c.calls.countP (·.succeeded)
  nodup : (c.entries.map (·.1)).Nodup
  entries : ∀ source compiled, c.entries.lookup source = some compiled ↔
    ∃ s ∈ sinceClear steps, s.request.source? = some source ∧ s.result source = .ok compiled
  repeats : (sinceClear steps).Pairwise Step.Repeats
  accounted : ∀ s ∈ steps, s.Accounted

namespace Tallies

variable {engine : Engine State Program Value}
  {c : Cache (State × List (EngineCall Program)) Program Value}
  {steps : List (Step (State × List (EngineCall Program)) Program Value)}

theorem new (engine : Engine State Program Value) (state : State) (vars : Variables) :
    Tallies engine (Cache.new engine.recorded (state, []) vars) [] where
  engine_eq := rfl
  lookups := rfl
  compiles := rfl
  nodup := .nil
  entries := by simp [Cache.new, sinceClear]
  repeats := .nil
  accounted := by simp

theorem compiles_lookup (h : Tallies engine c steps) {source : String}
    {result : Except Error (Compiled Program)}
    {next : Cache (State × List (EngineCall Program)) Program Value}
    (hlookup : c.Lookup source result next) :
    next.stats.compiles = next.calls.countP (·.succeeded) := by
  cases hlookup with
  | hit => exact h.compiles
  | unprepared => exact h.compiles
  | rejected _ _ hcompile =>
    simp only [calls, calls_of_compile h.engine_eq hcompile, List.countP_append]
    exact h.compiles
  | added _ _ hcompile =>
    simp only [calls, calls_of_compile h.engine_eq hcompile, List.countP_append]
    exact congrArg (· + 1) h.compiles

/-- What was found since the last clear is found again. -/
theorem repeats_of_mem (h : Tallies engine c steps) (r : Request Value)
    {s : Step (State × List (EngineCall Program)) Program Value} (hs : s ∈ sinceClear steps) :
    s.Repeats ⟨c, r⟩ := by
  intro source compiled hsource hresult hagain
  have hfound := (h.entries source compiled).mpr ⟨s, hs, hsource, hresult⟩
  obtain ⟨next, state, hlookup, hafter, hcalls⟩ := Step.exists_lookup h.engine_eq hagain
  rw [hafter, calls, hcalls]
  generalize Step.result ⟨c, r⟩ source = result at hlookup ⊢
  cases hlookup with
  | hit hhit =>
    rw [hfound, Option.some.injEq] at hhit
    exact ⟨congrArg Except.ok hhit.symm, rfl⟩
  | unprepared hnone => simp [hfound] at hnone
  | rejected hnone => simp [hfound] at hnone
  | added hnone => simp [hfound] at hnone

theorem repeats_concat (h : Tallies engine c steps) (r : Request Value) :
    (sinceClear steps ++ [Step.mk c r]).Pairwise Step.Repeats := by
  refine List.pairwise_append.mpr ⟨h.repeats, List.pairwise_singleton _ _, fun s hs t ht => ?_⟩
  rw [List.mem_singleton.mp ht]
  exact h.repeats_of_mem r hs

theorem accounted_concat (h : Tallies engine c steps) (r : Request Value) :
    ∀ s ∈ steps ++ [⟨c, r⟩], s.Accounted := by
  intro s hs
  rcases List.mem_append.mp hs with hs | hs
  · exact h.accounted s hs
  · rw [List.mem_singleton.mp hs]
    exact Step.accounted h.engine_eq

theorem lookup (h : Tallies engine c steps) {r : Request Value} {source : String}
    (hsource : r.source? = some source) :
    Tallies engine (c.answer r).2 (steps ++ [⟨c, r⟩]) := by
  obtain ⟨next, state, hlookup, hafter, hcalls⟩ :=
    Step.exists_lookup (s := ⟨c, r⟩) h.engine_eq hsource
  have hafter : (c.answer r).2 = { next with state := state } := hafter
  have hsince := sinceClear_concat (s := ⟨c, r⟩) (Request.not_isClear hsource) steps
  constructor
  · rw [engine_answer, h.engine_eq]
  · rw [hafter, hlookup.stats_eq, h.lookups]
    simp [Request.isLookup, hsource]
  · rw [hafter, h.compiles_lookup hlookup, ← hcalls]
    rfl
  · rw [hafter]
    exact hlookup.nodup h.nodup
  · intro other compiled
    rw [hafter, hlookup.entries_iff, h.entries, hsince]
    simp only [List.mem_append, List.mem_singleton, or_and_right, exists_or, exists_eq_left,
      hsource, Option.some.injEq]
    refine or_congr_right ⟨?_, ?_⟩
    · rintro ⟨rfl, hresult⟩
      exact ⟨rfl, hresult⟩
    · rintro ⟨rfl, hresult⟩
      exact ⟨rfl, hresult⟩
  · rw [hsince]
    exact h.repeats_concat r
  · exact h.accounted_concat r

theorem clear (h : Tallies engine c steps) : Tallies engine c.clear (steps ++ [⟨c, .clear⟩]) := by
  have hsince : sinceClear (steps ++ [⟨c, .clear⟩]) = [] :=
    List.rtakeWhile_concat_neg _ _ _ (by simp [Request.isClear])
  constructor
  · exact h.engine_eq
  · rw [List.countP_append, ← h.lookups]
    rfl
  · exact h.compiles
  · exact .nil
  · intro source compiled
    simp [hsince, Cache.clear]
  · rw [hsince]
    exact .nil
  · exact h.accounted_concat .clear

theorem stats (h : Tallies engine c steps) : Tallies engine c (steps ++ [⟨c, .stats⟩]) := by
  have hsince := sinceClear_concat (s := ⟨c, .stats⟩) rfl steps
  constructor
  · exact h.engine_eq
  · rw [List.countP_append, ← h.lookups]
    rfl
  · exact h.compiles
  · exact h.nodup
  · intro source compiled
    simp [hsince, h.entries, Request.source?, or_and_right, exists_or]
  · rw [hsince]
    exact h.repeats_concat .stats
  · exact h.accounted_concat .stats

/-- One request keeps the cache in step with the history. -/
theorem answer (h : Tallies engine c steps) (r : Request Value) :
    Tallies engine (c.answer r).2 (steps ++ [⟨c, r⟩]) := by
  cases r with
  | compile source => exact h.lookup rfl
  | evaluate source bindings => exact h.lookup rfl
  | clear => exact h.clear
  | stats => exact h.stats

theorem run (engine : Engine State Program Value) (state : State) (vars : Variables)
    (requests : List (Request Value)) :
    Tallies engine ((Cache.new engine.recorded (state, []) vars).after requests)
      ((Cache.new engine.recorded (state, []) vars).steps requests) := by
  induction requests using List.reverseRecOn with
  | nil => exact new engine state vars
  | append_singleton requests r ih =>
    rw [after_concat, steps_concat]
    exact ih.answer r

/-- The sources of the entries are those that were found since the last clear. -/
theorem size_eq (h : Tallies engine c steps) :
    c.size = ((sinceClear steps).filterMap Step.found?).toFinset.card := by
  have hkeys : (c.entries.map (·.1)).toFinset =
      ((sinceClear steps).filterMap Step.found?).toFinset := by
    ext source
    rw [List.mem_toFinset, List.mem_toFinset, mem_keys_iff, List.mem_filterMap]
    simp only [h.entries, Step.found?_eq_some_iff]
    grind
  rw [← hkeys, List.toFinset_card_of_nodup h.nodup, List.length_map, size]

/-- No two steps since the last clear compile the same source with success. -/
theorem once (h : Tallies engine c steps) : (sinceClear steps).Pairwise fun s t =>
    ∀ source, s.Compiles source → ¬t.Compiles source := by
  have hsteps : ∀ s ∈ sinceClear steps, s.Accounted := fun s hs =>
    h.accounted s ((List.rtakeWhile_suffix _ _).subset hs)
  refine h.repeats.imp_of_mem ?_
  rintro s t hs - hrepeats source ⟨hsource, call, hcall, hsucceeded⟩ ⟨hagain, call', hcall', -⟩
  obtain ⟨compiled, hresult⟩ := ((hsteps s hs).succeeded source call hsource hcall).mp hsucceeded
  have hsame := (hrepeats source compiled hsource hresult hagain).2
  simp [hsame] at hcall'

end Tallies

section Recording

variable {engine : Engine State Program Value}
  {c : Cache (State × List (EngineCall Program)) Program Value}

theorem after_unrecorded (h : c.engine = engine.recorded) (requests : List (Request Value)) :
    (c.unrecorded engine).after requests = (c.after requests).unrecorded engine := by
  induction requests generalizing c with
  | nil => rfl
  | cons r rs ih =>
    have hnext := ih ((c.engine_answer r).trans h)
    simpa [after, answer_unrecorded h] using hnext

theorem replies_unrecorded (h : c.engine = engine.recorded) (requests : List (Request Value)) :
    (c.unrecorded engine).replies requests = c.replies requests := by
  induction requests generalizing c with
  | nil => rfl
  | cons r rs ih => rw [replies, replies, answer_unrecorded h, ih ((c.engine_answer r).trans h)]

end Recording

end Cache

/-- What holds of the cache `c`, in front of the recording engine, after some requests. -/
structure Accounts (engine : Engine State Program Value)
    (c : Cache (State × List (EngineCall Program)) Program Value)
    (requests : List (Request Value)) : Prop where
  /-- The plain engine gives the same replies and the same cache. -/
  unrecorded : (c.unrecorded engine).replies requests = c.replies requests ∧
    (c.unrecorded engine).after requests = (c.after requests).unrecorded engine
  lookups : (c.after requests).stats.hits + (c.after requests).stats.misses =
    requests.countP Request.isLookup
  compiles : (c.after requests).stats.compiles =
    (c.after requests).calls.countP EngineCall.succeeded
  replies : c.replies requests = (c.steps requests).map Step.reply
  steps : ∀ s ∈ c.steps requests, s.Accounted
  /-- There is an entry for each source that was found since the last clear. -/
  size : (c.after requests).size =
    ((sinceClear (c.steps requests)).filterMap Step.found?).toFinset.card
  /-- Since the last clear each source was compiled with success at most once. -/
  once : (sinceClear (c.steps requests)).Pairwise fun s t =>
    ∀ source, s.Compiles source → ¬t.Compiles source
  repeats : (sinceClear (c.steps requests)).Pairwise Step.Repeats

/-- The counters and the entries of a fresh cache are right after any requests. -/
theorem cache_accounts_are_exact (engine : Engine State Program Value) (state : State)
    (vars : Variables) (requests : List (Request Value)) :
    Accounts engine (Cache.new engine.recorded (state, []) vars) requests := by
  have htallies := Cache.Tallies.run engine state vars requests
  constructor
  · exact ⟨Cache.replies_unrecorded rfl requests, Cache.after_unrecorded rfl requests⟩
  · rw [htallies.lookups, Cache.countP_steps]
  · exact htallies.compiles
  · exact Cache.replies_eq_map _ requests
  · exact htallies.accounted
  · exact htallies.size_eq
  · exact htallies.once
  · exact htallies.repeats

end SchemaExpr
