import SchemaExpr.Expr.Parse

/-!
# A parser with counters

`Nested.ofLevels` limits nesting by its shape and carries a height with every tree. Here the same
constructs run on one state with two counters: `depth`, which every expression raises when it starts
and lowers when it ends, and `height`, a single field that every expression and every operand
overwrites with the height of what it has read. The state keeps a trace of the counters, so that one
can speak about every moment of a parse. Loops get the number of turns that the tokens left allow.
-/
namespace SchemaExpr.Counting

/-- What happens to the counters during a parse. -/
inductive Event where
  /-- The depth counter is set. -/
  | depth (value : Nat)
  /-- An expression ends: the depth where it started and where it ends, the height field, and its
  tree, unless it could not be read. -/
  | expression (before after height : Nat) (tree : Option (Expr Span))
  /-- An operand ends. -/
  | operand (height : Nat) (tree : Option (Expr Span))

/-- How the depth counter moves with an event. -/
inductive Event.Moves : Event → Nat → Nat → Prop
  | up (d : Nat) : Moves (.depth (d + 1)) d (d + 1)
  | down (d : Nat) : Moves (.depth (d - 1)) d (d - 1)
  | expression (before d height : Nat) (tree : Option (Expr Span)) :
    Moves (.expression before d height tree) d d
  | operand (d height : Nat) (tree : Option (Expr Span)) : Moves (.operand height tree) d d

/-- The trace has every value of the depth counter, from zero to the present one. -/
inductive Recorded : List Event → Nat → Prop
  | start : Recorded [] 0
  | snoc {trace : List Event} {event : Event} {d d' : Nat} :
    Recorded trace d → event.Moves d d' → Recorded (trace ++ [event]) d'

structure Machine where
  rest : List Token
  errors : List SyntaxError
  depth : Nat
  height : Nat
  trace : List Event
  recorded : Recorded trace depth

namespace Machine

def start (tokens : List Token) : Machine := ⟨tokens, [], 0, 0, [], .start⟩

def log (m : Machine) (event : Event) {depth : Nat} (h : event.Moves m.depth depth) : Machine :=
  { m with depth := depth, trace := m.trace ++ [event], recorded := m.recorded.snoc h }

def enter (m : Machine) : Machine := m.log (.depth (m.depth + 1)) (.up _)

def leave (m : Machine) : Machine := m.log (.depth (m.depth - 1)) (.down _)

end Machine

/-- A routine changes the state whether or not it gives up. -/
def Routine (α : Type) : Type := Machine → Option α × Machine

namespace Routine

variable {α β : Type}

def andThen (r : Routine α) (f : α → Routine β) : Routine β := fun m =>
  match r m with
  | (none, m) => (none, m)
  | (some a, m) => f a m

instance : Monad Routine where
  pure a := fun m => (some a, m)
  bind := andThen

def lift (p : Parser α) : Routine α := fun m =>
  let out := p m.rest
  (out.value, { m with rest := out.rest, errors := m.errors ++ out.errors })

def attempt (r : Routine α) : Routine (Option α) := fun m => (some (r m).1, (r m).2)

/-- Gives up without a word; no parse comes to this. -/
def stuck : Routine α := fun m => (none, m)

def tokens : Routine (List Token) := fun m => (some m.rest, m)

def height : Routine Nat := fun m => (some m.height, m)

def setHeight (a : α) (height : Nat) : Routine α := fun m => (some a, { m with height := height })

/-- Notes the end of a routine, with the states before and after it and its result. -/
def observe (event : Machine → Machine → Option α → Event)
    (still : ∀ m m' result, (event m m' result).Moves m'.depth m'.depth) (r : Routine α) :
    Routine α := fun m =>
  let out := r m
  (out.1, out.2.log (event m out.2 out.1) (still ..))

/-- Runs `body` one level further in, unless the limit is reached. -/
def deeper (stop : Span) (body : Routine α) : Routine α := fun m =>
  if maxDepth ≤ m.depth then lift (Parser.failHere stop fun _ => .tooDeep) m
  else
    let out := body m.enter
    (out.1, out.2.leave)

/-- Reading on the state: the height of what was read last is in the field. -/
def steps (stop : Span) (inner : (floor : Nat) → Routine (Expr Span)) :
    Steps Routine (Expr Span) where
  stop := stop
  lift p _ := lift p
  attempt := attempt
  nested := inner
  tree e := e
  leaf e := e
  withTree _ e := e
  start := setHeight () 1
  height _ := height
  setHeight := setHeight

/-- The elements of a list up to its closer, and the height of the tallest one; `top` is the height
of the tallest one before. -/
def elements (stop : Span) (inner : (floor : Nat) → Routine (Expr Span)) (closer : Kind) :
    (turns top : Nat) → Routine (List (Expr Span) × Nat)
  | 0, _ => stuck
  | turns + 1, top => do
    match ← (steps stop inner).element closer with
    | none => pure ([], top)
    | some none => elements stop inner closer turns top
    | some (some (item, height)) =>
      let (items, top) ← elements stop inner closer turns (max top height)
      pure (item :: items, top)

def list (stop : Span) (inner : (floor : Nat) → Routine (Expr Span)) (closer : Kind) :
    Routine (List (Expr Span) × Option Span) := do
  let ts ← tokens
  let (items, top) ← elements stop inner closer (ts.length + 1) 0
  setHeight () top
  let close ← lift (Parser.attempt (Parser.expect stop closer))
  pure (items, close.map (·.span))

def reading (stop : Span) (inner : (floor : Nat) → Routine (Expr Span)) :
    Reading Routine (Expr Span) where
  toSteps := steps stop inner
  list := list stop inner
  tallest _ := height

section Routines

variable (stop : Span) (inner : (floor : Nat) → Routine (Expr Span))

/-- The height of the tree so far is kept with it and goes to the field at the end. -/
def climb (floor : Nat) : (turns : Nat) → Subtree → Routine (Expr Span)
  | 0, _ => stuck
  | turns + 1, lhs => do
    match ← (reading stop inner).extend floor lhs with
    | none => setHeight lhs.tree lhs.height
    | some longer => climb floor turns longer

def chain (floor : Nat) : Routine (Expr Span) := do
  let tree ← observe (fun _ after result => .operand after.height result)
    (fun _ _ _ => .operand ..) (reading stop inner).operand
  let top ← height
  let ts ← tokens
  climb stop inner floor (ts.length + 1) ⟨tree, top⟩

end Routines

/-- Expressions by floor. Of the levels, `maxDepth + 1` are enough, since `deeper` stops there. -/
def expression (stop : Span) : (levels floor : Nat) → Routine (Expr Span)
  | 0, _ => stuck
  | levels + 1, floor =>
    observe (fun before after result =>
        .expression before.depth after.depth after.height result) (fun _ _ _ => .expression ..)
      (deeper stop (chain stop (expression stop levels) floor))

end Routine

def run (source : String) : Option (Expr Span) × Machine :=
  let lexer := Lexer.ofText source.toList
  Routine.expression lexer.eof.span (maxDepth + 1) 0 (.start lexer.tokens)

/-- What a run has found, with an error for a token that is left after a tree. -/
def parsed (result : Option (Expr Span) × Machine) : Parsed where
  tree := result.1
  errors := result.2.errors ++
    if result.1.isSome then (result.2.rest.head?.map Parsed.leftover).toList else []

end SchemaExpr.Counting
