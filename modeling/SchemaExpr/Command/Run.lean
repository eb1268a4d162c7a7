import SchemaExpr.Command.Usage
import SchemaExpr.Compile
import SchemaExpr.Expr.Json
import SchemaExpr.Expr.Sexpr
import SchemaExpr.Expr.Walk
import SchemaExpr.Report
import SchemaExpr.Settings.Load
import SchemaExpr.Text.Blank
import SchemaExpr.Text.Display

/-!
# Running a task

A task writes its results to one text and its reports to another, and ends with an exit code: zero
for success, one for failure and two for arguments without a meaning.
-/
namespace SchemaExpr.Command

structure Outcome where
  code : Nat
  out : String
  err : String
  deriving DecidableEq, Repr

namespace Outcome

def success (out : String) : Outcome := ⟨0, out, ""⟩

def failure (err : String) : Outcome := ⟨1, "", err⟩

/-- Two outcomes one after the other; the worse code stays. -/
def andThen (a b : Outcome) : Outcome := ⟨max a.code b.code, a.out ++ b.out, a.err ++ b.err⟩

end Outcome

/-- The name that reports give to an expression. -/
def expressionName : String := "<expr>"

def reported (source : String) (e : Error) : Outcome :=
  .failure (Report.ofError source expressionName e)

def padLeft (width : Nat) (s : String) : String :=
  String.ofList (List.replicate (width - s.length) ' ') ++ s

def padRight (width : Nat) (s : String) : String :=
  s ++ String.ofList (List.replicate (width - s.length) ' ')

/-- The lines of an input, without the line feed that ends each and a carriage return before it. -/
def inputLines : List Char → List (List Char)
  | [] => []
  | '\r' :: '\n' :: cs => [] :: inputLines cs
  | c :: cs =>
    if c = '\n' then [] :: inputLines cs
    else match inputLines cs with
      | [] => [[c]]
      | l :: ls => (c :: l) :: ls

/-- The expressions in an input: its lines that are not blank. -/
def inputExpressions (text : String) : List String :=
  ((inputLines text.toList).filter fun l => !l.all Text.isBlank).map String.ofList

def lowerOne (json : Bool) (source : String) : Outcome :=
  match compileToTarget source with
  | .error e => reported source e
  | .ok target =>
    if json then
      .success ((Json.obj [("source", .str source), ("target", .str target)]).text ++ "\n")
    else .success (target ++ "\n")

/-- Lowers every expression, also after one that fails. -/
def lowerAll (json : Bool) (sources : List String) : Outcome :=
  sources.foldr (fun source later => (lowerOne json source).andThen later) (.success "")

def showTree (json : Bool) (source : String) : Outcome :=
  match readExpr source with
  | .error e => reported source e
  | .ok e => .success ((if json then e.toJson.text else e.sexpr) ++ "\n")

def tokenLine (t : Token) : String :=
  padLeft 6 t.span.pos.text ++ "  " ++ padRight 16 t.kind.label ++ " " ++
    Text.displayQuoted t.literal ++ "\n"

def showTokens (json : Bool) (source : String) : Outcome :=
  let tokens := tokenize source
  .success (if json then (Json.arr (tokens.map (·.toJson))).text ++ "\n"
    else String.join (tokens.map tokenLine))

def showVariables (json : Bool) (vars : Variables) (source : String) : Outcome :=
  match readExpr source with
  | .error e => reported source e
  | .ok e =>
    let declarations := vars.declare e.freeVariables
    .success (if json then (Json.arr (declarations.map (·.toJson))).text ++ "\n"
      else String.join (declarations.map fun d => d.text ++ "\n"))

variable {m : Type → Type} [Monad m]

structure World (m : Type → Type) where
  files : Files m
  workDirectory : String
  /-- All bytes of the standard input. -/
  input : m ByteArray

/-- The expressions to lower: those that are given, or else those of the standard input. -/
def loweredExpressions (world : World m) (given : List String) :
    m (Except ReadFault (List String)) := do
  if given.isEmpty then
    match String.fromUTF8? (← world.input) with
    | some text => pure (.ok (inputExpressions text))
    | none => pure (.error .notText)
  else pure (.ok given)

/-- Does a task under settings. -/
def perform (world : World m) (settings : Settings) (i : Invocation) : m Outcome := do
  let json := i.options.json || settings.format == .json
  match i.task with
  | .lower given =>
    match ← loweredExpressions world given with
    | .ok sources => pure (lowerAll json sources)
    | .error fault => pure (.failure ("error: could not read stdin: " ++ fault.message ++ "\n"))
  | .ast source => pure (showTree json source)
  | .tokens source => pure (showTokens json source)
  | .vars source => pure (showVariables json settings.vars source)

/-- Does what a request asks for. The settings are loaded first. -/
def respond (world : World m) : Request → m Outcome
  | .misuse => pure ⟨2, "", misuseText⟩
  | .version => pure (.success versionText)
  | .help verb => pure (.success (helpText verb))
  | .run i => do
    let settings ← match i.options.settingsPath with
      | some path => Settings.load world.files path
      | none => Settings.discover world.files world.workDirectory
    match settings with
    | .error e => pure (reported "" e.toError)
    | .ok settings => perform world settings i

def run (world : World m) (args : List String) : m Outcome := respond world (request args)

end SchemaExpr.Command
