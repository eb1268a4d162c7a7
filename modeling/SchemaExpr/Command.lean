/-!
# Command-line arguments

The arguments name a task with its expressions. Options may stand before the name of the task and
after it, and two dashes end them. Arguments are read from left to right, and the first one that
decides the matter wins.
-/
namespace SchemaExpr.Command

inductive Verb where
  | lower
  | ast
  | tokens
  | vars
  deriving DecidableEq, Repr

namespace Verb

def name : Verb → String
  | lower => "lower"
  | ast => "ast"
  | tokens => "tokens"
  | vars => "vars"

def all : List Verb := [lower, ast, tokens, vars]

def ofName? (s : String) : Option Verb := all.find? (·.name == s)

theorem ofName?_name (v : Verb) : ofName? v.name = some v := by cases v <;> decide

/-- Whether the task takes any number of expressions; the others take one. -/
def takesMany : Verb → Bool
  | lower => true
  | _ => false

end Verb

structure Options where
  /-- The settings file, if one is named. -/
  settingsPath : Option String
  json : Bool
  deriving DecidableEq, Repr

namespace Options

def unset : Options := ⟨none, false⟩

/-- Names the settings file, which is done once and not by an empty path. -/
def withPath? (o : Options) (path : String) : Option Options :=
  if o.settingsPath.isSome || path.isEmpty then none else some { o with settingsPath := some path }

/-- Asks for JSON, which is done once. -/
def withJson? (o : Options) : Option Options :=
  if o.json then none else some { o with json := true }

/-- Options from before and after the name of the task; the later path wins. -/
def merge (before after : Options) : Options :=
  ⟨after.settingsPath.or before.settingsPath, before.json || after.json⟩

end Options

inductive Task where
  | lower (sources : List String)
  | ast (source : String)
  | tokens (source : String)
  | vars (source : String)
  deriving DecidableEq, Repr

/-- The task of a name with expressions, if they are of the right number. -/
def Task.ofOperands? : Verb → List String → Option Task
  | .lower, sources => some (lower sources)
  | .ast, [source] => some (ast source)
  | .tokens, [source] => some (tokens source)
  | .vars, [source] => some (vars source)
  | _, _ => none

structure Invocation where
  task : Task
  options : Options
  deriving DecidableEq, Repr

inductive Request where
  | run (invocation : Invocation)
  | version
  | help (verb : Option Verb)
  | misuse
  deriving DecidableEq, Repr

inductive Arg where
  /-- Two dashes, after which no option follows. -/
  | stop
  | long (name : List Char) (value : Option String)
  /-- Letters after one dash, each an option. -/
  | short (letters : List Char)
  | plain (text : String)
  deriving DecidableEq, Repr

/-- The form of an argument. A dash alone is plain. -/
def Arg.ofText (text : String) : Arg :=
  match text.toList with
  | ['-', '-'] => .stop
  | '-' :: '-' :: cs =>
    match cs.dropWhile (· ≠ '=') with
    | [] => .long cs none
    | _ :: value => .long (cs.takeWhile (· ≠ '=')) (some (String.ofList value))
  | '-' :: c :: cs => .short (c :: cs)
  | _ => .plain text

/-- The request that is among short options, if there is one. Verbosity asks for nothing. -/
def shortRequest? (verb : Option Verb) : List Char → Option Request
  | [] => none
  | 'v' :: cs => shortRequest? verb cs
  | 'h' :: _ => some (.help verb)
  | 'V' :: _ => some (if verb.isNone then .version else .misuse)
  | _ => some .misuse

/-- The options after a long option that needs no further argument, or the request that it is. -/
def longOption (verb : Option Verb) (o : Options) (name : String) (value : Option String) :
    Except Request Options :=
  match name, value with
  | "config", some path => (o.withPath? path).elim (.error .misuse) .ok
  | "json", none => o.withJson?.elim (.error .misuse) .ok
  | "verbose", none => .ok o
  | "help", none => .error (.help verb)
  | "version", none => .error (if verb.isNone then .version else .misuse)
  | _, _ => .error .misuse

/-- The path that follows the option for it as an argument of its own. -/
def Options.withPathArg? (o : Options) (arg : String) : Option Options :=
  match Arg.ofText arg with
  | .plain path => o.withPath? path
  | _ => none

/-- The options and expressions after the name of a task; `found` are the expressions so far. -/
def operands (verb : Verb) (o : Options) (found : List String) :
    List String → Except Request (Options × List String)
  | [] => .ok (o, found)
  | arg :: rest =>
    match Arg.ofText arg with
    | .stop => .ok (o, found ++ rest)
    | .plain text =>
      if verb.takesMany || found.isEmpty then operands verb o (found ++ [text]) rest
      else .error .misuse
    | .short letters =>
      match shortRequest? (some verb) letters with
      | some request => .error request
      | none => operands verb o found rest
    | .long name value =>
      if name = "config".toList ∧ value = none then
        match rest with
        | [] => .error .misuse
        | path :: rest =>
          match o.withPathArg? path with
          | some o => operands verb o found rest
          | none => .error .misuse
      else
        match longOption (some verb) o (String.ofList name) value with
        | .ok o => operands verb o found rest
        | .error request => .error request

/-- What is asked by the arguments after the name of a task. -/
def invocation (verb : Verb) (before : Options) (args : List String) : Request :=
  match operands verb Options.unset [] args with
  | .error request => request
  | .ok (after, sources) =>
    match Task.ofOperands? verb sources with
    | some task => .run ⟨task, before.merge after⟩
    | none => .misuse

/-- What is asked by the arguments after the word `help`. -/
def helpOn : List String → Request
  | [] => .help none
  | [name] => (Verb.ofName? name).elim .misuse fun verb => .help (some verb)
  | _ => .misuse

/-- What all arguments ask for, after some options. -/
def requestAfter (o : Options) : List String → Request
  | [] => .misuse
  | arg :: rest =>
    match Arg.ofText arg with
    | .stop => .misuse
    | .plain name =>
      match Verb.ofName? name with
      | some verb => invocation verb o rest
      | none => if name = "help" then helpOn rest else .misuse
    | .short letters => (shortRequest? none letters).getD (requestAfter o rest)
    | .long name value =>
      if name = "config".toList ∧ value = none then
        match rest with
        | [] => .misuse
        | path :: rest =>
          match o.withPathArg? path with
          | some o => requestAfter o rest
          | none => .misuse
      else
        match longOption none o (String.ofList name) value with
        | .ok o => requestAfter o rest
        | .error request => request

def request (args : List String) : Request := requestAfter Options.unset args

end SchemaExpr.Command
