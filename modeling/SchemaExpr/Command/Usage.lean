import SchemaExpr.Command

/-!
# Usage texts

What the command line says about itself.
-/
namespace SchemaExpr.Command

def programName : String := "ksexprc"

def versionText : String := programName ++ " 0.1.0\n"

def Verb.about : Verb → String
  | lower => "Print the target source for each expression (reads stdin lines when none are given)"
  | ast => "Print the parsed expression tree"
  | tokens => "Print the token stream"
  | vars => "Print the variable declarations sent to the engine"

/-- The place of the expressions in a usage line. -/
def Verb.operandText : Verb → String
  | lower => "[EXPRS]..."
  | _ => "<EXPR>"

def sharedOptions : String :=
  "Options:\n" ++
  "      --config <CONFIG>  Path to a ksexpr.toml (default: discovered from the current directory)\n" ++
  "      --json             Emit JSON instead of text\n" ++
  "  -v, --verbose...       Increase log verbosity (-v debug, -vv trace)\n" ++
  "  -h, --help             Print help\n"

def usageLine : Option Verb → String
  | none => "Usage: " ++ programName ++ " [OPTIONS] <COMMAND>\n"
  | some verb =>
    "Usage: " ++ programName ++ " " ++ verb.name ++ " [OPTIONS] " ++ verb.operandText ++ "\n"

/-- A line of the list of tasks. -/
def verbLine (name about : String) : String :=
  "  " ++ name ++ String.ofList (List.replicate (8 - name.length) ' ') ++ about ++ "\n"

def helpText : Option Verb → String
  | none =>
    "Lower binary-format schema expressions to host engine source\n\n" ++ usageLine none ++
    "\nCommands:\n" ++ String.join (Verb.all.map fun verb => verbLine verb.name verb.about) ++
    verbLine "help" "Print this message or the help of the given subcommand(s)" ++
    "\n" ++ sharedOptions ++ "  -V, --version          Print version\n"
  | some verb =>
    verb.about ++ "\n\n" ++ usageLine (some verb) ++
    "\nArguments:\n  " ++ verb.operandText ++ "  \n\n" ++ sharedOptions

def misuseText : String :=
  "error: invalid arguments\n\n" ++ usageLine none ++ "\nFor more information, try '--help'.\n"

end SchemaExpr.Command
