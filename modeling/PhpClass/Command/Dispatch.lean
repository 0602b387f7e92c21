import PhpClass.Command.Format
import PhpClass.Command.Outline

/-!
# The command line

The first argument names the command, the others belong to it.
-/

namespace PhpClass

namespace Dispatch

/-- The lines that explain the program. -/
def usage : List Text := [
  "Class file manipulator",
  "",
  "Usage: cmc <command> [options]",
  "",
  "Commands:",
  "  fmt [paths...]       Regenerate class files in canonical layout",
  "  parse <file.php>     Parse a class file and print its outline",
  "  help                 Show this help message",
  "  version              Show version information",
  "",
  "Format options:",
  "  --check             Check if files are formatted (exit 1 if not)",
  "  --diff              Show diff output instead of modifying files",
  "  --stdin             Read from stdin, write to stdout",
  "",
  "Set RUST_LOG (for example RUST_LOG=cm_parse=trace) for debug output.",
  "",
  "Examples:",
  "  cmc fmt                          # Format all files under .",
  "  cmc fmt --check src/             # Check formatting (for CI)",
  "  cmc fmt --diff src/User.php      # Preview changes",
  "  cat User.php | cmc fmt --stdin   # Format stdin to stdout",
  "  cmc parse src/User.php"].map utf8

/-- The commands. -/
inductive Verb where
  | format (args : List Text)
  | outline (args : List Text)
  | help
  | version
  | unknown (word : Text)
  deriving DecidableEq, Repr

/-- The command that the arguments ask for. -/
def Verb.ofArgs : List Text → Verb
  | [] => help
  | word :: args =>
    if word = utf8 "fmt" then format args
    else if word = utf8 "parse" then outline args
    else if [utf8 "help", utf8 "--help", utf8 "-h"].contains word then help
    else if [utf8 "version", utf8 "--version", utf8 "-V"].contains word then version
    else unknown word

def printUsage : Command Unit := Command.print (usage.flatMap (· ++ newline))

/-- Runs the program with its arguments. Returns the exit code. -/
def run (args : List Text) : Command Nat := do
  match Verb.ofArgs args with
  | .format args => Format.run args
  | .outline [] =>
    Command.complainLine (utf8 "Usage: cmc parse <file.php>")
    return 1
  | .outline (path :: _) => Outline.run path
  | .help =>
    printUsage
    return 0
  | .version =>
    Command.printLine (utf8 "cmc 0.1.0")
    return 0
  | .unknown word =>
    Command.complainLine (utf8 "Unknown command: " ++ word)
    Command.complainLine []
    printUsage
    return 1

/-- The paths that the arguments name. -/
def paths (args : List Text) : List Text :=
  match Verb.ofArgs args with
  | .format args =>
    match Format.Options.read {} args with
    | .run o => if o.stdin then [] else o.effectivePaths
    | _ => []
  | .outline (path :: _) => [path]
  | _ => []

/-- Whether the arguments ask for the standard input. -/
def wantsInput (args : List Text) : Bool :=
  match Verb.ofArgs args with
  | .format args =>
    match Format.Options.read {} args with
    | .run o => o.stdin && o.paths.isEmpty && !o.check && !o.diff
    | _ => false
  | _ => false

end Dispatch

end PhpClass
