import PhpClass.ClassFile.Layout
import PhpClass.Command.Diff
import PhpClass.Command.Report
import PhpClass.Command.Session
import PhpClass.Files.Walk
import PhpClass.Grammar.File

/-!
# Formatting files

A file is formatted by reading it and writing it in canonical form. What is to be done with a file
depends on its content alone (`Verdict.ofContent`); the mode of the run decides whether it is done, shown
or only counted.
-/

namespace PhpClass

namespace Format

/-- Whether files are only checked, and whether changes are shown and not made. -/
structure Mode where
  check : Bool := false
  diff : Bool := false
  deriving DecidableEq, Repr

/-- The canonical form of a source. -/
def regenerate (source : Text) : Except ReadError Text :=
  (ClassFile.parse source).map ClassFile.generate

/-! ## One file -/

/-- What is to be done with a file. -/
inductive Verdict where
  /-- The file cannot be formatted. -/
  | broken (report : Text)
  /-- The file is in canonical form. -/
  | canonical
  /-- The file has another canonical form. -/
  | changed (old new : Text)
  deriving DecidableEq, Repr

namespace Verdict

/-- The verdict on a content, or on the failure to get at it. -/
def ofContent (path : Text) : Except AccessError Text → Verdict
  | .error cause => broken (Report.render path [] (.ofAccess path cause))
  | .ok old =>
    match regenerate old with
    | .error e => broken (Report.render path old (.unreadable e))
    | .ok new => if new = old then canonical else changed old new

end Verdict

/-- What became of a file. -/
inductive Outcome where
  | unchanged
  | formatted
  | wouldFormat
  deriving DecidableEq, Repr

/-- Does what is to be done with a file for what was read of it, or says why that is impossible. -/
def settle (mode : Mode) (path : Text) (content : Except AccessError Text) : Command (Except Text Outcome) := do
  match Verdict.ofContent path content with
  | .broken report => return .error report
  | .canonical => return .ok .unchanged
  | .changed old new =>
    if mode.check then return .ok .wouldFormat
    else if mode.diff then
      Command.print (Diff.text path old new)
      return .ok .wouldFormat
    else
      Command.write path new
      return .ok .formatted

/-- Formats one file, or says why that is impossible. -/
def formatFile (mode : Mode) (path : Text) : Command (Except Text Outcome) := do
  settle mode path ((← Command.disk).read path)

/-- Formats the standard input to the standard output. Tells whether that was possible. -/
def formatInput : Command Bool := do
  let source := (← get).input
  modify fun s => { s with input := [] }
  if !Text.isUtf8 source then
    Command.complainLine (utf8 "Error reading from stdin: " ++ AccessError.notUtf8.text)
    return false
  else
    match regenerate source with
    | .ok text =>
      Command.print text
      return true
    | .error e =>
      Command.complain (Report.render (utf8 "<stdin>") source (.unreadable e))
      return false

/-! ## Many files -/

/-- How many files had which outcome. -/
structure Summary where
  formatted : Nat := 0
  unchanged : Nat := 0
  errors : Nat := 0
  deriving DecidableEq, Repr

/-- The counts of two runs together. -/
def Summary.add (a b : Summary) : Summary :=
  ⟨a.formatted + b.formatted, a.unchanged + b.unchanged, a.errors + b.errors⟩

instance : Add Summary := ⟨Summary.add⟩

/-- Tells what became of a file, and counts it. -/
def record (mode : Mode) (path : Text) : Except Text Outcome → Command Summary
  | .ok .formatted => do
    Command.printLine (utf8 "Formatted: " ++ path)
    return { formatted := 1 }
  | .ok .wouldFormat => do
    if mode.check then Command.printLine (utf8 "Would format: " ++ path)
    return { formatted := 1 }
  | .ok .unchanged => return { unchanged := 1 }
  | .error report => do
    Command.complain report
    return { errors := 1 }

/-- Formats one file and counts it. -/
def visit (mode : Mode) (path : Text) : Command Summary := do
  record mode path (← formatFile mode path)

/-- Formats files one after the other. -/
def visitAll (mode : Mode) : List Text → Command Summary
  | [] => return {}
  | path :: paths => do
    let first ← visit mode path
    return first + (← visitAll mode paths)

/-- Formats the class files below a directory. -/
def formatDirectory (mode : Mode) (path : Text) : Command Summary := do
  match Files.under (← Command.disk) path with
  | .ok paths => visitAll mode paths
  | .error cause =>
    Command.complainLine
      (utf8 "Error reading directory '" ++ path ++ utf8 "': " ++ cause.text)
    return {}

/-- Formats a file, or the class files below a directory. -/
def formatPath (mode : Mode) (path : Text) : Command Summary := do
  if (← Command.disk).isDir path then formatDirectory mode path else visit mode path

/-- Formats what paths lead to, one after the other. -/
def formatPaths (mode : Mode) : List Text → Command Summary
  | [] => return {}
  | path :: paths => do
    let first ← formatPath mode path
    return first + (← formatPaths mode paths)

/-! ## The command -/

/-- What the arguments ask for. -/
structure Options where
  check : Bool := false
  diff : Bool := false
  stdin : Bool := false
  paths : List Text := []
  deriving DecidableEq, Repr

/-- What is to be done for the arguments. -/
inductive Request where
  | help
  | unknown (option : Text)
  | run (options : Options)
  deriving DecidableEq, Repr

/-- Reads the arguments from left to right, on top of those read before. -/
def Options.read (o : Options) : List Text → Request
  | [] => .run o
  | arg :: args =>
    if arg = utf8 "--check" then { o with check := true }.read args
    else if arg = utf8 "--diff" then { o with diff := true }.read args
    else if arg = utf8 "--stdin" then { o with stdin := true }.read args
    else if arg = utf8 "--help" || arg = utf8 "-h" then .help
    else if Text.startsWith (utf8 "-") arg then .unknown arg
    else { o with paths := o.paths ++ [arg] }.read args

/-- The paths of a run. Without one it is the current directory. -/
def Options.effectivePaths (o : Options) : List Text :=
  if o.paths.isEmpty then [utf8 "."] else o.paths

def Options.mode (o : Options) : Mode := ⟨o.check, o.diff⟩

/-- The line with the counts of a run. -/
def totals (mode : Mode) (s : Summary) : Text :=
  newline ++ decimal s.formatted ++ utf8 " " ++
    utf8 (if mode.check then "would format" else "formatted") ++ utf8 ", " ++
    decimal s.unchanged ++ utf8 " unchanged"

/-- The lines that explain the command. -/
def help : List Text := [
  "Format class files",
  "",
  "Usage: cmc fmt [options] [paths...]",
  "",
  "Arguments:",
  "  paths        Files or directories to format (default: .)",
  "",
  "Options:",
  "  --check      Check if files are formatted (exit 1 if not)",
  "  --diff       Show diff output instead of modifying files",
  "  --stdin      Read from stdin, write to stdout",
  "  --help       Show this help message",
  "",
  "Directories are searched for .php files; hidden entries and",
  "vendor/ are skipped."].map utf8

/-- Formats the files that the options name. Returns the exit code. -/
def runPaths (o : Options) : Command Nat := do
  let paths := o.effectivePaths
  let summary ← formatPaths o.mode paths
  let disk ← Command.disk
  if (paths.length > 1 || paths.any disk.isDir) && (summary.formatted > 0 || summary.unchanged > 0)
  then Command.printLine (totals o.mode summary)
  return if summary.errors > 0 || (o.check && summary.formatted > 0) then 1 else 0

/-- Runs with the options. Returns the exit code. -/
def runOptions (o : Options) : Command Nat := do
  if o.stdin then
    if !o.paths.isEmpty || o.check || o.diff then
      Command.complainLine (utf8 "--stdin cannot be combined with paths, --check or --diff")
      return 1
    else return if ← formatInput then 0 else 1
  else runPaths o

/-- Runs the command with its arguments. Returns the exit code. -/
def run (args : List Text) : Command Nat := do
  match Options.read {} args with
  | .help =>
    Command.print (help.flatMap (· ++ newline))
    return 0
  | .unknown option =>
    Command.complainLine (utf8 "Unknown option: " ++ option)
    Command.complainLine (utf8 "Run 'cmc fmt --help' for usage")
    return 1
  | .run o => runOptions o

end Format

end PhpClass
