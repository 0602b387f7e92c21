import PhpClass.ClassFile.Outline
import PhpClass.Command.Report
import PhpClass.Command.Session
import PhpClass.Grammar.File

/-!
# Showing an outline

The command that reads a class file and prints its outline.
-/

namespace PhpClass

namespace Outline

/-- The class file at a path, or the report on why there is none. -/
def load (disk : Disk) (path : Text) : Except Text ClassFile := do
  let source ← (disk.read path).mapError fun e => Report.render path [] (.ofAccess path e)
  (ClassFile.parse source).mapError fun e => Report.render path source (.unreadable e)

/-- Prints the outline of the file at a path. Returns the exit code. -/
def run (path : Text) : Command Nat := do
  match load (← Command.disk) path with
  | .ok f =>
    Command.print f.outline
    return 0
  | .error report =>
    Command.complain report
    return 1

end Outline

end PhpClass
