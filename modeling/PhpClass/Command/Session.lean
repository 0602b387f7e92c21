import PhpClass.Files.Disk
import PhpClass.Text.Byte

/-!
# Sessions

What a command works on: the disk and the standard input, and what it has written to the standard output
and to the standard error so far.
-/

namespace PhpClass

/-- The state in which a command runs. -/
structure Session where
  disk : Disk
  input : Text := []
  output : Text := []
  errors : Text := []
  deriving DecidableEq, Repr

/-- A command changes the session and returns a result. -/
abbrev Command (α : Type) := StateM Session α

namespace Command

/-- Writes to the standard output. -/
def print (t : Text) : Command Unit := modify fun s => { s with output := s.output ++ t }

/-- Writes to the standard error. -/
def complain (t : Text) : Command Unit := modify fun s => { s with errors := s.errors ++ t }

/-- A line of output. -/
def printLine (t : Text) : Command Unit := print (t ++ newline)

/-- A line of standard error. -/
def complainLine (t : Text) : Command Unit := complain (t ++ newline)

/-- The disk as it is now. -/
def disk : Command Disk := Session.disk <$> get

/-- Replaces the content of a file. -/
def write (path content : Text) : Command Unit :=
  modify fun s => { s with disk := s.disk.write path content }

end Command

end PhpClass
