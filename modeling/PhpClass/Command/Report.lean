import PhpClass.Files.Disk
import PhpClass.Grammar.Failure

/-!
# Error reports

What is shown for a file that could not be used. Where the place of an error is known, the line is shown
with a caret under the column.
-/

namespace PhpClass

/-- Why a class file could not be used. -/
inductive FileError where
  | notFound (path : Text)
  | inaccessible (path : Text) (cause : AccessError)
  | unreadable (error : ReadError)
  deriving DecidableEq, Repr

namespace FileError

/-- A failed access to a path. -/
def ofAccess (path : Text) : AccessError → FileError
  | .missing => .notFound path
  | cause => .inaccessible path cause

def message : FileError → Text
  | notFound path => utf8 "not found: file '" ++ path ++ utf8 "'"
  | inaccessible path cause => utf8 "cannot access '" ++ path ++ utf8 "': " ++ cause.text
  | unreadable error => error.message

end FileError

namespace Report

/-- The line of the source in which an offset lies, without its end. -/
def sourceLine? (source : Text) (offset : Nat) : Option Text :=
  if offset ≤ source.length && Text.isBoundary source offset then
    let before := ((source.take offset).reverse.takeWhile (· != Byte.lineFeed)).reverse
    let behind := (source.drop offset).takeWhile (· != Byte.lineFeed)
    some (Text.dropReturns (before ++ behind))
  else none

/-- A line of output. -/
def line (t : Text) : Text := t ++ newline

def spaces (n : Nat) : Text := List.replicate n Byte.space

/-- A line of the source with its number, and a caret under the column. -/
def excerpt (place : Position) (sourceLine : Text) : Text :=
  let number := decimal place.line
  let margin := utf8 "  " ++ spaces number.length ++ utf8 " |"
  line margin ++
  line (utf8 "  " ++ number ++ utf8 " | " ++ sourceLine) ++
  line (margin ++ utf8 " " ++ spaces (place.column - 1) ++ utf8 "^")

/-- The report on a file. -/
def render (path source : Text) (error : FileError) : Text :=
  match error with
  | .unreadable (.malformed cause offset place) =>
    line (utf8 "error: " ++ cause.text) ++
    line (utf8 "  --> " ++ path ++ utf8 ":" ++ place.text) ++
    (sourceLine? source offset).elim [] (excerpt place)
  | error => line (utf8 "error: " ++ path ++ utf8 ": " ++ error.message)

end Report

end PhpClass
