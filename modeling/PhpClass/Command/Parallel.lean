import PhpClass.Command.Format

/-!
# Formatting in parallel

The files below a directory are formatted by workers, each with one file. A worker reads its file, then writes it if
that is to be done, and then reports and counts what became of it. The workers take these turns in any order
(`Format.Pool.run`).
-/

namespace PhpClass

namespace Format

/-- How far a worker has come. -/
inductive Progress where
  | waiting
  /-- The file has been read, or cannot be. -/
  | read (content : Except AccessError Text)
  /-- The file has its new content, if it gets one. -/
  | settled (result : Except Text Outcome)
  | counted

/-- A worker and its file. -/
structure Worker where
  path : Text
  progress : Progress := .waiting

/-- A turn of a worker. Returns how far it has come then, and what it has counted. -/
def Worker.turn (mode : Mode) (w : Worker) : Command (Progress × Summary) := do
  match w.progress with
  | .waiting => return (.read ((← Command.disk).read w.path), {})
  | .read content => return (.settled (← settle mode w.path content), {})
  | .settled result => return (.counted, ← record mode w.path result)
  | .counted => return (.counted, {})

/-- The workers on a directory, and what they have counted together. -/
structure Pool where
  workers : List Worker
  summary : Summary := {}

namespace Pool

/-- A worker for each file. -/
def start (paths : List Text) : Pool := { workers := paths.map fun path => { path } }

/-- The worker with a number takes its turn. -/
def turn (mode : Mode) (pool : Pool) (i : Nat) : Command Pool := do
  match pool.workers[i]? with
  | none => return pool
  | some w =>
    let (progress, count) ← w.turn mode
    return { workers := pool.workers.set i { w with progress }, summary := pool.summary + count }

/-- The workers take turns in the order of a schedule. -/
def run (mode : Mode) : List Nat → Pool → Command Pool
  | [], pool => return pool
  | i :: schedule, pool => do run mode schedule (← pool.turn mode i)

/-- Whether all workers have counted their files. -/
def IsDone (pool : Pool) : Prop := ∀ w ∈ pool.workers, w.progress = .counted

end Pool

/-- Formats the class files below a directory, the workers taking turns in the order of a schedule. -/
def formatDirectoryInTurns (mode : Mode) (path : Text) (schedule : List Nat) : Command Pool := do
  match Files.under (← Command.disk) path with
  | .ok paths => Pool.run mode schedule (Pool.start paths)
  | .error cause =>
    Command.complainLine
      (utf8 "Error reading directory '" ++ path ++ utf8 "': " ++ cause.text)
    return { workers := [] }

end Format

end PhpClass
