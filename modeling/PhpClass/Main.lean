import PhpClass.Command.Dispatch

/-!
# The program

The part of the disk that the arguments name is read into a tree, the command runs on that tree, and the
files that it has changed are written back.
-/

namespace PhpClass

namespace Program

def bytes (t : Text) : ByteArray := ⟨t.toArray⟩

def ofBytes (b : ByteArray) : Text := b.data.toList

/-- The path of an address. -/
def path (address : List Text) : String :=
  (String.fromUTF8? (bytes (utf8 "/" ++ Text.join (utf8 "/") address))).getD "/"

/-- The address of a path that is read from the current directory on. -/
def address (here : List Text) (path : Text) : List Text :=
  let step (address : List Text) (name : Text) : List Text :=
    if name = [] || name = utf8 "." then address
    else if name = utf8 ".." then address.dropLast
    else address ++ [name]
  (Disk.names path).foldl step (if path.head? = some (ascii '/') then [] else here)

/-- Reads the content of a file into the tree. -/
def loadFile (address : List Text) (t : Tree) : IO Tree := do
  return t.putFile (ofBytes (← IO.FS.readBinFile (path address))) address

/-- Reads what is at an address into the tree, and below a directory all that formatting looks at. -/
partial def load (address : List Text) (t : Tree) : IO Tree := do
  let place := (← IO.currentDir) / path address
  if ← place.isDir then
    let mut t := t.putDir address
    for entry in ← place.readDir do
      let name := utf8 entry.fileName
      if Files.isVisited name && ((← entry.path.isDir) || Files.isPhp name) then
        t ← load (address ++ [name]) t
    return t
  else if ← place.pathExists then loadFile address t
  else return t

/-- Reads the directories that lead to an address into the tree. -/
def loadWay (done : List Text) (t : Tree) : List Text → IO Tree
  | [] => return t
  | name :: names => do
    let place := (← IO.currentDir) / path done
    if ← place.isDir then loadWay (done ++ [name]) (t.putDir done) names
    else if ← place.pathExists then return t.putFile [] done
    else return t

/-- The disk as far as the arguments name it. -/
def loadDisk (args : List Text) : IO Disk := do
  let here := address [] (utf8 (toString (← IO.currentDir)))
  let mut root := Tree.nil.putDir here
  for p in Dispatch.paths args do
    let target := address here p
    root ← load target (← loadWay [] root target)
  return ⟨root, here⟩

/-- Writes the files back whose content has changed. -/
def save (before after : Tree) : IO Unit := do
  for (address, content) in after.files do
    if before.node? address ≠ some (.file content) then
      IO.FS.writeBinFile (path address) (bytes content)

/-- Reads a stream to its end. -/
partial def readAll (stream : IO.FS.Stream) (read : ByteArray) : IO ByteArray := do
  let more ← stream.read 65536
  if more.isEmpty then return read else readAll stream (read ++ more)

/-- Runs the program. Returns the exit code. -/
def run (args : List Text) : IO UInt32 := do
  let input ← if Dispatch.wantsInput args then readAll (← IO.getStdin) .empty else pure .empty
  let disk ← loadDisk args
  let (code, s) := (Dispatch.run args).run { disk, input := ofBytes input }
  save disk.root s.disk.root
  (← IO.getStdout).write (bytes s.output)
  (← IO.getStderr).write (bytes s.errors)
  return code.toUInt32

end Program

end PhpClass

/-- The command line. -/
def main (args : List String) : IO UInt32 := PhpClass.Program.run (args.map PhpClass.utf8)
