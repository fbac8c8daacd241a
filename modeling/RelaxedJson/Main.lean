-- SUMMARY: The command as a program.
import RelaxedJson.Command.Watch

/-!
# The program

Reads what a command line asks for, hands it to the command and prints what the command leaves
behind: its output on standard output, its messages and its failure on standard error. Watching goes
on until the program is interrupted.
-/

namespace RelaxedJson.Program

open RelaxedJson.Command

/-! ## Output -/

/-- Writes bytes to a stream. -/
def put (stream : IO.FS.Stream) (bytes : Bytes) : IO Unit := do
  stream.write (ByteArray.mk bytes.toArray)
  stream.flush

/-- A message as a line. -/
def logLine (entry : LogEntry) : Bytes :=
  entry.level.name.utf8 ++ ": ".utf8 ++ entry.message ++ ['\n'.ascii]

/-- Prints a report and gives its exit code. -/
def print (verbosity : Int) (report : Report) : IO UInt32 := do
  let ending := report.ending verbosity
  put (← IO.getStdout) ending.stdout
  put (← IO.getStderr) (ending.logs.flatMap logLine ++ ending.stderr)
  return ending.exitCode.toUInt32

/-! ## Input -/

/-- A name as the system takes it. -/
def systemName (name : Bytes) : String :=
  String.ofList name.chars

/-- Whether an error of the system has the given number, with either sign. -/
def isCode (number code : UInt32) : Bool :=
  code = number || code = -number

/-- The fault that an error of the system is. -/
def faultOf (e : IO.Error) : FileFault :=
  match e with
  | .noFileOrDirectory ..       => .missing
  | .inappropriateType _ code _ => if isCode 21 code then .isDirectory else .notDirectory
  | .invalidArgument _ code _   => if isCode 36 code then .nameTooLong else .invalidName
  | .permissionDenied ..        => .other "permission denied".utf8
  | e                           => .other (toString e).utf8

/-- The contents of a file. -/
def readFile (name : Bytes) : IO (Except FileFault Bytes) := do
  match ← (IO.FS.readBinFile (systemName name)).toBaseIO with
  | .ok contents => return .ok contents.toList
  | .error e     => return .error (faultOf e)

/-- Why a directory cannot be watched. -/
def watchFault? (directory : Bytes) : IO (Option FileFault) := do
  match ← (IO.FS.realPath (systemName directory)).toBaseIO with
  | .ok _    => return none
  | .error e => return some (faultOf e)

/-- Reads a stream to its end, behind what was read before. -/
partial def readToEnd (stream : IO.FS.Stream) (before : ByteArray) : IO ByteArray := do
  let chunk ← stream.read 65536
  if chunk.isEmpty then return before else readToEnd stream (before ++ chunk)

/-- The files of the given names as they are now, and the directories they are in. -/
def snapshot (names : List Bytes) : IO FileSystem := do
  let files ← names.mapM fun name => return (name, ← readFile name)
  let directories ← (names.map fun name => FileName.directory (FileName.clean name)).mapM
    fun directory => return (directory, ← watchFault? directory)
  return {
    read        := fun name => (files.lookup name).getD (.error .missing)
    watchFault? := fun directory => (directories.lookup directory).getD (some .missing) }

/-! ## Watching -/

/-- The pause between two looks at the watched files, in milliseconds. -/
def pause : UInt32 := 200

/-- The change between two states of a file that is new contents. -/
def newContents? : (before after : Except FileFault Bytes) → Option Operation
  | .error _,   .ok _     => some .create
  | .ok before, .ok after => if before = after then none else some .write
  | _,          .error _  => none

/-- Looks at the watched files again and again, and has those processed that have new contents. -/
partial def keepWatching (watch : Watch) (verbosity : Int) (before : FileSystem) : IO Unit := do
  IO.sleep pause
  let names := watch.list.files.map Prod.snd
  let after ← snapshot names
  for name in names do
    if let some operation := newContents? (before.read name) (after.read name) then
      discard <| print verbosity (watch.react (.change name [operation] after))
  keepWatching watch verbosity after

end RelaxedJson.Program

open RelaxedJson Command Program in
/-- Runs the command. -/
def main (args : List String) : IO UInt32 := do
  let (request, verbosity) := Request.ofArguments (args.map String.utf8)
  match request with
  | .watch job names =>
    let files ← snapshot names
    discard <| Program.print verbosity (request.start files [])
    match WatchList.ofNames files names with
    | .error e => Program.print verbosity { failure := some e }
    | .ok list =>
      let watch : Watch := { job, list }
      let code ← Program.print verbosity watch.ready
      keepWatching watch verbosity files
      return code
  | .files _ names => Program.print verbosity (request.start (← snapshot names) [])
  | .input _ =>
    let text ← readToEnd (← IO.getStdin) ByteArray.empty
    Program.print verbosity (request.start (← snapshot []) text.toList)
  | _ => Program.print verbosity (request.start (← snapshot []) [])
