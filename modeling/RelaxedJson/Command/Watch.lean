-- SUMMARY: Watching files and processing them anew when they change.
import RelaxedJson.Command.Run
import RelaxedJson.Value.Plain

/-!
# Watching

The directories of the files are watched, so that a file is noticed also if it is replaced as a
whole. Each change that creates or writes a watched file has the file processed once; nothing else
does. Failures are logged and do not end the watch.
-/

namespace RelaxedJson.Command

/-- What happened to a file. -/
inductive Operation where
  | create
  | remove
  | write
  | rename
  | chmod
  deriving DecidableEq, Repr

/-- The name of an operation. -/
def Operation.name : Operation → String
  | .create => "CREATE"
  | .remove => "REMOVE"
  | .write  => "WRITE"
  | .rename => "RENAME"
  | .chmod  => "CHMOD"

/-- The operations in the order in which they are named. -/
def Operation.all : List Operation :=
  [.create, .remove, .write, .rename, .chmod]

/-- The names of several operations. -/
def operationsText (operations : List Operation) : Bytes :=
  match Operation.all.filter (· ∈ operations) with
  | []  => "[no events]".utf8
  | ops => Bytes.join "|".utf8 (ops.map fun op => op.name.utf8)

/-- Something that is noticed while watching. -/
inductive Occurrence where
  /-- A change to a file, and the files as they are then. -/
  | change (name : Bytes) (operations : List Operation) (fs : FileSystem)
  /-- A failure of the watch itself. -/
  | trouble (message : Bytes)

/-- What is watched. -/
structure WatchList where
  /-- The file names by their simplified forms, each as it was given last. -/
  files : KeyMap Bytes := []
  directories : List Bytes := []
  deriving DecidableEq, Repr

namespace WatchList

/-- Adds a file. Its directory is watched, unless it is already. -/
def add (fs : FileSystem) (l : WatchList) (name : Bytes) : Except Failure WatchList :=
  let simple := FileName.clean name
  let directory := FileName.directory simple
  let files := l.files.insert simple name
  if directory ∈ l.directories then .ok { l with files }
  else match fs.watchFault? directory with
    | some fault => .error (.unwatchable directory fault)
    | none       => .ok { files, directories := directory :: l.directories }

/-- The files of the given names, unless a directory cannot be watched. -/
def ofNames (fs : FileSystem) (names : List Bytes) : Except Failure WatchList :=
  names.foldlM (add fs) {}

/-- The file name, as it was given, that is equivalent to a name. -/
def match? (l : WatchList) (name : Bytes) : Option Bytes :=
  l.files.lookup (FileName.clean name)

end WatchList

/-- A watch that has been set up. -/
structure Watch where
  job : Job
  list : WatchList

namespace Watch

/-- The message that the watch is set up. -/
def ready (w : Watch) : Report :=
  { logs :=
      [⟨.notice, "watching ".utf8 ++ Bytes.ofNat w.list.files.length ++ " files".utf8⟩] }

/-- Whether a change is one that makes new contents. -/
def isRelevant (operations : List Operation) : Bool :=
  operations.contains .create || operations.contains .write

/-- What an occurrence leads to. -/
def react (w : Watch) : Occurrence → Report
  | .trouble message => { logs := [⟨.warning, "watch: ".utf8 ++ message⟩] }
  | .change name operations fs =>
    match w.list.match? name with
    | none => {}
    | some given =>
      if isRelevant operations then
        let noticed : LogEntry := ⟨.debug, given ++ ": ".utf8 ++ operationsText operations⟩
        { ({ logs := [noticed] } ++ (w.job.processFile fs given).logFailure : Report) with
          failure := none }
      else {}

/-- What the end of a watch leaves behind. -/
def stop : Report :=
  { logs := [⟨.info, "watch stopped".utf8⟩] }

/-- Follows what is noticed, one occurrence after the other, until the watch is stopped. -/
def follow (w : Watch) : List Occurrence → List Report × Report
  | []      => ([], stop)
  | o :: os =>
    let (reactions, finish) := w.follow os
    (w.react o :: reactions, finish)

end Watch

/-- A run of the command that watches: what it leaves behind when it starts, for each occurrence, and
    when it ends. -/
structure WatchRun where
  start : Report
  reactions : List Report := []
  finish : Report

/-- Runs the command until it is told to stop, which is after the given occurrences. A command that
    does not get to watch ends by itself. -/
def runWatch (args : List Bytes) (fs : FileSystem) (stdin : Bytes) (occurrences : List Occurrence)
    (write : OutputFormat → Writer := OutputFormat.write) (read : ArgumentReader := Options.parse) :
    WatchRun :=
  let request := (Request.ofArguments args write read).1
  let first := request.start fs stdin
  match request with
  | .watch job names =>
    match WatchList.ofNames fs names with
    | .error e => { start := { first with failure := none }, finish := { failure := some e } }
    | .ok list =>
      let w : Watch := { job, list }
      let (reactions, finish) := w.follow occurrences
      { start := first ++ w.ready, reactions, finish }
  | _ => { start := { first with failure := none }, finish := { failure := first.failure } }

/-- All that a run leaves behind. -/
def WatchRun.report (w : WatchRun) : Report :=
  w.reactions.foldl (· ++ ·) w.start ++ w.finish

/-- Runs the command. If it watches, it is told to stop before anything changes. -/
def run (args : List Bytes) (fs : FileSystem) (stdin : Bytes)
    (write : OutputFormat → Writer := OutputFormat.write) (read : ArgumentReader := Options.parse)
    (keeps : Int → Level → Bool := Level.isKept) : Ending :=
  (runWatch args fs stdin [] write read).report.ending (Request.ofArguments args write read).2 keeps

end RelaxedJson.Command
