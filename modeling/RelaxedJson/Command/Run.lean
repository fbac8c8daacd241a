-- SUMMARY: What the command does with its input.
import RelaxedJson.Command.FileTree
import RelaxedJson.Command.Flags
import RelaxedJson.Command.Output
import RelaxedJson.Command.TokenTable
import RelaxedJson.Value.Parse

/-!
# Running the command

The command reads documents and writes each of them with the writer of the selected format. A
document that fails is reported and does not keep others from being read; the first failure is that
of the command.
-/

namespace RelaxedJson.Command

/-- Why the command fails. -/
inductive Failure where
  | flag (e : FlagError)
  | unknownFormat (e : UnknownFormat)
  | watchWithoutFiles
  /-- A file that cannot be opened. -/
  | unopenable (name : Bytes) (fault : FileFault)
  /-- A file that can be opened but not read. -/
  | unreadable (name : Bytes) (fault : FileFault)
  | malformed (name : Bytes) (e : SyntaxError)
  | unbuildable (name : Bytes) (e : BuildError)
  | unwritable (e : OutputError)
  | unwatchable (directory : Bytes) (fault : FileFault)
  deriving DecidableEq, Repr

/-- The wording of a failure. -/
def Failure.message : Failure → Bytes
  | .flag e                => e.message
  | .unknownFormat e       => e.message
  | .watchWithoutFiles     => "--watch requires at least one file argument".utf8
  | .unopenable name fault => "open input: open ".utf8 ++ name ++ ": ".utf8 ++ fault.message
  | .unreadable name fault =>
    "read ".utf8 ++ name ++ ": read ".utf8 ++ name ++ ": ".utf8 ++ fault.message
  | .malformed name e      => name ++ ": ".utf8 ++ e.message
  | .unbuildable name e    => name ++ ": ".utf8 ++ e.message
  | .unwritable e          => e.message
  | .unwatchable dir fault =>
    "watch directory ".utf8 ++ Quoted.text dir ++ ": ".utf8 ++ fault.message

/-- The failure that a fault of a file is. A directory can be opened, but not read. -/
def Failure.ofFault (name : Bytes) : FileFault → Failure
  | .isDirectory => .unreadable name .isDirectory
  | fault        => .unopenable name fault

/-- What a part of a run leaves behind. -/
structure Report where
  stdout : Bytes := []
  logs : List LogEntry := []
  failure : Option Failure := none
  deriving DecidableEq, Repr

namespace Report

/-- One report behind another; the first failure counts. -/
def append (a b : Report) : Report :=
  { stdout := a.stdout ++ b.stdout, logs := a.logs ++ b.logs, failure := a.failure <|> b.failure }

instance : Append Report := ⟨append⟩

/-- The report with a message about its failure. -/
def logFailure (r : Report) : Report :=
  match r.failure with
  | none   => r
  | some e => { r with logs := r.logs ++ [⟨.error, e.message⟩] }

end Report

/-- A dialect to read and what to write. -/
structure Job where
  dialect : Dialect
  /-- Whether tokens are listed instead of values written. -/
  tokens : Bool
  write : Writer

namespace Job

/-- Writes the value of a document. -/
def writeValue (j : Job) (v : Value) : Report :=
  let w := j.write v
  { stdout := w.output, logs := w.logs, failure := w.failure.map .unwritable }

/-- Reads the value of a document from its tokens and writes it. -/
def processTokens (j : Job) (name : Bytes) (ts : List Token) : Report :=
  match Value.ofTokens j.dialect ts with
  | .ok v =>
    let parsed : LogEntry :=
      ⟨.info, "parsed ".utf8 ++ name ++ " (".utf8 ++ Bytes.ofNat ts.length ++ " tokens)".utf8⟩
    { logs := [parsed] } ++ j.writeValue v
  | .error (.malformed e) => { failure := some (.malformed name e) }
  | .error (.refused e)   => { failure := some (.unbuildable name e) }
  | .error .exhausted     => { failure := some (.unbuildable name .incomplete) }

/-- Processes a document. -/
def processText (j : Job) (name text : Bytes) : Report :=
  let read : LogEntry :=
    ⟨.debug, "read ".utf8 ++ Bytes.ofNat text.length ++ " bytes from ".utf8 ++ name⟩
  { logs := [read] } ++
    match Token.scan j.dialect text with
    | .error e => { failure := some (.malformed name e) }
    | .ok ts   => if j.tokens then { stdout := tokenTable ts } else j.processTokens name ts

/-- Processes a file. -/
def processFile (j : Job) (fs : FileSystem) (name : Bytes) : Report :=
  match fs.read name with
  | .error fault => { failure := some (.ofFault name fault) }
  | .ok text     => j.processText name text

/-- Processes files in order. -/
def processFiles (j : Job) (fs : FileSystem) : List Bytes → Report
  | []            => {}
  | name :: names => (j.processFile fs name).logFailure ++ j.processFiles fs names

end Job

/-! ## The command line -/

/-- The name of the document on standard input. -/
def standardInput : Bytes := "<stdin>".utf8

/-- What a command line asks for. -/
inductive Request where
  | help
  | fail (e : Failure)
  /-- Process standard input. -/
  | input (j : Job)
  | files (j : Job) (names : List Bytes)
  | watch (j : Job) (names : List Bytes)

/-- The job that options amount to, where formats are written with the given writers. -/
def Options.job (o : Options) (write : OutputFormat → Writer := OutputFormat.write) :
    Except UnknownFormat Job :=
  match OutputFormat.ofName? o.format with
  | none        => .error ⟨o.format⟩
  | some format => .ok { dialect := o.dialect, tokens := o.tokens, write := write format }

/-- What a command line asks for, and its verbosity, where arguments are read and formats written in
    the given ways. -/
def Request.ofArguments (args : List Bytes) (write : OutputFormat → Writer := OutputFormat.write)
    (read : ArgumentReader := Options.parse) : Request × Int :=
  match read args with
  | .error e => (.fail (.flag e), 0)
  | .ok (o, names) =>
    if o.help then (.help, o.verbosity)
    else match o.job write with
      | .error e => (.fail (.unknownFormat e), o.verbosity)
      | .ok j =>
        match names, o.watch with
        | [], true     => (.fail .watchWithoutFiles, o.verbosity)
        | [], false    => (.input j, o.verbosity)
        | names, true  => (.watch j names, o.verbosity)
        | names, false => (.files j names, o.verbosity)

/-- A line about a flag. -/
def helpLine (f : Flag) : Bytes :=
  let letter := match f.letter? with
    | some c => ['-'.ascii, c.ascii] ++ ", ".utf8
    | none   => "    ".utf8
  TabStops.fill 24 ("  ".utf8 ++ letter ++ "--".utf8 ++ f.name.utf8) ++ f.purpose.utf8 ++ ['\n'.ascii]

/-- The help text. -/
def helpText : Bytes :=
  "Read JSON documents and write them to standard output.\n\nFlags:\n".utf8 ++
    Flag.all.flatMap helpLine

/-- What a request leaves behind that does not watch, or up to where watching starts. Failures do not
    keep a command from watching. -/
def Request.start (fs : FileSystem) (stdin : Bytes) : Request → Report
  | .help          => { stdout := helpText }
  | .fail e        => { failure := some e }
  | .input j       => j.processText standardInput stdin
  | .files j names => j.processFiles fs names
  | .watch j names => { j.processFiles fs names with failure := none }

/-- What the command shows when it ends. -/
structure Ending where
  stdout : Bytes
  stderr : Bytes
  exitCode : Nat
  logs : List LogEntry
  failure : Option Failure
  deriving DecidableEq, Repr

/-- The end of a command with the given report, where `keeps` selects the levels of messages. -/
def Report.ending (r : Report) (verbosity : Int)
    (keeps : Int → Level → Bool := Level.isKept) : Ending :=
  { stdout   := r.stdout
    stderr   := match r.failure with
      | none   => []
      | some e => "Error: ".utf8 ++ e.message ++ ['\n'.ascii]
    exitCode := if r.failure.isSome then 1 else 0
    logs     := keepLogs verbosity r.logs keeps
    failure  := r.failure }

end RelaxedJson.Command
