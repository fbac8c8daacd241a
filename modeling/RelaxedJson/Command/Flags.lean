-- SUMMARY: Reading the command line.
import RelaxedJson.Command.Options
import RelaxedJson.Number.Integer

/-!
# Flags

Arguments that start with a dash are flags, all others are file names, and both may be mixed. A flag
is written with two dashes and its name, or with one dash and its letter; letters may share a dash. A
value stands behind an equals sign, or directly behind a letter, or in the next argument, unless the
flag implies a value. Two dashes alone end the flags.
-/

namespace RelaxedJson.Command

/-- The flags of the command. -/
inductive Flag where
  | js
  | comments
  | trailingCommas
  | singleQuotes
  | unquotedKeys
  | tabWidth
  | maxDepth
  | format
  | tokens
  | watch
  | verbose
  | help
  deriving DecidableEq, Repr

/-- What a flag's value has to be. -/
inductive ValueKind where
  | boolean
  | integer
  deriving DecidableEq, Repr

/-- Why a command line cannot be read. -/
inductive FlagError where
  | badForm (argument : Bytes)
  | unknownName (name : Bytes)
  /-- No flag has the letter that the group starts with. -/
  | unknownLetter (letter : UInt8) (group : Bytes)
  | missingValue (name : Bytes)
  | missingLetterValue (letter : UInt8) (group : Bytes)
  | invalidValue (flag : Flag) (value : Bytes) (kind : ValueKind) (cause : NumeralError)
  deriving DecidableEq, Repr

namespace Flag

/-- All flags. -/
def all : List Flag :=
  [.js, .comments, .trailingCommas, .singleQuotes, .unquotedKeys, .tabWidth, .maxDepth, .format,
   .tokens, .watch, .verbose, .help]

/-- The name of a flag. -/
def name : Flag → String
  | .js             => "js"
  | .comments       => "comments"
  | .trailingCommas => "trailing-commas"
  | .singleQuotes   => "single-quotes"
  | .unquotedKeys   => "unquoted-keys"
  | .tabWidth       => "tab-width"
  | .maxDepth       => "max-depth"
  | .format         => "format"
  | .tokens         => "tokens"
  | .watch          => "watch"
  | .verbose        => "verbose"
  | .help           => "help"

/-- The letter of a flag. -/
def letter? : Flag → Option Char
  | .format  => some 'f'
  | .watch   => some 'w'
  | .verbose => some 'v'
  | .help    => some 'h'
  | _        => none

/-- What a flag does, in a few words. -/
def purpose : Flag → String
  | .js             => "enable all relaxations"
  | .comments       => "allow line and block comments"
  | .trailingCommas => "allow trailing commas in arrays and objects"
  | .singleQuotes   => "allow single-quoted strings"
  | .unquotedKeys   => "allow unquoted identifiers as object keys"
  | .tabWidth       => "columns per tab in error locations (0 means default)"
  | .maxDepth       => "maximum nesting depth (0 means default)"
  | .format         => "output format (json, yaml, toml)"
  | .tokens         => "print the token stream instead of the value"
  | .watch          => "reprocess files when they change"
  | .verbose        => "increase log verbosity"
  | .help           => "show this help"

/-- The flag of a name. -/
def ofName? (name : Bytes) : Option Flag :=
  all.find? fun f => f.name.utf8 = name

/-- The flag of a letter. -/
def ofLetter? (letter : UInt8) : Option Flag :=
  all.find? fun f => f.letter?.any (·.ascii = letter)

/-- The value that a flag has where none is given. -/
def implied? : Flag → Option Bytes
  | .tabWidth => none
  | .maxDepth => none
  | .format   => none
  | .verbose  => some "+1".utf8
  | _         => some "true".utf8

/-- How messages name a flag. -/
def title (f : Flag) : Bytes :=
  match f.letter? with
  | some c => '-'.ascii :: c.ascii :: ", --".utf8 ++ f.name.utf8
  | none   => "--".utf8 ++ f.name.utf8

/-- The truth value of a text. -/
def boolean? (value : Bytes) : Option Bool :=
  if value ∈ ["1", "t", "T", "TRUE", "true", "True"].map String.utf8 then some true
  else if value ∈ ["0", "f", "F", "FALSE", "false", "False"].map String.utf8 then some false
  else none

/-- The integer of a text. -/
def integer (value : Bytes) : Except NumeralError Int :=
  Integer.signed .announced value.chars

/-- Sets a flag to a value. -/
def set (f : Flag) (value : Bytes) (o : Options) : Except FlagError Options :=
  let withBool (update : Bool → Options) : Except FlagError Options :=
    match boolean? value with
    | some b => .ok (update b)
    | none   => .error (.invalidValue f value .boolean .malformed)
  let withInt (update : Int → Options) : Except FlagError Options :=
    match integer value with
    | .ok i    => .ok (update i)
    | .error e => .error (.invalidValue f value .integer e)
  match f with
  | .js             => withBool fun b => { o with js := b }
  | .comments       => withBool fun b => { o with comments := b }
  | .trailingCommas => withBool fun b => { o with trailingCommas := b }
  | .singleQuotes   => withBool fun b => { o with singleQuotes := b }
  | .unquotedKeys   => withBool fun b => { o with unquotedKeys := b }
  | .tokens         => withBool fun b => { o with tokens := b }
  | .watch          => withBool fun b => { o with watch := b }
  | .help           => withBool fun b => { o with help := b }
  | .tabWidth       => withInt fun i => { o with tabWidth := i }
  | .maxDepth       => withInt fun i => { o with maxDepth := i }
  | .format         => .ok { o with format := value }
  | .verbose        =>
    if value = "+1".utf8 then .ok { o with verbosity := o.verbosity + 1 }
    else withInt fun i => { o with verbosity := i }

end Flag

/-- The character that messages show for the letter of an unknown flag. A byte above ASCII is shown
    by the lead byte of its encoding as a code point. -/
def shownLetter (b : UInt8) : Char :=
  if b < 0x80 then Char.ofNat b.toNat else if b < 0xC0 then '\u00C2' else '\u00C3'

/-- The wording of a flag error. -/
def FlagError.message : FlagError → Bytes
  | .badForm arg           => "bad flag syntax: ".utf8 ++ arg
  | .unknownName name      => "unknown flag: --".utf8 ++ name
  | .unknownLetter b group =>
    "unknown shorthand flag: ".utf8 ++ Quoted.character (shownLetter b) ++ " in -".utf8 ++ group
  | .missingValue name     => "flag needs an argument: --".utf8 ++ name
  | .missingLetterValue b group =>
    "flag needs an argument: ".utf8 ++ Quoted.character (shownLetter b) ++ " in -".utf8 ++ group
  | .invalidValue f value kind cause =>
    let reader := match kind with
      | .boolean => "strconv.ParseBool"
      | .integer => "strconv.ParseInt"
    let problem := match cause with
      | .malformed  => "invalid syntax"
      | .outOfRange => "value out of range"
    "invalid argument ".utf8 ++ Quoted.text value ++ " for ".utf8 ++ Quoted.text f.title ++
      " flag: ".utf8 ++ reader.utf8 ++ ": parsing ".utf8 ++ Quoted.text value ++ ": ".utf8 ++
      problem.utf8

/-- A way to read command lines: the options that they set, and the files. -/
abbrev ArgumentReader := List Bytes → Except FlagError (Options × List Bytes)

namespace Options

/-- Sets the flag that an argument names behind two dashes. Says whether it took its value from the
    next argument, which is the first of `next`. -/
def setNamed (o : Options) (argument body : Bytes) (next : List Bytes) :
    Except FlagError (Options × Bool) :=
  let name := body.takeWhile (· ≠ '='.ascii)
  let given? := (body.dropWhile (· ≠ '='.ascii)).tail?
  if name = [] ∨ name.head? = some '-'.ascii then .error (.badForm argument)
  else match Flag.ofName? name with
    | none => .error (.unknownName name)
    | some f =>
      match given?, f.implied?, next with
      | some value, _, _           => (f.set value o).map (·, false)
      | none, some value, _        => (f.set value o).map (·, false)
      | none, none, value :: _     => (f.set value o).map (·, true)
      | none, none, []             => .error (.missingValue name)

/-- Sets the flags whose letters share a dash, as `setNamed` does. A group that starts with `test.`
    is left alone. -/
def setLetters (o : Options) (next : List Bytes) : Bytes → Except FlagError (Options × Bool)
  | [] => .ok (o, false)
  | letter :: more =>
    if "test.".utf8.isPrefixOf (letter :: more) then .ok (o, false)
    else match Flag.ofLetter? letter with
      | none => .error (.unknownLetter letter (letter :: more))
      | some f =>
        match more, f.implied?, next with
        | equals :: b :: value, implied, _ =>
          if equals = '='.ascii then (f.set (b :: value) o).map (·, false)
          else match implied with
            | some v => do (← f.set v o).setLetters next (equals :: b :: value)
            | none   => (f.set (equals :: b :: value) o).map (·, false)
        | more, some v, _         => do (← f.set v o).setLetters next more
        | b :: value, none, _     => (f.set (b :: value) o).map (·, false)
        | [], none, value :: _    => (f.set value o).map (·, true)
        | [], none, []            => .error (.missingLetterValue letter [letter])

/-- Reads arguments on behind the files found so far, which are latest first. -/
def readArguments (o : Options) (files : List Bytes) :
    List Bytes → Except FlagError (Options × List Bytes)
  | [] => .ok (o, files.reverse)
  | arg :: args =>
    match arg with
    | a :: b :: body =>
      if a ≠ '-'.ascii then readArguments o (arg :: files) args
      else if b = '-'.ascii then
        if body = [] then .ok (o, files.reverse ++ args)
        else match o.setNamed arg body args with
          | .error e       => .error e
          | .ok (o, taken) => readArguments o files (args.drop (if taken then 1 else 0))
      else match o.setLetters args (b :: body) with
        | .error e       => .error e
        | .ok (o, taken) => readArguments o files (args.drop (if taken then 1 else 0))
    | _ => readArguments o (arg :: files) args
termination_by args => args.length
decreasing_by all_goals simp only [List.length_drop, List.length_cons]; omega

/-- The options and files of a command line. -/
def parse : ArgumentReader :=
  fun args => readArguments {} [] args

end Options

end RelaxedJson.Command
