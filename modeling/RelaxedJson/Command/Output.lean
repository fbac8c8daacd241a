-- SUMMARY: Values in the output formats of the command.
import RelaxedJson.Command.Log
import RelaxedJson.Command.Options
import RelaxedJson.Toml.Printer
import RelaxedJson.Value.Json
import RelaxedJson.Yaml.Printer

/-!
# Output

A value is written as JSON on one line, as a YAML document or as a TOML document. Not every value has
a YAML or TOML text. A writer is any function from values to what comes of writing them; the command
takes a writer for each format.
-/

namespace RelaxedJson.Command

/-- Why a value cannot be written. -/
inductive OutputError where
  | yamlNotUtf8
  | tomlNotObject (typeName : String)
  | toml (e : Toml.Error)
  /-- A failure that only the writer can tell, in its words. -/
  | other (reason : Bytes)
  deriving DecidableEq, Repr

/-- The wording of an output error. -/
def OutputError.message : OutputError → Bytes
  | .yamlNotUtf8     => "encode YAML: yaml: cannot marshal invalid UTF-8 data as !!str".utf8
  | .tomlNotObject T => "TOML output requires an object, not ".utf8 ++ T.utf8
  | .toml e          => e.message
  | .other reason    => reason

/-- What comes of writing a value: what there is to say about it, and the text, or as much of it as
    there is when writing fails. -/
structure Written where
  logs : List LogEntry := []
  output : Bytes := []
  failure : Option OutputError := none
  deriving DecidableEq, Repr

/-- The whole text, or why there is none. -/
def Written.text (w : Written) : Except OutputError Bytes :=
  match w.failure with
  | none   => .ok w.output
  | some e => .error e

/-- A way to write values. -/
abbrev Writer := Value → Written

namespace Output

/-- A value as a line of JSON. -/
def json : Writer :=
  fun v => { output := v.json ++ ['\n'.ascii] }

/-- A value as a YAML document. -/
def yaml : Writer :=
  fun v => if v.toYaml.isUtf8 then { output := v.toYaml.document } else { failure := some .yamlNotUtf8 }

/-- The message about a member that is left out. -/
def omission (key : Bytes) : LogEntry :=
  ⟨.debug, "omitting null member ".utf8 ++ Quoted.text key ++ " from TOML output".utf8⟩

/-- A value as a TOML document. -/
def toml : Writer
  | .object ms =>
    let c := Value.membersToToml ms
    let logs := c.omitted.map omission
    match c.result with
    | .error e    => { logs, failure := some (.toml e) }
    | .ok entries => { logs, output := Toml.document (KeyMap.ofList entries) }
  | v => { failure := some (.tomlNotObject v.typeName) }

end Output

/-- The writer of a format. -/
def OutputFormat.write : OutputFormat → Writer
  | .json => Output.json
  | .yaml => Output.yaml
  | .toml => Output.toml

end RelaxedJson.Command
