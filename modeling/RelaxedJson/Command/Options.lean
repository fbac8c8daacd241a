-- SUMMARY: The options of the command and what they select.
import RelaxedJson.Dialect
import RelaxedJson.Text.Quoted

/-!
# Options

Options are what the command line says. They select a dialect to read and a format to write.
-/

namespace RelaxedJson.Command

/-- The formats that values are written in. -/
inductive OutputFormat where
  | json
  | yaml
  | toml
  deriving DecidableEq, Repr

/-- The format of a name. -/
def OutputFormat.ofName? (name : Bytes) : Option OutputFormat :=
  if name = "json".utf8 then some .json
  else if name = "yaml".utf8 then some .yaml
  else if name = "toml".utf8 then some .toml
  else none

/-- The settings of the command line. -/
structure Options where
  js : Bool := false
  comments : Bool := false
  trailingCommas : Bool := false
  singleQuotes : Bool := false
  unquotedKeys : Bool := false
  tabWidth : Int := 0
  maxDepth : Int := 0
  format : Bytes := "json".utf8
  tokens : Bool := false
  watch : Bool := false
  verbosity : Int := 0
  help : Bool := false
  deriving DecidableEq, Repr

/-- The name of a format that does not exist. -/
structure UnknownFormat where
  name : Bytes
  deriving DecidableEq, Repr

/-- The wording of the error for an unknown format. -/
def UnknownFormat.message (e : UnknownFormat) : Bytes :=
  "unknown output format ".utf8 ++ Quoted.text e.name

/-- The dialect that the options select. Limits that are not positive select the default. -/
def Options.dialect (o : Options) : Dialect :=
  let base := if o.js then Dialect.permissive else Dialect.strict
  { unquotedKeys   := base.unquotedKeys || o.unquotedKeys
    trailingCommas := base.trailingCommas || o.trailingCommas
    singleQuotes   := base.singleQuotes || o.singleQuotes
    comments       := base.comments || o.comments
    tabWidth       := if 0 < o.tabWidth then o.tabWidth else base.tabWidth
    maxDepth       := if 0 < o.maxDepth then o.maxDepth else base.maxDepth }

end RelaxedJson.Command
