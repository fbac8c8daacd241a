import RelaxedJson.Token.Scanner
import RelaxedJson.Value.Parse
import RelaxedJson.Value.Path
import RelaxedJson.Value.Plain
import RelaxedJson.Yaml.Node
import RelaxedJson.Yaml.Printer
import RelaxedJson.Toml.Printer
import RelaxedJson.Command.FileTree
import RelaxedJson.Command.Flags
import RelaxedJson.Command.Log
import RelaxedJson.Command.Watch
import RelaxedJson.Main
import RelaxedJson.Proofs.Grammar.Acceptance
import RelaxedJson.Proofs.Lexical.Scanning
import RelaxedJson.Proofs.Value.RoundTrip
import RelaxedJson.Proofs.Lexical.Faults
import RelaxedJson.Proofs.Grammar.Building
import RelaxedJson.Proofs.Grammar.Prefix
import RelaxedJson.Proofs.Lexical.Positions
import RelaxedJson.Proofs.Value.EntryPoints
import RelaxedJson.Proofs.Lexical.Relaxations
import RelaxedJson.Proofs.Lexical.Separators
import RelaxedJson.Proofs.Value.Relaxations
import RelaxedJson.Proofs.Lexical.Joining
import RelaxedJson.Proofs.Value.Sequences
import RelaxedJson.Proofs.Value.Spacing
import RelaxedJson.Proofs.Grammar.Reports
import RelaxedJson.Proofs.Grammar.Calls
import RelaxedJson.Proofs.Lexical.Stepping
import RelaxedJson.Proofs.Value.Relocation
import RelaxedJson.Proofs.Value.TabWidth
import RelaxedJson.Proofs.Value.TrailingCommas
import RelaxedJson.Proofs.Value.Lines
import RelaxedJson.Proofs.Command.Documents
import RelaxedJson.Proofs.Value.KeyMap
import RelaxedJson.Proofs.Command.Watching
import RelaxedJson.Proofs.Command.Listing
import RelaxedJson.Proofs.Lexical.Quoting
import RelaxedJson.Proofs.Lexical.Delivery
import RelaxedJson.Proofs.Lexical.Nesting
import RelaxedJson.Proofs.Grammar.DepthLimit
import RelaxedJson.Proofs.Grammar.Termination
import RelaxedJson.Proofs.Number.Whole
import RelaxedJson.Proofs.Value.Canonical
import RelaxedJson.Proofs.Value.Paths
import RelaxedJson.Proofs.Value.YamlNodes
import RelaxedJson.Proofs.Value.TomlData
