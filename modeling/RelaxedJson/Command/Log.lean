-- SUMMARY: Log messages and the verbosity that selects them.
import RelaxedJson.Text.Bytes

/-!
# Log messages

The command reports what it does as messages of different levels. The verbosity decides up to which
level they are kept.
-/

namespace RelaxedJson.Command

/-- How important a message is. -/
inductive Level where
  | critical
  | error
  | warning
  | notice
  | info
  | debug
  deriving DecidableEq, Repr

/-- The rank of a level; important levels come first. -/
def Level.rank : Level → Int
  | .critical => -3
  | .error    => -2
  | .warning  => -1
  | .notice   => 0
  | .info     => 1
  | .debug    => 2

/-- The name of a level. -/
def Level.name : Level → String
  | .critical => "Critical"
  | .error    => "Error"
  | .warning  => "Warning"
  | .notice   => "Notice"
  | .info     => "Info"
  | .debug    => "Debug"

/-- A message. -/
structure LogEntry where
  level : Level
  message : Bytes
  deriving DecidableEq, Repr

/-- Whether messages of a level are kept at a verbosity. Without any verbosity, notices and what is
    more important are. -/
def Level.isKept (verbosity : Int) (level : Level) : Bool :=
  level.rank ≤ verbosity

/-- The messages that are kept at a verbosity, where `keeps` selects their levels. -/
def keepLogs (verbosity : Int) (logs : List LogEntry)
    (keeps : Int → Level → Bool := Level.isKept) : List LogEntry :=
  logs.filter fun entry => keeps verbosity entry.level

end RelaxedJson.Command
