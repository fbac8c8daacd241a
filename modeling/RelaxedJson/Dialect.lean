-- SUMMARY: Which relaxations of strict JSON a reader accepts.

/-!
# Dialects

A dialect selects the relaxations of strict JSON that are accepted, each independently of the
others, and the two limits that reading depends on. The limits are integers as a user gives them;
one that is not positive means the default.
-/

namespace RelaxedJson

/-- The accepted relaxations and limits. The default is strict JSON. -/
structure Dialect where
  /-- Bare identifiers may be object keys. -/
  unquotedKeys : Bool := false
  /-- A comma may stand before a closing bracket. -/
  trailingCommas : Bool := false
  /-- Strings may be enclosed in single quotes. -/
  singleQuotes : Bool := false
  /-- Line comments and nested block comments are skipped. -/
  comments : Bool := false
  /-- The number of columns that a tab takes. -/
  tabWidth : Int := 0
  /-- The greatest nesting depth of objects and arrays. -/
  maxDepth : Int := 0
  deriving DecidableEq, Repr

namespace Dialect

/-- The tab width where none is given. -/
def defaultTabWidth : Int := 4

/-- The greatest nesting depth where none is given. -/
def defaultMaxDepth : Nat := 10000

/-- Strict JSON. -/
def strict : Dialect :=
  { tabWidth := defaultTabWidth }

/-- All relaxations at once. -/
def permissive : Dialect :=
  { unquotedKeys := true, trailingCommas := true, singleQuotes := true, comments := true,
    tabWidth := defaultTabWidth }

/-- The columns that a tab takes, as a word. -/
def columnsPerTab (d : Dialect) : Int64 :=
  Int64.ofInt (if d.tabWidth ≤ 0 then defaultTabWidth else d.tabWidth)

/-- The nesting depth that must not be exceeded. -/
def depthLimit (d : Dialect) : Nat :=
  if d.maxDepth ≤ 0 then defaultMaxDepth else d.maxDepth.toNat

end Dialect

end RelaxedJson
