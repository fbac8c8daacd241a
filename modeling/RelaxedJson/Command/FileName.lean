-- SUMMARY: File names: their shortest equivalents and their directories.
import RelaxedJson.Text.Bytes

/-!
# File names

A file name is a list of components between slashes. Names are simplified by their text alone,
without a look at any file.
-/

namespace RelaxedJson.Command.FileName

/-- The byte between components. -/
def separator : UInt8 := '/'.ascii

/-- The greatest length of a name, in bytes. -/
def maxLength : Nat := 4095

/-- The greatest length of a component, in bytes. -/
def maxComponentLength : Nat := 255

/-- The components of a name, empty ones included. -/
def components (name : Bytes) : List Bytes :=
  name.splitOn separator

/-- Whether a name starts at the root. -/
def isRooted (name : Bytes) : Bool :=
  name.head? = some separator

/-- Adds a component to a simplified name, whose components are latest first. -/
def simplify (rooted : Bool) (done : List Bytes) (component : Bytes) : List Bytes :=
  if component = [] ∨ component = ".".utf8 then done
  else if component = "..".utf8 then
    match done with
    | []       => if rooted then [] else [component]
    | c :: cs  => if c = "..".utf8 then component :: c :: cs else cs
  else component :: done

/-- The shortest name that is equivalent by its text. -/
def clean (name : Bytes) : Bytes :=
  let rooted := isRooted name
  let simple := ((components name).foldl (simplify rooted) []).reverse
  if rooted then separator :: Bytes.join [separator] simple
  else if simple = [] then ".".utf8
  else Bytes.join [separator] simple

/-- The name of the directory that a file is in. -/
def directory (name : Bytes) : Bytes :=
  clean ((name.reverse.dropWhile (· ≠ separator)).reverse)

end RelaxedJson.Command.FileName
