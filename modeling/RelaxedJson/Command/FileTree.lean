-- SUMMARY: Files: what a command needs of a file system, and a file system held in memory.
import RelaxedJson.Command.FileName

/-!
# File systems

A command reads files by name and has directories watched. Both may fail, with the faults that file
systems have. `FileTree` is a file system in memory; names are looked up in it component by component,
either from the root or from one directory, of whose surroundings nothing is known.
-/

namespace RelaxedJson.Command

/-- Why a file cannot be read or a directory watched. -/
inductive FileFault where
  | missing
  | notDirectory
  | isDirectory
  | nameTooLong
  /-- A name that no file can have. -/
  | invalidName
  /-- A fault that only the system can tell, in its words. -/
  | other (reason : Bytes)
  deriving DecidableEq, Repr

/-- The wording of a fault. -/
def FileFault.message : FileFault → Bytes
  | .missing      => "no such file or directory".utf8
  | .notDirectory => "not a directory".utf8
  | .isDirectory  => "is a directory".utf8
  | .nameTooLong  => "file name too long".utf8
  | .invalidName  => "invalid argument".utf8
  | .other reason => reason

/-- What a command needs of a file system. -/
structure FileSystem where
  /-- The contents of a file. -/
  read : (name : Bytes) → Except FileFault Bytes
  /-- Why a directory cannot be watched. -/
  watchFault? : (directory : Bytes) → Option FileFault

/-- A file or a directory. -/
inductive FileTree where
  | file (contents : Bytes)
  | directory (entries : List (Bytes × FileTree))
  deriving Repr

namespace FileTree

/-- A directory without files. -/
def empty : FileTree := .directory []

/-- What a directory holds under a name. -/
def entry? (name : Bytes) : FileTree → Option FileTree
  | .file _       => none
  | .directory es => (es.find? (·.1 = name)).map Prod.snd

/-- The entries with `name` standing for `tree`, or for nothing. -/
def setEntry (name : Bytes) (tree : Option FileTree) (entries : List (Bytes × FileTree)) :
    List (Bytes × FileTree) :=
  let others := entries.filter (·.1 ≠ name)
  match tree with
  | some t => (name, t) :: others
  | none   => others

/-- The tree with something else at a path; directories on the way are made. -/
def update (new : Option FileTree) : List Bytes → FileTree → FileTree
  | [],          t => t
  | [name],      t =>
    match t with
    | .directory es => .directory (setEntry name new es)
    | .file c       => .file c
  | name :: path, t =>
    match t with
    | .directory es =>
      .directory (setEntry name (some (update new path ((t.entry? name).getD empty))) es)
    | .file c => .file c

/-- The components of the simplest form of a name. -/
def pathOf (name : Bytes) : List Bytes :=
  (FileName.components (FileName.clean name)).filter (· ≠ ".".utf8)

/-- The tree with a file of the given contents. -/
def write (name contents : Bytes) (t : FileTree) : FileTree :=
  t.update (some (.file contents)) (pathOf name)

/-- The tree without a file. -/
def remove (name : Bytes) (t : FileTree) : FileTree :=
  t.update none (pathOf name)

/-- The root directory, as far as it is the same everywhere: the null device is empty, and of other
    directories only their names are known. -/
def root : FileTree :=
  .directory (("dev".utf8, .directory [("null".utf8, .file [])]) ::
    ["bin", "etc", "home", "lib", "opt", "proc", "root", "run", "sbin", "sys", "tmp", "usr",
     "var"].map fun name => (name.utf8, empty))

/-- Walks on from the first of `trail`, which holds the directories from there back to the start;
    `above` is the directory over the start. -/
def walk (above : FileTree) (trail : List FileTree) : List Bytes → Except FileFault FileTree
  | [] => .ok (trail.headD above)
  | name :: path =>
    match trail.headD above with
    | .file _ => .error .notDirectory
    | .directory entries =>
      if name = [] ∨ name = ".".utf8 then walk above trail path
      else if name = "..".utf8 then walk above trail.tail path
      else if FileName.maxComponentLength < name.length then .error .nameTooLong
      else match entry? name (.directory entries) with
        | none   => .error .missing
        | some t => walk above (t :: trail) path

/-- What a name stands for. The zero byte ends names, so none has it inside. -/
def find (t : FileTree) (name : Bytes) : Except FileFault FileTree :=
  if name.contains 0 then .error .invalidName
  else if name = [] then .error .missing
  else if FileName.maxLength < name.length then .error .nameTooLong
  else if FileName.isRooted name then walk root [] (FileName.components name)
  else walk empty [t] (FileName.components name)

/-- The tree as a file system. -/
def fileSystem (t : FileTree) : FileSystem where
  read name :=
    match t.find name with
    | .error fault          => .error fault
    | .ok (.file contents)  => .ok contents
    | .ok (.directory _)    => .error .isDirectory
  watchFault? directory :=
    match t.find directory with
    | .error fault => some fault
    | .ok _        => none

end FileTree

end RelaxedJson.Command
