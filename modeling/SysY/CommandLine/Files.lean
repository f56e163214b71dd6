/-!
# Files

The compiler reads one file and writes one. What it needs of a file system is `FileAccess`; `Files`
is one in memory, the contents of a directory and of the directories below it.
-/

namespace SysY.CommandLine

inductive FileError
  | notFound
  | notDirectory
  | isDirectory
  | nameTooLong
  | notText
  | other (reason : String)
deriving DecidableEq, Repr

def FileError.message : FileError → String
  | .notFound => "No such file or directory (os error 2)"
  | .notDirectory => "Not a directory (os error 20)"
  | .isDirectory => "Is a directory (os error 21)"
  | .nameTooLong => "File name too long (os error 36)"
  | .notText => "stream did not contain valid UTF-8"
  | .other reason => reason

structure FileAccess (m : Type → Type) where
  read : String → m (Except FileError String)
  /-- Makes a file, or makes it empty. -/
  create : String → m (Except FileError Unit)
  /-- Writes to a file that has been made. -/
  write : String → String → m Unit

abbrev Files := List (String × String)

namespace Files

/-- The steps of a path. Several slashes in a row count as one. -/
def steps (path : String) : List String :=
  ((path.toList.splitOn '/').map String.ofList).filter (· ≠ "")

def join (steps : List String) : String := "/".intercalate steps

def contains (files : Files) (name : String) : Bool := files.any (·.1 == name)

/-- Whether there is a file below the directory that steps lead to. -/
def isDirectory (files : Files) (path : List String) : Bool :=
  files.any fun file =>
    path.isPrefixOf (steps file.1) && path.length < (steps file.1).length

/-! ## Paths

A path is walked step by step, and every step but the last has to lead into a directory. -/

/-- A directory: one of those that hold the files, by the steps that lead to it, or one outside of
them, of which only the directories around it are known. -/
inductive Directory
  | inside (path : List String)
  | outside
deriving DecidableEq

inductive Entry
  | directory (place : Directory)
  | file (name : String)
  /-- No file, but there could be one. -/
  | free (name : String)
  /-- Something outside, which is taken not to exist. -/
  | unknown
  | tooLong
deriving DecidableEq

def maxStepSize : Nat := 255

def maxPathSize : Nat := 4095

def Directory.parent : Directory → Directory
  | .inside (first :: rest) => .inside (first :: rest).dropLast
  | .inside [] | .outside => .outside

def entry (files : Files) (place : Directory) (name : String) : Entry :=
  match place with
  | .outside => .unknown
  | .inside path =>
    let way := path ++ [name]
    if files.isDirectory way then .directory (.inside way)
    else if files.contains (join way) then .file (join way)
    else .free (join way)

def follow (files : Files) (place : Directory) (step : String) : Entry :=
  if maxStepSize < step.utf8ByteSize then .tooLong
  else if step = "." then .directory place
  else if step = ".." then .directory place.parent
  else files.entry place step

def walk (files : Files) (place : Directory) : List String → Except FileError Directory
  | [] => .ok place
  | step :: rest => match files.follow place step with
    | .directory next => files.walk next rest
    | .file _ => .error .notDirectory
    | .free _ | .unknown => .error .notFound
    | .tooLong => .error .nameTooLong

def locate (files : Files) (path : String) : Except FileError Entry :=
  let start := if path.startsWith "/" then Directory.outside else .inside []
  if path.isEmpty then .error .notFound
  else if maxPathSize < path.utf8ByteSize then .error .nameTooLong
  else match (steps path).getLast? with
    | none => .ok (.directory start)
    | some last => do
      let place ← files.walk start (steps path).dropLast
      return files.follow place last

def namesDirectory (path : String) : Bool := path.endsWith "/"

/-! ## Contents -/

def put (files : Files) (name text : String) : Files :=
  (name, text) :: files.filter (·.1 != name)

/-- The contents of a file. A path that names a directory leads to no file. -/
def read (files : Files) (path : String) : Except FileError String := do
  match ← files.locate path with
  | .directory _ => .error .isDirectory
  | .tooLong => .error .nameTooLong
  | .free _ | .unknown => .error .notFound
  | .file name =>
    if namesDirectory path then .error .notDirectory
    else match files.lookup name with
      | some text => .ok text
      | none => .error .notFound

/-- Writes a file. A path that names a directory is refused for that, whatever it leads to. What is
outside can be written, and is not kept. -/
def write (files : Files) (path text : String) : Except FileError Files := do
  let target ← files.locate path
  if namesDirectory path then .error .isDirectory
  else match target with
    | .directory _ => .error .isDirectory
    | .tooLong => .error .nameTooLong
    | .unknown => .ok files
    | .file name | .free name => .ok (files.put name text)

/-- The files in memory as a file system. -/
def access : FileAccess (StateM Files) where
  read path := return (← get).read path
  create path := do
    match (← get).write path "" with
    | .ok files =>
      set files
      return .ok ()
    | .error error => return .error error
  write path text := do
    match (← get).write path text with
    | .ok files => set files
    | .error _ => return ()

def changes (before after : Files) : Files :=
  after.filter fun file => before.lookup file.1 != some file.2

end Files

end SysY.CommandLine
