import StrictJson.CommandLine.Run
import StrictJson.Runtime

/-!
# Running over files

File systems as values, and the world in which a run of the command changes such files and nothing
else. A directory of files is one of them.
-/

namespace StrictJson.CommandLine

/-! ## File systems -/

/-- Files, and what stands on standard input. A file that cannot be opened has no contents, and
where none can be opened for writing nothing is written. -/
structure FileSystem (σ : Type) where
  input : σ → List UInt8
  read : σ → String → Option (List UInt8)
  write : σ → String → List UInt8 → Option σ

namespace FileSystem

variable {σ : Type}

/-- Write a text as UTF-8, and tell whether that was possible. -/
def writeText (fs : FileSystem σ) (s : σ) (path text : String) : Bool × σ :=
  match fs.write s path (Utf8.encodeText text.toList) with
  | some s' => (true, s')
  | none => (false, s)

/-- The world in which a run reads and writes these files. -/
def world (fs : FileSystem σ) : World (StateM σ) where
  readInput := do return fs.input (← get)
  readFile path := do return fs.read (← get) path
  writeFile path text := modifyGet fun s => fs.writeText s path text

end FileSystem

/-! ## Directories -/

/-- The files of a directory by their names, and what stands on standard input. -/
structure Directory where
  files : List (String × List UInt8)
  input : List UInt8

namespace Directory

/-- The parts of a path that name something. -/
def parts (path : String) : List String :=
  (path.splitOn "/").filter fun part => part != "" && part != "."

/-- The most octets that the name of a file has. -/
def nameLength : Nat := 255

/-- The name of the file in the directory that a path leads to. Other paths lead to directories or
out of the directory. -/
def fileName? (path : String) : Option String :=
  match parts path with
  | [name] =>
    if name == ".." || path.startsWith "/" || nameLength < name.utf8ByteSize then none
    else some name
  | _ => none

/-- Whether a path leads to the null device, which is always empty. -/
def isNullDevice (path : String) : Bool :=
  path.startsWith "/" && parts path == ["dev", "null"]

/-- The contents of the file that a path leads to. -/
def read (d : Directory) (path : String) : Option (List UInt8) :=
  if isNullDevice path then some []
  else (fileName? path).bind fun name => Members.get? name d.files

/-- Write octets into the file that a path leads to. -/
def write (d : Directory) (path : String) (bs : List UInt8) : Option Directory :=
  if isNullDevice path then some d
  else (fileName? path).map fun name => { d with files := Members.set name bs d.files }

/-- The files of a directory. -/
def fileSystem : FileSystem Directory where
  input := input
  read := read
  write := write

/-- Run the command of the running program in a directory. -/
def run (d : Directory) (args : List String) : Ending × Directory :=
  (CommandLine.run fileSystem.world args).run d

end Directory

end StrictJson.CommandLine
