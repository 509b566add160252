import SwapPricing.CommandLine.Failure

/-!
# Hosts

A command reads and writes files and asks for the time.  It does so through a
host, which may be the system or a folder kept in memory.
-/

namespace SwapPricing
namespace CommandLine

/-- What commands need of the world around them. -/
structure Host (m : Type → Type) where
  read : String → m (Except FileFault String)
  write : (path text : String) → m (Except FileFault Unit)
  /-- The time in seconds. -/
  clock : m UInt64

/-!
# Folders
-/

/-- The names of a path.  A path above the folder starts with as many `..` as
lead up, and one that starts at the root of the system starts with `/`. -/
abbrev Path := List String

/-- A folder in memory: files by their path.  A directory is there as soon as a
file lies in it. -/
structure Folder where
  files : List (Path × String)

namespace Folder

/-- What a path leads to. -/
inductive Place where
  | file (path : Path)
  | directory
  /-- The device that is always empty and keeps nothing. -/
  | nowhere
  /-- A place in a directory that holds nothing. -/
  | vacant (path : Path)

/-- The names between slashes; a doubled or final slash gives an empty one. -/
def names (path : String) : List String :=
  path.splitOn "/"

/-- The folder that holds the given files. -/
def ofFiles (files : List (String × String)) : Folder :=
  ⟨files.map fun file => ((names file.1).filter fun name => name ≠ "" ∧ name ≠ ".", file.2)⟩

/-- The root of the system. -/
def root : Path := ["/"]

/-- Whether a path lies within the folder. -/
def isInside (path : Path) : Bool :=
  path.head? != some ".." && path.head? != some "/"

/-- The files in the folder with their paths in full. -/
def toFiles (f : Folder) : List (String × String) :=
  (f.files.filter fun file => isInside file.1).map fun file => ("/".intercalate file.1, file.2)

def text? (f : Folder) (path : Path) : Option String :=
  f.files.lookup path

/-- The directories that every system has below its root. -/
def systemDirectories : List String :=
  ["bin", "boot", "dev", "etc", "home", "lib", "media", "mnt", "opt", "proc", "root", "run", "sbin",
    "srv", "sys", "tmp", "usr", "var"]

/-- Whether a path leads to a directory around the folder or to one that is
always there. -/
def isGiven : Path → Bool
  | ["/", name] => systemDirectories.contains name
  | path => path == root || path.all (· == "..")

def isDirectory (f : Folder) (path : Path) : Bool :=
  isGiven path || f.files.any fun file => path.isPrefixOf file.1 && path.length < file.1.length

/-- The directory that holds a directory.  The root holds itself. -/
def parent (directory : Path) : Path :=
  if directory = root then root
  else if directory.all (· == "..") then directory ++ [".."]
  else directory.dropLast

/-- The number of bytes that a name may have. -/
def nameLimit : Nat := 255

/-- The number of bytes that a path may have. -/
def pathLimit : Nat := 4095

/-- Follows names from a directory on. -/
def follow (f : Folder) : (directory : Path) → List String → Except FileFault Place
  | _, [] => .ok .directory
  | directory, name :: rest =>
      if name = "" ∨ name = "." then
        follow f directory rest
      else if name = ".." then
        follow f (parent directory) rest
      else if nameLimit < name.utf8ByteSize then
        .error .nameTooLong
      else
        let path := directory ++ [name]
        if path = ["/", "dev", "null"] then
          if rest = [] then .ok .nowhere else .error .notDirectory
        else if (f.text? path).isSome then
          if rest = [] then .ok (.file path) else .error .notDirectory
        else if f.isDirectory path then
          follow f path rest
        else if rest = [] then
          .ok (.vacant path)
        else
          .error .missing

/-- The names of a path, and the directory to follow them from. -/
def start (path : String) : Except FileFault (Path × List String) :=
  if '\x00' ∈ path.toList then .error .zeroInName
  else if path = "" then .error .missing
  else if pathLimit < path.utf8ByteSize then .error .nameTooLong
  else .ok (if path.startsWith "/" then root else [], names path)

def read (f : Folder) (path : String) : Except FileFault String := do
  let (directory, names) ← start path
  match ← f.follow directory names with
  | .file path =>
      match f.text? path with
      | some text => .ok text
      | none => .error .missing
  | .directory => .error .isDirectory
  | .nowhere => .ok ""
  | .vacant _ => .error .missing

/-- The folder with a text in a file; a file that is not there is made. -/
def put (f : Folder) (text : String) : Place → Except FileFault Folder
  | .file path => .ok ⟨f.files.map fun file => if file.1 = path then (path, text) else file⟩
  | .directory => .error .isDirectory
  | .nowhere => .ok f
  | .vacant path => .ok ⟨f.files ++ [(path, text)]⟩

/-- Writes a text to a file.  A path with a slash at its end is taken for a
directory once the directory that it lies in is there. -/
def write (f : Folder) (path text : String) : Except FileFault Folder := do
  let (directory, names) ← start path
  match names.reverse with
  | "" :: behind =>
      let _ ← f.follow directory (((behind.dropWhile (· = "")).drop 1).reverse ++ [""])
      .error .isDirectory
  | _ => f.put text (← f.follow directory names)

/-- The folder as a host whose clock stands still. -/
def host (clock : UInt64) : Host (StateM Folder) where
  read path := do return (← get).read path
  write path text := do
    match (← get).write path text with
    | .ok f =>
        set f
        return .ok ()
    | .error fault => return .error fault
  clock := return clock

end Folder
end CommandLine
end SwapPricing
