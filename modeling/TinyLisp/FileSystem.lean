import TinyLisp.Error

/-!
Files and directories below the directory a program runs in.  A path is the list of names that lead
to a node, the innermost first; main statements say what a file holds after it is written.
-/

namespace TinyLisp

/-- The names that lead to a node, the innermost first.  Names that lead up from the starting
directory are `..`, and a name `/` at the end stands for the root of all paths. -/
abbrev Path := List String

inductive Node where
  | directory
  | file (content : List UInt8)
  deriving DecidableEq, Repr

/-- The nodes known by their paths; the starting directory and those above it need no entry. -/
structure FileSystem where
  nodes : List (Path × Node)
  deriving Repr

/-- Overwrites the bytes from an offset on, filling a gap before it with zeros; writing nothing
changes nothing. -/
def spliceBytes (content : List UInt8) (offset : Nat) (bytes : List UInt8) : List UInt8 :=
  if bytes.isEmpty then content
  else
    content.take offset ++ (List.replicate (offset - content.length) 0 ++
      (bytes ++ content.drop (offset + bytes.length)))

namespace FileSystem

/-- Nothing but the starting directory. -/
def empty : FileSystem := ⟨[]⟩

instance : Inhabited FileSystem := ⟨empty⟩

/-- The directory that holds a directory. -/
def parent : Path → Path
  | [] => [".."]
  | ".." :: rest => ".." :: ".." :: rest
  | ["/"] => ["/"]
  | _ :: rest => rest

/-- The node at a path. -/
def find? (fs : FileSystem) (path : Path) : Option Node :=
  if path.all (· == "..") || path == ["/"] then some .directory
  else fs.nodes.lookup path

/-- Puts a node at a path. -/
def insert (fs : FileSystem) (path : Path) (node : Node) : FileSystem :=
  ⟨(path, node) :: fs.nodes.filter fun entry => entry.1 != path⟩

/-- The content of a file; nothing for any other path. -/
def content (fs : FileSystem) (path : Path) : List UInt8 :=
  match fs.find? path with
  | some (.file bytes) => bytes
  | _ => []

/-- The most bytes a name may have. -/
def nameLimit : Nat := 255

/-- The most bytes a whole path may have. -/
def pathLimit : Nat := 4095

/-- Goes from a directory into the directory with a name. -/
def enter (fs : FileSystem) (directory : Path) (name : String) : Except IoError Path :=
  if name = "" ∨ name = "." then .ok directory
  else if name = ".." then .ok (parent directory)
  else if nameLimit < name.utf8ByteSize then .error .nameTooLong
  else
    match fs.find? (name :: directory) with
    | none => .error .notFound
    | some (.file _) => .error .notDirectory
    | some .directory => .ok (name :: directory)

/-- The names of a path as it is written, and the directory they start from. -/
def split (written : String) : Path × List String :=
  match written.toList.splitOnP (· == '/') |>.map String.ofList with
  | "" :: rest => (["/"], rest)
  | names => ([], names)

/-- The path that names lead to where every name but the last is a directory's. -/
def pathOf (written : String) : Path :=
  let (start, names) := split written
  names.foldl
    (fun path name =>
      if name = "" ∨ name = "." then path
      else if name = ".." then parent path
      else name :: path)
    start

/-- What no path may be or hold, whatever it leads to. -/
def checkWritten (written : String) : Except IoError Unit :=
  if '\x00' ∈ written.toList then .error .nulInName
  else if written.isEmpty then .error .notFound
  else if pathLimit < written.utf8ByteSize then .error .nameTooLong
  else .ok ()

/-- Finds the node that a written path leads to. -/
def locate (fs : FileSystem) (written : String) : Except IoError (Path × Node) := do
  checkWritten written
  let (start, names) := split written
  let directory ← names.dropLast.foldlM fs.enter start
  let name := names.getLastD ""
  if name = "" ∨ name = "." then return (directory, .directory)
  else if name = ".." then return (parent directory, .directory)
  else if nameLimit < name.utf8ByteSize then throw .nameTooLong
  else
    match fs.find? (name :: directory) with
    | none => throw .notFound
    | some node => return (name :: directory, node)

/-- Makes the file that a written path leads to, or empties it if it is there. -/
def create (fs : FileSystem) (written : String) : Except IoError (Path × FileSystem) := do
  checkWritten written
  let (start, names) := split written
  let trimmed := (names.reverse.dropWhile (· == "")).reverse
  let directory ← trimmed.dropLast.foldlM fs.enter start
  let name := trimmed.getLastD ""
  if trimmed.length < names.length ∨ name = "." ∨ name = ".." then throw .isDirectory
  else if nameLimit < name.utf8ByteSize then throw .nameTooLong
  else
    match fs.find? (name :: directory) with
    | some .directory => throw .isDirectory
    | _ => return (name :: directory, fs.insert (name :: directory) (.file []))

/-- Overwrites bytes of a file. -/
def write (fs : FileSystem) (path : Path) (offset : Nat) (bytes : List UInt8) : FileSystem :=
  fs.insert path (.file (spliceBytes (fs.content path) offset bytes))

/-- The text in a file; `none` where there is no file or it holds no text. -/
def text? (fs : FileSystem) (written : String) : Option String :=
  match fs.locate written with
  | .ok (_, .file bytes) => String.fromUTF8? ⟨bytes.toArray⟩
  | _ => none

/-- Makes the directories on the way to a path, the path included, where there is nothing yet. -/
def addDirectories (fs : FileSystem) : Path → FileSystem
  | [] => fs
  | name :: above =>
      let fs := fs.addDirectories above
      if (fs.find? (name :: above)).isSome then fs else fs.insert (name :: above) .directory

/-- Puts a node at a path, with the directories on the way to it. -/
def place (fs : FileSystem) (path : Path) (node : Node) : FileSystem :=
  (fs.addDirectories path.tail).insert path node

end FileSystem

/-- Bytes written at the end of a file are added to it. -/
theorem spliceBytes_length (content bytes : List UInt8) :
    spliceBytes content content.length bytes = content ++ bytes := by
  cases bytes <;> simp [spliceBytes, List.drop_eq_nil_of_le]

theorem FileSystem.find?_insert_self {fs : FileSystem} {path : Path} {node : Node}
    (h : (path.all (· == "..") || path == ["/"]) = false) :
    (fs.insert path node).find? path = some node := by
  simp [find?, insert, h]

example : spliceBytes [1, 2, 3] 1 [9] = [1, 9, 3] ∧ spliceBytes [] 2 [7] = [0, 0, 7] ∧
    spliceBytes [] 2 [] = [] := by decide

end TinyLisp
