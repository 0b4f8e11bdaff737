import ScriptCompiler.FileTree
import ScriptCompiler.Text.Segments

/-!
# File systems

A file tree with a working directory, read and written by the path as a text.
Writing a file first makes the missing directories above it, from the top down;
those stay even if the file itself cannot be written afterwards. A file never
turns into a directory nor a directory into a file.
-/

set_option autoImplicit false

namespace ScriptCompiler

/-- A file tree and the directory at which a relative path starts. -/
structure FileSystem where
  root : FileTree
  working : String

namespace FileSystem

/-- The file system of a build: the null device, and an empty working directory. -/
def fresh : FileSystem where
  root := .directory [("dev", .directory [("null", .null)]),
    ("tmp", .directory [("build", .empty)])]
  working := "/tmp/build"

def pathLimit : Nat := 4095

def nameLimit : Nat := 255

/-- Whether a segment of a path leads nowhere else. -/
def isIdle (segment : String) : Bool := segment == "" || segment == "."

def isName (segment : String) : Bool :=
  !isIdle segment && segment != ".." && segment.utf8ByteSize ≤ nameLimit

def segments (s : FileSystem) (path : String) : List String :=
  Text.split '/' (if Text.startsWith "/" path then path else s.working ++ "/" ++ path)

def isPath (segments : List String) : Bool :=
  let path := String.intercalate "/" segments
  path.utf8ByteSize ≤ pathLimit && !path.toList.contains '\x00'

/-- The segments up to the last one that leads elsewhere. -/
def trimmed (segments : List String) : List String :=
  (segments.reverse.dropWhile isIdle).reverse

/-- The path of the directory in which the end of a path stands. -/
def parent (segments : List String) : List String :=
  trimmed (trimmed segments).dropLast

/-- The tree and the directory of it that is reached from `here`; the directories that are
missing on the way are made if `create`. The root is above itself. -/
def reach (create : Bool) (t : FileTree) (here : List String) :
    List String → FileTree × Option (List String)
  | [] => (t, some here)
  | segment :: rest =>
    if isIdle segment then reach create t here rest
    else if segment = ".." then reach create t here.dropLast rest
    else if !isName segment then (t, none)
    else
      let next := here ++ [segment]
      match t.get? next with
      | some (.directory _) => reach create t next rest
      | some _ => (t, none)
      | none => if create then reach create (t.put .empty next) next rest else (t, none)

/-- The name of the file that a path ends in, unless it can only be a directory. -/
def fileName? (segments : List String) : Option String :=
  segments.getLast?.filter isName

def read? (s : FileSystem) (path : String) : Option String :=
  let segments := s.segments path
  if !isPath segments then none
  else
    match (reach false s.root [] (parent segments)).2, fileName? segments with
    | some directory, some name => (s.root.get? (directory ++ [name])).bind FileTree.text?
    | _, _ => none

/-- Writes a file at a path, with the directories above it made first; answers whether the
file was written. -/
def write (s : FileSystem) (path text : String) : FileSystem × Bool :=
  let segments := s.segments path
  if !isPath (parent segments) then (s, false)
  else
    let (root, directory) := reach true s.root [] (parent segments)
    let s := { s with root := root }
    match directory, fileName? segments with
    | some directory, some name =>
      let path := directory ++ [name]
      if !isPath segments then (s, false)
      else
        match root.get? path with
        | some (.directory _) => (s, false)
        | some .null => (s, true)
        | _ => ({ s with root := root.put (.file text) path }, true)
    | _, _ => (s, false)

end FileSystem

end ScriptCompiler
