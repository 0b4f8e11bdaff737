/-!
# File trees

Directories and files by name. A path here is the list of names from the top of
the tree down; how a path is written is the matter of the file system that holds
the tree.
-/

set_option autoImplicit false

namespace ScriptCompiler

/-- What stands under a name, and all that stands below it. -/
inductive FileTree where
  | file (text : String)
  /-- A file that is always empty: what is written to it is lost. -/
  | null
  | directory (entries : List (String × FileTree))

namespace FileTree

def empty : FileTree := .directory []

def text? : FileTree → Option String
  | file text => some text
  | null => some ""
  | directory _ => none

def child? (t : FileTree) (name : String) : Option FileTree :=
  match t with
  | directory entries => entries.lookup name
  | _ => none

def get? (t : FileTree) : List String → Option FileTree
  | [] => some t
  | name :: rest =>
    match t.child? name with
    | some child => child.get? rest
    | none => none

/-- The tree with `new` at the end of a path; only a directory takes entries. -/
def put (t new : FileTree) : List String → FileTree
  | [] => new
  | name :: rest =>
    match t with
    | directory entries =>
      let child := ((entries.lookup name).getD empty).put new rest
      directory ((name, child) :: entries.filter fun e => e.1 != name)
    | t => t

end FileTree

end ScriptCompiler
