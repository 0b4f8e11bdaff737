import ScriptCompiler.Text.Segments

/-!
# Dotted names

Names of namespaces, methods and variables are lists of segments, written with
dots between them.
-/

set_option autoImplicit false

namespace ScriptCompiler

structure DottedName where
  segments : List String
  deriving DecidableEq, Repr

namespace DottedName

/-- The name written by a dotted text; empty segments do not count. -/
def parse (s : String) : DottedName :=
  ⟨(Text.split '.' s).filter (· ≠ "")⟩

def size (n : DottedName) : Nat := n.segments.length

def isEmpty (n : DottedName) : Bool := n.segments.isEmpty

def isSimple (n : DottedName) : Bool := n.size == 1

/-- Whether `lead` is a strict leading part of the name. -/
def properlyExtends (n lead : DottedName) : Bool :=
  lead.size < n.size && lead.segments.isPrefixOf n.segments

/-- What follows a strict leading part. -/
def after? (n lead : DottedName) : Option DottedName :=
  if n.properlyExtends lead then some ⟨n.segments.drop lead.size⟩ else none

def join (n : DottedName) (separator : String) : String :=
  separator.intercalate n.segments

def text (n : DottedName) : String := n.join "."

end DottedName

end ScriptCompiler
