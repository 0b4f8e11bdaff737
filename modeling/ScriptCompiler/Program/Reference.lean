import ScriptCompiler.Primitive.Basic
import ScriptCompiler.Text.Segments

/-!
# References to methods

A method overload is named by its namespace path, its name and the types of its
parameters, written `Std.Console:Write?str`. The other written forms serve as
labels of the two targets.
-/

set_option autoImplicit false

namespace ScriptCompiler

structure Reference where
  path : List String
  method : List String
  parameters : Types
  deriving DecidableEq, Repr

namespace Reference

def tags (r : Reference) : String := "_".intercalate (r.parameters.map Primitive.tag)

def pathText (r : Reference) : String := ".".intercalate r.path

def methodText (r : Reference) : String := ".".intercalate r.method ++ "?" ++ r.tags

/-- The reference as stack code writes it. -/
def text (r : Reference) : String := r.pathText ++ ":" ++ r.methodText

/-- The label of the method in assembly. -/
def asmLabel (r : Reference) : String := r.pathText ++ "@" ++ r.methodText

/-- The dotted name of the method as a function of a module. -/
def flatName (r : Reference) : String := r.pathText ++ "." ++ r.methodText

/-- The module and the name under which the method is imported. -/
def importPath (r : Reference) : String × String := (r.pathText, r.methodText)

def malformedMessage (s : String) : String := "malformed global reference '" ++ s ++ "'"

def parseTags? (s : String) : Option Types :=
  if s = "" then some [] else (Text.split '_' s).mapM Primitive.ofTag?

def parse? (s : String) : Option Reference := do
  let (path, rest) ← Text.cutAt? ':' s
  let (method, tags) ← Text.cutAt? '?' rest
  if path = "" ∨ method = "" then none
  else
    let parameters ← parseTags? tags
    some ⟨Text.split '.' path, Text.split '.' method, parameters⟩

end Reference

end ScriptCompiler
