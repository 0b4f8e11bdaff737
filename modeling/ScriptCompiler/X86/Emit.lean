import ScriptCompiler.X86.Compile
import ScriptCompiler.X86.Library

/-!
# Assembly units

The whole text for the assembler: directives, the labels that others define, the
compiled methods, those of the library, and the data sections.
-/

set_option autoImplicit false

namespace ScriptCompiler.X86

/-- What can be chosen about a unit. -/
structure Options where
  /-- The reference of the method to start with; without it, the first method `Main` without
  parameters. -/
  entryPoint : Option String := none
  deriving DecidableEq, Repr

def entryPoint (o : Options) (p : Program) : Compiling (Option Method) :=
  match o.entryPoint with
  | some text =>
    match ((Reference.parse? text).bind p.findMethod?).bind p.methodAt? with
    | some m => .ok (some m)
    | none => .error (.unknownCallTarget text)
  | none =>
    .ok (p.methods.find? fun m => !m.external && m.parameters.isEmpty && m.name.text == "Main")

/-- The library of all header scripts and the data that it defines. -/
def mergeHeaders (scripts : ScriptTable) : Library × DataTable :=
  scripts.scripts.foldl
    (fun state script =>
      match script.assembly? with
      | some assembly => state.1.merge assembly state.2
      | none => state)
    ({}, {})

def compileMethods (p : Program) : List Method → Shared → Compiling (List Listing × Shared)
  | [], shared => .ok ([], shared)
  | m :: rest, shared => do
    let (listing, shared) ← compileMethod p m shared
    let (listings, shared) ← compileMethods p rest shared
    return (listing :: listings, shared)

def unlines (lines : List String) : String := String.join (lines.map fun line => line ++ "\n")

def renderEntries (entries : List (String × String)) : String :=
  unlines (entries.map fun e => e.1 ++ ": " ++ e.2)

/-- The called labels that the unit does not define. -/
def externals (calls defined : List String) : List String :=
  calls.filter fun label => !defined.contains label

/-- The jump from the start symbol to the first method. -/
def startText (p : Program) : Option Method → String
  | none => ""
  | some m =>
    "_main:\n" ++ Text.padRight 12 "" ++ Text.padRight 8 "JMP" ++ (p.referenceOf m).asmLabel ++ "\n"

def emit (o : Options) (p : Program) (scripts : ScriptTable) : Compiling String := do
  let (library, data) := mergeHeaders scripts
  let (listings, shared) ← compileMethods p (p.methods.filter fun m => !m.external) { data := data }
  let entry ← entryPoint o p
  let defined := listings.map (·.label) ++ library.defined
  return (if entry.isSome then "global _main\n" else "")
    ++ unlines library.directives
    ++ unlines ((externals shared.calls defined).map fun label => "extern " ++ label)
    ++ "\nsection .text\n"
    ++ startText p entry
    ++ String.join ((listings ++ library.methods).map Listing.render)
    ++ "\nsection .data\n" ++ renderEntries shared.data.data
    ++ "\nsection .rodata\n" ++ renderEntries shared.data.rodata
    ++ "\nsection .bss\n" ++ unlines library.bss

end ScriptCompiler.X86
