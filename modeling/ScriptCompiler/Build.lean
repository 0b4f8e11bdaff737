import ScriptCompiler.Evaluation.Pipeline
import ScriptCompiler.Wat.Emit
import ScriptCompiler.X86.Emit

/-!
# Builds

A build holds scripts, their trees, and the evaluated program. The program is
evaluated when it is first needed and kept until another tree is added; a target
is produced only if the evaluation reported no error.
-/

set_option autoImplicit false

namespace ScriptCompiler

/-- What a build produces. -/
inductive Target where
  | assembly (options : X86.Options)
  | module (options : Wat.Options)
  deriving DecidableEq, Repr

def Target.extension : Target → String
  | assembly _ => "asm"
  | module _ => "wat"

def Target.emit (t : Target) (p : Program) (scripts : ScriptTable) : Compiling String :=
  match t with
  | assembly options => X86.emit options p scripts
  | module options => Wat.emit options p

/-- Why a build yields nothing. -/
inductive BuildFailure where
  | hasErrors (count : Nat)
  | compiling (cause : CompilingError)
  /-- The output could not be written. -/
  | notWritten (path : String)
  deriving DecidableEq, Repr

def BuildFailure.message : BuildFailure → String
  | hasErrors count => toString count ++ " error(s) reported; code generation skipped"
  | compiling cause => cause.message
  | notWritten path => "cannot write '" ++ path ++ "'"

/-- Scripts, their trees, and the program once it is evaluated. -/
structure Build where
  scripts : ScriptTable := .empty
  files : List SourceFile := []
  program : Option Program := none

namespace Build

def empty : Build := {}

def addScript (b : Build) (path : String) (kind : ScriptKind) : Build × ScriptId :=
  let (scripts, id) := b.scripts.add path kind
  ({ b with scripts }, id)

/-- Adds the tree of a script; the program is evaluated anew when it is next needed. -/
def addFile (b : Build) (file : SourceFile) : Build :=
  { b with files := b.files ++ [file], program := none }

def isEvaluated (b : Build) : Bool := b.program.isSome

def evaluate (b : Build) : Build × Program :=
  match b.program with
  | some program => (b, program)
  | none =>
    let s := ScriptCompiler.evaluate b.scripts.clearEvaluation b.files
    ({ b with scripts := s.scripts, program := some s.program }, s.program)

/-- The text of a target, evaluating the program if needed. -/
def emit (b : Build) (target : Target) : Build × Except BuildFailure String :=
  let (b, program) := b.evaluate
  (b,
    if b.scripts.hasErrors then .error (.hasErrors b.scripts.errorCount)
    else
      match target.emit program b.scripts with
      | .ok text => .ok text
      | .error e => .error (.compiling e))

def compileTo (b : Build) (target : Target) (path : String) (files : FileSystem) :
    (Build × FileSystem) × Except BuildFailure Unit :=
  match b.emit target with
  | (b, .error e) => ((b, files), .error e)
  | (b, .ok text) =>
    let (files, written) := files.write path text
    ((b, files), if written then .ok () else .error (.notWritten path))

end Build

end ScriptCompiler
