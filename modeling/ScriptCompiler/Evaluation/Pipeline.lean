import ScriptCompiler.Evaluation.Checked
import ScriptCompiler.Evaluation.Lowered
import ScriptCompiler.Evaluation.Resolved

/-!
# Evaluation

The passes from trees to stack code, one after the other. Each reports its errors
on the script that owns the method and goes on, so that one evaluation finds as
many faults as it can.
-/

set_option autoImplicit false

namespace ScriptCompiler

inductive Pass where
  | declaration | resolution | checking | lowering
  deriving DecidableEq, Repr

namespace Pass

def name : Pass → String
  | declaration => "declaration"
  | resolution => "resolution"
  | checking => "checking"
  | lowering => "lowering"

def ofName? (s : String) : Option Pass :=
  [declaration, resolution, checking, lowering].find? fun p => p.name == s

def all : List Pass := [declaration, resolution, checking, lowering]

/-- One pass; declaration uses the files up. -/
def run (pass : Pass) (state : Evaluation × List SourceFile) : Evaluation × List SourceFile :=
  match pass with
  | declaration => (state.1.declare state.2, [])
  | resolution => (state.1.resolve, state.2)
  | checking => (state.1.check, state.2)
  | lowering => (state.1.lower, state.2)

end Pass

/-- The program that the scripts describe, and the scripts with all diagnostics. -/
def evaluate (scripts : ScriptTable) (files : List SourceFile) : Evaluation :=
  (({ scripts := scripts } : Evaluation).declare files).resolve.check.lower

end ScriptCompiler
