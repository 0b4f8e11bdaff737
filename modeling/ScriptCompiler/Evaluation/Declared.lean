import ScriptCompiler.Program.Basic
import ScriptCompiler.Tree.Folding

/-!
# Declared programs

The namespaces and method signatures of all scripts, with folded bodies. Nothing
is resolved yet, so a method may call one that is declared later. A declaration
that cannot stand is reported on the script that makes it and left out.
-/

set_option autoImplicit false

namespace ScriptCompiler

/-- A program together with the scripts that its diagnostics go to. -/
structure Evaluation where
  program : Program := .empty
  scripts : ScriptTable

namespace Evaluation

def report (s : Evaluation) (script : ScriptId) (e : EvaluationError) : Evaluation :=
  { s with scripts := s.scripts.addError script (.evaluation e) }

/-- The first parameter whose name an earlier one has. -/
def repeatedParameter? (seen : List String) : List ParameterDecl → Option ParameterDecl
  | [] => none
  | p :: rest => if seen.contains p.name then some p else repeatedParameter? (p.name :: seen) rest

/-- Why the parameters of a method cannot stand: one of a type without values, or one whose name is
taken. -/
def parameterFault? (parameters : List ParameterDecl) : Option EvaluationError :=
  match parameters.find? fun p => p.type == .void || p.type.isGeneric with
  | some bad => some (.invalidDeclarationType bad.name bad.type bad.span)
  | none => (repeatedParameter? [] parameters).map fun p => .duplicateLocal p.name p.span

def declaredSignature (m : MethodDecl) : String :=
  m.name.text ++ "(" ++ ", ".intercalate (m.parameters.map fun p => p.type.tag) ++ ")"

def declareMethod (external : Bool) (owner : NamespaceId) (s : Evaluation) (m : MethodDecl) :
    Evaluation :=
  let script := ((s.program.namespaceAt? owner).map (·.script)).getD 0
  match parameterFault? m.parameters with
  | some e => s.report script e
  | none =>
    match s.program.addMethod owner
        { name := m.name
          returnType := m.returnType
          parameters := m.parameters.map fun p => ⟨p.name, p.type⟩
          external
          span := m.span } with
    | none =>
      s.report script (.invalidMethodOverloading (".".intercalate (s.program.pathOf owner))
        (declaredSignature m) m.span)
    | some (program, id) =>
      if external then { s with program }
      else
        { s with program := program.updateMethod id fun method =>
          { method with statements := Stmt.foldAll .double m.body } }

def declareMember (external : Bool) (owner : NamespaceId) (s : Evaluation) : Member → Evaluation
  | .method m => s.declareMethod external owner m
  | .field name type _ => { s with program := s.program.addField owner ⟨name, type⟩ }

/-- Declares one item of a script; a statement outside any method has no effect. -/
def declareItem (script : ScriptId) (external : Bool) (s : Evaluation) : Item → Evaluation
  | .group name members _ =>
    let (program, owner) := s.program.addNamespace name script
    members.foldl (declareMember external owner) { s with program }
  | .method m =>
    let (program, owner) := s.program.implicitNamespace script
    declareMethod external owner { s with program } m
  | .statement _ => s

def declareFile (s : Evaluation) (file : SourceFile) : Evaluation :=
  file.items.foldl (declareItem file.script (s.scripts.isHeader file.script)) s

/-- Declares everything that the scripts hold, in order. -/
def declare (s : Evaluation) (files : List SourceFile) : Evaluation :=
  files.foldl declareFile s

end Evaluation

end ScriptCompiler
