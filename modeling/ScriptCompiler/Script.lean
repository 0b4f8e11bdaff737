import ScriptCompiler.Diagnostic
import ScriptCompiler.FileSystem

/-!
# Scripts and their diagnostics

A build is made of scripts. Source scripts hold code, header scripts declare
methods that hand-written assembly implements, and library scripts only
contribute declarations. Each diagnostic is kept with the script it concerns.
-/

set_option autoImplicit false

namespace ScriptCompiler

abbrev ScriptId := Nat

/-- What a script is for. -/
inductive ScriptKind where
  | source
  /-- Declarations whose methods the assembly text implements. -/
  | header (assembly : String)
  | library
  deriving DecidableEq, Repr

def ScriptKind.name : ScriptKind → String
  | source => "Source"
  | header _ => "Header"
  | library => "Library"

/-- A script with what was reported against it. -/
structure Script where
  id : ScriptId
  path : String
  kind : ScriptKind
  errors : List Diagnostic := []
  warnings : List Diagnostic := []
  deriving DecidableEq, Repr

namespace Script

def assembly? (s : Script) : Option String :=
  match s.kind with
  | .header assembly => some assembly
  | _ => none

def isHeader (s : Script) : Bool := s.assembly?.isSome

def hasErrors (s : Script) : Bool := !s.errors.isEmpty

def read? (s : Script) (files : FileSystem) : Option String := files.read? s.path

end Script

structure ScriptTable where
  scripts : List Script := []
  deriving DecidableEq, Repr

namespace ScriptTable

def empty : ScriptTable := {}

def add (t : ScriptTable) (path : String) (kind : ScriptKind) : ScriptTable × ScriptId :=
  let id := t.scripts.length
  (⟨t.scripts ++ [{ id := id, path := path, kind := kind }]⟩, id)

def get? (t : ScriptTable) (id : ScriptId) : Option Script := t.scripts[id]?

def isHeader (t : ScriptTable) (id : ScriptId) : Bool :=
  (t.get? id).any Script.isHeader

/-- Reports an error against a script; an unknown position changes nothing. -/
def addError (t : ScriptTable) (id : ScriptId) (d : Diagnostic) : ScriptTable :=
  ⟨t.scripts.modify id fun s => { s with errors := s.errors ++ [d] }⟩

/-- Reports a warning against a script; an unknown position changes nothing. -/
def addWarning (t : ScriptTable) (id : ScriptId) (d : Diagnostic) : ScriptTable :=
  ⟨t.scripts.modify id fun s => { s with warnings := s.warnings ++ [d] }⟩

/-- Reports evaluation errors against a script, in order. -/
def addErrors (t : ScriptTable) (id : ScriptId) (errors : List EvaluationError) : ScriptTable :=
  errors.foldl (fun t e => t.addError id (.evaluation e)) t

/-- Reports evaluation warnings against a script, in order. -/
def addWarnings (t : ScriptTable) (id : ScriptId) (warnings : List EvaluationError) : ScriptTable :=
  warnings.foldl (fun t e => t.addWarning id (.evaluation e)) t

/-- Drops all diagnostics but those found while a script was read. -/
def clearEvaluation (t : ScriptTable) : ScriptTable :=
  ⟨t.scripts.map fun s =>
    { s with
      errors := s.errors.filter Diagnostic.isReading
      warnings := s.warnings.filter Diagnostic.isReading }⟩

def hasErrors (t : ScriptTable) : Bool := t.scripts.any Script.hasErrors

def errorCount (t : ScriptTable) : Nat := (t.scripts.map fun s => s.errors.length).sum

def withErrors (t : ScriptTable) : List Script := t.scripts.filter Script.hasErrors

def withWarnings (t : ScriptTable) : List Script :=
  t.scripts.filter fun s => !s.warnings.isEmpty

def reportScript (s : Script) : String :=
  if s.errors.isEmpty && s.warnings.isEmpty then ""
  else
    s.path ++ ":\n"
      ++ String.join (s.errors.map fun d => "  error: " ++ d.message ++ "\n")
      ++ String.join (s.warnings.map fun d => "  warning: " ++ d.message ++ "\n")

/-- All diagnostics as text, grouped by script. -/
def report (t : ScriptTable) : String :=
  String.join (t.scripts.map reportScript)

end ScriptTable

end ScriptCompiler
