import ScriptCompiler.Primitive.Basic
import ScriptCompiler.Span

/-!
# Diagnostics

What can go wrong, by cause. Evaluation errors carry the position of the node at
fault; compiling errors arise when positions are gone and name the method or the
reference instead. The wording of each cause stands in its `message`.
-/

set_option autoImplicit false

namespace ScriptCompiler

/-- Faults found while a script is read. -/
inductive SyntaxError where
  | unexpectedToken (found : String) (span : Span)
  | unexpectedEof (span : Span)
  deriving DecidableEq, Repr

/-- Faults found by declaration, resolution, checking and lowering. -/
inductive EvaluationError where
  | methodNotFound (name : String) (span : Span)
  | methodOverloadNotFound (name arguments : String) (span : Span)
  | localVariableNotFound (name : String) (span : Span)
  | invalidImplicitCast (source target : Primitive) (span : Span)
  | invalidMethodOverloading (owner signature : String) (span : Span)
  | instructionNotImplemented (construct : String) (span : Span)
  /-- A warning: the literal is replaced by the nearest value of its type. -/
  | numericOverflow (value : Int) (target : Primitive) (clamped : Int) (span : Span)
  | noCommonType (left right : Primitive) (span : Span)
  | invalidDeclarationType (name : String) (type : Primitive) (span : Span)
  | invalidReturn (method : String) (expected found : Primitive) (span : Span)
  | invalidCondition (found : Primitive) (span : Span)
  | duplicateLocal (name : String) (span : Span)
  deriving DecidableEq, Repr

/-- What a pass comes to, if it does not fail. -/
abbrev Evaluating := Except EvaluationError

/-- Faults found while target text is produced. -/
inductive CompilingError where
  | unknownCallTarget (reference : String)
  | unsupportedType (backend : String) (type : Primitive) (method : String)
  | unsupportedConversion (backend : String) (source target : Primitive)
  | stackUnderflow (method instruction : String)
  | unbalancedConditional (method : String)
  | unresolvedJump (method : String) (target : Int)
  | unstructuredJump (backend method : String)
  | malformedInstruction (instruction detail : String)
  | missingImport (reference : String)
  /-- Arithmetic on an operand leaves its word. The compiler stops here and reports nothing. -/
  | overflow
  deriving DecidableEq, Repr

/-- What compiling comes to, if it does not fail. -/
abbrev Compiling := Except CompilingError

/-- Anything that is reported against a script. -/
inductive Diagnostic where
  | reading (cause : SyntaxError)
  | evaluation (cause : EvaluationError)
  | compiling (cause : CompilingError)
  deriving DecidableEq, Repr

namespace SyntaxError

def name : SyntaxError → String
  | unexpectedToken .. => "UnexpectedToken"
  | unexpectedEof .. => "UnexpectedEof"

def span : SyntaxError → Span
  | unexpectedToken _ s | unexpectedEof s => s

def message : SyntaxError → String
  | unexpectedToken found s => "unexpected token '" ++ found ++ "' at " ++ s.text
  | unexpectedEof s => "unexpected end of file at " ++ s.text

end SyntaxError

namespace EvaluationError

def name : EvaluationError → String
  | methodNotFound .. => "MethodNotFound"
  | methodOverloadNotFound .. => "MethodOverloadNotFound"
  | localVariableNotFound .. => "LocalVariableNotFound"
  | invalidImplicitCast .. => "InvalidImplicitCast"
  | invalidMethodOverloading .. => "InvalidMethodOverloading"
  | instructionNotImplemented .. => "InstructionNotImplemented"
  | numericOverflow .. => "NumericOverflow"
  | noCommonType .. => "NoCommonType"
  | invalidDeclarationType .. => "InvalidDeclarationType"
  | invalidReturn .. => "InvalidReturn"
  | invalidCondition .. => "InvalidCondition"
  | duplicateLocal .. => "DuplicateLocal"

def span : EvaluationError → Span
  | methodNotFound _ s | methodOverloadNotFound _ _ s | localVariableNotFound _ s
  | invalidImplicitCast _ _ s | invalidMethodOverloading _ _ s | instructionNotImplemented _ s
  | numericOverflow _ _ _ s | noCommonType _ _ s | invalidDeclarationType _ _ s
  | invalidReturn _ _ _ s | invalidCondition _ s | duplicateLocal _ s => s

def cause : EvaluationError → String
  | methodNotFound name _ => "no method named '" ++ name ++ "'"
  | methodOverloadNotFound name arguments _ =>
    "no overload of '" ++ name ++ "' accepts (" ++ arguments ++ ")"
  | localVariableNotFound name _ => "unknown local variable '" ++ name ++ "'"
  | invalidImplicitCast source target _ =>
    "cannot implicitly convert '" ++ source.tag ++ "' to '" ++ target.tag ++ "'"
  | invalidMethodOverloading owner signature _ =>
    "'" ++ signature ++ "' is already declared in '" ++ owner ++ "'"
  | instructionNotImplemented construct _ => construct ++ " is not supported"
  | numericOverflow value target clamped _ =>
    toString value ++ " does not fit in '" ++ target.tag ++ "', clamped to " ++ toString clamped
  | noCommonType left right _ =>
    "'" ++ left.tag ++ "' and '" ++ right.tag ++ "' have no common type"
  | invalidDeclarationType name type _ =>
    "'" ++ name ++ "' cannot be declared with type '" ++ type.tag ++ "'"
  | invalidReturn method expected found _ =>
    "'" ++ method ++ "' returns '" ++ expected.tag ++ "' but the statement returns '"
      ++ found.tag ++ "'"
  | invalidCondition found _ => "condition must be 'bool', found '" ++ found.tag ++ "'"
  | duplicateLocal name _ => "'" ++ name ++ "' is already declared in this scope"

def message (e : EvaluationError) : String :=
  "at " ++ e.span.text ++ ": " ++ e.cause

end EvaluationError

namespace CompilingError

def name : CompilingError → String
  | unknownCallTarget .. => "UnknownCallTarget"
  | unsupportedType .. => "UnsupportedType"
  | unsupportedConversion .. => "UnsupportedConversion"
  | stackUnderflow .. => "StackUnderflow"
  | unbalancedConditional .. => "UnbalancedConditional"
  | unresolvedJump .. => "UnresolvedJump"
  | unstructuredJump .. => "UnstructuredJump"
  | malformedInstruction .. => "MalformedInstruction"
  | missingImport .. => "MissingImport"
  | overflow => "Overflow"

def message : CompilingError → String
  | unknownCallTarget reference => "call to unknown method '" ++ reference ++ "'"
  | unsupportedType backend type method =>
    backend ++ ": type '" ++ type.tag ++ "' is not supported (in '" ++ method ++ "')"
  | unsupportedConversion backend source target =>
    backend ++ ": no conversion from '" ++ source.tag ++ "' to '" ++ target.tag ++ "'"
  | stackUnderflow method instruction =>
    "'" ++ instruction ++ "' in '" ++ method ++ "' needs more values than are on the stack"
  | unbalancedConditional method => "unbalanced if/else/endif in '" ++ method ++ "'"
  | unresolvedJump method target =>
    "jump in '" ++ method ++ "' targets instruction " ++ toString target
      ++ ", which does not exist"
  | unstructuredJump backend method => backend ++ ": unstructured jump in '" ++ method ++ "'"
  | malformedInstruction instruction detail =>
    "malformed instruction '" ++ instruction ++ "': " ++ detail
  | missingImport reference => "'" ++ reference ++ "' must be declared by a header script"
  | overflow => "arithmetic overflow"

end CompilingError

namespace Diagnostic

def name : Diagnostic → String
  | reading cause => cause.name
  | evaluation cause => cause.name
  | compiling cause => cause.name

def span? : Diagnostic → Option Span
  | reading cause => some cause.span
  | evaluation cause => some cause.span
  | compiling _ => none

def message : Diagnostic → String
  | reading cause => cause.message
  | evaluation cause => cause.message
  | compiling cause => cause.message

def isReading : Diagnostic → Bool
  | reading _ => true
  | _ => false

end Diagnostic

end ScriptCompiler
