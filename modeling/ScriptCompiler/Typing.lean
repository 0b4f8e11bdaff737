import ScriptCompiler.Primitive.Conversion
import ScriptCompiler.Program.Basic

/-!
# Types of expressions

The static type of a resolved expression. A name without a slot and a call
without a method count as not found.
-/

set_option autoImplicit false

namespace ScriptCompiler

/-- The type of a binary operator's operands, or the fault that they have none in common. -/
def Primitive.common (left right : Primitive) (span : Span) : Evaluating Primitive :=
  match left.common? right with
  | some t => .ok t
  | none => .error (.noCommonType left right span)

/-- The type of the slot that a name means. -/
def NameUse.type (u : NameUse) : Evaluating Primitive :=
  match u.slot with
  | some slot => .ok slot.type
  | none => .error (.localVariableNotFound u.symbol.text u.span)

/-- The result type of an operator whose operands have a common type. -/
def BinaryOp.resultType (op : BinaryOp) (common : Primitive) (span : Span) :
    Evaluating Primitive :=
  if op.isComparison then .ok .bool
  else if common.isNumeric then .ok common
  else .error (.instructionNotImplemented
    ("'" ++ op.symbol ++ "' on '" ++ common.tag ++ "'") span)

def Program.callee (p : Program) (target : DottedName) (method : Option MethodId) (span : Span) :
    Evaluating Method :=
  match method.bind p.methodAt? with
  | some m => .ok m
  | none => .error (.methodNotFound target.text span)

def Expr.typeIn (p : Program) : Expr → Evaluating Primitive
  | .literal value _ => .ok value.type
  | .name use => use.type
  | .binary op left right span => do
    let l ← left.typeIn p
    let r ← right.typeIn p
    let common ← l.common r span
    op.resultType common span
  | .assign target _ _ => target.type
  | .call target _ method span => do
    let m ← p.callee target method span
    return m.returnType
  | .cast _ type _ => .ok type

end ScriptCompiler
