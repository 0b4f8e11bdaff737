import ScriptCompiler.Number.Decimal
import ScriptCompiler.Typing

/-!
# The meaning of trees

An evaluator for checked trees, over any interpretation of constants, conversions, operators and
calls (`Meaning`). The right operand of an operator is evaluated before the left one and arguments
from left to right. An interpretation may refuse to answer; the evaluation then traps with the store
of that moment. A tree that names nothing is stuck.
-/

set_option autoImplicit false

namespace ScriptCompiler

/-- An interpretation: what constants, conversions, operators and calls do to values `V` and a
world `W`. No answer is a trap. -/
structure Meaning (V W : Type) where
  /-- The constant of a type with a text. -/
  constant : Primitive → String → V
  /-- The conversion from a type to another one. -/
  convert : Primitive → Primitive → V → Option V
  /-- An operator between a left and a right operand of a type. -/
  operate : BinaryOp → Primitive → V → V → Option V
  /-- The call of the method with a reference. -/
  call : String → List V → W → Option (V × W)
  /-- Whether a value counts as true. -/
  isTrue : V → Bool
  /-- Whether a value of a type lies below another one. -/
  below : Primitive → V → V → Bool

/-- What a body works on: its slots, the world, and the calls made so far with their arguments. -/
structure Store (V W : Type) where
  locals : Int → V
  world : W
  calls : List (String × List V) := []

/-- Why an evaluation does not go on. -/
inductive Stop (V W : Type) where
  /-- Something has no meaning. -/
  | stuck
  /-- The interpretation gave no answer. -/
  | trapped (store : Store V W)

variable {V W : Type}

/-- The store with a slot changed. -/
def Store.assign (s : Store V W) (index : Int) (v : V) : Store V W :=
  { s with locals := fun i => if i = index then v else s.locals i }

namespace Meaning

/-- The answer of an interpretation, or a trap. -/
def orTrap {α : Type} (s : Store V W) : Option α → Except (Stop V W) α
  | some a => .ok a
  | none => .error (.trapped s)

/-- A value brought from its type to another one; nothing happens if they are the same. -/
def bring (M : Meaning V W) (s : Store V W) (target : Primitive) (x : Primitive × V) :
    Except (Stop V W) V :=
  if x.1 = target then .ok x.2 else orTrap s (M.convert x.1 target x.2)

/-- What an evaluation yields, brought to a type. -/
def into (M : Meaning V W) (target : Primitive)
    (r : Except (Stop V W) ((Primitive × V) × Store V W)) : Except (Stop V W) (V × Store V W) := do
  let (x, s) ← r
  let v ← M.bring s target x
  return (v, s)

/-- Calls a method and notes the call. -/
def invoke (M : Meaning V W) (target : String) (args : List V) (s : Store V W) :
    Except (Stop V W) (V × Store V W) := do
  let (v, world) ← orTrap s (M.call target args s.world)
  return (v, { s with world, calls := s.calls ++ [(target, args)] })

end Meaning

/-! ## Types from slots -/

/-- The type that a value takes in a slot: one without a type of its own takes that of the slot, if
it is assignable there, and its default otherwise. -/
def Primitive.inSlot (t : Primitive) (slot : Option Primitive) : Primitive :=
  if t.isGeneric then (slot.filter fun s => !s.isGeneric && t.assignableTo s).getD t.concrete
  else t

/-- The type of a literal in a slot; an integer can also be a character. -/
def Literal.inSlot (slot : Option Primitive) : Literal → Primitive
  | .integer _ => if slot = some .char then .char else Primitive.number.inSlot slot
  | .real _ => Primitive.floating.inSlot slot
  | .text _ => .str
  | .boolean _ => .bool
  | .null => .ptr

/-- The text of a literal's constant. -/
def Literal.written : Literal → String
  | .integer n => toString n
  | .real x => x.text .plain
  | .text s => s
  | .boolean true => "true"
  | .boolean false => "false"
  | .null => "0"

/-- The type that an operator works on in a slot. -/
def Expr.operandType? (p : Program) (left right : Expr) (slot : Option Primitive) :
    Option Primitive :=
  match left.typeIn p, right.typeIn p with
  | .ok l, .ok r => (l.common? r).map fun t => t.inSlot slot
  | _, _ => none

/-! ## Expressions -/

mutual

/-- The value of an expression with its type, and the store afterwards; `slot` is the type of the
slot that the value flows into. -/
def Expr.eval (M : Meaning V W) (p : Program) :
    Expr → Option Primitive → Store V W → Except (Stop V W) ((Primitive × V) × Store V W)
  | .literal value _, slot, s =>
    .ok ((value.inSlot slot, M.constant (value.inSlot slot) value.written), s)
  | .name use, _, s =>
    match use.slot with
    | none => .error .stuck
    | some slot => .ok ((slot.type, s.locals slot.index), s)
  | .binary op left right _, slot, s =>
    match Expr.operandType? p left right slot with
    | none => .error .stuck
    | some type => do
      let (r, s) ← M.into type (right.eval M p (some type) s)
      let (l, s) ← M.into type (left.eval M p (some type) s)
      let v ← Meaning.orTrap s (M.operate op type l r)
      return ((if op.isComparison then .bool else type, v), s)
  | .assign target value _, _, s =>
    match target.slot with
    | none => .error .stuck
    | some slot => do
      let (v, s) ← M.into slot.type (value.eval M p (some slot.type) s)
      return ((slot.type, v), s.assign slot.index v)
  | .call _ args method _, _, s =>
    match method.bind p.methodAt? with
    | none => .error .stuck
    | some callee => do
      let (vs, s) ← Expr.evalArguments M p args callee.parameterTypes s
      let (v, s) ← M.invoke (p.referenceOf callee).text vs s
      return ((callee.returnType, v), s)
  | .cast operand type _, _, s => do
    let (v, s) ← M.into type (operand.eval M p (some type) s)
    return ((type, v), s)

/-- The values of arguments, each brought to the type of its parameter. -/
def Expr.evalArguments (M : Meaning V W) (p : Program) :
    List Expr → Types → Store V W → Except (Stop V W) (List V × Store V W)
  | argument :: args, type :: types, s => do
    let (v, s) ← M.into type (argument.eval M p (some type) s)
    let (vs, s) ← Expr.evalArguments M p args types s
    return (v :: vs, s)
  | _, _, s => .ok ([], s)

end

/-- The value of an expression brought to a type. -/
def Expr.evalTo (M : Meaning V W) (p : Program) (e : Expr) (target : Primitive) (s : Store V W) :
    Except (Stop V W) (V × Store V W) :=
  M.into target (e.eval M p (some target) s)

/-! ## Statements -/

/-- How a body ends. -/
inductive Ending (V : Type) where
  /-- Its last statement is done. -/
  | fell
  | returned (value : Option V)
  deriving DecidableEq, Repr

mutual

/-- Executes a statement of a method that returns `returnType`. -/
def Stmt.exec (M : Meaning V W) (p : Program) (returnType : Primitive) :
    Stmt → Store V W → Except (Stop V W) (Ending V × Store V W)
  | .expression e, s => do
    let (_, s) ← e.eval M p none s
    return (.fell, s)
  | .declare .., _ => .error .stuck
  | .ret none _, s => .ok (.returned none, s)
  | .ret (some value) _, s => do
    let (v, s) ← value.evalTo M p returnType s
    return (.returned (some v), s)
  | .branch cond body alts _, s => do
    let (v, s) ← cond.evalTo M p .bool s
    if M.isTrue v then body.exec M p returnType s else alts.exec M p returnType s
  | .block body _, s => Stmt.execAll M p returnType body s
  | .assembly _ _, s => .ok (.fell, s)

/-- Executes the first alternative whose condition holds; one without a condition always does. -/
def Alternatives.exec (M : Meaning V W) (p : Program) (returnType : Primitive) :
    Alternatives → Store V W → Except (Stop V W) (Ending V × Store V W)
  | .none, s => .ok (.fell, s)
  | .more (some cond) body next _, s => do
    let (v, s) ← cond.evalTo M p .bool s
    if M.isTrue v then body.exec M p returnType s else next.exec M p returnType s
  | .more none body _ _, s => body.exec M p returnType s

/-- Executes statements up to the first return. -/
def Stmt.execAll (M : Meaning V W) (p : Program) (returnType : Primitive) :
    List Stmt → Store V W → Except (Stop V W) (Ending V × Store V W)
  | [], s => .ok (.fell, s)
  | first :: rest, s => do
    let (ending, s) ← first.exec M p returnType s
    match ending with
    | .fell => Stmt.execAll M p returnType rest s
    | .returned v => return (.returned v, s)

end

end ScriptCompiler
