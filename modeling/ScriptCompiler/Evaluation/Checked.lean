import ScriptCompiler.Evaluation.Declared
import ScriptCompiler.Typing

/-!
# Checked statements

Wherever a value flows into a typed slot, its type must be assignable to the
slot's. An integer literal outside an integer slot is replaced by the nearest
bound, with a warning; a concrete value of another assignable type is cast; any
other value is an error. Conditions are truth values, and returns agree with the
method.
-/

set_option autoImplicit false

namespace ScriptCompiler

/-- What checking yields: a result or the error that stopped it, and the errors and warnings
reported on the way. -/
structure Checked (α : Type) where
  outcome : Evaluating α
  errors : List EvaluationError := []
  warnings : List EvaluationError := []

namespace Checked

variable {α β : Type}

/-- One step after the other; what was reported stays, and an error stops. -/
def bind (x : Checked α) (f : α → Checked β) : Checked β :=
  match x.outcome with
  | .error e => ⟨.error e, x.errors, x.warnings⟩
  | .ok a =>
    let y := f a
    ⟨y.outcome, x.errors ++ y.errors, x.warnings ++ y.warnings⟩

instance : Monad Checked where
  pure a := ⟨.ok a, [], []⟩
  bind := bind

/-- A result or an error, with nothing reported. -/
def lift (x : Evaluating α) : Checked α := ⟨x, [], []⟩

def fail (e : EvaluationError) : Checked α := lift (.error e)

def warn (a : α) (w : EvaluationError) : Checked α := ⟨.ok a, [], [w]⟩

/-- The error of a part turned into a report, with nothing in its place. -/
def recover (x : Checked α) : Checked (Option α) :=
  match x.outcome with
  | .error e => ⟨.ok none, x.errors ++ [e], x.warnings⟩
  | .ok a => ⟨.ok (some a), x.errors, x.warnings⟩

end Checked

/-- An integer literal brought between the bounds of a type, with a warning if it lay outside. -/
def Expr.clampLiteral (n : Int) (target : Primitive) (value : Expr) : Checked Expr :=
  let clamped := target.clamp n
  if clamped = n then pure value
  else Checked.warn (.literal (.integer clamped) value.span)
    (.numericOverflow n target clamped value.span)

/-- A value made to fit a slot of type `target`. -/
def Expr.coerce (p : Program) (value : Expr) (target : Primitive) : Checked Expr :=
  match value.integer?, target.isConcreteInteger with
  | some n, true => value.clampLiteral n target
  | _, _ => do
    let type ← Checked.lift (value.typeIn p)
    if type = target then pure value
    else if !type.assignableTo target then
      Checked.fail (.invalidImplicitCast type target value.span)
    else if type.isGeneric then pure value
    else pure (value.castTo target)

/-- An operand made to fit the common type of its operator; only integer literals change. -/
def Expr.fitOperand (common : Primitive) (operand : Expr) : Checked Expr :=
  match operand.integer?, common.isConcreteInteger with
  | some n, true => operand.clampLiteral n common
  | _, _ => pure operand

mutual

/-- An expression with every value in it made to fit its slot. -/
def Expr.check (p : Program) : Expr → Checked Expr
  | .literal value span => pure (.literal value span)
  | .name use => pure (.name use)
  | .binary op left right span => do
    let left ← left.check p
    let right ← right.check p
    let l ← Checked.lift (left.typeIn p)
    let r ← Checked.lift (right.typeIn p)
    let common ← Checked.lift (l.common r span)
    let left ← left.fitOperand common
    let right ← right.fitOperand common
    let checked := Expr.binary op left right span
    let _ ← Checked.lift (checked.typeIn p)
    pure checked
  | .assign target value span => do
    let type ← Checked.lift target.type
    let value ← value.check p
    let value ← value.coerce p type
    pure (.assign target value span)
  | .call target arguments method span => do
    let callee ← Checked.lift (p.callee target method span)
    let arguments ← Expr.checkArguments p arguments callee.parameterTypes
    pure (.call target arguments method span)
  | .cast operand type span => do
    let operand ← operand.check p
    pure (.cast operand type span)

def Expr.checkArguments (p : Program) : List Expr → Types → Checked (List Expr)
  | argument :: arguments, type :: types => do
    let argument ← argument.check p
    let argument ← argument.coerce p type
    let rest ← Expr.checkArguments p arguments types
    pure (argument :: rest)
  | _, _ => pure []

end

/-- A condition, which has to be a truth value. -/
def Expr.checkCondition (p : Program) (condition : Expr) : Checked Expr := do
  let condition ← condition.check p
  let type ← Checked.lift (condition.typeIn p)
  if type = .bool then pure condition
  else Checked.fail (.invalidCondition type condition.span)

def Expr.checkConditionOption (p : Program) : Option Expr → Checked (Option Expr)
  | none => pure none
  | some condition => do
    let condition ← condition.checkCondition p
    pure (some condition)

/-- The value of a return, which is there exactly when the method returns one. -/
def Method.checkReturn (p : Program) (m : Method) (value : Option Expr) (span : Span) :
    Checked (Option Expr) :=
  match value with
  | none =>
    if m.returnType = .void then pure none
    else Checked.fail (.invalidReturn m.name.text m.returnType .void span)
  | some value =>
    if m.returnType = .void then do
      let found ← Checked.lift (value.typeIn p)
      Checked.fail (.invalidReturn m.name.text m.returnType found span)
    else do
      let value ← value.check p
      let value ← value.coerce p m.returnType
      pure (some value)

/-- The fault of a declaration that was never resolved. -/
def unresolvedDeclaration (name : String) (span : Span) : EvaluationError :=
  .instructionNotImplemented ("unresolved declaration of '" ++ name ++ "'") span

mutual

def Stmt.check (p : Program) (m : Method) : Stmt → Checked Stmt
  | .expression e => do
    let e ← e.check p
    pure (.expression e)
  | .declare name _ _ span => Checked.fail (unresolvedDeclaration name span)
  | .ret value span => do
    let value ← m.checkReturn p value span
    pure (.ret value span)
  | .branch condition body alternatives span => do
    let condition ← condition.checkCondition p
    let body ← body.check p m
    let alternatives ← alternatives.check p m
    pure (.branch condition body alternatives span)
  | .block body span => do
    let body ← Stmt.checkAll p m body
    pure (.block body span)
  | .assembly text span => pure (.assembly text span)

def Alternatives.check (p : Program) (m : Method) : Alternatives → Checked Alternatives
  | .none => pure .none
  | .more condition body next span => do
    let condition ← Expr.checkConditionOption p condition
    let body ← body.check p m
    let next ← next.check p m
    pure (.more condition body next span)

/-- The statements of a block checked; one that fails is reported and left out. -/
def Stmt.checkAll (p : Program) (m : Method) : List Stmt → Checked (List Stmt)
  | [] => pure []
  | s :: rest => do
    let s ← (s.check p m).recover
    let rest ← Stmt.checkAll p m rest
    pure (s.toList ++ rest)

end

/-- A method with its statements checked, the errors and the warnings. -/
def Method.check (p : Program) (m : Method) :
    Method × List EvaluationError × List EvaluationError :=
  let result := Stmt.checkAll p m m.statements
  let statements := match result.outcome with
    | .ok statements => statements
    | .error _ => []
  ({ m with statements }, result.errors, result.warnings)

/-- Checks every method that is not external, reporting on the script of each. -/
def Evaluation.check (s : Evaluation) : Evaluation :=
  let results := s.program.methods.map fun m =>
    if m.external then (m, [], []) else m.check s.program
  { program := { s.program with methods := results.map (·.1) }
    scripts := results.foldl
      (fun t r => (t.addErrors r.1.script r.2.1).addWarnings r.1.script r.2.2) s.scripts }

end ScriptCompiler
