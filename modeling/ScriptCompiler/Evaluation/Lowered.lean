import ScriptCompiler.Evaluation.Declared
import ScriptCompiler.Number.Decimal
import ScriptCompiler.Typing

/-!
# Lowered methods

Checked statements as stack code, which grows in a buffer. The right operand of an operator comes before
the left one, arguments come in order, and a value is converted where its slot has
another type. A chain of alternatives nests: each one stands in the `otherwise`
part of the one before. Inline assembly yields no code.
-/

set_option autoImplicit false

namespace ScriptCompiler

/-- The type that an integer literal takes where `expected` is wanted. -/
def Primitive.forInteger (expected : Option Primitive) : Primitive :=
  match expected with
  | some t => if (t.isNumeric || t == .char) && !t.isGeneric then t else number.concrete
  | none => number.concrete

/-- The type that a float literal takes where `expected` is wanted. -/
def Primitive.forReal (expected : Option Primitive) : Primitive :=
  match expected with
  | some t => if t.isFloating && !t.isGeneric then t else floating.concrete
  | none => floating.concrete

/-- The type and the text of a literal's constant; a literal without a type of its own takes the
expected one. -/
def Literal.constant (expected : Option Primitive) : Literal → Primitive × String
  | integer n => (.forInteger expected, toString n)
  | real x => (.forReal expected, x.text .plain)
  | text s => (.str, s)
  | boolean b => (.bool, if b then "true" else "false")
  | null => (.ptr, "0")

/-- The concrete type of an operation whose operands have the common type `common`. -/
def Primitive.settle (common : Primitive) (expected : Option Primitive) : Primitive :=
  if common.isGeneric then
    match expected with
    | some t => if !t.isGeneric && common.assignableTo t then t else common.concrete
    | none => common.concrete
  else common

def BinaryOp.opcode : BinaryOp → Opcode
  | add => .add
  | sub => .sub
  | mul => .mul
  | div => .div
  | rem => .rem
  | equal => .equals
  | notEqual => .unequals

def NameUse.found (u : NameUse) : Evaluating Slot :=
  match u.slot with
  | some slot => .ok slot
  | none => .error (.localVariableNotFound u.symbol.text u.span)

/-! ## The buffer -/

/-- Lowering that appends to the code in a buffer. When it fails, what it appended stays there. -/
abbrev Emitter := EStateM EvaluationError Code

def Emitter.add (i : Instruction) : Emitter Unit := modify (· ++ [i])

/-- Converts the value that is pushed to a type, if it has another one. -/
def Emitter.convert (target : Primitive) (push : Emitter Primitive) : Emitter Unit := do
  let pushed ← push
  unless pushed = target do Emitter.add (.convert target)

mutual

/-- Appends an expression and returns the type of the value that it pushes, `void` if it pushes
none; `expected` types the literals that have no type of their own. -/
def Expr.emit (p : Program) (expected : Option Primitive) : Expr → Emitter Primitive
  | .literal value _ => do
    let (type, text) := value.constant expected
    Emitter.add (.loadConst type text)
    return type
  | .name use => do
    let slot ← ofExcept use.found
    Emitter.add (.getLocal slot.index)
    return slot.type
  | .binary op left right span => do
    let l ← ofExcept (left.typeIn p)
    let r ← ofExcept (right.typeIn p)
    let common ← ofExcept (l.common r span)
    let type := common.settle expected
    Emitter.convert type (right.emit p (some type))
    Emitter.convert type (left.emit p (some type))
    Emitter.add (.binary op.opcode type)
    return if op.isComparison then .bool else type
  | .assign target value _ => do
    let slot ← ofExcept target.found
    Emitter.convert slot.type (value.emit p (some slot.type))
    Emitter.add (.setLocal slot.index)
    return .void
  | .call target arguments method span => do
    let callee ← ofExcept (p.callee target method span)
    Expr.emitArguments p arguments callee.parameterTypes
    Emitter.add (.call callee.returnType (p.referenceOf callee))
    return callee.returnType
  | .cast operand type _ => do
    Emitter.convert type (operand.emit p (some type))
    return type

/-- Appends arguments, each converted to the type of its parameter. -/
def Expr.emitArguments (p : Program) : List Expr → Types → Emitter Unit
  | argument :: arguments, type :: types => do
    Emitter.convert type (argument.emit p (some type))
    Expr.emitArguments p arguments types
  | _, _ => return

end

/-- The comparison of an expression with an integer literal that a branch can make itself. -/
def Expr.comparison? : Expr → Option (Condition × Expr × Int)
  | .binary .equal left (.literal (.integer n) _) _ => some (.equal, left, n)
  | .binary .notEqual left (.literal (.integer n) _) _ => some (.unequal, left, n)
  | _ => none

/-- Appends a truth value and the branch that it decides. -/
def Expr.emitTruth (p : Program) (condition : Expr) : Emitter Unit := do
  Emitter.convert .bool (condition.emit p (some .bool))
  Emitter.add (.branch .true none)

/-- Appends a condition and the branch that uses it. An integer compared with a literal is compared
by the branch itself. -/
def Expr.emitCondition (p : Program) (condition : Expr) : Emitter Unit :=
  match condition.comparison? with
  | none => condition.emitTruth p
  | some (kind, left, n) => do
    let type ← ofExcept (left.typeIn p)
    if type.isConcreteInteger then
      let _ ← left.emit p none
      Emitter.add (.branch kind (some n))
    else condition.emitTruth p

mutual

/-- Appends a statement of a method that returns `returnType`. -/
def Stmt.emit (p : Program) (returnType : Primitive) : Stmt → Emitter Unit
  | .expression e => do
    let pushed ← e.emit p none
    unless pushed = .void do Emitter.add .pop
  | .declare name _ _ span =>
    throw (.instructionNotImplemented ("unresolved declaration of '" ++ name ++ "'") span)
  | .ret none _ => Emitter.add .ret
  | .ret (some value) _ => do
    Emitter.convert returnType (value.emit p (some returnType))
    Emitter.add .ret
  | .branch condition body alternatives _ => do
    condition.emitCondition p
    body.emit p returnType
    alternatives.emit p returnType
    Emitter.add .endBranch
  | .block body _ => Stmt.emitAll p returnType body
  | .assembly _ _ => return

/-- Appends alternatives; what follows one without a condition is never reached. -/
def Alternatives.emit (p : Program) (returnType : Primitive) : Alternatives → Emitter Unit
  | .none => return
  | .more (some condition) body next _ => do
    Emitter.add .otherwise
    condition.emitCondition p
    body.emit p returnType
    next.emit p returnType
    Emitter.add .endBranch
  | .more none body _ _ => do
    Emitter.add .otherwise
    body.emit p returnType

def Stmt.emitAll (p : Program) (returnType : Primitive) : List Stmt → Emitter Unit
  | [] => return
  | s :: rest => do
    s.emit p returnType
    Stmt.emitAll p returnType rest

end

/-- Lowers a statement behind the code and the errors of those before it. If it fails, the code is
cut off where the statement began. -/
def Stmt.lowerNext (p : Program) (returnType : Primitive) (r : Code × List EvaluationError)
    (s : Stmt) : Code × List EvaluationError :=
  match (s.emit p returnType).run r.1 with
  | .ok _ code => (code, r.2)
  | .error e code => (code.take r.1.length, r.2 ++ [e])

/-- A method with its statements lowered, and the errors. -/
def Method.lower (p : Program) (m : Method) : Method × List EvaluationError :=
  let r := m.statements.foldl (Stmt.lowerNext p m.returnType) ([], [])
  ({ m with statements := [], code := r.1, compiled := true }, r.2)

/-- Lowers every method that is not external, reporting on the script of each. -/
def Evaluation.lower (s : Evaluation) : Evaluation :=
  let results := s.program.methods.map fun m =>
    if m.external then (m, []) else m.lower s.program
  { program := { s.program with methods := results.map (·.1) }
    scripts := results.foldl (fun t r => t.addErrors r.1.script r.2) s.scripts }

end ScriptCompiler
