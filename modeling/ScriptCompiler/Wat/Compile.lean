import ScriptCompiler.Wat.State

/-!
# Methods as functions of a module

Stack code maps onto the stack of the module directly; only the types of the
pushed values are tracked, because conversions and operators depend on them.
Locals are numbered with the parameters first, then the declared locals, then the
scratch locals that put operands in order.
-/

set_option autoImplicit false

namespace ScriptCompiler.Wat

def localOf (c : Context) (i : Instruction) : Compiling (Nat × Primitive) := do
  let index ← reading i.localIndex
  match ← c.method.localType index with
  | some type =>
    return (if index < 0 then (-index - 1).toNat else c.method.parameters.length + index.toNat,
      type)
  | none => throw (i.malformed "unknown local")

/-! ## Constants -/

/-- An integer constant as its type represents it. -/
def constantValue (type : Primitive) (value : ValueType) (n : Int) : Int :=
  if type = .u64 then n
  else if value = .i64 then Integer.wrapSigned 64 n
  else Integer.wrapSigned 32 n

def loadConstant (c : Context) (i : Instruction) (s : State) : Compiling State := do
  let (type, text) ← reading i.constant
  match type with
  | .str =>
    let (memory, address) := s.memory.string text
    let s := { s with memory }.emit (.const .i64 address)
    let s := match c.loadString with
      | some function => s.emit (.call function)
      | none => s
    return s.push .str
  | .bool =>
    if text = "true" then return (s.emit (.const .i32 1)).push .bool
    else if text = "false" then return (s.emit (.const .i32 0)).push .bool
    else throw (i.malformed "boolean constant")
  | .f32 | .f64 =>
    match Double.read? text with
    | none => throw (i.malformed "floating constant")
    | some x =>
      let value ← valueType c.name type
      return (s.emit (.constReal value x)).push type
  | _ =>
    match Integer.read? 128 text with
    | none => throw (i.malformed "integer constant")
    | some n =>
      let value ← valueType c.name type
      return (s.emit (.const value (constantValue type value n))).push type

/-! ## Operators -/

/-- The instructions that bring an integer back into the range of a narrow type. -/
def narrow : Primitive → List Op
  | .i8 => [.numeric .i32 .extend8]
  | .i16 => [.numeric .i32 .extend16]
  | .u8 => [.const .i32 255, .numeric .i32 .and]
  | .u16 => [.const .i32 65535, .numeric .i32 .and]
  | _ => []

/-- The operation of an opcode on operands of a type, and the type of its result. -/
def operation (opcode : Opcode) (type : Primitive) : NumericOp × Primitive :=
  match opcode with
  | .add => (.add, type)
  | .sub => (.sub, type)
  | .mul => (.mul, type)
  | .div => (if type.isFloating then .div else .divInt (.ofPrimitive type), type)
  | .rem => (.rem (.ofPrimitive type), type)
  | .equals => (.eq, .bool)
  | _ => (.ne, .bool)

def isOrdered : Opcode → Bool
  | .sub | .div | .rem => true
  | _ => false

/-- The remainder of floats: the dividend less the divisor times the truncated quotient. -/
def realRemainder (value : ValueType) (left right : Nat) : List Op :=
  [.localGet left, .localGet left, .localGet right, .numeric value .div, .numeric value .trunc,
    .localGet right, .numeric value .mul, .numeric value .sub]

/-- Compiles an operator. The left operand is on top, so the order is mended where it matters. -/
def binary (c : Context) (i : Instruction) (s : State) : Compiling State := do
  let type ← reading i.operandType
  let s ← s.popMany c i 2
  let value ← valueType c.name type
  let (op, result) := operation i.opcode type
  let finish (s : State) : State :=
    let s := s.emit (.numeric value op)
    (if result = type then s.emitAll (narrow type) else s).push result
  if isOrdered i.opcode then
    let (s, left) := s.scratchPair c value
    let right := left + 1
    let s := s.emitAll [.localSet left, .localSet right]
    if type.isFloating && i.opcode == .rem then
      return (s.emitAll (realRemainder value left right)).push type
    else return finish (s.emitAll [.localGet left, .localGet right])
  else return finish s

/-! ## Conversions -/

/-- The reference of the library method that converts to or from text. -/
def castReference (source target : Primitive) : Reference :=
  ⟨["Std", "Type", "Casting"], ["Cast_" ++ target.tag], [source]⟩

def between (sourceType targetType : Primitive) (source target : ValueType) : List Op :=
  match source, target with
  | .i32, .i64 => [.extend (.ofPrimitive sourceType)]
  | .i64, .i32 => [.wrap]
  | .i32, .f32 | .i32, .f64 | .i64, .f32 | .i64, .f64 =>
    [.convert target source (.ofPrimitive sourceType)]
  | .f32, .i32 | .f32, .i64 | .f64, .i32 | .f64, .i64 =>
    [.truncate target source (.ofPrimitive targetType)]
  | .f32, .f64 => [.promote]
  | .f64, .f32 => [.demote]
  | .i32, .i32 | .i64, .i64 | .f32, .f32 | .f64, .f64 => []

def conversion (c : Context) (source target : Primitive) : Compiling (List Op) :=
  if source = target then .ok []
  else if source = .str ∨ target = .str then
    let reference := castReference source target
    if (c.program.findMethod? reference).isSome then .ok [.call reference.flatName]
    else .error (.missingImport reference.text)
  else
    match ValueType.ofPrimitive? source, ValueType.ofPrimitive? target with
    | some s, some t =>
      if target = .bool ∧ ¬ source.isFloating then .ok [.const s 0, .numeric s .ne]
      else .ok (between source target s t ++ narrow target)
    | _, _ => .error (.unsupportedConversion backend source target)

def convert (c : Context) (i : Instruction) (s : State) : Compiling State := do
  let target ← reading i.operandType
  let (source, s) ← s.pop c i
  let ops ← conversion c source target
  return (s.emitAll ops).push target

/-! ## Calls -/

def callStatic (c : Context) (i : Instruction) (s : State) : Compiling State := do
  let (result, target) ← reading i.callTarget
  match (c.program.findMethod? target).bind c.program.methodAt? with
  | none => throw (.unknownCallTarget target.text)
  | some callee =>
    let s ← s.popMany c i callee.parameters.length
    let s := s.emit (.call target.flatName)
    return if result = .void then s else s.push result

/-! ## Conditionals -/

def comparison (condition : Condition) (type : Primitive) : NumericOp :=
  let ordered (o : Order) : NumericOp :=
    if type.isFloating then .order o else .orderInt o (.ofPrimitive type)
  match condition with
  | .equal => .eq
  | .unequal => .ne
  | .greater => ordered .gt
  | .lesser => ordered .lt
  | .greaterEqual => ordered .ge
  | _ => ordered .le

/-- The instructions that turn a popped value into the truth value of a condition. -/
def conditionOps (i : Instruction) (condition : Condition) (number : Option Int)
    (type : Primitive) (value : ValueType) : Compiling (List Op) :=
  match condition with
  | .true => .ok (if value = .i32 then [] else [.const value 0, .numeric value .ne])
  | .false | .zero =>
    .ok (if type.isFloating then [.const value 0, .numeric value .eq] else [.numeric value .eqz])
  | _ =>
    match number with
    | some n => .ok [.const value n, .numeric value (comparison condition type)]
    | none => .error (i.malformed "comparison value")

def openBranch (c : Context) (i : Instruction) (s : State) : Compiling State := do
  let (condition, number) ← reading i.condition
  let s ←
    if condition = .forced then pure (s.emit (.const .i32 1))
    else do
      let (type, s) ← s.pop c i
      let value ← valueType c.name type
      let ops ← conditionOps i condition number type value
      pure (s.emitAll ops)
  return { s with branches := {} :: s.branches }

def otherwise (c : Context) (s : State) : Compiling State :=
  match s.branches with
  | { body, alternative := none } :: rest =>
    .ok { s with branches := { body, alternative := some [] } :: rest }
  | _ => .error (.unbalancedConditional c.name)

def endBranch (c : Context) (s : State) : Compiling State :=
  match s.branches with
  | b :: rest => .ok ({ s with branches := rest }.add b.close)
  | [] => .error (.unbalancedConditional c.name)

/-! ## Functions -/

/-- Pushes a parameter or local. -/
def getLocal (c : Context) (i : Instruction) (s : State) : Compiling State := do
  let (index, type) ← localOf c i
  return (s.emit (.localGet index)).push type

/-- Pops a value into a parameter or local. -/
def setLocal (c : Context) (i : Instruction) (s : State) : Compiling State := do
  let (index, _) ← localOf c i
  let (_, s) ← s.pop c i
  return s.emit (.localSet index)

def ret (c : Context) (i : Instruction) (s : State) : Compiling State := do
  if c.method.returnType = .void then return s.emit .ret
  else
    let (_, s) ← s.pop c i
    return s.emit .ret

def drop (c : Context) (i : Instruction) (s : State) : Compiling State := do
  let (_, s) ← s.pop c i
  return s.emit .drop

def step (c : Context) (i : Instruction) (s : State) : Compiling State :=
  match i.opcode with
  | .nop => .ok (s.emit .nop)
  | .loadConst => loadConstant c i s
  | .getLocal => getLocal c i s
  | .setLocal => setLocal c i s
  | .add | .sub | .mul | .div | .rem | .equals | .unequals => binary c i s
  | .convert => convert c i s
  | .call => callStatic c i s
  | .jump => .error (.unstructuredJump backend c.name)
  | .branch => openBranch c i s
  | .otherwise => otherwise c s
  | .endBranch => endBranch c s
  | .ret => ret c i s
  | .pop => drop c i s

def steps (c : Context) : Code → State → Compiling State
  | [], s => .ok s
  | i :: rest, s => do
    let s ← step c i s
    steps c rest s

structure Function where
  name : String
  parameters : List (String × ValueType)
  result : Option ValueType
  locals : List ValueType
  body : Body
  deriving Repr

/-- The body with a trap at its end where a result is due and the last line does not return. -/
def closeBody (result : Option ValueType) (body : Body) : Body :=
  if result.isSome && !(body.getLast?.any (Line.isOp .ret)) then body ++ [.op .unreachable]
  else body

def compileFunction (p : Program) (loadString : Option String) (m : Method) (memory : Memory) :
    Compiling (Function × Memory) := do
  let reference := p.referenceOf m
  let c : Context := ⟨p, m, reference.text, loadString⟩
  let parameters ← valueTypes c.name m.parameterTypes
  let locals ← valueTypes c.name m.locals
  let result ← resultType c.name m.returnType
  let s ← steps c m.code { memory := memory }
  if !s.branches.isEmpty then throw (.unbalancedConditional c.name)
  else
    return ({
      name := reference.flatName
      parameters := (m.parameters.map (·.name)).zip parameters
      result
      locals := locals ++ s.scratch.flatMap fun e => [e.1, e.1]
      body := closeBody result s.body }, s.memory)

end ScriptCompiler.Wat
