import ScriptCompiler.X86.State

/-!
# Methods in x86 code

Stack code is compiled one instruction at a time over the virtual stack. Jumps and
conditionals go over bridges, which are bound when the line they land on is known;
the first line reserves the frame once its size is known.
-/

set_option autoImplicit false

namespace ScriptCompiler.X86

/-! ## Constants and locals -/

def constantOperand (i : Instruction) (type : Primitive) (text : String) (data : DataTable) :
    Compiling (DataTable × Operand) :=
  match type with
  | .str =>
    let (data, label) := data.string text
    .ok (data, .label label)
  | .bool =>
    if text = "true" then .ok (data, .number 1)
    else if text = "false" then .ok (data, .number 0)
    else .error (i.malformed "boolean constant")
  | _ =>
    match Integer.read? 128 text with
    | some n => .ok (data, .number n)
    | none => .error (i.malformed "integer constant")

def loadConstant (c : Context) (i : Instruction) (s : State) : Compiling State := do
  let (type, text) ← reading i.constant
  c.checkType type
  let (data, value) ← constantOperand i type text s.shared.data
  return { s with shared := { s.shared with data } }.push (.constant type value)

/-- Pushes a parameter or local. -/
def getLocal (i : Instruction) (s : State) : Compiling State := do
  let index ← reading i.localIndex
  match ← s.frame.localType index with
  | some type => return s.push (.stored type index)
  | none => throw (i.malformed "unknown local")

/-- Pops a value into a parameter or local. -/
def setLocal (c : Context) (i : Instruction) (s : State) : Compiling State := do
  let index ← reading i.localIndex
  let target ← s.localOperand c index
  let type ← s.frame.localType index
  let size := (type.map Primitive.size).getD 4
  let (value, s) ← s.pop c i
  let s ← s.detachLocal c index
  match value with
  | .constant _ n => return s.op "MOV" [target, n]
  | other =>
    let s := if other.isOperation then s else s.spill
    let s ← s.load c other .eax
    return s.op "MOV" [target, .register (Width.ofSize size).accumulator]

/-! ## Operators -/

/-- The lines of a division; the remainder is moved to `EAX` if it is wanted. -/
def divide (type : Primitive) (remainder : Bool) (s : State) : State :=
  let s := if type.isSigned then (s.op "CDQ" []).op "IDIV" [.register .ecx]
    else (s.op "XOR" [.register .edx, .register .edx]).op "DIV" [.register .ecx]
  if remainder then s.op "MOV" [.register .eax, .register .edx] else s

def compare (mnemonic : String) (s : State) : State :=
  ((s.op "CMP" [.register .eax, .register .ecx]).op mnemonic [.register .al]).op
    "MOVZX" [.register .eax, .register .al]

/-- The lines of an operator between `EAX` and `ECX`, and the type of the result. -/
def operate (opcode : Opcode) (type : Primitive) (s : State) : State × Primitive :=
  match opcode with
  | .add => (s.op "ADD" [.register .eax, .register .ecx], type)
  | .sub => (s.op "SUB" [.register .eax, .register .ecx], type)
  | .mul => (s.op "IMUL" [.register .eax, .register .ecx], type)
  | .div => (divide type false s, type)
  | .rem => (divide type true s, type)
  | .equals => (compare "SETE" s, .bool)
  | _ => (compare "SETNE" s, .bool)

/-- Brings the operands to `EAX` and `ECX`. -/
def loadOperands (c : Context) (left right : StackValue) (s : State) : Compiling State := do
  let s ← s.load c right .ecx
  s.load c left .eax

def binary (c : Context) (i : Instruction) (s : State) : Compiling State := do
  let type ← reading i.operandType
  c.checkType type
  let (left, s) ← s.pop c i
  let (right, s) ← s.pop c i
  let s ← loadOperands c left right s.spill
  let (s, result) := operate i.opcode type s
  let s := if result = type then s.normalize type else s
  return s.push (.operation result)

/-! ## Calls -/

def Shared.recordCall (u : Shared) (label : String) : Shared :=
  if u.calls.contains label then u else { u with calls := u.calls ++ [label] }

/-- Arguments with the size and offset of their parameters. -/
structure Argument where
  value : StackValue
  size : Nat
  offset : Nat
  deriving DecidableEq, Repr

def layOut : Nat → Types → Stack → List Argument
  | offset, type :: types, value :: values =>
    ⟨value, type.size, offset⟩ :: layOut (offset + type.size) types values
  | _, _, _ => []

def storeArgument (c : Context) (a : Argument) (s : State) : Compiling State := do
  let width := Width.ofSize a.size
  let target := Operand.argument width a.offset
  match a.value with
  | .constant _ n => return s.op "MOV" [target, n]
  | other =>
    let s ← s.load c other .eax
    return s.op "MOV" [target, .register width.accumulator]

def storeArguments (c : Context) : List Argument → State → Compiling State
  | [], s => .ok s
  | a :: rest, s => do
    let s ← storeArgument c a s
    storeArguments c rest s

/-- Calls a label with arguments; the one in `EAX` is stored first. -/
def emitCall (c : Context) (label : String) (parameters : Types)
    (arguments : Stack) (result : Primitive) (s : State) : Compiling State := do
  let s := s.spill
  let total := totalSize parameters
  let s := if 0 < total then s.op "SUB" [.register .esp, .number total] else s
  let laid := layOut 0 parameters arguments
  let ordered := laid.filter (fun a => a.value.isOperation)
    ++ laid.filter fun a => !a.value.isOperation
  let s ← storeArguments c ordered s
  let s := s.op "CALL" [.label label]
  let s := { s with shared := s.shared.recordCall label }
  return if result = .void then s else s.push (.operation result)

/-- Pops `count` values, the first argument ending up first. -/
def popArguments (c : Context) (i : Instruction) :
    Nat → Stack → State → Compiling (Stack × State)
  | 0, arguments, s => .ok (arguments, s)
  | count + 1, arguments, s => do
    let (v, s) ← s.pop c i
    popArguments c i count (v :: arguments) s

def callStatic (c : Context) (i : Instruction) (s : State) : Compiling State := do
  let (result, target) ← reading i.callTarget
  match (c.program.findMethod? target).bind c.program.methodAt? with
  | none => throw (.unknownCallTarget target.text)
  | some callee =>
    let parameters := callee.parameterTypes
    c.checkType result
    c.checkTypes parameters
    let (arguments, s) ← popArguments c i parameters.length [] s
    emitCall c target.asmLabel parameters arguments result s

/-! ## Conversions -/

/-- The value of a type that a number becomes: its low bits, read with the sign of the type. -/
def wrap (n : Int) (type : Primitive) : Int :=
  if type = .bool then if n = 0 then 0 else 1
  else
    let bits := 8 * type.size
    let masked := n % 2 ^ bits
    if type.isSigned && 2 ^ (bits - 1) ≤ masked then masked - 2 ^ bits else masked

/-- The label of the library method that converts to or from text. -/
def castLabel (source target : Primitive) : String :=
  "Std.Type.Casting@Cast_" ++ target.tag ++ "?" ++ source.tag

/-- Brings a value to `EAX` and converts it there. -/
def convertValue (c : Context) (value : StackValue) (target : Primitive) (s : State) :
    Compiling State := do
  let s := if value.isOperation then s else s.spill
  let s ← s.load c value .eax
  let s := if target = .bool then
      ((s.op "TEST" [.register .eax, .register .eax]).op "SETNE" [.register .al]).op
        "MOVZX" [.register .eax, .register .al]
    else s.normalize target
  return s.push (.operation target)

def convert (c : Context) (i : Instruction) (s : State) : Compiling State := do
  let target ← reading i.operandType
  let (value, s) ← s.pop c i
  let source := value.type
  if source = target then return s.push value
  else if source = .str ∨ target = .str then
    emitCall c (castLabel source target) [source] [value] target s
  else if !Context.isSupported source || !Context.isSupported target then
    throw (.unsupportedConversion backend source target)
  else
    match value with
    | .constant _ (.number n) => return s.push (.constant target (.number (wrap n target)))
    | _ => convertValue c value target s

/-! ## Conditionals -/

/-- The jump taken when a comparison does not hold. -/
def skipJump (condition : Condition) (signed : Bool) : String :=
  match condition, signed with
  | .equal, _ => "JNE"
  | .unequal, _ => "JE"
  | .greater, true => "JLE"
  | .greater, false => "JBE"
  | .lesser, true => "JGE"
  | .lesser, false => "JAE"
  | .greaterEqual, true => "JL"
  | .greaterEqual, false => "JB"
  | .lesserEqual, true => "JG"
  | .lesserEqual, false => "JA"
  | _, _ => "JMP"

/-- The lines that test `EAX`, and the jump taken when the condition does not hold. -/
def test (i : Instruction) (condition : Condition) (number : Option Int) (signed : Bool)
    (s : State) : Compiling (State × String) :=
  match condition with
  | .true => .ok (s.op "TEST" [.register .eax, .register .eax], "JZ")
  | .false | .zero => .ok (s.op "TEST" [.register .eax, .register .eax], "JNZ")
  | _ =>
    match number with
    | some n => .ok (s.op "CMP" [.register .eax, .number n], skipJump condition signed)
    | none => .error (i.malformed "comparison value")

def openBranch (c : Context) (i : Instruction) (s : State) : Compiling State := do
  let (condition, number) ← reading i.condition
  let (listing, skip) := s.listing.newBridge
  let s := { s with listing }
  if condition = .forced then return { s with conditionals := skip :: s.conditionals }
  else
    let (value, s) ← s.pop c i
    let s ← s.spill.load c value .eax
    let (s, jump) ← test i condition number value.type.isSigned s
    return { s with
      listing := s.listing.jump jump skip
      conditionals := skip :: s.conditionals }

def otherwise (c : Context) (s : State) : Compiling State :=
  match s.conditionals with
  | [] => .error c.unbalanced
  | skip :: rest =>
    let (listing, finish) := s.listing.newBridge
    .ok { s with
      listing := (listing.jump "JMP" finish).patchHere skip
      conditionals := finish :: rest }

def endBranch (c : Context) (s : State) : Compiling State :=
  match s.conditionals with
  | [] => .error c.unbalanced
  | skip :: rest => .ok { s with listing := s.listing.patchHere skip, conditionals := rest }

/-! ## Methods -/

/-- Compiles a jump to the instruction at `index` plus its offset, a word of 64 bits. -/
def jump (index : Nat) (i : Instruction) (s : State) : Compiling State := do
  let offset ← reading i.jumpOffset
  let (listing, bridge) := s.listing.newBridge
  let target ← inWord 64 (index + offset)
  return { s with
    listing := listing.jump "JMP" bridge
    jumps := s.jumps ++ [(bridge, target)] }

def ret (c : Context) (i : Instruction) (s : State) : Compiling State := do
  if c.method.returnType = .void then return s.epilogue
  else
    let (value, s) ← s.pop c i
    let s ← s.load c value .eax
    return s.epilogue

/-- Drops a value, giving its scratch slot back. -/
def drop (c : Context) (i : Instruction) (s : State) : Compiling State := do
  let (value, s) ← s.pop c i
  match value with
  | .temp _ slot => return { s with frame := s.frame.freeTemp slot }
  | _ => return s

def step (c : Context) (index : Nat) (i : Instruction) (s : State) : Compiling State :=
  match i.opcode with
  | .nop => .ok s
  | .loadConst => loadConstant c i s
  | .getLocal => getLocal i s
  | .setLocal => setLocal c i s
  | .add | .sub | .mul | .div | .rem | .equals | .unequals => binary c i s
  | .convert => convert c i s
  | .call => callStatic c i s
  | .jump => jump index i s
  | .branch => openBranch c i s
  | .otherwise => otherwise c s
  | .endBranch => endBranch c s
  | .ret => ret c i s
  | .pop => drop c i s

/-- Notes where the next instruction starts. -/
def State.mark (s : State) : State := { s with starts := s.starts ++ [s.listing.size] }

def steps (c : Context) : Nat → Code → State → Compiling State
  | _, [], s => .ok s.mark
  | index, i :: rest, s => do
    let s ← step c index i s.mark
    steps c (index + 1) rest s

/-- Binds the jumps to the lines of the instructions that they name. -/
def bindJumps (c : Context) (starts : List Nat) : List (Bridge × Int) → Listing → Compiling Listing
  | [], l => .ok l
  | (bridge, target) :: rest, l =>
    match if target < 0 then none else starts[target.toNat]? with
    | some start => bindJumps c starts rest (l.patch bridge start)
    | none => .error (.unresolvedJump c.name target)

def State.start (c : Context) (label : String) (shared : Shared) : State :=
  { frame := { parameters := c.method.parameterTypes, locals := c.method.locals }
    listing := ({ label := label } : Listing).op "ENTER" [.number 0, .number 0]
    shared }

/-- A method's listing, and what its unit shares afterwards. The first line reserves the frame
when its size is known. -/
def compileMethod (p : Program) (m : Method) (shared : Shared) : Compiling (Listing × Shared) := do
  let reference := p.referenceOf m
  let c : Context := ⟨p, m, reference.text⟩
  c.checkType m.returnType
  c.checkTypes (m.parameterTypes ++ m.locals)
  let s ← steps c 0 m.code (.start c reference.asmLabel shared)
  let s := if (m.code.getLast?.map (·.opcode)) = some .ret then s else s.epilogue
  if s.conditionals ≠ [] then throw c.unbalanced
  else
    let listing ← bindJumps c s.starts s.jumps s.listing
    let listing := listing.sealed
    let enter := Line.instruction "ENTER" [.number s.frame.size, .number 0]
    return ({ listing with lines := listing.lines.set 0 enter }, s.shared)

end ScriptCompiler.X86
