import ScriptCompiler.Diagnostic
import ScriptCompiler.Program.Reference
import ScriptCompiler.Text.Quoted

/-!
# Stack code

A method body is lowered to a flat list of instructions for a stack machine. An
instruction is an opcode with operands kept as text; the accessors read them.
Conditionals are structured: a `branch` is closed by one `endBranch` and has at
most one `otherwise` in between.
-/

set_option autoImplicit false

namespace ScriptCompiler

/-- What an instruction does. -/
inductive Opcode where
  | nop
  | loadConst
  | getLocal
  | setLocal
  | add | sub | mul | div | rem
  | equals | unequals
  | convert
  | call
  | jump
  | branch | otherwise | endBranch
  | ret
  | pop
  deriving DecidableEq, Repr

namespace Opcode

/-- Every opcode, in the order of its byte. -/
def all : List Opcode :=
  [nop, loadConst, getLocal, setLocal, add, sub, mul, div, rem, equals, unequals, convert, call,
    jump, branch, otherwise, endBranch, ret, pop]

def mnemonic : Opcode → String
  | nop => "nop"
  | loadConst => "ldConst"
  | getLocal => "getLocal"
  | setLocal => "setLocal"
  | add => "add"
  | sub => "sub"
  | mul => "mul"
  | div => "div"
  | rem => "rem"
  | equals => "equals"
  | unequals => "unequals"
  | convert => "conv"
  | call => "call.static"
  | jump => "jump"
  | branch => "if"
  | otherwise => "else"
  | endBranch => "endif"
  | ret => "ret"
  | pop => "pop"

def ofMnemonic? (s : String) : Option Opcode := all.find? fun o => o.mnemonic == s

def byte : Opcode → UInt8
  | nop => 0
  | loadConst => 1
  | getLocal => 2
  | setLocal => 3
  | add => 4
  | sub => 5
  | mul => 6
  | div => 7
  | rem => 8
  | equals => 9
  | unequals => 10
  | convert => 11
  | call => 12
  | jump => 13
  | branch => 14
  | otherwise => 15
  | endBranch => 16
  | ret => 17
  | pop => 18

def ofByte? (b : UInt8) : Option Opcode := all.find? fun o => o.byte == b

def isBinary : Opcode → Bool
  | add | sub | mul | div | rem | equals | unequals => true
  | _ => false

end Opcode

/-- How a `branch` decides. -/
inductive Condition where
  /-- Always taken; nothing is popped. -/
  | forced
  | greater | lesser | greaterEqual | lesserEqual | equal | unequal
  | true | false
  | zero
  deriving DecidableEq, Repr

namespace Condition

/-- Every condition, in the order of its byte. -/
def all : List Condition :=
  [forced, greater, lesser, greaterEqual, lesserEqual, equal, unequal, .true, .false, zero]

def name : Condition → String
  | forced => "Forced"
  | greater => "Greater"
  | lesser => "Lesser"
  | greaterEqual => "GreaterEqual"
  | lesserEqual => "LesserEqual"
  | equal => "Equal"
  | unequal => "Unequal"
  | .true => "True"
  | .false => "False"
  | zero => "Zero"

def ofName? (s : String) : Option Condition := all.find? fun c => c.name == s

def ofByte? (b : UInt8) : Option Condition := all[b.toNat]?

def takesValue : Condition → Bool
  | greater | lesser | greaterEqual | lesserEqual | equal | unequal => Bool.true
  | _ => Bool.false

end Condition

inductive CodeError where
  | missingOperand (opcode : Opcode) (position : Nat)
  | invalidOperand (opcode : Opcode) (operand expected : String)
  | unknownOpcode (byte : UInt8)
  | truncated
  | oversized (opcode : Opcode) (size : Nat)
  deriving DecidableEq, Repr

namespace CodeError

def name : CodeError → String
  | missingOperand .. => "MissingOperand"
  | invalidOperand .. => "InvalidOperand"
  | unknownOpcode .. => "UnknownOpcode"
  | truncated => "Truncated"
  | oversized .. => "Oversized"

def message : CodeError → String
  | missingOperand opcode position => opcode.mnemonic ++ ": missing operand " ++ toString position
  | invalidOperand opcode operand expected =>
    opcode.mnemonic ++ ": '" ++ operand ++ "' is not a valid " ++ expected
  | unknownOpcode byte => "unknown opcode 0x" ++ Text.hex 2 byte.toNat
  | truncated => "truncated IL stream"
  | oversized opcode size =>
    opcode.mnemonic ++ ": " ++ toString size ++ " does not fit the byte encoding"

/-- What the fault is called when it stops a target. -/
def toCompiling (e : CodeError) : CompilingError :=
  .malformedInstruction
    (match e with
      | missingOperand opcode _ | invalidOperand opcode _ _ | oversized opcode _ => opcode.mnemonic
      | unknownOpcode _ | truncated => "<stream>")
    e.message

end CodeError

structure Instruction where
  opcode : Opcode
  operands : List String
  deriving DecidableEq, Repr

/-- The code of a method. -/
abbrev Code := List Instruction

namespace Instruction

/-! ## Well-formed instructions -/

def nop : Instruction := ⟨.nop, []⟩
def loadConst (type : Primitive) (value : String) : Instruction := ⟨.loadConst, [type.tag, value]⟩
def getLocal (index : Int) : Instruction := ⟨.getLocal, [toString index]⟩
def setLocal (index : Int) : Instruction := ⟨.setLocal, [toString index]⟩

/-- An arithmetic or equality instruction, with the type of its operands. -/
def binary (opcode : Opcode) (type : Primitive) : Instruction := ⟨opcode, [type.tag]⟩

def convert (target : Primitive) : Instruction := ⟨.convert, [target.tag]⟩

def call (returnType : Primitive) (target : Reference) : Instruction :=
  ⟨.call, [returnType.tag, target.text]⟩

def jump (offset : Int) : Instruction := ⟨.jump, [toString offset]⟩

def branch (condition : Condition) (value : Option Int) : Instruction :=
  ⟨.branch, condition.name :: (value.map fun n => toString n).toList⟩

def otherwise : Instruction := ⟨.otherwise, []⟩
def endBranch : Instruction := ⟨.endBranch, []⟩
def ret : Instruction := ⟨.ret, []⟩
def pop : Instruction := ⟨.pop, []⟩

/-! ## Operands -/

def operand (i : Instruction) (position : Nat) : Except CodeError String :=
  match i.operands[position]? with
  | some text => .ok text
  | none => .error (.missingOperand i.opcode position)

/-- The value that a text was read as, or the fault that it is none. -/
def expect {α : Type} (i : Instruction) (text expected : String) : Option α → Except CodeError α
  | some a => .ok a
  | none => .error (.invalidOperand i.opcode text expected)

def operandType (i : Instruction) : Except CodeError Primitive := do
  let text ← i.operand 0
  i.expect text "type tag" (Primitive.ofTag? text)

def localIndex (i : Instruction) : Except CodeError Int := do
  let text ← i.operand 0
  i.expect text "local index" (Integer.read? 32 text)

def constant (i : Instruction) : Except CodeError (Primitive × String) := do
  let type ← i.operandType
  let text ← i.operand 1
  return (type, text)

def callTarget (i : Instruction) : Except CodeError (Primitive × Reference) := do
  let type ← i.operandType
  let text ← i.operand 1
  let target ← i.expect text "global reference" (Reference.parse? text)
  return (type, target)

/-- Condition and number of a branch; a condition that compares needs the number. -/
def condition (i : Instruction) : Except CodeError (Condition × Option Int) := do
  let text ← i.operand 0
  let condition ← i.expect text "condition" (Condition.ofName? text)
  match i.operands[1]? with
  | some value =>
    let n ← i.expect value "integer" (Integer.read? 128 value)
    return (condition, some n)
  | none =>
    if condition.takesValue then throw (.missingOperand i.opcode 1)
    else return (condition, none)

def jumpOffset (i : Instruction) : Except CodeError Int := do
  let text ← i.operand 0
  i.expect text "offset" (Integer.read? 64 text)

/-! ## Text -/

/-- Whether the first operand is written after a dot. -/
def dotted : Opcode → Bool
  | .getLocal | .setLocal | .add | .sub | .mul | .div | .rem | .equals | .unequals | .convert
  | .loadConst | .branch => true
  | _ => false

def spaced (operands : List String) : String :=
  String.join (operands.map fun p => " " ++ p)

def text (i : Instruction) : String :=
  if i.opcode = .loadConst ∧ i.operands.head? = some "str" then
    "ldConst.str " ++ Text.quoted (i.operands[1]?.getD "")
  else if dotted i.opcode then
    match i.operands with
    | [] => i.opcode.mnemonic
    | first :: rest => i.opcode.mnemonic ++ "." ++ first ++ spaced rest
  else i.opcode.mnemonic ++ spaced i.operands

/-- The fault of an instruction that a target cannot use. -/
def malformed (i : Instruction) (detail : String) : CompilingError :=
  .malformedInstruction i.text detail

end Instruction

/-- Operands read for a target: a fault in them is a fault of the target. -/
def reading {α : Type} : Except CodeError α → Compiling α
  | .ok a => .ok a
  | .error e => .error e.toCompiling

/-- The result of arithmetic in signed words of `bits` bits. -/
def inWord (bits : Nat) (n : Int) : Compiling Int :=
  if Integer.fits bits n then .ok n else .error .overflow

/-- Negates an index below zero, that of a parameter, as a word of 32 bits. -/
def checkIndex (index : Int) : Compiling Unit :=
  if index < 0 then (inWord 32 (-index)).map fun _ => () else .ok ()

end ScriptCompiler
