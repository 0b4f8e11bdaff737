import ScriptCompiler.Program.Basic
import ScriptCompiler.X86.DataTable
import ScriptCompiler.X86.Frame

/-!
# The virtual stack

Pushed values are only noted on a virtual stack and take effect where an
instruction uses them: a constant or a local stays where it is, and the result of
an operation stays in `EAX` until the register is needed, when it moves to a
scratch slot of the frame.
-/

set_option autoImplicit false

namespace ScriptCompiler.X86

def backend : String := "nasm"

/-- A value that is pushed and not yet used. -/
inductive StackValue where
  /-- A number or a data label. -/
  | constant (type : Primitive) (value : Operand)
  /-- A parameter or local, still in its place. -/
  | stored (type : Primitive) (index : Int)
  /-- The result of the last operation, in `EAX`. -/
  | operation (type : Primitive)
  /-- A result that was moved to a scratch slot. -/
  | temp (type : Primitive) (slot : Nat)
  deriving DecidableEq, Repr

/-- The virtual stack, from its top on. -/
abbrev Stack := List StackValue

namespace StackValue

def type : StackValue → Primitive
  | constant t _ | .stored t _ | operation t | temp t _ => t

/-- Whether the value is in `EAX`. -/
def isOperation : StackValue → Bool
  | operation _ => true
  | _ => false

end StackValue

/-- What the methods of one unit share. -/
structure Shared where
  data : DataTable := {}
  /-- The labels called, in the order of their first call. -/
  calls : List String := []
  deriving DecidableEq, Repr

/-- What compiling a method keeps. -/
structure State where
  frame : Frame
  /-- The pushed values, the latest first. -/
  stack : Stack := []
  listing : Listing
  /-- The bridges of the open conditionals, the innermost first. -/
  conditionals : List Bridge := []
  /-- The number of the first line of each instruction so far. -/
  starts : List Nat := []
  /-- The jumps to bind at the end, with the instruction that each names. -/
  jumps : List (Bridge × Int) := []
  shared : Shared
  deriving DecidableEq, Repr

/-- The method being compiled and the program around it. -/
structure Context where
  program : Program
  method : Method
  /-- The reference of the method, for messages. -/
  name : String

namespace Context

def isSupported (type : Primitive) : Bool := !type.isFloating && type.size ≤ 4

def checkType (c : Context) (type : Primitive) : Compiling Unit :=
  if isSupported type then .ok () else .error (.unsupportedType backend type c.name)

def checkTypes (c : Context) : Types → Compiling Unit
  | [] => .ok ()
  | t :: rest => do
    c.checkType t
    c.checkTypes rest

/-- The fault of a conditional that is not closed or not open. -/
def unbalanced (c : Context) : CompilingError := .unbalancedConditional c.name

end Context

namespace State

def op (s : State) (mnemonic : String) (operands : List Operand) : State :=
  { s with listing := s.listing.op mnemonic operands }

def push (s : State) (v : StackValue) : State := { s with stack := v :: s.stack }

def pop (c : Context) (i : Instruction) (s : State) : Compiling (StackValue × State) :=
  match s.stack with
  | v :: rest => .ok (v, { s with stack := rest })
  | [] => .error (.stackUnderflow c.name i.text)

/-- The stack with its lowest value in `EAX` replaced by one in a scratch slot, if there is one. -/
def replaceOperation (slot : Nat) : Stack → Option Stack
  | [] => none
  | v :: rest =>
    match replaceOperation slot rest with
    | some rest => some (v :: rest)
    | none => if v.isOperation then some (.temp v.type slot :: rest) else none

/-- Moves the pushed value in `EAX`, if there is one, to a scratch slot. -/
def spill (s : State) : State :=
  let (frame, slot) := s.frame.allocTemp
  match replaceOperation slot s.stack with
  | none => s
  | some stack => { s with frame, stack }.op "MOV" [frame.tempOperand slot, .register .eax]

def localOperand (c : Context) (s : State) (index : Int) : Compiling Operand := do
  match ← s.frame.localOperand index with
  | some operand => return operand
  | none => throw (.malformedInstruction ("local " ++ toString index)
      ("no such local in '" ++ c.name ++ "'"))

/-- The instruction that brings a value of a type from memory to a register. -/
def loadMnemonic (type : Primitive) : String :=
  if 4 ≤ type.size then "MOV" else if type.isSigned then "MOVSX" else "MOVZX"

/-- Brings a value to a register, extended as its type says; a scratch slot is given back. -/
def load (c : Context) (s : State) (v : StackValue) (r : Register) : Compiling State :=
  match v with
  | .constant _ value => .ok (s.op "MOV" [.register r, value])
  | .operation _ => .ok (if r = .eax then s else s.op "MOV" [.register r, .register .eax])
  | .temp _ slot =>
    .ok { s.op "MOV" [.register r, s.frame.tempOperand slot] with frame := s.frame.freeTemp slot }
  | .stored type index => do
    let source ← s.localOperand c index
    return s.op (loadMnemonic type) [.register r, source]

/-- Copies one pending read out of its place. -/
def detach (c : Context) (s : State) (v : StackValue) : Compiling (StackValue × State) := do
  let s ← s.load c v .ecx
  let (frame, slot) := s.frame.allocTemp
  return (.temp v.type slot,
    { s with frame }.op "MOV" [frame.tempOperand slot, .register .ecx])

/-- Copies the pending reads of a place out of it, the lowest first. -/
def detachAll (c : Context) (index : Int) :
    Stack → State → Compiling (Stack × State)
  | [], s => .ok ([], s)
  | v :: rest, s => do
    let (rest, s) ← detachAll c index rest s
    match v with
    | .stored _ i =>
      if i = index then
        let (v, s) ← s.detach c v
        return (v :: rest, s)
      else return (v :: rest, s)
    | _ => return (v :: rest, s)

/-- Copies the pending reads of a place out of it before the place is written. -/
def detachLocal (c : Context) (index : Int) (s : State) : Compiling State := do
  let (stack, s) ← detachAll c index s.stack s
  return { s with stack }

/-- Extends `EAX` again after an operation on a narrow type. -/
def normalize (s : State) (type : Primitive) : State :=
  let mnemonic := if type.isSigned then "MOVSX" else "MOVZX"
  if type.size = 1 then s.op mnemonic [.register .eax, .register .al]
  else if type.size = 2 then s.op mnemonic [.register .eax, .register .ax]
  else s

/-- Leaves the method: the frame goes, and the parameters with it. -/
def epilogue (s : State) : State :=
  let s := s.op "LEAVE" []
  let size := s.frame.parametersSize
  let s := if 0 < size then
      ((s.op "POP" [.register .ecx]).op "ADD" [.register .esp, .number size]).op
        "PUSH" [.register .ecx]
    else s
  s.op "RET" []

end State

end ScriptCompiler.X86
