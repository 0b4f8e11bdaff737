import ScriptCompiler.Code.Instruction
import ScriptCompiler.Text.Utf8

/-!
# Stack code as bytes

An instruction is written as its opcode byte, the number of operands in one byte,
and the operands, each as a 32-bit length with the least significant byte first,
followed by the bytes of its UTF-8 text.
-/

set_option autoImplicit false

namespace ScriptCompiler.Code

def encodeOperand (opcode : Opcode) (operand : String) : Except CodeError (List UInt8) :=
  let bytes := Text.utf8 operand
  if bytes.length < 2 ^ 32 then .ok (Text.littleEndian32 bytes.length ++ bytes)
  else .error (.oversized opcode bytes.length)

def encodeOperands (opcode : Opcode) : List String → Except CodeError (List UInt8)
  | [] => .ok []
  | p :: rest => do
    let head ← encodeOperand opcode p
    let tail ← encodeOperands opcode rest
    return head ++ tail

def encodeInstruction (i : Instruction) : Except CodeError (List UInt8) := do
  if 255 < i.operands.length then throw (.oversized i.opcode i.operands.length)
  else
    let operands ← encodeOperands i.opcode i.operands
    return i.opcode.byte :: UInt8.ofNat i.operands.length :: operands

def encode : Code → Except CodeError (List UInt8)
  | [] => .ok []
  | i :: rest => do
    let head ← encodeInstruction i
    let tail ← encode rest
    return head ++ tail

def takeBytes (n : Nat) (bytes : List UInt8) : Except CodeError (List UInt8 × List UInt8) :=
  if bytes.length < n then .error .truncated else .ok (bytes.take n, bytes.drop n)

/-- The number that four bytes write, least significant first. -/
def ofLittleEndian (bytes : List UInt8) : Nat :=
  bytes.foldr (fun b n => n * 256 + b.toNat) 0

def decodeOperand (opcode : Opcode) (bytes : List UInt8) :
    Except CodeError (String × List UInt8) := do
  let (size, rest) ← takeBytes 4 bytes
  let (raw, rest) ← takeBytes (ofLittleEndian size) rest
  match Text.ofUtf8? raw with
  | some text => return (text, rest)
  | none => throw (.invalidOperand opcode (Text.lossyUtf8 raw) "UTF-8 string")

def decodeOperands (opcode : Opcode) :
    Nat → List UInt8 → Except CodeError (List String × List UInt8)
  | 0, bytes => .ok ([], bytes)
  | count + 1, bytes => do
    let (operand, rest) ← decodeOperand opcode bytes
    let (operands, rest) ← decodeOperands opcode count rest
    return (operand :: operands, rest)

def decodeInstruction (bytes : List UInt8) : Except CodeError (Instruction × List UInt8) :=
  match bytes with
  | [] | [_] => .error .truncated
  | byte :: count :: rest =>
    match Opcode.ofByte? byte with
    | none => .error (.unknownOpcode byte)
    | some opcode => do
      let (operands, rest) ← decodeOperands opcode count.toNat rest
      return (⟨opcode, operands⟩, rest)

/-- The instructions that bytes write; `fuel` bounds their number. -/
def decodeWithin : Nat → List UInt8 → Except CodeError Code
  | _, [] => .ok []
  | 0, _ :: _ => .error .truncated
  | fuel + 1, bytes => do
    let (instruction, rest) ← decodeInstruction bytes
    let instructions ← decodeWithin fuel rest
    return instruction :: instructions

/-- The instructions that bytes write; each takes at least one byte. -/
def decode (bytes : List UInt8) : Except CodeError Code :=
  decodeWithin bytes.length bytes

end ScriptCompiler.Code
