import ScriptCompiler.Code.Instruction
import ScriptCompiler.X86.Listing

/-!
# Stack frames

The memory of a method that runs, around the frame base: parameters from eight
bytes above it on, locals below it, and scratch slots of four bytes below the
locals. Scratch slots that are given back are given out again, the latest first.
-/

set_option autoImplicit false

namespace ScriptCompiler.X86

/-- The least multiple of four that is not below a number. -/
def align4 (n : Nat) : Nat := (n + 3) / 4 * 4

/-- The bytes that values of these types take one after the other. -/
def totalSize (types : Types) : Nat := (types.map Primitive.size).sum

/-- The layout of a method's frame. -/
structure Frame where
  parameters : Types
  locals : Types
  /-- The number of scratch slots ever given out. -/
  temps : Nat := 0
  /-- The scratch slots given back, the latest first. -/
  free : List Nat := []
  deriving DecidableEq, Repr

namespace Frame

def parametersSize (f : Frame) : Nat := totalSize f.parameters

def localsSize (f : Frame) : Nat := totalSize f.locals

/-- The bytes below the frame base. -/
def size (f : Frame) : Nat := align4 (f.localsSize + 4 * f.temps)

/-- The type at an index of stack code. -/
def localType? (f : Frame) (index : Int) : Option Primitive :=
  if index < 0 then f.parameters[(-index - 1).toNat]? else f.locals[index.toNat]?

/-- The memory of an index of stack code. -/
def localOperand? (f : Frame) (index : Int) : Option Operand :=
  (f.localType? index).map fun type =>
    let width := Width.ofSize type.size
    if index < 0 then
      .parameter width (8 + totalSize (f.parameters.take (-index - 1).toNat))
    else .slot width (totalSize (f.locals.take (index.toNat + 1)))

/-- Looks up the type at an index of stack code. -/
def localType (f : Frame) (index : Int) : Compiling (Option Primitive) := do
  checkIndex index
  return f.localType? index

/-- Looks up the memory of an index of stack code. -/
def localOperand (f : Frame) (index : Int) : Compiling (Option Operand) := do
  checkIndex index
  return f.localOperand? index

def allocTemp (f : Frame) : Frame × Nat :=
  match f.free with
  | slot :: rest => ({ f with free := rest }, slot)
  | [] => ({ f with temps := f.temps + 1 }, f.temps)

def freeTemp (f : Frame) (slot : Nat) : Frame := { f with free := slot :: f.free }

def tempOperand (f : Frame) (slot : Nat) : Operand :=
  .slot .dword (f.localsSize + 4 * (slot + 1))

end Frame

end ScriptCompiler.X86
