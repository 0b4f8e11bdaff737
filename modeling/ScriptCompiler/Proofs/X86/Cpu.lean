import ScriptCompiler.Number.Integer
import ScriptCompiler.X86.Listing

/-!
# The processor

What straight lines do on a 32-bit processor. Memory is known byte by byte, by the
distance from the frame base, with the low byte of a number first. Of the flags only
the one for zero is kept, and it is unknown after instructions that leave it
undefined. An instruction gives no result if its operands do not go together, if it
divides by zero or if its quotient does not fit in a register.
-/

set_option autoImplicit false

namespace ScriptCompiler.X86

open Option

/-! ## Memory -/

/-- The bytes around the frame base. -/
abbrev Memory := Int → BitVec 8

namespace Memory

/-- The number in some bytes from an address on. -/
def read (M : Memory) : Int → Nat → Nat
  | _, 0 => 0
  | a, size + 1 => (M a).toNat + 256 * read M (a + 1) size

/-- Puts the low bytes of a number from an address on. -/
def write (M : Memory) : Int → Nat → Nat → Memory
  | _, 0, _ => M
  | a, size + 1, x => fun b =>
    if b = a then BitVec.ofNat 8 x else write M (a + 1) size (x / 256) b

variable {M M' : Memory} {a b : Int} {size other x : Nat}

theorem read_lt (M : Memory) (a : Int) (size : Nat) : M.read a size < 256 ^ size := by
  induction size generalizing a with
  | zero => exact Nat.one_pos
  | succ _ ih =>
    have hbyte := (M a).isLt
    have hrest := ih (a + 1)
    rw [read, Nat.pow_succ']
    omega

theorem read_congr (h : ∀ b, a ≤ b → b < a + size → M' b = M b) :
    M'.read a size = M.read a size := by
  induction size generalizing a with
  | zero => rfl
  | succ _ ih =>
    have hfirst := h a (by omega) (by omega)
    have hrest := ih (a := a + 1) fun b _ _ => h b (by omega) (by omega)
    rw [read, read, hfirst, hrest]

theorem write_succ_apply (M : Memory) (a : Int) (size x : Nat) (b : Int) :
    M.write a (size + 1) x b =
      if b = a then BitVec.ofNat 8 x else M.write (a + 1) size (x / 256) b := rfl

theorem write_of_outside (h : b < a ∨ a + size ≤ b) : M.write a size x b = M b := by
  induction size generalizing a x with
  | zero => rfl
  | succ _ ih =>
    have hne : b ≠ a := by omega
    rw [write_succ_apply, if_neg hne]
    exact ih (by omega)

theorem read_write_self (M : Memory) (a : Int) (size x : Nat) :
    (M.write a size x).read a size = x % 256 ^ size := by
  induction size generalizing a x with
  | zero => exact (Nat.mod_one x).symm
  | succ size ih =>
    -- the first byte lies below the rest
    have hrest : (M.write a (size + 1) x).read (a + 1) size = x / 256 % 256 ^ size := by
      rw [← ih (a + 1) (x / 256)]
      apply read_congr
      intro b _ _
      have hne : b ≠ a := by omega
      rw [write_succ_apply, if_neg hne]
    have hfirst : (M.write a (size + 1) x a).toNat = x % 256 := by
      rw [write_succ_apply, if_pos rfl, BitVec.toNat_ofNat]
    rw [read, hfirst, hrest, Nat.pow_succ', Nat.mod_mul]

theorem write_mod (M : Memory) (a : Int) (size x : Nat) :
    M.write a size (x % 256 ^ size) = M.write a size x := by
  induction size generalizing a x with
  | zero => rfl
  | succ size ih =>
    have hrest : x % 256 ^ (size + 1) / 256 = x / 256 % 256 ^ size := by
      rw [Nat.pow_succ', Nat.mod_mul_right_div_self]
    have hfirst : BitVec.ofNat 8 (x % 256 ^ (size + 1)) = BitVec.ofNat 8 x := by
      apply BitVec.eq_of_toNat_eq
      rw [BitVec.toNat_ofNat, BitVec.toNat_ofNat, Nat.pow_succ', Nat.mod_mul_right_mod]
    funext b
    rw [write_succ_apply, write_succ_apply, hfirst, hrest, ih]

theorem read_write_of_disjoint (h : b + other ≤ a ∨ a + size ≤ b) :
    (M.write a size x).read b other = M.read b other := by
  apply read_congr
  intro _ _ _
  apply write_of_outside
  omega

end Memory

/-! ## Operands -/

/-- The number of bytes of a width. -/
def Width.bytes : Width → Nat
  | byte => 1
  | word => 2
  | dword => 4

/-- The number of bits of a width. -/
def Width.bits (w : Width) : Nat := 8 * w.bytes

/-- Whether a number can be written as an operand of this width. -/
def Width.accepts (w : Width) (n : Int) : Bool := Integer.least w.bits ≤ n && n < 2 ^ w.bits

/-- The width of a register. -/
def Register.width : Register → Width
  | .al => .byte
  | .ax => .word
  | _ => .dword

namespace Operand

/-- The width that an operand fixes. -/
def width? : Operand → Option Width
  | register r => some r.width
  | parameter width _ | slot width _ | argument width _ => some width
  | number _ | label _ => none

/-- The distance of an operand in memory from the frame base, if it can be told. -/
def address? : Operand → Option Int
  | parameter _ offset => some offset
  | slot _ offset => some (-offset)
  | _ => none

/-- Whether an operand is in memory. -/
def isMemory : Operand → Bool
  | parameter .. | slot .. | argument .. => true
  | _ => false

theorem width?_register {r : Register} {width : Width} (h : r.width = width) :
    (register r).width? = some width := congrArg some h

end Operand

/-- Registers, zero flag and memory. -/
structure Cpu where
  eax : BitVec 32
  ecx : BitVec 32
  edx : BitVec 32
  /-- Whether the last result was zero, if this is known. -/
  zero : Option Bool
  memory : Memory

namespace Cpu

/-- The contents of an operand, filled up with zeros. -/
def read (c : Cpu) : Operand → Option (BitVec 32)
  | .register .eax => some c.eax
  | .register .ecx => some c.ecx
  | .register .edx => some c.edx
  | .register .al => some ((c.eax.setWidth 8).setWidth 32)
  | .register .ax => some ((c.eax.setWidth 16).setWidth 32)
  | operand => do
    let width ← operand.width?
    let address ← operand.address?
    return BitVec.ofNat 32 (c.memory.read address width.bytes)

/-- Puts the low bytes of a number in memory. -/
def store (c : Cpu) (address : Int) (size x : Nat) : Cpu :=
  { c with memory := c.memory.write address size x }

@[simp] theorem store_memory (c : Cpu) (address : Int) (size x : Nat) :
    (c.store address size x).memory = c.memory.write address size x := rfl

/-- Puts the low bits of a number in an operand; the rest of a register stays. -/
def write (c : Cpu) (operand : Operand) (x : BitVec 32) : Option Cpu :=
  match operand with
  | .register .eax => some { c with eax := x }
  | .register .ecx => some { c with ecx := x }
  | .register .edx => some { c with edx := x }
  | .register .al => some { c with eax := c.eax.extractLsb' 8 24 ++ x.setWidth 8 }
  | .register .ax => some { c with eax := c.eax.extractLsb' 16 16 ++ x.setWidth 16 }
  | operand => do
    let width ← operand.width?
    let address ← operand.address?
    return c.store address width.bytes x.toNat

/-! ## Instructions -/

/-- Copies a number or an operand of the same width; one of the two is no memory. -/
def move (c : Cpu) (target : Operand) : Operand → Option Cpu
  | .number n => do
    let width ← target.width?
    if width.accepts n then c.write target (BitVec.ofInt 32 n) else none
  | source =>
    if target.width? = source.width? ∧ ¬(target.isMemory ∧ source.isMemory) then
      (c.read source).bind (c.write target)
    else none

/-- Copies a narrower operand to a register and fills it up with the sign or with zeros. -/
def extend (c : Cpu) (signed : Bool) (target : Register) (source : Operand) : Option Cpu := do
  let width ← source.width?
  let x ← c.read source
  if target.width = .dword ∧ width ≠ .dword then
    c.write (.register target) (if signed then (x.setWidth width.bits).signExtend 32 else x)
  else none

/-- The contents of two whole registers. -/
def registers (c : Cpu) (a b : Register) : Option (BitVec 32 × BitVec 32) := do
  let x ← c.read (.register a)
  let y ← c.read (.register b)
  if a.width = .dword ∧ b.width = .dword then return (x, y) else none

/-- Puts a result in the first of two registers. -/
def combine (c : Cpu) (f : BitVec 32 → BitVec 32 → BitVec 32) (a b : Register) : Option Cpu := do
  let (x, y) ← c.registers a b
  let c ← c.write (.register a) (f x y)
  return { c with zero := some (f x y == 0) }

/-- Notes whether a result of two registers is zero. -/
def compare (c : Cpu) (f : BitVec 32 → BitVec 32 → BitVec 32) (a b : Register) : Option Cpu := do
  let (x, y) ← c.registers a b
  return { c with zero := some (f x y == 0) }

/-- Fills `EDX` with the sign of `EAX`. -/
def fillSign (c : Cpu) : Cpu := { c with edx := if c.eax.msb then BitVec.allOnes 32 else 0 }

/-- Divides the signed number in `EDX` and `EAX`. -/
def divideSigned (c : Cpu) (r : Register) : Option Cpu := do
  let (y, _) ← c.registers r r
  let dividend := (c.edx ++ c.eax).toInt
  if y = 0 ∨ Integer.fits 32 (dividend.tdiv y.toInt) = false then none
  else return { c with
    eax := BitVec.ofInt 32 (dividend.tdiv y.toInt)
    edx := BitVec.ofInt 32 (dividend.tmod y.toInt)
    zero := none }

/-- Divides the unsigned number in `EDX` and `EAX`. -/
def divideUnsigned (c : Cpu) (r : Register) : Option Cpu := do
  let (y, _) ← c.registers r r
  let dividend := (c.edx ++ c.eax).toNat
  if y = 0 ∨ 2 ^ 32 ≤ dividend / y.toNat then none
  else return { c with
    eax := BitVec.ofNat 32 (dividend / y.toNat)
    edx := BitVec.ofNat 32 (dividend % y.toNat)
    zero := none }

/-- Puts one in a register of a byte if the zero flag is as asked, and zero otherwise. -/
def setIf (c : Cpu) (wanted : Bool) (r : Register) : Option Cpu := do
  let found ← c.zero
  if r.width = .byte then c.write (.register r) (if found = wanted then 1 else 0) else none

/-- One instruction. -/
def execute (c : Cpu) : String → List Operand → Option Cpu
  | "MOV", [target, source] => c.move target source
  | "MOVSX", [.register target, source] => c.extend true target source
  | "MOVZX", [.register target, source] => c.extend false target source
  | "ADD", [.register a, .register b] => c.combine (· + ·) a b
  | "SUB", [.register a, .register b] => c.combine (· - ·) a b
  | "XOR", [.register a, .register b] => c.combine (· ^^^ ·) a b
  | "IMUL", [.register a, .register b] =>
    (c.combine (· * ·) a b).map fun c => { c with zero := none }
  | "CMP", [.register a, .register b] => c.compare (· - ·) a b
  | "TEST", [.register a, .register b] => c.compare (· &&& ·) a b
  | "CDQ", [] => some c.fillSign
  | "IDIV", [.register r] => c.divideSigned r
  | "DIV", [.register r] => c.divideUnsigned r
  | "SETE", [.register r] => c.setIf true r
  | "SETNE", [.register r] => c.setIf false r
  | _, _ => none

/-- Straight lines, one after the other. -/
def run : List Line → Cpu → Option Cpu
  | [], c => some c
  | .instruction mnemonic operands :: rest, c => (c.execute mnemonic operands).bind (run rest)
  | _ :: _, _ => none

/-! ## Lines -/

theorem run_append (a b : List Line) (c : Cpu) : run (a ++ b) c = (run a c).bind (run b) := by
  induction a generalizing c with
  | nil => rfl
  | cons line _ ih =>
    cases line with
    | instruction =>
      simp only [List.cons_append, run, bind_assoc]
      congr 1
      funext c'
      exact ih c'
    | jump => rfl
    | raw => rfl

theorem run_singleton (mnemonic : String) (operands : List Operand) (c : Cpu) :
    run [.instruction mnemonic operands] c = c.execute mnemonic operands := by
  rw [run]
  cases c.execute mnemonic operands <;> rfl

variable {c : Cpu} {width : Width}

theorem run_append_of {a b : List Line} {d e : Cpu} (ha : run a c = some d) (hb : run b d = some e) :
    run (a ++ b) c = some e := by
  rw [run_append, ha, bind_some, hb]

theorem run_cons_of {mnemonic : String} {operands : List Operand} {rest : List Line} {d e : Cpu}
    (h : c.execute mnemonic operands = some d) (hrest : run rest d = some e) :
    run (.instruction mnemonic operands :: rest) c = some e := by
  rw [run, h, bind_some, hrest]

/-! ## Operands -/

variable {target source : Operand} {address : Int}

theorem execute_mov (ht : target.width? = some width) (hs : source.width? = some width)
    (hm : ¬(target.isMemory = true ∧ source.isMemory = true)) (c : Cpu) :
    c.execute "MOV" [target, source] = (c.read source).bind (c.write target) := by
  show c.move target source = _
  unfold move
  split
  · cases hs
  · rw [if_pos ⟨ht.trans hs.symm, hm⟩]

theorem execute_mov_number {n : Int} (ht : target.width? = some width) (hn : width.accepts n = true)
    (c : Cpu) : c.execute "MOV" [target, .number n] = c.write target (BitVec.ofInt 32 n) := by
  show c.move target (.number n) = _
  simp only [move, ht, bind_eq_bind, bind_some, hn, if_true]

theorem extend_eq {x : BitVec 32} {r : Register} (signed : Bool) (hw : source.width? = some width)
    (hn : width ≠ .dword) (hx : c.read source = some x) (hr : r.width = .dword) :
    c.extend signed r source = c.write (.register r)
      (if signed then (x.setWidth width.bits).signExtend 32 else x) := by
  simp only [extend, hw, hx, bind_eq_bind, bind_some]
  rw [if_pos ⟨hr, hn⟩]

theorem read_memory {o : Operand} (hm : o.isMemory = true) (hw : o.width? = some width)
    (ha : o.address? = some address) (c : Cpu) :
    c.read o = some (BitVec.ofNat 32 (c.memory.read address width.bytes)) := by
  cases o <;> cases hm <;> cases hw <;> cases ha <;> rfl

theorem write_memory {o : Operand} (hm : o.isMemory = true) (hw : o.width? = some width)
    (ha : o.address? = some address) (c : Cpu) (x : BitVec 32) :
    c.write o x = some (c.store address width.bytes x.toNat) := by
  cases o <;> cases hm <;> cases hw <;> cases ha <;> rfl

end Cpu

end ScriptCompiler.X86
