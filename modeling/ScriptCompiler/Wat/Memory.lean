import ScriptCompiler.Text.Utf8
import ScriptCompiler.Wat.Page

/-!
# String constants in linear memory

The first four bytes of memory hold the address where free memory starts, a
multiple of eight. Behind them stand the string constants, each once, as a 32-bit
length and its bytes.
-/

set_option autoImplicit false

namespace ScriptCompiler.Wat

/-- The string constants of a module. -/
structure Memory where
  /-- The bytes from the first address of a constant on. -/
  bytes : List UInt8 := []
  /-- The address of each constant. -/
  strings : List (String × Nat) := []
  deriving DecidableEq, Repr

namespace Memory

def start : Nat := 4

/-- The address of a constant, which is stored on first use. -/
def string (m : Memory) (value : String) : Memory × Nat :=
  match m.strings.find? fun e => e.1 == value with
  | some e => (m, e.2)
  | none =>
    let bytes := Text.utf8 value
    let address := start + m.bytes.length
    ({ bytes := m.bytes ++ (Text.littleEndian32 bytes.length ++ bytes)
       strings := m.strings ++ [(value, address)] }, address)

def heapStart (m : Memory) : Nat := alignUp (start + m.bytes.length) 8

def image (m : Memory) : List UInt8 := Text.littleEndian32 m.heapStart ++ m.bytes

def text (m : Memory) : String := "(data (i32.const 0) \"" ++ escapeBytes m.image ++ "\")"

end Memory

end ScriptCompiler.Wat
