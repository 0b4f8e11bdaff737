import ScriptCompiler.Text.Hex
import ScriptCompiler.Text.Segments

/-!
# Indented text

Lines under a changing indentation, and the two escapes of the text format for
modules: quoted names and bytes.
-/

set_option autoImplicit false

namespace ScriptCompiler.Wat

/-- Lines written so far, and the depth of the next one. -/
structure Page where
  lines : List String := []
  depth : Nat := 0
  deriving DecidableEq, Repr

namespace Page

def margin (depth : Nat) : String := String.ofList (List.replicate (2 * depth) ' ')

def line (p : Page) (text : String) : Page :=
  { p with lines := p.lines ++ [margin p.depth ++ text] }

def indent (p : Page) : Page := { p with depth := p.depth + 1 }

/-- Goes one step out, as far as there is one. -/
def dedent (p : Page) : Page := { p with depth := p.depth - 1 }

/-- The whole text; it ends with a line end even if there is no line. -/
def text (p : Page) : String := "\n".intercalate p.lines ++ "\n"

end Page

def byteEscape (b : UInt8) : String := "\\" ++ Text.hex 2 b.toNat

def escapeBytes (bytes : List UInt8) : String := String.join (bytes.map byteEscape)

/-- The least multiple of a power of two that is not below a number: the bits under the power are
cleared from the sum with them. Zero aligns nothing. -/
def alignUp (value align : Nat) : Nat :=
  let mask := align - 1
  value + mask - ((value + mask) &&& mask)

def quotedChar (c : Char) : List Char :=
  if c = '\\' then ['\\', '\\'] else if c = '\x22' then ['\\', '\x22'] else [c]

def quote (name : String) : String :=
  String.ofList ('\x22' :: name.toList.flatMap quotedChar ++ ['\x22'])

end ScriptCompiler.Wat
