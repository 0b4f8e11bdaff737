import ScriptCompiler.Text.Blank
import ScriptCompiler.Text.Hex

/-!
# Assembly listings

The lines of one method in assembly. Every line gets a label of its own when the
listing is written. A jump goes over a bridge: a bridge is made without a target
and bound later to the number of the line on which it lands.
-/

set_option autoImplicit false

namespace ScriptCompiler.X86

/-- The registers that the code uses. -/
inductive Register where
  | eax | ecx | edx | esp | al | ax
  deriving DecidableEq, Repr

def Register.name : Register → String
  | eax => "EAX"
  | ecx => "ECX"
  | edx => "EDX"
  | esp => "ESP"
  | al => "AL"
  | ax => "AX"

inductive Width where
  | byte | word | dword
  deriving DecidableEq, Repr

namespace Width

/-- The width of a value of `size` bytes; what is neither one nor two bytes takes four. -/
def ofSize : Nat → Width
  | 1 => byte
  | 2 => word
  | _ => dword

def name : Width → String
  | byte => "BYTE"
  | word => "WORD"
  | dword => "DWORD"

def accumulator : Width → Register
  | byte => .al
  | word => .ax
  | dword => .eax

end Width

inductive Operand where
  | register (r : Register)
  | number (n : Int)
  | label (name : String)
  /-- Memory above the frame base. -/
  | parameter (width : Width) (offset : Nat)
  /-- Memory below the frame base. -/
  | slot (width : Width) (offset : Nat)
  /-- Memory above the top of the stack. -/
  | argument (width : Width) (offset : Nat)
  deriving DecidableEq, Repr

def Operand.text : Operand → String
  | register r => r.name
  | number n => toString n
  | label name => name
  | parameter width offset => width.name ++ " [EBP + " ++ toString offset ++ "]"
  | slot width offset => width.name ++ " [EBP - " ++ toString offset ++ "]"
  | argument width offset => width.name ++ " [ESP + " ++ toString offset ++ "]"

abbrev Bridge := Nat

inductive Line where
  | instruction (mnemonic : String) (operands : List Operand)
  | jump (mnemonic : String) (bridge : Bridge)
  /-- Text taken over as it stands. -/
  | raw (text : String)
  deriving DecidableEq, Repr

/-- The lines of a method and the targets of its bridges. -/
structure Listing where
  label : String
  lines : List Line := []
  bridges : List (Option Nat) := []
  deriving DecidableEq, Repr

def lineLabel (index : Nat) : String := ".L" ++ Text.hexUpper 4 index

namespace Listing

def size (l : Listing) : Nat := l.lines.length

def push (l : Listing) (line : Line) : Listing := { l with lines := l.lines ++ [line] }

def op (l : Listing) (mnemonic : String) (operands : List Operand) : Listing :=
  l.push (.instruction mnemonic operands)

def newBridge (l : Listing) : Listing × Bridge :=
  ({ l with bridges := l.bridges ++ [none] }, l.bridges.length)

def jump (l : Listing) (mnemonic : String) (bridge : Bridge) : Listing :=
  l.push (.jump mnemonic bridge)

/-- Binds a bridge to a line; an unknown bridge changes nothing. -/
def patch (l : Listing) (bridge : Bridge) (target : Nat) : Listing :=
  { l with bridges := l.bridges.set bridge (some target) }

def patchHere (l : Listing) (bridge : Bridge) : Listing := l.patch bridge l.size

def hasUnpatched (l : Listing) : Bool := l.bridges.any Option.isNone

/-- Adds a line without effect if a bridge lands behind the last line. -/
def sealed (l : Listing) : Listing :=
  if l.bridges.contains (some l.size) then l.op "NOP" [] else l

/-- The label on which a bridge lands. -/
def targetLabel (l : Listing) (bridge : Bridge) : String :=
  match l.bridges[bridge]? with
  | some (some target) => lineLabel target
  | _ => ".Lunpatched"

def lineText (l : Listing) : Line → String
  | .instruction mnemonic operands =>
    Text.padRight 8 mnemonic ++ ", ".intercalate (operands.map Operand.text)
  | .jump mnemonic bridge => Text.padRight 8 mnemonic ++ l.targetLabel bridge
  | .raw text => text

def render (l : Listing) : String :=
  l.label ++ ":\n" ++ String.join (l.lines.zipIdx.map fun line =>
    Text.padRight 12 (lineLabel line.2 ++ ":") ++ Text.trimEnd (l.lineText line.1) ++ "\n")

end Listing

end ScriptCompiler.X86
