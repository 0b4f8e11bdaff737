import ScriptCompiler.Text.Hex
import ScriptCompiler.Text.Utf8

/-!
# Data of an assembly unit

The entries of the data sections, each under a fresh label. A string constant is
stored once, as its length with the final zero counted, its bytes, and a zero.
-/

set_option autoImplicit false

namespace ScriptCompiler.X86

def byteText (b : UInt8) : String := "0x" ++ Text.hexUpper 2 b.toNat

def isQuotable (b : UInt8) : Bool := 0x20 ≤ b && b ≤ 0x7E && b != 0x22

/-- The pending quoted run as an item of its own, if there is one. -/
def flushRun (run : List Char) : List String :=
  if run = [] then [] else ["\"" ++ String.ofList run.reverse ++ "\""]

/-- Bytes as items: runs that can be quoted, and numbers for the rest. The pending run is kept
backwards. -/
def byteItems : List UInt8 → List Char → List String
  | [], run => flushRun run
  | b :: rest, run =>
    if isQuotable b then byteItems rest (Char.ofNat b.toNat :: run)
    else flushRun run ++ byteText b :: byteItems rest []

/-- The definition of a string: its length plus one in four bytes, its bytes, and a zero. -/
def encodeString (s : String) : String :=
  let bytes := Text.utf8 s
  "db " ++ ", ".intercalate
    ((Text.littleEndian32 (bytes.length + 1)).map byteText ++ byteItems bytes [] ++ ["0"])

structure DataTable where
  next : Nat := 0
  /-- The label of each string constant. -/
  strings : List (String × String) := []
  rodata : List (String × String) := []
  data : List (String × String) := []
  deriving DecidableEq, Repr

namespace DataTable

def labelText (n : Nat) : String := "rod_" ++ Text.hexUpper 8 n

def nextLabel (t : DataTable) : DataTable × String :=
  ({ t with next := t.next + 1 }, labelText t.next)

/-- The label of a string constant, which is stored on first use. -/
def string (t : DataTable) (value : String) : DataTable × String :=
  match t.strings.find? fun e => e.1 == value with
  | some e => (t, e.2)
  | none =>
    let (t, label) := t.nextLabel
    ({ t with
        rodata := t.rodata ++ [(label, encodeString value)]
        strings := t.strings ++ [(value, label)] }, label)

def add (t : DataTable) (readOnly : Bool) (label body : String) : DataTable :=
  if readOnly then { t with rodata := t.rodata ++ [(label, body)] }
  else { t with data := t.data ++ [(label, body)] }

def extendEntries (line : String) (entries : List (String × String)) : List (String × String) :=
  match entries.getLast? with
  | none => entries
  | some (label, body) => entries.dropLast ++ [(label, body ++ "\n            " ++ line)]

/-- Continues the last entry of a section with a line; an empty section stays empty. -/
def extendLast (t : DataTable) (readOnly : Bool) (line : String) : DataTable :=
  if readOnly then { t with rodata := extendEntries line t.rodata }
  else { t with data := extendEntries line t.data }

end DataTable

end ScriptCompiler.X86
