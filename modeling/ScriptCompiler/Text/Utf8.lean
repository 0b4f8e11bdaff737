import ScriptCompiler.Number.Instances

/-!
# UTF-8

The bytes of a text, the text of a valid byte sequence, and the lossy reading
that puts one replacement character in place of each maximal ill-formed part.
-/

set_option autoImplicit false

namespace ScriptCompiler.Text

def utf8 (s : String) : List UInt8 :=
  s.toByteArray.data.toList

/-- The text with these UTF-8 bytes, if they are well formed. -/
def ofUtf8? (bytes : List UInt8) : Option String :=
  String.fromUTF8? ⟨bytes.toArray⟩

/-- The four bytes of a number below `2 ^ 32`, least significant first. -/
def littleEndian32 (n : Nat) : List UInt8 :=
  [UInt8.ofNat n, UInt8.ofNat (n / 2 ^ 8), UInt8.ofNat (n / 2 ^ 16), UInt8.ofNat (n / 2 ^ 24)]

/-- A character that has begun: the bits read so far, the number of bytes still owed and the
bounds of the next one. -/
structure Partial where
  bits : Nat
  owed : Nat
  low : Nat
  high : Nat
  deriving DecidableEq, Repr

def replacement : Char := Char.ofNat 0xFFFD

def lossyStart (b : Nat) : List Char × Option Partial :=
  if b < 0x80 then ([Char.ofNat b], none)
  else if 0xC2 ≤ b ∧ b ≤ 0xDF then ([], some ⟨b - 0xC0, 1, 0x80, 0xBF⟩)
  else if b = 0xE0 then ([], some ⟨0, 2, 0xA0, 0xBF⟩)
  else if b = 0xED then ([], some ⟨0xD, 2, 0x80, 0x9F⟩)
  else if 0xE1 ≤ b ∧ b ≤ 0xEF then ([], some ⟨b - 0xE0, 2, 0x80, 0xBF⟩)
  else if b = 0xF0 then ([], some ⟨0, 3, 0x90, 0xBF⟩)
  else if 0xF1 ≤ b ∧ b ≤ 0xF3 then ([], some ⟨b - 0xF0, 3, 0x80, 0xBF⟩)
  else if b = 0xF4 then ([], some ⟨4, 3, 0x80, 0x8F⟩)
  else ([replacement], none)

/-- Reads one byte; a byte that cannot continue a character ends it and starts afresh. -/
def lossyStep (pending : Option Partial) (b : Nat) : List Char × Option Partial :=
  match pending with
  | none => lossyStart b
  | some p =>
    if p.low ≤ b ∧ b ≤ p.high then
      let bits := p.bits * 64 + (b - 0x80)
      if p.owed = 1 then ([Char.ofNat bits], none)
      else ([], some ⟨bits, p.owed - 1, 0x80, 0xBF⟩)
    else
      let (out, next) := lossyStart b
      (replacement :: out, next)

/-- The text of any byte sequence, with ill-formed parts replaced. -/
def lossyUtf8 (bytes : List UInt8) : String :=
  let (out, pending) := bytes.foldl
    (fun (state : List Char × Option Partial) b =>
      let (more, next) := lossyStep state.2 b.toNat
      (more.reverse ++ state.1, next)) ([], none)
  String.ofList (match pending with
    | none => out.reverse
    | some _ => (replacement :: out).reverse)

end ScriptCompiler.Text
