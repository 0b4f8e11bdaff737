import ScriptCompiler.Text.GraphemeExtend
import ScriptCompiler.Text.Hex
import ScriptCompiler.Text.Unprintable

/-!
# Quoted text

A text between double quotes in which every character can be seen: the usual
control characters get a short escape, and any other character that is invisible
or attaches to its neighbour is written by its code point.
-/

set_option autoImplicit false

namespace ScriptCompiler.Text

def quotedChar (c : Char) : List Char :=
  if c = '\x00' then ['\\', '0']
  else if c = '\t' then ['\\', 't']
  else if c = '\r' then ['\\', 'r']
  else if c = '\n' then ['\\', 'n']
  else if c = '\\' then ['\\', '\\']
  else if c = '\x22' then ['\\', '\x22']
  else if 0x20 ≤ c.toNat ∧ c.toNat ≤ 0x7E then [c]
  else if isExtender c || isUnprintable c then
    ['\\', 'u', '\x7b'] ++ hexDigits 1 c.toNat ++ ['\x7d']
  else [c]

def quoted (s : String) : String :=
  String.ofList ('\x22' :: s.toList.flatMap quotedChar ++ ['\x22'])

end ScriptCompiler.Text
