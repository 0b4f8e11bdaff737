/-!
# Hexadecimal text

Numbers in base sixteen with a least number of digits, in either case.
-/

set_option autoImplicit false

namespace ScriptCompiler.Text

/-- The digits of `n` in base sixteen, filled with zeros up to `width`. -/
def hexDigits (width n : Nat) : List Char :=
  let digits := Nat.toDigits 16 n
  List.replicate (width - digits.length) '0' ++ digits

/-- Lower-case hexadecimal text of at least `width` digits. -/
def hex (width n : Nat) : String :=
  String.ofList (hexDigits width n)

/-- Upper-case hexadecimal text of at least `width` digits. -/
def hexUpper (width n : Nat) : String :=
  String.ofList ((hexDigits width n).map Char.toUpper)

end ScriptCompiler.Text
