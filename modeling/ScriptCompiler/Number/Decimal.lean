import ScriptCompiler.Number.Double
import ScriptCompiler.Number.Integer

/-!
# Decimal text of double-precision numbers

`shortest` finds the fewest decimal digits that read back as the same number, and
of those the ones nearest to it. A `Layout` decides how the digits are set out;
the two in use are `plain`, for constants, and `distinct`, for trees, where a
number is never mistaken for an integer. `read?` is the reader of decimal text.
-/

set_option autoImplicit false

namespace ScriptCompiler.Double

/-- The decimal number `0.d₁d₂… · 10 ^ point`. -/
structure Decimal where
  digits : List Char
  point : Int
  deriving DecidableEq, Repr

/-- The least `k` with `num / den < 10 ^ k`, for a positive quotient. -/
def decimalPoint (num den : Nat) : Int :=
  if den ≤ num then (Nat.toDigits 10 (num / den)).length
  else
    let zeros := (Nat.toDigits 10 (den / num)).length - 1
    if den = num * 10 ^ zeros then 1 - (zeros : Int) else -(zeros : Int)

/-- A decimal grid point `d · 10 ^ e` in units of `1 / den`: the numerator and the common factor
by which the other quantities are to be multiplied. -/
def onGrid (d den : Nat) (e : Int) : Nat × Nat :=
  if 0 ≤ e then (d * 10 ^ e.toNat * den, 1) else (d * den, 10 ^ (-e).toNat)

/-- The closest point of the grid `10 ^ e` between `low` and `high` around `num`, all in units of
`1 / den`; of two equally close points the upper one. -/
def onGrid? (num low high den : Nat) (closed : Bool) (e : Int) : Option Nat :=
  let inside (d : Nat) : Bool :=
    let (p, f) := onGrid d den e
    if closed then low * f ≤ p && p ≤ high * f else low * f < p && p < high * f
  let d := if 0 ≤ e then num / (den * 10 ^ e.toNat) else num * 10 ^ (-e).toNat / den
  let (below, f) := onGrid d den e
  let (above, _) := onGrid (d + 1) den e
  match inside d, inside (d + 1) with
  | true, true => if above - num * f ≤ num * f - below then some (d + 1) else some d
  | true, false => some d
  | false, true => some (d + 1)
  | false, false => none

/-- The digits of a natural number without the zeros at its end. -/
def significant (n : Nat) : List Char :=
  ((Nat.toDigits 10 n).reverse.dropWhile (· == '0')).reverse

/-- The shortest decimal that reads back as the positive finite number `x`. -/
def shortest (x : Double) : Decimal :=
  let m := x.mantissa
  let q := x.exponent
  let up := 2 ^ q.toNat
  let den := 4 * 2 ^ (-q).toNat
  let num := 4 * m * up
  let low := (if m = 2 ^ 52 ∧ -1074 < q then 4 * m - 1 else 4 * m - 2) * up
  let high := (4 * m + 2) * up
  let point := decimalPoint num den
  let found := (List.range 17).findSome? fun i =>
    let e := point - (i + 1 : Nat)
    (onGrid? num low high den (m % 2 == 0) e).map fun d => (d, e)
  match found with
  | none => ⟨['0'], 1⟩
  | some (d, e) =>
    let digits := Nat.toDigits 10 d
    ⟨significant d, e + digits.length⟩

/-- How a number is set out. -/
structure Layout where
  /-- The exponents of ten that are written without an exponent mark. -/
  positional : Int → Bool
  /-- What follows a positional number without a fraction. -/
  wholeEnd : String

/-- Constants are always positional and a whole number has no fraction. -/
def Layout.plain : Layout := ⟨fun _ => true, ""⟩

/-- In trees a whole number shows a fraction, and numbers below `10 ^ -4` or from `10 ^ 16` on
carry an exponent. -/
def Layout.distinct : Layout := ⟨fun e => -4 ≤ e && e < 16, ".0"⟩

/-- The decimal without an exponent mark. -/
def Decimal.positional (d : Decimal) (wholeEnd : String) : String :=
  let count : Int := d.digits.length
  if d.point ≤ 0 then
    "0." ++ String.ofList (List.replicate (-d.point).toNat '0' ++ d.digits)
  else if count ≤ d.point then
    String.ofList (d.digits ++ List.replicate (d.point - count).toNat '0') ++ wholeEnd
  else
    String.ofList (d.digits.take d.point.toNat ++ '.' :: d.digits.drop d.point.toNat)

/-- The decimal with one digit before the point and an exponent mark. -/
def Decimal.scientific (d : Decimal) : String :=
  let lead := d.digits.take 1
  let rest := d.digits.drop 1
  String.ofList (if rest.isEmpty then lead else lead ++ '.' :: rest) ++ "e"
    ++ toString (d.point - 1)

def text (layout : Layout) (x : Double) : String :=
  if x.isNaN then "NaN"
  else
    let sign := if x.isNegative then "-" else ""
    if x.isInfinite then sign ++ "inf"
    else if x.isZero then sign ++ "0" ++ layout.wholeEnd
    else
      let d := shortest x
      sign ++ if layout.positional (d.point - 1) then d.positional layout.wholeEnd
        else d.scientific

/-- The number nearest to `m · 10 ^ e`. -/
def ofDecimal (negative : Bool) (m : Nat) (e : Int) : Double :=
  let size : Int := (Nat.toDigits 10 m).length + e
  if m = 0 ∨ size < -400 then ofMagnitude negative 0
  else if 400 < size then infinity negative
  else if 0 ≤ e then ofRatio negative (m * 10 ^ e.toNat) 1
  else ofRatio negative m (10 ^ (-e).toNat)

/-- The exponent part of a decimal number: nothing, or a mark and a signed number. -/
def readExponent? : List Char → Option Int
  | [] => some 0
  | c :: cs => if c == 'e' || c == 'E' then Integer.readSigned? cs else none

/-- An unsigned decimal number: digits with at most one point, then an optional exponent. -/
def readUnsigned? (negative : Bool) (cs : List Char) : Option Double :=
  let whole := cs.takeWhile Integer.isDigit
  let rest := cs.dropWhile Integer.isDigit
  let (fraction, rest) := match rest with
    | '.' :: more => (more.takeWhile Integer.isDigit, more.dropWhile Integer.isDigit)
    | _ => ([], rest)
  if whole.isEmpty && fraction.isEmpty then none
  else (readExponent? rest).map fun e =>
    ofDecimal negative (Integer.ofDigits (whole ++ fraction)) (e - fraction.length)

/-- A named number in any case, or an unsigned decimal number. -/
def readMagnitude? (negative : Bool) (cs : List Char) : Option Double :=
  let name := String.ofList (cs.map Char.toLower)
  if name = "inf" ∨ name = "infinity" then some (infinity negative)
  else if name = "nan" then some nan
  else readUnsigned? negative cs

def read? (s : String) : Option Double :=
  match s.toList with
  | '-' :: cs => readMagnitude? true cs
  | '+' :: cs => readMagnitude? false cs
  | cs => readMagnitude? false cs

end ScriptCompiler.Double
