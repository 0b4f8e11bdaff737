import ScriptCompiler.Number.Instances

/-!
# Double-precision numbers

A number is kept as its 64 bits, so that two literals are equal exactly when
they are written from the same bits. A finite number is `m · 2 ^ q` with a
natural mantissa; rounding a quotient of naturals to the nearest number, ties to
the even mantissa, is the inverse direction and is exact integer arithmetic.
-/

set_option autoImplicit false

namespace ScriptCompiler

/-- A double-precision number, given by its bits. -/
structure Double where
  bits : UInt64
  deriving DecidableEq, Repr

namespace Double

def isNegative (x : Double) : Bool :=
  x.bits >>> 63 == 1

def exponentBits (x : Double) : Nat :=
  ((x.bits >>> 52) &&& 0x7FF).toNat

def fractionBits (x : Double) : Nat :=
  (x.bits &&& 0xFFFFFFFFFFFFF).toNat

def isNaN (x : Double) : Bool :=
  x.exponentBits == 0x7FF && x.fractionBits != 0

def isInfinite (x : Double) : Bool :=
  x.exponentBits == 0x7FF && x.fractionBits == 0

/-- Whether the number is zero of either sign. -/
def isZero (x : Double) : Bool :=
  x.exponentBits == 0 && x.fractionBits == 0

/-- The mantissa `m` of a finite number `m · 2 ^ q`. -/
def mantissa (x : Double) : Nat :=
  if x.exponentBits = 0 then x.fractionBits else x.fractionBits + 2 ^ 52

/-- The exponent `q` of a finite number `m · 2 ^ q`. -/
def exponent (x : Double) : Int :=
  if x.exponentBits = 0 then -1074 else (x.exponentBits : Int) - 1075

/-- The number with this sign and these lower 63 bits; a magnitude past the last finite one is
infinite. -/
def ofMagnitude (negative : Bool) (magnitude : Nat) : Double :=
  let m := min magnitude (0x7FF * 2 ^ 52)
  ⟨UInt64.ofNat (if negative then 2 ^ 63 + m else m)⟩

def nan : Double := ⟨0x7FF8000000000000⟩

def infinity (negative : Bool) : Double :=
  ofMagnitude negative (0x7FF * 2 ^ 52)

def zero : Double := ⟨0⟩

/-- The numerator and denominator of `num / den` divided by `2 ^ e`. -/
def scaled (num den : Nat) (e : Int) : Nat × Nat :=
  if 0 ≤ e then (num, den * 2 ^ e.toNat) else (num * 2 ^ (-e).toNat, den)

/-- The quotient rounded to the nearest natural number, ties to the even one. -/
def nearestEven (num den : Nat) : Nat :=
  let q := num / den
  let r := num % den
  if 2 * r < den then q else if den < 2 * r then q + 1 else q + q % 2

/-- The number nearest to `num / den`, ties to the even mantissa. -/
def ofRatio (negative : Bool) (num den : Nat) : Double :=
  if num = 0 then ofMagnitude negative 0
  else
    let low : Int := max ((num.log2 : Int) - (den.log2 : Int) - 53) (-1074)
    let (n, d) := scaled num den low
    let e := if 2 ^ 53 * d ≤ n then low + 1 else low
    let (n, d) := scaled num den e
    ofMagnitude negative ((e + 1074).toNat * 2 ^ 52 + nearestEven n d)

/-- The number nearest to an integer. -/
def ofInt (n : Int) : Double :=
  ofRatio (n < 0) n.natAbs 1

def add (x y : Double) : Double :=
  ⟨(Float.ofBits x.bits + Float.ofBits y.bits).toBits⟩

def sub (x y : Double) : Double :=
  ⟨(Float.ofBits x.bits - Float.ofBits y.bits).toBits⟩

def mul (x y : Double) : Double :=
  ⟨(Float.ofBits x.bits * Float.ofBits y.bits).toBits⟩

def div (x y : Double) : Double :=
  ⟨(Float.ofBits x.bits / Float.ofBits y.bits).toBits⟩

/-- The remainder of the division rounded toward zero; it is exact and has the sign of the
dividend. -/
def rem (x y : Double) : Double :=
  if x.isNaN || y.isNaN || x.isInfinite || y.isZero then nan
  else if y.isInfinite then x
  else
    let e := min x.exponent y.exponent
    let a := x.mantissa * 2 ^ (x.exponent - e).toNat
    let b := y.mantissa * 2 ^ (y.exponent - e).toNat
    let r := a % b
    if 0 ≤ e then ofRatio x.isNegative (r * 2 ^ e.toNat) 1
    else ofRatio x.isNegative r (2 ^ (-e).toNat)

end Double

end ScriptCompiler
