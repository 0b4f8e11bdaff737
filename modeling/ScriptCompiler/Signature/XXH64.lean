/-!
# The hash function XXH64

The 64-bit member of the xxHash family, with seed zero, over a list of bytes.
-/

set_option autoImplicit false

namespace ScriptCompiler.XXH64

def prime1 : UInt64 := 0x9E3779B185EBCA87
def prime2 : UInt64 := 0xC2B2AE3D27D4EB4F
def prime3 : UInt64 := 0x165667B19E3779F9
def prime4 : UInt64 := 0x85EBCA77C2B2AE63
def prime5 : UInt64 := 0x27D4EB2F165667C5

/-- The bits of a word moved to the left, those that leave it coming back on the right. -/
def rotate (x : UInt64) (k : UInt64) : UInt64 :=
  (x <<< k) ||| (x >>> (64 - k))

/-- The number written by bytes, least significant first. -/
def word (bytes : List UInt8) : UInt64 :=
  bytes.foldr (fun b n => (n <<< 8) ||| b.toUInt64) 0

def round (acc input : UInt64) : UInt64 :=
  rotate (acc + input * prime2) 31 * prime1

/-- The four accumulators of the long form. -/
structure Lanes where
  a : UInt64
  b : UInt64
  c : UInt64
  d : UInt64

def Lanes.start : Lanes :=
  ⟨prime1 + prime2, prime2, 0, 0 - prime1⟩

def Lanes.absorb (l : Lanes) (block : List UInt8) : Lanes :=
  ⟨round l.a (word (block.take 8)), round l.b (word ((block.drop 8).take 8)),
    round l.c (word ((block.drop 16).take 8)), round l.d (word ((block.drop 24).take 8))⟩

def merge (acc lane : UInt64) : UInt64 :=
  (acc ^^^ round 0 lane) * prime1 + prime4

def Lanes.finish (l : Lanes) : UInt64 :=
  let acc := rotate l.a 1 + rotate l.b 7 + rotate l.c 12 + rotate l.d 18
  merge (merge (merge (merge acc l.a) l.b) l.c) l.d

/-- The accumulators after all whole blocks, and the bytes that remain; `fuel` bounds the number of
blocks. -/
def absorbBlocks : Nat → Lanes → List UInt8 → Lanes × List UInt8
  | 0, l, bytes => (l, bytes)
  | fuel + 1, l, bytes =>
    if 32 ≤ bytes.length then absorbBlocks fuel (l.absorb (bytes.take 32)) (bytes.drop 32)
    else (l, bytes)

/-- The bytes that remain taken in: words of eight, then one of four, then single ones. -/
def absorbTail : Nat → UInt64 → List UInt8 → UInt64
  | 0, acc, _ => acc
  | _ + 1, acc, [] => acc
  | fuel + 1, acc, b :: rest =>
    let bytes := b :: rest
    if 8 ≤ bytes.length then
      absorbTail fuel
        (rotate (acc ^^^ round 0 (word (bytes.take 8))) 27 * prime1 + prime4) (bytes.drop 8)
    else if 4 ≤ bytes.length then
      absorbTail fuel
        (rotate (acc ^^^ (word (bytes.take 4) * prime1)) 23 * prime2 + prime3) (bytes.drop 4)
    else
      absorbTail fuel (rotate (acc ^^^ (b.toUInt64 * prime5)) 11 * prime1) rest

def avalanche (h : UInt64) : UInt64 :=
  let h := (h ^^^ (h >>> 33)) * prime2
  let h := (h ^^^ (h >>> 29)) * prime3
  h ^^^ (h >>> 32)

def hash (bytes : List UInt8) : UInt64 :=
  let size := bytes.length
  let (acc, rest) :=
    if 32 ≤ size then
      let (lanes, rest) := absorbBlocks size .start bytes
      (lanes.finish, rest)
    else (prime5, bytes)
  avalanche (absorbTail size (acc + UInt64.ofNat size) rest)

end ScriptCompiler.XXH64
