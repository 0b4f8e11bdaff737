import ScriptCompiler.Primitive.Basic
import ScriptCompiler.Signature.XXH64
import ScriptCompiler.Text.Hex
import ScriptCompiler.Text.Utf8

/-!
# Hashes of signatures

A namespace path and a method signature are hashed segment by segment, with a
marker for each kind of input and for each parameter position, so that the order
of parameters counts. The function that digests a single text is a parameter:
nothing but speed depends on it.
-/

set_option autoImplicit false

namespace ScriptCompiler.SignatureHash

abbrev Digest := String → UInt64

def digest : Digest := fun s => XXH64.hash (Text.utf8 s)

def separator : UInt64 := 0x4BC94D6BD06053AD

def pathMarker : UInt64 := 0x2FAC10B63A6CC57C

/-- The marker of method signatures. -/
def methodMarker : UInt64 := 0x5EA77FFBCDF5F302

/-- The markers of the first parameter positions. -/
def positionMarkers : List UInt64 :=
  [0x9E3779B97F4A7C15, 0xBF58476D1CE4E5B9, 0x94D049BB133111EB, 0xD6E8FEB86659FD93,
    0xE7037ED1A0B428DB, 0xC6A4A7935BD1E995, 0x8648DBBC94D49B8D, 0xA2B48B2C69E0D657]

/-- The marker of a parameter position; past the listed ones it is counted from the first. -/
def positionMarker (i : Nat) : UInt64 :=
  positionMarkers[i]?.getD (0x9E3779B97F4A7C15 + UInt64.ofNat i)

def ofSegments (d : Digest) (start : UInt64) (segments : List String) : UInt64 :=
  segments.foldl (fun h s => h * separator + d s) start

def ofPath (d : Digest) (path : List String) : UInt64 :=
  ofSegments d pathMarker path

/-- The hash of a method inside a namespace with hash `owner`; the return type plays no part. -/
def ofMethod (d : Digest) (owner : UInt64) (name : List String) (parameters : Types) : UInt64 :=
  parameters.zipIdx.foldl (fun h p => h * separator + (positionMarker p.2 ^^^ d p.1.tag))
    (ofSegments d (methodMarker ^^^ owner) name)

def text (h : UInt64) : String := Text.hex 16 h.toNat

def describe (h : UInt64) : String := "SymbolHash(0x" ++ text h ++ ")"

end ScriptCompiler.SignatureHash
