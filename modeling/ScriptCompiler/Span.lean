/-!
# Positions in a script

A span is a line, a column and a length, as counted by whoever read the script.
Line zero means that no position is known.
-/

set_option autoImplicit false

namespace ScriptCompiler

/-- A position in a script and the length of what stands there. -/
structure Span where
  line : Nat
  col : Nat
  len : Nat
  deriving DecidableEq, Repr

namespace Span

def unknown : Span := ⟨0, 0, 0⟩

def point (line col : Nat) : Span := ⟨line, col, 0⟩

def isUnknown (s : Span) : Bool := s.line == 0

/-- The span from the start of one to the end of the other; across lines the start stays and the
lengths add up. -/
def through (s e : Span) : Span :=
  if s.line = e.line then
    let start := min s.col e.col
    ⟨s.line, start, max (s.col + s.len) (e.col + e.len) - start⟩
  else ⟨s.line, s.col, s.len + e.len⟩

def coordinates (s : Span) : String :=
  toString s.line ++ ":" ++ toString s.col

/-- Line and column, or a mark for a position that is not known. -/
def text (s : Span) : String :=
  if s.isUnknown then "<unknown>" else s.coordinates

end Span

end ScriptCompiler
