import ScriptCompiler.X86.DataTable
import ScriptCompiler.X86.Listing

/-!
# Library assembly

Hand-written assembly is taken apart by section. Directives are collected once,
data entries get fresh labels and the code refers to those, every global label of
the code starts a method, and local labels and the jumps to them become bridges.
All other code is taken over as it stands.
-/

set_option autoImplicit false

namespace ScriptCompiler.X86

inductive Section where
  | code | data | rodata | bss
  deriving DecidableEq, Repr

/-- What hand-written assembly contributes to a unit. -/
structure Library where
  directives : List String := []
  methods : List Listing := []
  bss : List String := []
  /-- The global labels of the code, each once. -/
  defined : List String := []
  deriving DecidableEq, Repr

namespace Library

/-! ## Lines -/

/-- The text in lower case, as far as it is ASCII. -/
def lower (s : String) : String := String.ofList (s.toList.map Char.toLower)

/-- The text in upper case, as far as it is ASCII. -/
def upper (s : String) : String := String.ofList (s.toList.map Char.toUpper)

/-- Whether a character opens and closes a quoted part. -/
def isQuote (c : Char) : Bool := c == '\x22' || c == '\x27' || c == '\x60'

/-- The characters before a semicolon that stands outside quotes; `inside` is the open quote. -/
def beforeComment : Option Char → List Char → List Char
  | _, [] => []
  | none, c :: rest =>
    if c = ';' then []
    else c :: beforeComment (if isQuote c then some c else none) rest
  | some q, c :: rest => c :: beforeComment (if c = q then none else some q) rest

/-- The lines of an assembly text without comments, outer blanks and empty lines. -/
def lines (assembly : String) : List String :=
  ((Text.split '\n' assembly).map fun line =>
    Text.trim (String.ofList (beforeComment none line.toList))).filter (· ≠ "")

def openedSection? (line : String) : Option Section :=
  let low := lower line
  (Text.dropLeading? "section " low <|> Text.dropLeading? "segment " low).map fun rest =>
    match Text.firstWord? rest with
    | some ".data" => .data
    | some ".rodata" => .rodata
    | some ".bss" => .bss
    | _ => .code

def isDirective (line : String) : Bool :=
  Text.startsWith "extern " (lower line) || Text.startsWith "global " (lower line)

def definesData (word : String) : Bool :=
  ["db", "dw", "dd", "dq", "dt", "times", "equ"].contains (lower word)

def dataEntry? (line : String) : Option (String × String) :=
  let (first, rest) := (Text.cutWhere? Text.isBlank line).getD (line, "")
  match Text.dropLast? ':' first with
  | some label => some (label, Text.trim rest)
  | none =>
    match Text.firstWord? rest with
    | some word => if definesData word then some (first, Text.trim rest) else none
    | none => none

def label? (line : String) : Option String :=
  match Text.dropLast? ':' line with
  | some label => if label.toList.any Text.isBlank then none else some label
  | none => none

def isLabelChar (c : Char) : Bool :=
  c.isAlphanum || c == '_' || c == '.' || c == '$' || c == '?' || c == '@' || c == '#' || c == '~'

/-- Fresh labels by the labels they replace, the latest first. -/
abbrev Renames := List (String × String)

def rename (renames : Renames) (token : List Char) : List Char :=
  match renames.find? fun r => r.1 == String.ofList token with
  | some r => r.2.toList
  | none => token

/-- Characters with every whole label renamed; the pending label is kept backwards. -/
def renameChars (renames : Renames) : List Char → List Char → List Char
  | [], token => rename renames token.reverse
  | c :: rest, token =>
    if isLabelChar c then renameChars renames rest (c :: token)
    else rename renames token.reverse ++ c :: renameChars renames rest []

def renameLine (renames : Renames) (line : String) : String :=
  if renames.isEmpty then line else String.ofList (renameChars renames line.toList [])

/-! ## Data -/

/-- What collecting data entries keeps. -/
structure Collecting where
  current : Section := .code
  renames : Renames := []
  table : DataTable

def Collecting.line (s : Collecting) (line : String) : Collecting :=
  match openedSection? line with
  | some opened => { s with current := opened }
  | none =>
    if (s.current = .data ∨ s.current = .rodata) ∧ ¬ isDirective line then
      let readOnly := s.current == .rodata
      match dataEntry? line with
      | some (label, body) =>
        let (table, fresh) := s.table.nextLabel
        { s with
          renames := (label, fresh) :: s.renames
          table := table.add readOnly fresh body }
      | none => { s with table := s.table.extendLast readOnly line }
    else s

/-! ## Code -/

/-- A method that is being read, with the bridges of its local labels. -/
structure Draft where
  listing : Listing
  bridges : List (String × Bridge) := []

namespace Draft

/-- The bridge of a local label, made on first use. -/
def bridge (d : Draft) (label : String) : Draft × Bridge :=
  match d.bridges.find? fun b => b.1 == label with
  | some b => (d, b.2)
  | none =>
    let (listing, b) := d.listing.newBridge
    ({ listing, bridges := (label, b) :: d.bridges }, b)

def define (d : Draft) (label : String) : Draft :=
  let (d, b) := d.bridge label
  { d with listing := d.listing.patchHere b }

/-- Takes one instruction over; a jump to a local label goes over its bridge. -/
def line (d : Draft) (renames : Renames) (line : String) : Draft :=
  let (mnemonic, rest) := (Text.cutWhere? Text.isBlank line).getD (line, "")
  let target := Text.trim rest
  if Text.startsWith "J" (upper mnemonic) && Text.startsWith "." target then
    let (d, b) := d.bridge target
    { d with listing := d.listing.jump (upper mnemonic) b }
  else { d with listing := d.listing.push (.raw (renameLine renames line)) }

end Draft

/-- What reading the code keeps. -/
structure Reading where
  current : Section := .code
  draft : Option Draft := none
  library : Library

namespace Reading

def finish (r : Reading) : Reading :=
  match r.draft with
  | none => r
  | some d =>
    { r with
      draft := none
      library := { r.library with methods := r.library.methods ++ [d.listing.sealed] } }

def codeLine (renames : Renames) (r : Reading) (line : String) : Reading :=
  match label? line with
  | some label =>
    if Text.startsWith "." label then { r with draft := r.draft.map fun d => d.define label }
    else
      let r := r.finish
      { r with
        draft := some { listing := { label := label } }
        library := { r.library with
          defined := if r.library.defined.contains label then r.library.defined
            else r.library.defined ++ [label] } }
  | none => { r with draft := r.draft.map fun d => d.line renames line }

def line (renames : Renames) (r : Reading) (line : String) : Reading :=
  match openedSection? line with
  | some opened => { r with current := opened }
  | none =>
    if isDirective line then
      if r.library.directives.contains line then r
      else { r with library := { r.library with directives := r.library.directives ++ [line] } }
    else
      match r.current with
      | .data | .rodata => r
      | .bss => { r with library := { r.library with bss := r.library.bss ++ [line] } }
      | .code => r.codeLine renames line

end Reading

/-- Takes the assembly text of one header in; its data goes to the table. -/
def merge (l : Library) (assembly : String) (table : DataTable) : Library × DataTable :=
  let lines := lines assembly
  let collected := lines.foldl Collecting.line { table := table }
  let read := lines.foldl (Reading.line collected.renames) { library := l }
  (read.finish.library, collected.table)

end Library

end ScriptCompiler.X86
