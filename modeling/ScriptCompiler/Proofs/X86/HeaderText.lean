import ScriptCompiler.Proofs.X86.Emission
import ScriptCompiler.X86.Library

/-!
# The text of a header

A header is read twice, once for its data and once for the rest. Both readings go over the same
lines and follow the same changes of section, so each depends only on the lines of its sections:
the entries that a header adds and the labels they replace on the lines of its data, the methods
on the lines of its code.
-/

set_option autoImplicit false

namespace ScriptCompiler.X86

namespace Library

/-! ## Lines and sections -/

/-- The lines that are neither directives nor open a section, each with its section. -/
def placed : Section → List String → List (Section × String)
  | _, [] => []
  | current, line :: rest =>
    let opened := openedSection? line
    (if opened.isNone && !isDirective line then [(current, line)] else [])
      ++ placed (opened.getD current) rest

def codeOf (ps : List (Section × String)) : List String :=
  ps.filterMap fun p => if p.1 = .code then some p.2 else none

def bssOf (ps : List (Section × String)) : List String :=
  ps.filterMap fun p => if p.1 = .bss then some p.2 else none

def directivesOf (lines : List String) : List String :=
  lines.filter fun line => (openedSection? line).isNone && isDirective line

/-- The lines of the two data sections; `true` stands for read-only data. -/
def dataOf (ps : List (Section × String)) : List (Bool × String) :=
  ps.filterMap fun p => if p.1 = .data ∨ p.1 = .rodata then some (p.1 == .rodata, p.2) else none

def codeLines (assembly : String) : List String := codeOf (placed .code (lines assembly))

def dataLines (assembly : String) : List (Bool × String) := dataOf (placed .code (lines assembly))

/-! ## Code -/

/-- The label of a line with which a method starts. -/
def methodLabel? (line : String) : Option String :=
  (label? line).filter fun label => !Text.startsWith "." label

/-- The methods of code: each has a label and the lines up to the next such label. -/
def bodies : List String → List (String × List String)
  | [] => []
  | line :: rest =>
    ((methodLabel? line).toList.map fun label =>
      (label, rest.takeWhile fun line => (methodLabel? line).isNone)) ++ bodies rest

/-- Takes one line of a method over: a local label or an instruction. -/
def Draft.take (renames : Renames) (d : Draft) (line : String) : Draft :=
  match label? line with
  | some label => d.define label
  | none => d.line renames line

def Draft.read (renames : Renames) (d : Draft) (body : List String) : Draft :=
  body.foldl (Draft.take renames) d

def listingOf (renames : Renames) (body : String × List String) : Listing :=
  (Draft.read renames { listing := { label := body.1 } } body.2).listing.sealed

/-- Adds a text to a list unless it is there. -/
def note (texts : List String) (text : String) : List String :=
  if texts.contains text then texts else texts ++ [text]

theorem mem_foldl_note {texts more : List String} {text : String} :
    text ∈ more.foldl note texts ↔ text ∈ texts ∨ text ∈ more := by
  induction more generalizing texts with
  | nil => simp
  | cons _ _ ih =>
    rw [List.foldl_cons, ih, note]
    split <;> grind

theorem prefix_foldl_note (texts more : List String) : texts <+: more.foldl note texts := by
  refine List.foldlRecOn more note List.prefix_rfl fun _ h _ _ => h.trans ?_
  unfold note
  split
  · exact List.prefix_rfl
  · exact List.prefix_append _ _

namespace Reading

variable (renames : Renames) (r : Reading)

/-- The library after the rest of the lines: what there is so far, the current method with the rest of
its lines, and what follows. -/
def all (rest : List String) : Library :=
  let code := codeOf (placed r.current rest)
  { directives := (directivesOf rest).foldl note r.library.directives
    methods := r.library.methods
      ++ (r.draft.toList.map fun d =>
        (d.read renames (code.takeWhile fun line => (methodLabel? line).isNone)).listing.sealed)
      ++ (bodies code).map (listingOf renames)
    bss := r.library.bss ++ bssOf (placed r.current rest)
    defined := ((bodies code).map (·.1)).foldl note r.library.defined }

theorem library_finish : r.finish.library = r.all renames [] := by
  unfold finish all
  cases r.draft <;> simp [placed, codeOf, bssOf, directivesOf, bodies, Draft.read]

theorem all_codeLine (line : String) (rest : List String) (hcurrent : r.current = .code)
    (hopened : openedSection? line = none) (hdirective : isDirective line = false) :
    (r.codeLine renames line).all renames rest = r.all renames (line :: rest) := by
  cases hlabel : label? line with
  | none =>
    have hmethod : methodLabel? line = none := by simp [methodLabel?, hlabel]
    cases hdraft : r.draft <;>
      simp [codeLine, all, bodies, hmethod, hdraft, Draft.read, Draft.take, hlabel, hcurrent, placed,
        hopened, hdirective, codeOf, bssOf, directivesOf]
  | some label =>
    cases hlocal : Text.startsWith "." label with
    | true =>
      have hmethod : methodLabel? line = none := by simp [methodLabel?, hlabel, hlocal]
      cases hdraft : r.draft <;>
        simp [codeLine, all, bodies, hmethod, hdraft, Draft.read, Draft.take, hlabel, hlocal, hcurrent,
          placed, hopened, hdirective, codeOf, bssOf, directivesOf]
    | false =>
      have hmethod : methodLabel? line = some label := by simp [methodLabel?, hlabel, hlocal]
      cases hdraft : r.draft <;>
        simp [codeLine, finish, all, bodies, hmethod, hdraft, hlabel, hlocal, listingOf, Draft.read,
          hcurrent, placed, hopened, hdirective, codeOf, bssOf, directivesOf, note]

theorem all_line (line : String) (rest : List String) :
    (r.line renames line).all renames rest = r.all renames (line :: rest) := by
  unfold Reading.line
  cases hopened : openedSection? line with
  | some => simp [placed, hopened, all, directivesOf]
  | none =>
    cases hdirective : isDirective line with
    | true =>
      by_cases hknown : line ∈ r.library.directives <;>
        simp [placed, hopened, hdirective, hknown, all, directivesOf, note]
    | false =>
      cases hcurrent : r.current with
      | data | rodata | bss =>
        simp [placed, hopened, hdirective, hcurrent, codeOf, bssOf, directivesOf, all]
      | code => simpa using r.all_codeLine renames line rest hcurrent hopened hdirective

theorem library_read (lines : List String) :
    (lines.foldl (Reading.line renames) r).finish.library = r.all renames lines := by
  induction lines generalizing r with
  | nil => exact r.library_finish renames
  | cons _ _ ih => rw [List.foldl_cons, ih, all_line]

end Reading

/-! ## Data -/

/-- A line of data. One that starts an entry has a label, and with it goes the fresh one. -/
structure Item where
  readOnly : Bool
  labels : Option (String × String)
  text : String
  deriving DecidableEq, Repr

def Item.of (n : Nat) (readOnly : Bool) (line : String) : Item :=
  ( dataEntry? line).elim ⟨readOnly, none, line⟩ fun e =>
    ⟨readOnly, some (e.1, DataTable.labelText n), e.2⟩

/-- The lines of data as items, where the fresh labels are counted from `n`. -/
def items : Nat → List (Bool × String) → List Item
  | _, [] => []
  | n, (readOnly, line) :: rest =>
    let i := Item.of n readOnly line
    i :: items (if i.labels.isSome then n + 1 else n) rest

/-- The fresh labels of items, the latest first. -/
def renamesOf (is : List Item) : Renames := (is.filterMap Item.labels).reverse

/-- Enters an item into a table. -/
def fill (t : DataTable) (i : Item) : DataTable :=
  match i.labels with
  | some (_, fresh) => { t with next := t.next + 1 }.add i.readOnly fresh i.text
  | none => t.extendLast i.readOnly i.text

theorem collect_line (s : Collecting) (line : String) (rest : List String) :
    let is := items s.table.next (dataOf (placed s.current (line :: rest)))
    let s' := s.line line
    let is' := items s'.table.next (dataOf (placed s'.current rest))
    renamesOf is' ++ s'.renames = renamesOf is ++ s.renames ∧
      is'.foldl fill s'.table = is.foldl fill s.table := by
  unfold Collecting.line
  cases hopened : openedSection? line with
  | some => simp [placed, hopened]
  | none =>
    cases hdirective : isDirective line with
    | true => simp [placed, hopened, hdirective]
    | false =>
      cases hcurrent : s.current with
      | code | bss => simp [placed, hopened, hdirective, hcurrent, dataOf]
      | data | rodata =>
        cases hentry : dataEntry? line <;>
          simp [placed, hopened, hdirective, dataOf, items, Item.of, hentry, renamesOf,
            fill, DataTable.nextLabel, DataTable.add, DataTable.extendLast]

theorem collect (s : Collecting) (lines : List String) :
    let is := items s.table.next (dataOf (placed s.current lines))
    (lines.foldl Collecting.line s).renames = renamesOf is ++ s.renames ∧
      (lines.foldl Collecting.line s).table = is.foldl fill s.table := by
  induction lines generalizing s with
  | nil => exact ⟨rfl, rfl⟩
  | cons line rest ih =>
    rw [List.foldl_cons, (ih (s.line line)).1, (ih (s.line line)).2]
    exact collect_line s line rest

/-! ## The whole header -/

/-- The items of a header that is read when a table has been filled so far. -/
def itemsOf (assembly : String) (table : DataTable) : List Item :=
  items table.next (dataLines assembly)

theorem library_merge (l : Library) (assembly : String) (table : DataTable) :
    (l.merge assembly table).1 =
      Reading.all (renamesOf (itemsOf assembly table)) { library := l } (lines assembly) := by
  have hrenames := (collect { table := table } (lines assembly)).1
  rw [List.append_nil] at hrenames
  simp only [merge]
  rw [hrenames, Reading.library_read]
  rfl

theorem methods_merge (l : Library) (assembly : String) (table : DataTable) :
    (l.merge assembly table).1.methods = l.methods ++
      (bodies (codeLines assembly)).map (listingOf (renamesOf (itemsOf assembly table))) := by
  rw [library_merge]
  simp [Reading.all, codeLines]

theorem table_merge (l : Library) (assembly : String) (table : DataTable) :
    (l.merge assembly table).2 = (itemsOf assembly table).foldl fill table :=
  (collect { table := table } (lines assembly)).2

end Library

end ScriptCompiler.X86
