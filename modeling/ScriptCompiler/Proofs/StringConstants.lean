import Mathlib.Data.List.Pairwise
import ScriptCompiler.Proofs.ByteFormat
import ScriptCompiler.Text.Blank
import ScriptCompiler.Wat.Memory
import ScriptCompiler.X86.DataTable

/-!
# String constants

In assembly a string constant is a list of numbers and quoted runs, where nothing is escaped. Who
reads the list finds the length, with the final zero counted, the bytes of the text and the zero.

In linear memory the constants follow one another in the order in which they are first asked for.
So an address that was handed out keeps its meaning while the memory grows.
-/

set_option autoImplicit false

namespace ScriptCompiler

open List

namespace X86

/-! ## Reading a definition -/

/-- The items of a list: what stands between the commas outside quotes. The pending item is kept
backwards. -/
def dataItems : Bool → List Char → List Char → List (List Char)
  | _, [], item => [item.reverse]
  | quoted, c :: rest, item =>
    if c = ',' ∧ quoted = false then item.reverse :: dataItems false rest []
    else dataItems (quoted ^^ c == '\x22') rest (c :: item)

def hexDigit? (c : Char) : Option Nat := "0123456789ABCDEF".toList.idxOf? c.toUpper

def readHex? (digits : List Char) : Option Nat :=
  if digits = [] then none else digits.foldlM (fun n c => (hexDigit? c).map (16 * n + ·)) 0

/-- The bytes of an item: a run in quotes as it stands, or a byte in base sixteen or ten. -/
def itemBytes? (item : List Char) : Option (List UInt8) :=
  match (Text.trim (String.ofList item)).toList with
  | '\x22' :: rest =>
    if rest.getLast? = some '\x22' ∧ '\x22' ∉ rest.dropLast then
      some (Text.utf8 (String.ofList rest.dropLast))
    else none
  | '0' :: 'x' :: digits => ((readHex? digits).filter (· < 256)).map ([UInt8.ofNat ·])
  | digits => ((Integer.readDigits? digits).filter (· < 256)).map ([UInt8.ofNat ·])

def itemsBytes? : List (List Char) → Option (List UInt8)
  | [] => some []
  | item :: rest => do return (← itemBytes? item) ++ (← itemsBytes? rest)

/-- The bytes that a definition of data lays down. -/
def dataBytes? (definition : String) : Option (List UInt8) :=
  (Text.dropLeading? "db " definition).bind fun list =>
    itemsBytes? (dataItems false list.toList [])

/-- Whether a text is one item of a list, and has these bytes. -/
structure ReadsAs (item : String) (bytes : List UInt8) : Prop where
  whole : ∀ rest pending, dataItems false (item.toList ++ rest) pending =
    dataItems false rest (item.toList.reverse ++ pending)
  read : itemBytes? item.toList = some bytes

/-- Whether texts are items with these bytes. -/
inductive ReadAs : List String → List UInt8 → Prop
  | nil : ReadAs [] []
  | cons {item : String} {items : List String} {bytes rest : List UInt8}
      (first : ReadsAs item bytes) (others : ReadAs items rest) :
      ReadAs (item :: items) (bytes ++ rest)

theorem itemBytes?_blank (item : List Char) : itemBytes? (' ' :: item) = itemBytes? item := by
  have hblank : Text.isBlank ' ' = true := by decide
  simp [itemBytes?, Text.trim, hblank]

namespace ReadAs

variable {items items' : List String} {bytes bytes' : List UInt8}

theorem append (h : ReadAs items bytes) (h' : ReadAs items' bytes') :
    ReadAs (items ++ items') (bytes ++ bytes') := by
  induction h with
  | nil => exact h'
  | cons hfirst _ ih =>
    rw [append_assoc]
    exact .cons hfirst ih

theorem read (h : ReadAs items bytes) (hne : items ≠ []) :
    dataBytes? ("db " ++ ", ".intercalate items) = some bytes := by
  have hitems : ∀ pending, (∀ item, itemBytes? (pending.reverse ++ item) = itemBytes? item) →
      itemsBytes? (dataItems false (", ".intercalate items).toList pending) = some bytes := by
    rw [String.toList_intercalate, show ", ".toList = [',', ' '] from rfl]
    induction h with
    | nil => exact absurd rfl hne
    | @cons item items bytes _ hfirst hothers ih =>
      intro pending hpending
      cases items with
      | nil =>
        cases hothers
        have hwhole := hfirst.whole [] pending
        rw [append_nil] at hwhole
        simp [hwhole, dataItems, itemsBytes?, hpending, hfirst.read]
      | cons =>
        have hrest := ih (cons_ne_nil _ _) [' '] itemBytes?_blank
        rw [map_cons] at hrest
        rw [map_cons, map_cons, intercalate_cons_cons, append_assoc, hfirst.whole]
        simp [dataItems, itemsBytes?, hpending, hfirst.read, hrest]
  have hlist : ∀ s, Text.dropLeading? "db " ("db " ++ s) = some s := by
    simp [Text.dropLeading?, String.length]
  rw [dataBytes?, hlist]
  exact hitems [] fun _ => rfl

end ReadAs

/-! ## The definition of a string -/

theorem dataItems_append {quoted : Bool} {cs : List Char}
    (h : (cs.all fun c => c != '\x22' && (c != ',' || quoted)) = true) (rest pending : List Char) :
    dataItems quoted (cs ++ rest) pending = dataItems quoted rest (cs.reverse ++ pending) := by
  induction cs generalizing pending with
  | nil => rfl
  | cons c _ ih =>
    simp only [all_cons, Bool.and_eq_true, bne_iff_ne, Bool.or_eq_true] at h
    obtain ⟨⟨hquote, hcomma⟩, hcs⟩ := h
    have hinside : ¬ (c = ',' ∧ quoted = false) := by
      rintro ⟨hc, rfl⟩
      exact hcomma.elim (absurd hc) nofun
    simp [dataItems, hinside, beq_false_of_ne hquote, ih hcs]

theorem readsAs_byteText (b : UInt8) : ReadsAs (byteText b) [b] := by
  have hall : ∀ n < 256, ((byteText (UInt8.ofNat n)).toList.all fun c =>
      c != '\x22' && (c != ',' || false)) = true ∧
        itemBytes? (byteText (UInt8.ofNat n)).toList = some [UInt8.ofNat n] := by
    simp only [byteText, Text.hexUpper, itemBytes?, Text.trim, String.toList_append,
      String.toList_ofList]
    decide +kernel
  have hb := hall b.toNat b.toNat_lt
  rw [UInt8.ofNat_toNat] at hb
  exact ⟨dataItems_append hb.1, hb.2⟩

theorem readAs_map_byteText (bytes : List UInt8) : ReadAs (bytes.map byteText) bytes := by
  induction bytes with
  | nil => exact .nil
  | cons b _ ih => exact .cons (readsAs_byteText b) ih

/-- The characters of bytes that stand in quotes. -/
def quotedChars (run : List UInt8) : List Char := run.map fun b => Char.ofNat b.toNat

theorem quotable (b : UInt8) (h : isQuotable b) :
    Char.ofNat b.toNat ≠ '\x22' ∧ String.utf8EncodeChar (Char.ofNat b.toNat) = [b] := by
  have hall : ∀ n < 256, isQuotable (UInt8.ofNat n) → Char.ofNat n ≠ '\x22' ∧
      String.utf8EncodeChar (Char.ofNat n) = [UInt8.ofNat n] := by
    decide +kernel
  have hb := hall b.toNat b.toNat_lt
  rw [UInt8.ofNat_toNat] at hb
  exact hb h

theorem readsAs_quoted {run : List UInt8} (h : ∀ b ∈ run, isQuotable b) :
    ReadsAs ("\"" ++ String.ofList (quotedChars run) ++ "\"") run := by
  have hquote : '\x22' ∉ quotedChars run := by
    intro hmem
    obtain ⟨b, hb, heq⟩ := List.mem_map.1 hmem
    exact (quotable b (h b hb)).1 heq
  have hbytes : Text.utf8 (String.ofList (quotedChars run)) = run := by
    unfold Text.utf8 quotedChars
    rw [String.toByteArray_ofList, List.utf8Encode]
    have hencode := map_congr_left fun b hb => (quotable b (h b hb)).2
    rw [flatMap_map, flatMap_def, hencode, ← flatMap_def]
    simp
  constructor
  · intro _ _
    have hinside : ((quotedChars run).all fun c => c != '\x22' && (c != ',' || true)) = true := by
      simpa using forall_mem_ne'.2 hquote
    simp [dataItems, dataItems_append hinside]
  · have hblank : Text.isBlank '\x22' = false := by decide
    simp [itemBytes?, Text.trim, hblank, hquote, hbytes]

theorem readAs_flushRun {run : List UInt8} (h : ∀ b ∈ run, isQuotable b) :
    ReadAs (flushRun (quotedChars run).reverse) run := by
  unfold flushRun
  split
  · rename_i hempty
    obtain rfl : run = [] := by simpa [quotedChars] using hempty
    exact .nil
  · simpa using ReadAs.cons (readsAs_quoted h) .nil

theorem readAs_byteItems (bytes run : List UInt8) (h : ∀ b ∈ run, isQuotable b) :
    ReadAs (byteItems bytes (quotedChars run).reverse) (run ++ bytes) := by
  induction bytes generalizing run with
  | nil => simpa [byteItems] using readAs_flushRun h
  | cons b rest ih =>
    unfold byteItems
    split
    · rename_i hb
      have hlonger := ih (run ++ [b]) (forall_mem_append.2 ⟨h, by simpa using hb⟩)
      simpa [quotedChars] using hlonger
    · exact (readAs_flushRun h).append (.cons (readsAs_byteText b) (ih [] (by simp)))

/-- Read as a list of data, the definition of a string gives the length of the text with the final
zero counted, the bytes of the text, and the zero. -/
theorem encoded_string_read_back (s : String) (h : (Text.utf8 s).length < 2 ^ 32 - 1) :
    ∃ size : List UInt8, size.length = 4 ∧ Code.ofLittleEndian size = (Text.utf8 s).length + 1 ∧
      dataBytes? (encodeString s) = some (size ++ Text.utf8 s ++ [0]) := by
  refine ⟨_, rfl, Code.ofLittleEndian_littleEndian32 (by unfold UInt32.size; omega), ?_⟩
  have hzero : ReadsAs "0" [0] := ⟨dataItems_append (by decide), by decide +kernel⟩
  have hbytes := readAs_byteItems (Text.utf8 s) [] (by simp)
  exact (((readAs_map_byteText _).append hbytes).append (.cons hzero .nil)).read (by simp)

/-- A text with commas, quotes, a semicolon, a backslash, a line end and a longer character. -/
def Sample.odd : String := "\"a, b\"; \\n\né,"

/-- A text with quotes and letters beyond ASCII is read back. -/
theorem odd_string_read_back : (Text.utf8 Sample.odd).length < 2 ^ 32 - 1 ∧
    ∃ size : List UInt8, size.length = 4 ∧
      Code.ofLittleEndian size = (Text.utf8 Sample.odd).length + 1 ∧
      dataBytes? (encodeString Sample.odd) = some (size ++ Text.utf8 Sample.odd ++ [0]) := by
  have hshort : (Text.utf8 Sample.odd).length < 2 ^ 32 - 1 := by decide +kernel
  exact ⟨hshort, encoded_string_read_back Sample.odd hshort⟩

end X86

namespace Wat

/-! ## Memory -/

theorem alignUp_eight (n : Nat) : 8 ∣ alignUp n 8 ∧ n ≤ alignUp n 8 ∧ alignUp n 8 < n + 8 := by
  have hmask : (n + 7) &&& 7 = (n + 7) % 8 := Nat.and_two_pow_sub_one_eq_mod (n + 7) 3
  unfold alignUp
  dsimp only
  rw [hmask]
  omega

namespace Memory

/-- The number of bytes that a constant takes. -/
def span (text : String) : Nat := 4 + (Text.utf8 text).length

/-- Whether an image holds a constant at an address: its length and its bytes. -/
structure Holds (image : List UInt8) (text : String) (address : Nat) : Prop where
  inside : start ≤ address ∧ address + span text ≤ image.length
  length : Code.ofLittleEndian ((image.drop address).take 4) = (Text.utf8 text).length
  bytes : (image.drop (address + 4)).take (Text.utf8 text).length = Text.utf8 text

/-- The memory after constants have been asked for, which are listed with their addresses. -/
def place (m : Memory) : List String → Memory × List (String × Nat)
  | [] => (m, [])
  | text :: rest =>
    let placed := (m.string text).1.place rest
    (placed.1, (text, (m.string text).2) :: placed.2)

/-- Whether the bytes of a memory have a constant at an address. -/
def Stores (m : Memory) (text : String) (address : Nat) : Prop :=
  ∃ front back, address = start + front.length ∧
    m.bytes = front ++ (Text.littleEndian32 (Text.utf8 text).length ++ Text.utf8 text ++ back)

/-- Whether the constants of a memory stand in its bytes one after another. -/
structure LaidOut (m : Memory) : Prop where
  stored : ∀ e ∈ m.strings, m.Stores e.1 e.2
  apart : m.strings.Pairwise fun e e' => e.1 ≠ e'.1 ∧ e.2 + span e.1 ≤ e'.2

variable {m : Memory} {text : String} {address : Nat}

theorem length_image (m : Memory) : m.image.length = start + m.bytes.length := by
  rw [image, length_append]
  rfl

theorem Stores.le (h : m.Stores text address) :
    start ≤ address ∧ address + span text ≤ start + m.bytes.length := by
  obtain ⟨_, _, rfl, hbytes⟩ := h
  simp only [hbytes, span, length_append, Text.littleEndian32, length_cons, length_nil]
  omega

theorem Stores.holds (h : m.Stores text address) (hsize : m.bytes.length < 2 ^ 32) :
    Holds m.image text address := by
  have hle := h.le
  obtain ⟨front, back, rfl, hbytes⟩ := h
  have hrest : m.image.drop (start + front.length) =
      Text.littleEndian32 (Text.utf8 text).length ++ Text.utf8 text ++ back := by
    rw [image, hbytes, ← append_assoc]
    exact drop_left' (by rw [length_append]; rfl)
  refine ⟨by rwa [length_image], ?_, ?_⟩
  · rw [hrest]
    refine Code.ofLittleEndian_littleEndian32 ?_
    unfold span at hle
    unfold UInt32.size
    omega
  · rw [← drop_drop, hrest]
    exact take_left

theorem LaidOut.string (h : m.LaidOut) (text : String) :
    (m.string text).1.LaidOut ∧ (text, (m.string text).2) ∈ (m.string text).1.strings ∧
      m.strings ⊆ (m.string text).1.strings := by
  unfold Memory.string
  cases hfind : m.strings.find? fun e => e.1 == text with
  | some e => exact ⟨h, mem_of_find?_key hfind, List.Subset.refl _⟩
  | none =>
    refine ⟨⟨?_, ?_⟩, mem_append_right _ (mem_singleton_self _), subset_append_left _ _⟩
    · intro e he
      rcases mem_append.1 he with he | he
      · obtain ⟨front, back, haddress, hbytes⟩ := h.stored e he
        exact ⟨front, back ++ _, haddress, by rw [hbytes]; simp only [append_assoc]; rfl⟩
      · rw [mem_singleton.1 he]
        exact ⟨m.bytes, [], rfl, by rw [append_nil]⟩
    · refine pairwise_append.2 ⟨h.apart, pairwise_singleton _ _, fun e he _ he' => ?_⟩
      rw [mem_singleton.1 he']
      exact ⟨by simpa using List.find?_eq_none.1 hfind e he, (h.stored e he).le.2⟩

theorem LaidOut.place (h : m.LaidOut) (texts : List String) :
    (m.place texts).1.LaidOut ∧ m.strings ⊆ (m.place texts).1.strings ∧
      (m.place texts).2.map Prod.fst = texts ∧ (m.place texts).2 ⊆ (m.place texts).1.strings := by
  induction texts generalizing m with
  | nil => exact ⟨h, List.Subset.refl _, rfl, List.nil_subset _⟩
  | cons text _ ih =>
    obtain ⟨hfirst, hmem, hkept⟩ := h.string text
    obtain ⟨hrest, hkept', htexts, hall⟩ := ih hfirst
    exact ⟨hrest, fun _ he => hkept' (hkept he), congrArg (cons text) htexts,
      cons_subset.2 ⟨hkept' hmem, hall⟩⟩

/-- Whether two constants have no byte in common. -/
def Apart (e e' : String × Nat) : Prop := e.2 + span e.1 ≤ e'.2 ∨ e'.2 + span e'.1 ≤ e.2

theorem LaidOut.same_iff (h : m.LaidOut) {e e' : String × Nat} (he : e ∈ m.strings)
    (he' : e' ∈ m.strings) : (e.1 = e'.1 → e.2 = e'.2) ∧ (e.1 ≠ e'.1 → Apart e e') := by
  have hsymm : Std.Symm fun e e' : String × Nat => e.1 ≠ e'.1 ∧ Apart e e' :=
    ⟨fun _ _ hapart => ⟨hapart.1.symm, hapart.2.symm⟩⟩
  have hall : m.strings.Pairwise fun e e' => e.1 ≠ e'.1 ∧ Apart e e' :=
    h.apart.imp fun hapart => ⟨hapart.1, .inl hapart.2⟩
  by_cases heq : e = e'
  · exact ⟨fun _ => congrArg Prod.snd heq, fun hne => absurd (congrArg Prod.fst heq) hne⟩
  · obtain ⟨hne, hapart⟩ := hall.forall he he' heq
    exact ⟨fun h => absurd h hne, fun _ => hapart⟩

end Memory

/-- At every address that was handed out for a text, the final image holds its length and its bytes.
Equal texts have one address, different texts have places apart from each other and from the first
four bytes. These hold the address where free memory starts: the first multiple of eight that is
not below the end of all constants. -/
theorem constants_keep_places (texts : List String)
    (hsize : (Memory.place {} texts).1.bytes.length < 2 ^ 32 - 16) :
    let m := (Memory.place {} texts).1
    let asked := (Memory.place {} texts).2
    asked.map Prod.fst = texts ∧
      (∀ p ∈ asked, Memory.Holds m.image p.1 p.2) ∧
      (∀ p ∈ asked, ∀ q ∈ asked, (p.1 = q.1 → p.2 = q.2) ∧ (p.1 ≠ q.1 → Memory.Apart p q)) ∧
      Code.ofLittleEndian (m.image.take 4) = m.heapStart ∧
      8 ∣ m.heapStart ∧ m.image.length ≤ m.heapStart ∧ m.heapStart < m.image.length + 8 := by
  intro m asked
  change m.bytes.length < _ at hsize
  have hempty : Memory.LaidOut {} := ⟨by simp, .nil⟩
  obtain ⟨hlaid, -, htexts, hall⟩ := hempty.place texts
  obtain ⟨hmultiple, hlow, hhigh⟩ := alignUp_eight (Memory.start + m.bytes.length)
  have hheap : m.heapStart < UInt32.size := by
    unfold UInt32.size Memory.heapStart Memory.start at *
    omega
  rw [Memory.length_image]
  refine ⟨htexts, ?_, fun p hp q hq => hlaid.same_iff (hall hp) (hall hq),
    Code.ofLittleEndian_littleEndian32 hheap, hmultiple, hlow, hhigh⟩
  exact fun p hp => (hlaid.stored p (hall hp)).holds (Nat.lt_of_lt_of_le hsize (by decide))

/-- A text that comes twice is placed once. -/
theorem greetings_keep_places :
    (Memory.place {} ["hi", "", "hi", "é"]).2 = [("hi", 4), ("", 10), ("hi", 4), ("é", 14)] ∧
      Memory.Holds (Memory.place {} ["hi", "", "hi", "é"]).1.image "é" 14 := by
  refine ⟨by decide +kernel, ?_⟩
  exact (constants_keep_places ["hi", "", "hi", "é"] (by decide +kernel)).2.1 ("é", 14)
    (by decide +kernel)

end Wat

end ScriptCompiler
