import ScriptCompiler.Proofs.X86.HeaderCode
import ScriptCompiler.Proofs.X86.JumpTargets

/-!
# Data of a header

Lines of data at the start of a header continue the last entry of their section as long as they have
no label. All others become entries of their own under fresh labels, with their texts as they are
written: references in the code are renamed, references in the data are not.
-/

set_option autoImplicit false

namespace ScriptCompiler.X86

open List

namespace DataTable

def entries (t : DataTable) (readOnly : Bool) : List (String × String) :=
  if readOnly then t.rodata else t.data

end DataTable

namespace Library

/-! ## Entries -/

/-- Entries of which the last goes on with more text. -/
def continued (entries : List (String × String)) (more : String) : List (String × String) :=
  entries.dropLast ++ entries.getLast?.toList.map fun e => (e.1, e.2 ++ more)

/-- What items without labels, as long as there are such, add to the entry before them. -/
def continuation (is : List Item) : String :=
  String.join ((is.takeWhile (·.labels.isNone)).map fun i => "\n            " ++ i.text)

/-- The entries that items start, with the texts as they are written. -/
def entriesOf : List Item → List (String × String)
  | [] => []
  | i :: rest => (i.labels.toList.map fun p => (p.2, i.text ++ continuation rest)) ++ entriesOf rest

@[simp]
theorem continued_nil (more : String) : continued [] more = [] := rfl

@[simp]
theorem continued_concat (entries : List (String × String)) (e : String × String) (more : String) :
    continued (entries ++ [e]) more = entries ++ [(e.1, e.2 ++ more)] := by
  simp [continued]

theorem continued_empty (entries : List (String × String)) : continued entries "" = entries := by
  rcases entries.eq_nil_or_concat' with rfl | ⟨_, _, rfl⟩ <;> simp

theorem continued_continued (entries : List (String × String)) (a b : String) :
    continued (continued entries a) b = continued entries (a ++ b) := by
  rcases entries.eq_nil_or_concat' with rfl | ⟨_, _, rfl⟩ <;> simp [String.append_assoc]

theorem map_continued (entries : List (String × String)) (more : String) :
    (continued entries more).map (·.1) = entries.map (·.1) := by
  rcases entries.eq_nil_or_concat' with rfl | ⟨_, _, rfl⟩ <;> simp

theorem extendEntries_eq (line : String) (entries : List (String × String)) :
    DataTable.extendEntries line entries = continued entries ("\n            " ++ line) := by
  rcases entries.eq_nil_or_concat' with rfl | ⟨_, _, rfl⟩ <;>
    simp [DataTable.extendEntries, String.append_assoc]

variable {table t : DataTable} {is : List Item} {readOnly : Bool}

theorem entries_fill (t : DataTable) (i : Item) (readOnly : Bool) : (fill t i).entries readOnly =
      if i.readOnly = readOnly then
        continued (t.entries readOnly) (continuation [i]) ++ entriesOf [i]
      else t.entries readOnly := by
  unfold fill
  cases hlabels : i.labels <;> cases i.readOnly <;> cases readOnly <;>
    simp [DataTable.entries, DataTable.add, DataTable.extendLast, extendEntries_eq, continuation,
      entriesOf, hlabels, continued_empty]

theorem entries_foldl (t : DataTable) (is : List Item) (readOnly : Bool) :
    let js := is.filter (·.readOnly == readOnly)
    (is.foldl fill t).entries readOnly =
      continued (t.entries readOnly) (continuation js) ++ entriesOf js := by
  induction is generalizing t with
  | nil => simp [continuation, entriesOf, continued_empty]
  | cons i _ ih =>
    rw [foldl_cons, ih, entries_fill]
    by_cases hsection : i.readOnly = readOnly
    · cases hlabels : i.labels <;>
        simp [hsection, continuation, entriesOf, hlabels, continued_continued]
    · simp [hsection]

theorem entries_merge (l : Library) (assembly : String) (table : DataTable) (readOnly : Bool) :
    let js := (itemsOf assembly table).filter (·.readOnly == readOnly)
    (l.merge assembly table).2.entries readOnly =
      continued (table.entries readOnly) (continuation js) ++ entriesOf js := by
  rw [table_merge]
  exact entries_foldl table _ readOnly

/-! ## References -/

/-- What becomes of a token: the label of the last entry that has it, or nothing else. -/
inductive Rewritten (is : List Item) : List Char → List Char → Prop
  | reference {before after : List Item} {i : Item} {label fresh : String}
      (split : is = before ++ i :: after) (labels : i.labels = some (label, fresh))
      (final : ∀ j ∈ after, ∀ p ∈ j.labels, p.1 ≠ label) :
      Rewritten is label.toList fresh.toList
  | other {token : List Char} (unknown : ∀ i ∈ is, ∀ p ∈ i.labels, p.1.toList ≠ token) :
      Rewritten is token token

theorem Rewritten.snoc {token token' : List Char} (h : Rewritten is token token') {i : Item}
    (hi : ∀ p ∈ i.labels, p.1.toList ≠ token) : Rewritten (is ++ [i]) token token' := by
  cases h with
  | @reference before after j label _ hsplit hlabels hfinal =>
    have hi : ∀ p ∈ i.labels, p.1 ≠ label := fun p hp heq => hi p hp (by rw [heq])
    have hsplit : is ++ [i] = before ++ j :: (after ++ [i]) := by simp [hsplit]
    exact .reference hsplit hlabels (forall_mem_append.2 ⟨hfinal, forall_mem_singleton.2 hi⟩)
  | other hunknown => exact .other (forall_mem_append.2 ⟨hunknown, forall_mem_singleton.2 hi⟩)

theorem Rewritten.exists_fresh {token token' : List Char} (h : Rewritten is token token') {i : Item}
    (hi : i ∈ is) {p : String × String} (hp : p ∈ i.labels) (heq : p.1.toList = token') :
    ∃ j ∈ is, ∃ q ∈ j.labels, q.2 = p.1 := by
  cases h with
  | @reference _ _ j _ _ hsplit hlabels =>
    refine ⟨j, ?_, _, hlabels, (String.toList_injective heq).symm⟩
    rw [hsplit]
    exact mem_append_right _ mem_cons_self
  | other hunknown => exact absurd heq (hunknown i hi p hp)

theorem rewritten_rename (is : List Item) (token : List Char) :
    Rewritten is token (rename (renamesOf is) token) := by
  induction is using List.reverseRecOn with
  | nil => exact .other (by simp)
  | append_singleton is i ih =>
    have hrenames : renamesOf (is ++ [i]) = i.labels.toList ++ renamesOf is := by
      cases hlabels : i.labels <;> simp [renamesOf, hlabels]
    rw [hrenames]
    cases hlabels : i.labels with
    | none => exact ih.snoc (by simp [hlabels])
    | some p =>
      by_cases hp : p.1.toList = token
      · subst hp
        have hfound : rename ((some p).toList ++ renamesOf is) p.1.toList = p.2.toList := by
          simp [rename]
        rw [hfound]
        exact .reference rfl hlabels (by simp)
      · have hother : rename ((some p).toList ++ renamesOf is) token = rename (renamesOf is) token := by
          have hne : p.1 ≠ String.ofList token := fun heq => hp (by rw [heq, String.toList_ofList])
          simp [rename, hne]
        rw [hother]
        exact ih.snoc (by simpa [hlabels] using hp)

theorem mem_of_mem_bodies {code : List String} {body : String × List String} (h : body ∈ bodies code) :
    ∀ line ∈ body.2, line ∈ code := by
  induction code with
  | nil => cases h
  | cons _ _ ih =>
    intro line hline
    rcases mem_append.1 h with h | h
    · obtain ⟨_, -, rfl⟩ := List.mem_map.1 h
      exact mem_cons_of_mem _ ((takeWhile_sublist _).subset hline)
    · exact mem_cons_of_mem _ (ih h line hline)

theorem exists_line_of_raw {renames : Renames} (hrenames : Spelled renames)
    {body : String × List String} {text : String} (h : .raw text ∈ (listingOf renames body).lines) :
    ∃ line ∈ body.2, Retokened (fun t => rename renames t.2) line text := by
  have hreads := Draft.Reads.read renames body.1 body.2
  obtain ⟨_, hsealed, hclosing⟩ := Listing.sealed_eq (Draft.listing _)
  rw [listingOf, hsealed] at h
  rcases mem_append.1 h with hmem | hmem
  · obtain ⟨line, hline, htakes⟩ := exists_of_mem_of_forall₂ hreads.lines hmem
    cases htakes
    exact ⟨line, (mem_filter.1 hline).1, hrenames.retokened line⟩
  · rcases hclosing with rfl | rfl <;> simp at hmem

/-- In the instructions of a header every reference to its data is renamed, to the label of the last
entry under the name; a data label that is left over is itself one of the fresh labels. The data that
the header contributes stands in the table as it is written, references included. -/
theorem references_in_code_rewritten (l : Library) (assembly : String) (table : DataTable) :
    let is := itemsOf assembly table
    let merged := l.merge assembly table
    (∃ listings, merged.1.methods = l.methods ++ listings ∧
      ∀ m ∈ listings, ∀ text, .raw text ∈ m.lines →
        (∃ line ∈ codeLines assembly, separators text = separators line ∧
          List.Forall₂ (fun t t' => t'.1 = t.1 ∧ Rewritten is t.2 t'.2)
            (tokensOf line) (tokensOf text)) ∧
        ∀ t ∈ tokensOf text, ∀ i ∈ is, ∀ p ∈ i.labels, p.1.toList = t.2 →
          ∃ j ∈ is, ∃ q ∈ j.labels, q.2 = p.1) ∧
      ∀ readOnly, merged.2.entries readOnly =
        continued (table.entries readOnly)
          (continuation (is.filter (·.readOnly == readOnly))) ++
          entriesOf (is.filter (·.readOnly == readOnly)) := by
  dsimp only
  refine ⟨⟨_, methods_merge l assembly table, ?_⟩, entries_merge l assembly table⟩
  intro m hm text htext
  obtain ⟨_, hbody, rfl⟩ := List.mem_map.1 hm
  obtain ⟨line, hline, hseparators, htokens⟩ := exists_line_of_raw (spelled_itemsOf assembly table) htext
  have hrewritten := rewritten_rename (itemsOf assembly table)
  refine ⟨⟨line, mem_of_mem_bodies hbody line hline, hseparators, ?_⟩, ?_⟩
  · rw [htokens, List.forall₂_map_right_iff, List.forall₂_same]
    intro t _
    dsimp only
    exact ⟨rfl, hrewritten t.2⟩
  · rw [htokens]
    intro t ht i hi p hp heq
    obtain ⟨t, -, rfl⟩ := List.mem_map.1 ht
    dsimp only at heq
    exact (hrewritten t.2).exists_fresh hi hp heq

/-- A header that computes the length of a text. -/
def Sample.measured : String := "section .rodata\nmsg: db 0\nlen: equ $ - msg\n"

/-- The length of a message refers to the old label. -/
theorem reference_in_data_left :
    ("rod_00000001", "equ $ - msg") ∈ (merge {} Sample.measured {}).2.entries true ∧
      (none, "msg".toList) ∈ tokensOf "equ $ - msg" ∧
      renamesOf (itemsOf Sample.measured {}) = [("len", "rod_00000001"), ("msg", "rod_00000000")] := by
  have hlines : lines Sample.measured = ["section .rodata", "msg: db 0", "len: equ $ - msg"] := by
    decide +kernel
  have hitems : itemsOf Sample.measured {} =
      [⟨true, some ("msg", "rod_00000000"), "db 0"⟩,
        ⟨true, some ("len", "rod_00000001"), "equ $ - msg"⟩] := by
    rw [itemsOf, dataLines, hlines]
    decide +kernel
  refine ⟨?_, by decide +kernel, by rw [hitems]; decide +kernel⟩
  rw [(references_in_code_rewritten {} Sample.measured {}).2 true, hitems]
  decide +kernel

/-! ## Earlier headers -/

theorem continuation_eq_empty_iff : continuation is = "" ↔ ∀ i ∈ is.head?, i.labels.isSome := by
  cases is with
  | nil => simp [continuation]
  | cons i => cases hlabels : i.labels <;> simp [continuation, hlabels]

theorem prefix_continued_iff {entries added : List (String × String)} {more : String} :
    entries <+: continued entries more ++ added ↔ entries = [] ∨ more = "" := by
  rcases entries.eq_nil_or_concat' with rfl | ⟨_, e, rfl⟩
  · simp
  · have hbody : e = (e.1, e.2 ++ more) ↔ more = "" := by
      constructor
      · intro heq
        simpa using congrArg (fun e : String × String => e.2.toList) heq
      · rintro rfl
        simp
    rw [continued_concat, append_assoc, prefix_append_right_inj, singleton_append,
      cons_prefix_cons, hbody]
    simp

/-- What earlier headers contributed stays as it is, but for one case: data lines without a label at
the start of a section continue the last entry that is there. -/
theorem earlier_headers_kept (l : Library) (assembly : String) (table : DataTable) :
    let merged := l.merge assembly table
    l.directives <+: merged.1.directives ∧ l.methods <+: merged.1.methods ∧
      l.bss <+: merged.1.bss ∧
      ∀ readOnly,
        (table.entries readOnly <+: merged.2.entries readOnly ↔ table.entries readOnly = [] ∨
          ∀ i ∈ ((itemsOf assembly table).filter (·.readOnly == readOnly)).head?, i.labels.isSome) ∧
        (table.entries readOnly).dropLast <+: merged.2.entries readOnly ∧
        (table.entries readOnly).map (·.1) <+: (merged.2.entries readOnly).map (·.1) := by
  dsimp only
  refine ⟨?_, ?_, ?_, fun readOnly => ?_⟩
  · rw [library_merge]
    exact prefix_foldl_note _ _
  · rw [methods_merge]
    exact List.prefix_append _ _
  · rw [library_merge]
    exact List.prefix_append _ _
  · rw [entries_merge, prefix_continued_iff, continuation_eq_empty_iff, List.map_append,
      map_continued]
    refine ⟨.rfl, ?_, List.prefix_append _ _⟩
    rw [continued, List.append_assoc]
    exact List.prefix_append _ _

/-- A header continues an entry of the one before. -/
theorem earlier_entry_continued :
    ∃ (l : Library) (table : DataTable), merge {} "section .data\nx: db 1\n" {} = (l, table) ∧
      ¬ table.entries false <+: (l.merge "section .data\ndb 2\n" table).2.entries false := by
  refine ⟨_, _, rfl, ?_⟩
  rw [((earlier_headers_kept _ _ _).2.2.2 false).1]
  decide +kernel

end Library

/-! ## Labels of the table -/

namespace DataTable

open Library

theorem labelText_injective : Function.Injective labelText := by
  intro _ _ h
  have h := congrArg String.toList h
  rw [labelText, labelText, String.toList_append, String.toList_append] at h
  exact Text.hexUpper_injective 8 (String.toList_injective (append_cancel_left h))

/-- The labels of all entries. -/
def labels (t : DataTable) : List String := (t.rodata ++ t.data).map (·.1)

/-- Whether the labels of the entries are those handed out so far, each of them once. -/
def Numbered (t : DataTable) : Prop := t.labels.Perm ((List.range t.next).map labelText)

variable {t : DataTable}

theorem Numbered.nodup (h : t.Numbered) : t.labels.Nodup :=
  h.nodup_iff.2 (nodup_range.map labelText_injective)

theorem Numbered.lt (h : t.Numbered) {n : Nat} (hn : labelText n ∈ t.labels) : n < t.next := by
  obtain ⟨_, hk, heq⟩ := List.mem_map.1 (h.mem_iff.1 hn)
  rw [← labelText_injective heq]
  exact mem_range.1 hk

theorem labels_add (t : DataTable) (readOnly : Bool) (label body : String) :
    (t.add readOnly label body).labels.Perm (t.labels ++ [label]) := by
  unfold labels DataTable.add
  cases readOnly with
  | true =>
    simpa using (perm_append_singleton label (t.data.map (·.1))).symm.append_left
      (t.rodata.map (·.1))
  | false => simp

theorem Numbered.add (h : t.Numbered) (readOnly : Bool) (body : String) :
    Numbered ({ t with next := t.next + 1 }.add readOnly (labelText t.next) body) := by
  have hnext : ({ t with next := t.next + 1 }.add readOnly (labelText t.next) body).next =
      t.next + 1 := by
    cases readOnly <;> rfl
  unfold Numbered
  rw [hnext, range_succ, map_append]
  exact (labels_add _ readOnly _ body).trans (h.append_right _)

theorem Numbered.fill (h : t.Numbered) (readOnly : Bool) (line : String) :
    Numbered (fill t (Item.of t.next readOnly line)) := by
  cases hentry : dataEntry? line with
  | some e => simpa [Library.fill, Item.of, hentry] using h.add readOnly e.2
  | none =>
    have hlabels : (t.extendLast readOnly line).labels = t.labels := by
      cases readOnly <;> simp [labels, extendLast, extendEntries_eq, map_continued]
    have hnext : (t.extendLast readOnly line).next = t.next := by cases readOnly <;> rfl
    simpa [Library.fill, Item.of, hentry, Numbered, hlabels, hnext] using h

/-- Whether each string constant has a label of its own under which it is stored. -/
structure Interned (t : DataTable) : Prop where
  numbered : t.Numbered
  stored : ∀ e ∈ t.strings, (e.2, encodeString e.1) ∈ t.rodata
  texts : (t.strings.map (·.1)).Nodup
  distinct : (t.strings.map (·.2)).Nodup

/-- The table after string constants have been asked for. -/
def intern (t : DataTable) (texts : List String) : DataTable :=
  texts.foldl (fun t text => (t.string text).1) t

theorem Interned.mem_string (h : t.Interned) (text : String) :
    (t.string text).1.Interned ∧ (text, (t.string text).2) ∈ (t.string text).1.strings ∧
      t.strings ⊆ (t.string text).1.strings := by
  unfold DataTable.string
  cases hfind : t.strings.find? fun e => e.1 == text with
  | some e => exact ⟨h, mem_of_find?_key hfind, List.Subset.refl _⟩
  | none =>
    have hnew : ∀ e ∈ t.strings, e.1 ≠ text ∧ e.2 ≠ labelText t.next := by
      refine fun e he => ⟨by simpa using List.find?_eq_none.1 hfind e he, fun heq => ?_⟩
      have hlabel : e.2 ∈ t.labels := List.mem_map.2 ⟨_, mem_append_left _ (h.stored e he), rfl⟩
      exact Nat.lt_irrefl _ (h.numbered.lt (heq ▸ hlabel))
    refine ⟨⟨h.numbered.add true (encodeString text), ?_, ?_, ?_⟩, ?_, ?_⟩
    · intro e he
      rcases mem_append.1 he with he | he
      · exact mem_append_left _ (h.stored e he)
      · rw [mem_singleton.1 he]
        exact mem_append_right _ (mem_singleton_self _)
    · simpa [nextLabel, nodup_append, h.texts] using fun e he => (hnew e he).1
    · simpa [nextLabel, nodup_append, h.distinct] using fun a b he => (hnew (b, a) he).2
    · exact mem_append_right _ (mem_singleton_self _)
    · exact subset_append_left _ _

theorem Interned.intern (h : t.Interned) (texts : List String) :
    (t.intern texts).Interned ∧ t.strings ⊆ (t.intern texts).strings := by
  induction texts generalizing t with
  | nil => exact ⟨h, List.Subset.refl _⟩
  | cons text _ ih =>
    obtain ⟨hfirst, -, hkept⟩ := h.mem_string text
    obtain ⟨hrest, hkept'⟩ := ih hfirst
    exact ⟨hrest, fun _ he => hkept' (hkept he)⟩

/-- A text that has a label is the only one with it. -/
theorem Interned.string_eq_iff (h : t.Interned) {text label : String}
    (hmem : (text, label) ∈ t.strings) (other : String) :
    (t.string other).2 = label ↔ other = text := by
  obtain ⟨hstring, hother, hkept⟩ := h.mem_string other
  constructor
  · intro heq
    exact congrArg Prod.fst (inj_on_of_nodup_map hstring.distinct hother (hkept hmem) heq)
  · intro heq
    exact congrArg Prod.snd (inj_on_of_nodup_map hstring.texts hother (hkept hmem) heq)

theorem Interned.rodata_iff (h : t.Interned) {text label : String}
    (hmem : (text, label) ∈ t.strings) (e : String × String) :
    e ∈ t.rodata ∧ e.1 = label ↔ e = (label, encodeString text) := by
  have hstored := h.stored _ hmem
  constructor
  · rintro ⟨he, hlabel⟩
    exact inj_on_of_nodup_map h.numbered.nodup (mem_append_left _ he)
      (mem_append_left _ hstored) hlabel
  · rintro rfl
    exact ⟨hstored, rfl⟩

end DataTable

namespace Library

/-- The library and the table after headers have been read into empty ones. -/
def mergeAll (headers : List String) : Library × DataTable :=
  headers.foldl (fun state assembly => state.1.merge assembly state.2) ({}, {})

theorem next_fill (t : DataTable) (i : Item) :
    (fill t i).next = (if i.labels.isSome then t.next + 1 else t.next) ∧
      (fill t i).strings = t.strings := by
  unfold fill
  cases i.labels <;> cases i.readOnly <;> exact ⟨rfl, rfl⟩

theorem numbered_fill {t : DataTable} (h : t.Numbered) (ds : List (Bool × String)) :
    ((items t.next ds).foldl fill t).Numbered ∧
      ((items t.next ds).foldl fill t).strings = t.strings := by
  induction ds generalizing t with
  | nil => exact ⟨h, rfl⟩
  | cons line _ ih =>
    obtain ⟨hnext, hstrings⟩ := next_fill t (Item.of t.next line.1 line.2)
    have hrest := ih (h.fill line.1 line.2)
    rwa [hnext, hstrings] at hrest

theorem interned_mergeAll (headers : List String) : (mergeAll headers).2.Interned := by
  have hall : (mergeAll headers).2.Numbered ∧ (mergeAll headers).2.strings = [] := by
    refine List.foldlRecOn headers _ (motive := fun state : Library × DataTable =>
      state.2.Numbered ∧ state.2.strings = []) ⟨.nil, rfl⟩ ?_
    rintro state ⟨hnumbered, hstrings⟩ assembly -
    rw [table_merge]
    obtain ⟨hnumbered, hkept⟩ := numbered_fill hnumbered (dataLines assembly)
    exact ⟨hnumbered, hkept.trans hstrings⟩
  exact ⟨hall.1, by simp [hall.2], by simp [hall.2], by simp [hall.2]⟩

end Library

/-- No two entries of the data sections share a label. Whatever is asked for before and after, the
label of a string constant is from then on that of one read-only entry, which holds the encoded text,
and no other text has it. -/
theorem data_labels_identify_contents (headers texts : List String) :
    ((Library.mergeAll headers).2.intern texts).labels.Nodup ∧ ∀ text after,
      let asked := ((Library.mergeAll headers).2.intern texts).string text
      let later := asked.1.intern after
      (∀ e, e ∈ later.rodata ∧ e.1 = asked.2 ↔ e = (asked.2, encodeString text)) ∧
        ∀ other, (later.string other).2 = asked.2 ↔ other = text := by
  have htable := ((Library.interned_mergeAll headers).intern texts).1
  refine ⟨htable.numbered.nodup, fun text after => ?_⟩
  obtain ⟨hstring, hmem, -⟩ := htable.mem_string text
  obtain ⟨hlater, hkept⟩ := hstring.intern after
  exact ⟨hlater.rodata_iff (hkept hmem), hlater.string_eq_iff (hkept hmem)⟩

end ScriptCompiler.X86
