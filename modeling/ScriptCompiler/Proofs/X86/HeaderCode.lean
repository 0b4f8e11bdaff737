import Mathlib.Data.List.Forall2
import Mathlib.Data.List.Induction
import Mathlib.Data.List.Nodup
import ScriptCompiler.Proofs.X86.HeaderText

/-!
# Code of a header

Inside a method of a header, a jump to a local label goes over the bridge of that label, which is
made on first use and bound anew at each definition. So a jump lands behind the instructions that
stand before the last definition of its label, wherever the jump stands.

All other instructions are taken over with their data labels renamed.
-/

set_option autoImplicit false

namespace ScriptCompiler.X86.Library

open List

/-! ## Lines of a method -/

def instructions (body : List String) : List String := body.filter fun line => (label? line).isNone

/-- The mnemonic and the label of a jump to a local label. -/
def localJump? (line : String) : Option (String × String) :=
  let (mnemonic, rest) := (Text.cutWhere? Text.isBlank line).getD (line, "")
  let target := Text.trim rest
  if Text.startsWith "J" (upper mnemonic) && Text.startsWith "." target then
    some (upper mnemonic, target)
  else none

/-- Where a local label lies: behind the instructions before its last definition, or nowhere. -/
inductive Landing (label : String) (body : List String) : Option Nat → Prop
  | last {before after : List String} {line : String} (split : body = before ++ line :: after)
      (defined : label? line = some label) (final : ∀ other ∈ after, label? other ≠ some label) :
      Landing label body (some (instructions before).length)
  | missing (undefined : ∀ line ∈ body, label? line ≠ some label) : Landing label body none

variable {renames : Renames} {name label line mnemonic : String} {body : List String}
  {target : Option Nat} {d : Draft} {bridges : List (String × Bridge)} {b : Bridge}

namespace Landing

theorem snoc (h : Landing label body target) (hline : label? line ≠ some label) :
    Landing label (body ++ [line]) target := by
  cases h with
  | @last before after found hsplit hdefined hfinal =>
    have hsplit : body ++ [line] = before ++ found :: (after ++ [line]) := by simp [hsplit]
    exact .last hsplit hdefined (forall_mem_append.2 ⟨hfinal, forall_mem_singleton.2 hline⟩)
  | missing hundefined =>
    exact .missing (forall_mem_append.2 ⟨hundefined, forall_mem_singleton.2 hline⟩)

theorem here (hline : label? line = some label) :
    Landing label (body ++ [line]) (some (instructions body).length) :=
  .last rfl hline (by simp)

theorem le (h : Landing label body target) : ∀ k ∈ target, k ≤ (instructions body).length := by
  cases h with
  | last hsplit =>
    rintro k ⟨⟩
    rw [hsplit, instructions, instructions, filter_append, length_append]
    exact Nat.le_add_right _ _
  | missing => simp

end Landing

/-! ## Reading a method -/

namespace Draft

/-- How a line of a listing comes from an instruction, given the bridges of the local labels. -/
inductive Takes (renames : Renames) (bridges : List (String × Bridge)) : String → Line → Prop
  | jump {line mnemonic label : String} {b : Bridge}
      (jump : localJump? line = some (mnemonic, label)) (bridge : (label, b) ∈ bridges) :
      Takes renames bridges line (.jump mnemonic b)
  | kept {line : String} (other : localJump? line = none) :
      Takes renames bridges line (.raw (renameLine renames line))

/-- What is known about a method of which some lines have been read. -/
structure Reads (renames : Renames) (name : String) (body : List String) (d : Draft) : Prop where
  label : d.listing.label = name
  lines : List.Forall₂ (Takes renames d.bridges) (instructions body) d.listing.lines
  names : (d.bridges.map (·.1)).Nodup
  numbers : (d.bridges.map (·.2)).Nodup
  targets : ∀ a ∈ d.bridges, ∃ target, d.listing.bridges[a.2]? = some target ∧ Landing a.1 body target
  others : ∀ label, (∀ a ∈ d.bridges, a.1 ≠ label) → Landing label body none

theorem line_eq (d : Draft) (renames : Renames) (line : String) :
    d.line renames line = (localJump? line).elim
      { d with listing := d.listing.push (.raw (renameLine renames line)) }
      fun j => { (d.bridge j.2).1 with listing := (d.bridge j.2).1.listing.jump j.1 (d.bridge j.2).2 } := by
  unfold Draft.line localJump?
  dsimp only
  split <;> rfl

namespace Reads

theorem mem_bridge (h : d.Reads renames name body) (label : String) :
    (d.bridge label).1.Reads renames name body ∧
      (label, (d.bridge label).2) ∈ (d.bridge label).1.bridges := by
  unfold Draft.bridge
  cases hfind : d.bridges.find? fun b => b.1 == label with
  | some b => exact ⟨h, mem_of_find?_key hfind⟩
  | none =>
    have hnew : ∀ a ∈ d.bridges, a.1 ≠ label := by simpa using hfind
    refine ⟨⟨h.label, ?_, ?_, ?_, ?_, ?_⟩, mem_cons_self⟩
    · refine h.lines.imp fun _ _ htakes => ?_
      cases htakes with
      | jump hjump hmem => exact .jump hjump (mem_cons_of_mem _ hmem)
      | kept hother => exact .kept hother
    · refine nodup_cons.2 ⟨fun hmem => ?_, h.names⟩
      obtain ⟨a, ha, hlabel⟩ := List.mem_map.1 hmem
      exact hnew a ha hlabel
    · refine nodup_cons.2 ⟨fun hmem => ?_, h.numbers⟩
      obtain ⟨a, ha, hnumber⟩ := List.mem_map.1 hmem
      obtain ⟨target, htarget, -⟩ := h.targets a ha
      exact Nat.ne_of_lt (List.getElem?_eq_some_iff.1 htarget).1 hnumber
    · intro a ha
      rcases mem_cons.1 ha with rfl | ha
      · exact ⟨none, getElem?_concat_length, h.others _ hnew⟩
      · obtain ⟨target, htarget, hlanding⟩ := h.targets a ha
        refine ⟨target, ?_, hlanding⟩
        exact (getElem?_append_left (List.getElem?_eq_some_iff.1 htarget).1).trans htarget
    · exact fun other hother => h.others other fun a ha => hother a (mem_cons_of_mem _ ha)

theorem define (h : d.Reads renames name body) (hline : label? line = some label) :
    (d.define label).Reads renames name (body ++ [line]) := by
  obtain ⟨h, hmem⟩ := h.mem_bridge label
  unfold Draft.define
  dsimp only
  generalize (d.bridge label).1 = d, (d.bridge label).2 = b at h hmem
  have hbody : instructions (body ++ [line]) = instructions body := by simp [instructions, hline]
  have hsize : d.listing.size = (instructions body).length := h.lines.length_eq.symm
  refine ⟨h.label, hbody ▸ h.lines, h.names, h.numbers, ?_, ?_⟩
  · intro a ha
    obtain ⟨target, htarget, hlanding⟩ := h.targets a ha
    by_cases hlabel : a.1 = label
    · obtain rfl : a = (label, b) := inj_on_of_nodup_map h.names ha hmem hlabel
      refine ⟨some (instructions body).length, ?_, .here hline⟩
      have hbound := (List.getElem?_eq_some_iff.1 htarget).1
      simp only [Listing.patchHere, Listing.patch, hsize, getElem?_set_self hbound]
    · have hne : b ≠ a.2 := fun heq =>
        hlabel (congrArg Prod.fst (inj_on_of_nodup_map h.numbers ha hmem heq.symm))
      refine ⟨target, ?_, hlanding.snoc fun heq => hlabel ?_⟩
      · exact (getElem?_set_ne hne).trans htarget
      · exact Option.some.inj (heq.symm.trans hline)
  · intro other hother
    refine (h.others other hother).snoc fun heq => hother _ hmem ?_
    exact Option.some.inj (hline.symm.trans heq)

theorem push (h : d.Reads renames name body) (hline : label? line = none) {out : Line}
    (hout : Takes renames d.bridges line out) :
    Reads renames name (body ++ [line]) { d with listing := d.listing.push out } := by
  have hbody : instructions (body ++ [line]) = instructions body ++ [line] := by
    simp [instructions, hline]
  have hother : ∀ {label target}, Landing label body target →
      Landing label (body ++ [line]) target :=
    fun hlanding => hlanding.snoc (by rw [hline]; exact nofun)
  refine ⟨h.label, ?_, h.names, h.numbers, ?_, ?_⟩
  · rw [hbody]
    exact rel_append h.lines (.cons hout .nil)
  · intro a ha
    obtain ⟨target, htarget, hlanding⟩ := h.targets a ha
    exact ⟨target, htarget, hother hlanding⟩
  · exact fun label hlabel => hother (h.others label hlabel)

theorem take (h : d.Reads renames name body) (line : String) :
    (d.take renames line).Reads renames name (body ++ [line]) := by
  unfold Draft.take
  cases hline : label? line with
  | some => exact h.define hline
  | none =>
    dsimp only
    rw [line_eq]
    cases hjump : localJump? line with
    | none => exact h.push hline (.kept hjump)
    | some j =>
      obtain ⟨h, hmem⟩ := h.mem_bridge j.2
      exact h.push hline (.jump hjump hmem)

theorem read (renames : Renames) (name : String) (body : List String) :
    (Draft.read renames { listing := { label := name } } body).Reads renames name body := by
  induction body using List.reverseRecOn with
  | nil => exact ⟨rfl, .nil, .nil, .nil, by simp [Draft.read], fun _ _ => .missing (by simp)⟩
  | append_singleton _ line ih =>
    rw [Draft.read, foldl_append]
    exact ih.take line

end Reads

end Draft

/-! ## Labels in a line -/

/-- The quote that is open behind a character. -/
def quoteAfter : Option Char → Char → Option Char
  | none, c => if isQuote c then some c else none
  | some q, c => if c = q then none else some q

/-- The runs of label characters between the others, empty ones included, each with the quote in
which it stands. The pending run is kept backwards. -/
def tokens : Option Char → List Char → List Char → List (Option Char × List Char)
  | inside, [], token => [(inside, token.reverse)]
  | inside, c :: rest, token =>
    if isLabelChar c then tokens inside rest (c :: token)
    else (inside, token.reverse) :: tokens (quoteAfter inside c) rest []

def tokensOf (s : String) : List (Option Char × List Char) := tokens none s.toList []

def separators (s : String) : List Char := s.toList.filter fun c => !isLabelChar c

/-- Whether two texts differ only in their tokens, as `f` says. -/
structure Retokened (f : Option Char × List Char → List Char) (s s' : String) : Prop where
  separators_eq : separators s' = separators s
  tokens_eq : tokensOf s' = (tokensOf s).map fun t => (t.1, f t)

theorem tokens_append {word : List Char} (hword : ∀ c ∈ word, isLabelChar c) (inside : Option Char)
    (rest token : List Char) :
    tokens inside (word ++ rest) token = tokens inside rest (word.reverse ++ token) := by
  induction word generalizing token with
  | nil => rfl
  | cons c _ ih =>
    rw [cons_append, tokens, if_pos (hword c mem_cons_self),
      ih fun c hc => hword c (mem_cons_of_mem _ hc)]
    simp

/-- Whether all fresh labels are made of label characters. -/
def Spelled (renames : Renames) : Prop := ∀ r ∈ renames, ∀ c ∈ r.2.toList, isLabelChar c

theorem Spelled.isLabelChar_rename (h : Spelled renames) {token : List Char}
    (htoken : ∀ c ∈ token, isLabelChar c) : ∀ c ∈ rename renames token, isLabelChar c := by
  unfold rename
  split
  · rename_i r hr
    exact h r (mem_of_find?_eq_some hr)
  · exact htoken

theorem Spelled.tokens_renameChars (h : Spelled renames) (inside : Option Char)
    (cs token : List Char) (htoken : ∀ c ∈ token, isLabelChar c) :
    tokens inside (renameChars renames cs token) [] =
        (tokens inside cs token).map (fun t => (t.1, rename renames t.2)) ∧
      (renameChars renames cs token).filter (fun c => !isLabelChar c) =
        cs.filter fun c => !isLabelChar c := by
  induction cs generalizing inside token with
  | nil =>
    have hword := h.isLabelChar_rename fun c hc => htoken c (mem_reverse.1 hc)
    refine ⟨?_, filter_eq_nil_iff.2 fun c hc => by simp [hword c hc]⟩
    rw [renameChars, ← append_nil (rename renames _), tokens_append hword]
    simp [tokens]
  | cons c _ ih =>
    by_cases hc : isLabelChar c
    · have htoken : ∀ a ∈ c :: token, isLabelChar a := by simpa [hc] using htoken
      simpa [renameChars, tokens, hc] using ih inside _ htoken
    · have hword := h.isLabelChar_rename fun c hc => htoken c (mem_reverse.1 hc)
      have hnone : (rename renames token.reverse).filter (fun c => !isLabelChar c) = [] :=
        filter_eq_nil_iff.2 fun c hc => by simp [hword c hc]
      obtain ⟨htokens, hseparators⟩ := ih (quoteAfter inside c) [] (by simp)
      simp [renameChars, hc, tokens, tokens_append hword, htokens, hseparators, hnone]

theorem Spelled.retokened (h : Spelled renames) (line : String) :
    Retokened (fun t => rename renames t.2) line (renameLine renames line) := by
  unfold renameLine
  split
  · rename_i hempty
    have hrename : ∀ token, rename renames token = token := by
      simp [rename, List.isEmpty_iff.1 hempty]
    exact ⟨rfl, by simp [hrename]⟩
  · obtain ⟨htokens, hseparators⟩ := h.tokens_renameChars none line.toList [] (by simp)
    exact ⟨by simpa [separators] using hseparators, by simpa [tokensOf] using htokens⟩

theorem isLabelChar_digit : ∀ d < 16, isLabelChar (Nat.digitChar d).toUpper := by decide

theorem isLabelChar_hex (n : Nat) : ∀ c ∈ (Nat.toDigits 16 n).map Char.toUpper, isLabelChar c := by
  induction n using Nat.strongRecOn with
  | ind n ih =>
    by_cases hn : n < 16
    · simpa [Nat.toDigits_of_lt_base hn] using isLabelChar_digit n hn
    · rw [Nat.toDigits_of_base_le (by omega) (by omega), map_append]
      intro c hc
      rcases mem_append.1 hc with hc | hc
      · exact ih (n / 16) (by omega) c hc
      · rw [mem_singleton.1 hc]
        exact isLabelChar_digit (n % 16) (by omega)

theorem isLabelChar_labelText (n : Nat) : ∀ c ∈ (DataTable.labelText n).toList, isLabelChar c := by
  have hlead : "rod_".toList.all isLabelChar = true := by decide
  rw [DataTable.labelText, String.toList_append, Text.hexUpper]
  intro c hc
  rcases mem_append.1 hc with hc | hc
  · exact List.all_eq_true.1 hlead c hc
  · rw [String.toList_ofList, Text.hexDigits, map_append, map_replicate] at hc
    rcases mem_append.1 hc with hc | hc
    · rw [eq_of_mem_replicate hc]
      decide
    · exact isLabelChar_hex n c hc

theorem exists_labelText {n : Nat} {ds : List (Bool × String)} {i : Item} (h : i ∈ items n ds) :
    ∀ p ∈ i.labels, ∃ k, p.2 = DataTable.labelText k := by
  induction ds generalizing n with
  | nil => cases h
  | cons line _ ih =>
    rcases mem_cons.1 h with rfl | h
    · intro p hp
      unfold Item.of at hp
      cases hentry : dataEntry? line.2 <;> simp [hentry] at hp
      exact ⟨n, by rw [← hp]⟩
    · exact ih h

theorem spelled_itemsOf (assembly : String) (table : DataTable) :
    Spelled (renamesOf (itemsOf assembly table)) := by
  intro r hr
  obtain ⟨_, hi, hlabels⟩ := mem_filterMap.1 (mem_reverse.1 hr)
  obtain ⟨k, hk⟩ := exists_labelText hi r hlabels
  rw [hk]
  exact isLabelChar_labelText k

/-! ## Methods -/

/-- Renames the labels that stand outside quotes. -/
def renameOutside (renames : Renames) (t : Option Char × List Char) : List Char :=
  if t.1 = none ∧ t.2 ≠ [] then rename renames t.2 else t.2

/-- How a line of a listing comes from an instruction of a method. -/
inductive Taken (renames : Renames) (body : List String) (m : Listing) : String → Line → Prop
  | jump {line mnemonic label : String} {b : Bridge} {target : Option Nat}
      (jump : localJump? line = some (mnemonic, label)) (landing : Landing label body target)
      (present : ∀ k ∈ target, k < m.size)
      (text : m.lineText (.jump mnemonic b) =
        Text.padRight 8 mnemonic ++ target.elim ".Lunpatched" lineLabel) :
      Taken renames body m line (.jump mnemonic b)
  | kept {line : String} (other : localJump? line = none)
      (renamed : Retokened (fun t => rename renames t.2) line (renameLine renames line))
      (outside : Retokened (renameOutside renames) line (renameLine renames line) ↔
        ∀ t ∈ tokensOf line, t.1 ≠ none ∨ t.2 = [] → rename renames t.2 = t.2) :
      Taken renames body m line (.raw (renameLine renames line))

theorem Retokened.outside_iff {line text : String}
    (h : Retokened (fun t => rename renames t.2) line text) :
    Retokened (renameOutside renames) line text ↔
      ∀ t ∈ tokensOf line, t.1 ≠ none ∨ t.2 = [] → rename renames t.2 = t.2 := by
  have hiff : Retokened (renameOutside renames) line text ↔
      ∀ t ∈ tokensOf line, rename renames t.2 = renameOutside renames t := by
    constructor
    · intro houtside t ht
      have heq := h.tokens_eq.symm.trans houtside.tokens_eq
      exact congrArg Prod.snd (map_inj_left.1 heq t ht)
    · intro heq
      refine ⟨h.separators_eq, h.tokens_eq.trans (map_congr_left fun t ht => ?_)⟩
      rw [heq t ht]
  rw [hiff]
  refine forall₂_congr fun t _ => ?_
  unfold renameOutside
  split
  · rename_i href
    simp [href.1, href.2]
  · rename_i hother
    exact ⟨fun heq _ => heq, fun heq => heq (by tauto)⟩

/-- A bridge that is bound no later than the last line lands on a line after sealing. -/
theorem lt_size_sealed {m : Listing} {k : Nat} (hbound : some k ∈ m.bridges)
    (hk : k ≤ m.size) : k < m.sealed.size := by
  unfold Listing.sealed
  split
  · simpa [Listing.op, Listing.push, Listing.size, Nat.lt_succ_iff] using hk
  · rename_i hother
    refine Nat.lt_of_le_of_ne hk fun heq => hother ?_
    rw [← heq]
    exact contains_iff_mem.2 hbound

theorem Draft.Reads.taken (h : d.Reads renames name body) (hrenames : Spelled renames) :
    ∃ taken closing, d.listing.sealed.lines = taken ++ closing ∧
      (closing = [] ∨ closing = [.instruction "NOP" []]) ∧
      List.Forall₂ (Taken renames body d.listing.sealed) (instructions body) taken := by
  obtain ⟨closing, hsealed, hclosing⟩ := d.listing.sealed_eq
  refine ⟨d.listing.lines, closing, by rw [hsealed]; rfl, hclosing, h.lines.imp ?_⟩
  intro line _ htakes
  cases htakes with
  | kept hother =>
    have hrenamed := hrenames.retokened line
    exact .kept hother hrenamed hrenamed.outside_iff
  | jump hjump hmem =>
    obtain ⟨target, htarget, hlanding⟩ := h.targets _ hmem
    refine .jump hjump hlanding ?_ ?_
    · intro k hk
      rw [Option.mem_def.1 hk] at htarget
      refine lt_size_sealed (mem_of_getElem? htarget) ?_
      rw [Listing.size, ← h.lines.length_eq]
      exact hlanding.le k hk
    · rw [hsealed, Listing.lineText, Listing.targetLabel, Listing.extended]
      cases target <;> simp [htarget]

theorem label_listingOf (renames : Renames) (body : String × List String) :
    (listingOf renames body).label = body.1 := by
  obtain ⟨_, hsealed, -⟩ := Listing.sealed_eq (Draft.listing _)
  exact (congrArg Listing.label hsealed).trans (Draft.Reads.read renames body.1 body.2).label

/-- Every method of a header becomes a listing, instruction by instruction. A jump to a local label
goes to the line that follows the instructions before the last definition of that label, and this line
exists; if the method does not define the label, the jump has no target. Every other instruction is
kept with its data labels renamed. Tokens inside quotes are renamed too, so it is kept up to the
labels outside quotes only where this changes nothing. -/
theorem local_labels_keep_targets (l : Library) (assembly : String) (table : DataTable) :
    ∃ listings : List Listing, (l.merge assembly table).1.methods = l.methods ++ listings ∧
      List.Forall₂ (fun (body : String × List String) (m : Listing) =>
        m.label = body.1 ∧ ∃ taken closing, m.lines = taken ++ closing ∧
          (closing = [] ∨ closing = [.instruction "NOP" []]) ∧
          List.Forall₂ (Taken (renamesOf (itemsOf assembly table)) body.2 m)
            (instructions body.2) taken)
        (bodies (codeLines assembly)) listings := by
  refine ⟨_, methods_merge l assembly table, ?_⟩
  rw [List.forall₂_map_right_iff, List.forall₂_same]
  intro body _
  exact ⟨label_listingOf _ body, (Draft.Reads.read _ _ _).taken (spelled_itemsOf assembly table)⟩

/-- A header with a label that is also a letter in quotes. -/
def Sample.question : String := "section .data\nn: db 0\nsection .text\nf:\ncmp al, 'n'\n"

/-- A quoted letter is renamed like a label. -/
theorem quoted_letter_renamed : ∃ m : Listing, (merge {} Sample.question {}).1.methods = [m] ∧
      .raw "cmp al, 'rod_00000000'" ∈ m.lines ∧
      ¬ Retokened (renameOutside (renamesOf (itemsOf Sample.question {}))) "cmp al, 'n'"
        "cmp al, 'rod_00000000'" := by
  have hlines : lines Sample.question =
      ["section .data", "n: db 0", "section .text", "f:", "cmp al, 'n'"] := by decide +kernel
  have hbodies : bodies (codeLines Sample.question) = [("f", ["cmp al, 'n'"])] := by
    rw [codeLines, hlines]
    decide +kernel
  have hrenames : renamesOf (itemsOf Sample.question {}) = [("n", "rod_00000000")] := by
    rw [itemsOf, dataLines, hlines]
    decide +kernel
  have hkept : instructions ["cmp al, 'n'"] = ["cmp al, 'n'"] ∧
      renameLine [("n", "rod_00000000")] "cmp al, 'n'" = "cmp al, 'rod_00000000'" ∧
      (some '\x27', ['n']) ∈ tokensOf "cmp al, 'n'" ∧
      localJump? "cmp al, 'n'" = none := by decide +kernel
  obtain ⟨hbody, htext, htoken, hother⟩ := hkept
  obtain ⟨_, hlistings, hall⟩ := local_labels_keep_targets {} Sample.question {}
  rw [hbodies, hrenames] at hall
  obtain ⟨m, _, ⟨-, _, _, hm, -, htaken⟩, hrest, rfl⟩ :=
    List.forall₂_cons_left_iff.1 hall
  rw [hbody] at htaken
  obtain ⟨_, _, hout, -, rfl⟩ := List.forall₂_cons_left_iff.1 htaken
  cases hrest
  cases hout with
  | jump hjump => cases hother.symm.trans hjump
  | kept _ _ houtside =>
    rw [htext] at hm houtside
    refine ⟨m, hlistings, by simp [hm], fun h => ?_⟩
    rw [hrenames] at h
    exact absurd (houtside.1 h _ htoken (.inl nofun)) (by decide +kernel)

end ScriptCompiler.X86.Library
