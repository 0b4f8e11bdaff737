import ScriptCompiler.Proofs.AcceptedConditionals
import ScriptCompiler.Proofs.IndexArithmetic
import ScriptCompiler.Proofs.X86.PendingValues

/-!
# Where jumps land

A jump goes over a bridge that is made without a target. The bridge of a conditional is bound at the
`otherwise` or the `endBranch` that ends its part, that of a jump when all code is compiled. At any
time the bridges without a target are those of the open conditionals and of the jumps passed so far,
each of them once (`Open`).
-/

set_option autoImplicit false

namespace ScriptCompiler

open List Option

/-! ## Labels -/

namespace Text

/-- The number that upper-case hexadecimal digits stand for. -/
def hexValue (digits : List Char) : Nat :=
  digits.foldl (fun n digit => 16 * n + "0123456789ABCDEF".toList.idxOf digit) 0

theorem idxOf_digitChar : ∀ d < 16,
    "0123456789ABCDEF".toList.idxOf (Nat.digitChar d).toUpper = d := by
  decide

theorem hexValue_toDigits (n : Nat) : hexValue ((Nat.toDigits 16 n).map Char.toUpper) = n := by
  induction n using Nat.strongRecOn with
  | ind n ih =>
    by_cases hn : n < 16
    · rw [Nat.toDigits_of_lt_base hn, map_singleton, hexValue, foldl_cons, foldl_nil,
        idxOf_digitChar n hn, Nat.mul_zero, Nat.zero_add]
    · have hrest := ih (n / 16) (by omega)
      have hlast := idxOf_digitChar (n % 16) (by omega)
      rw [Nat.toDigits_of_base_le (by omega) (by omega), map_append, hexValue,
        foldl_append, ← hexValue, hrest, map_singleton, foldl_cons, foldl_nil,
        hlast]
      omega

theorem hexValue_zeros (k : Nat) (digits : List Char) :
    hexValue (List.replicate k '0' ++ digits) = hexValue digits := by
  induction k with
  | zero => rfl
  | succ _ ih => exact ih

theorem hexUpper_injective (width : Nat) : Function.Injective (hexUpper width) := by
  intro n _ h
  have hvalue : ∀ n, hexValue (hexUpper width n).toList = n := by
    intro n
    rw [hexUpper, String.toList_ofList, hexDigits, map_append, map_replicate,
      show Char.toUpper '0' = '0' from rfl, hexValue_zeros, hexValue_toDigits]
  rw [← hvalue n, h, hvalue]

end Text

theorem X86.lineLabel_injective : Function.Injective X86.lineLabel := by
  intro _ _ h
  have h := congrArg String.toList h
  rw [lineLabel, lineLabel, String.toList_append, String.toList_append] at h
  exact Text.hexUpper_injective 4 (String.toList_injective (append_cancel_left h))

/-! ## Ends of parts -/

/-- Code that closes more than it opens has a first instruction that does so, or that divides what
was open before. -/
theorem exists_end_of_balance {code : Code} {n d d' : Nat}
    (h : balance code (n + d + 1) = some d') (hd : d' ≤ d) :
    ∃ (b : Code) (j : Instruction) (e : Code),
      code = b ++ j :: e ∧ balance b n = some 0 ∧
      (j.opcode = .otherwise ∨ j.opcode = .endBranch) := by
  induction code generalizing n with
  | nil =>
    have hd' : n + d + 1 = d' := some.inj h
    omega
  | cons i rest ih =>
    rw [balance_cons] at h
    -- An instruction behind which `n₁` conditionals are open above the others is not the end.
    have hpass : ∀ n₁, i.opcode.balance n = some n₁ → balance rest (n₁ + d + 1) = some d' →
        ∃ (b : Code) (j : Instruction) (e : Code),
          i :: rest = b ++ j :: e ∧ balance b n = some 0 ∧
          (j.opcode = .otherwise ∨ j.opcode = .endBranch) := by
      intro n₁ hn hrest
      obtain ⟨b, j, e, rfl, hb, hj⟩ := ih hrest
      refine ⟨i :: b, j, e, rfl, ?_, hj⟩
      rw [balance_cons, hn, bind_some, hb]
    cases hop : i.opcode with
    | branch =>
      rw [hop] at h hpass
      refine hpass (n + 1) rfl ?_
      rw [show n + 1 + d + 1 = n + d + 1 + 1 by omega]
      exact h
    | otherwise =>
      rw [hop] at h hpass
      cases n with
      | zero => exact ⟨[], i, rest, rfl, rfl, .inl hop⟩
      | succ n => exact hpass (n + 1) rfl h
    | endBranch =>
      rw [hop] at h hpass
      cases n with
      | zero => exact ⟨[], i, rest, rfl, rfl, .inr hop⟩
      | succ n =>
        refine hpass n rfl ?_
        rw [show n + 1 + d + 1 = n + d + 1 + 1 by omega] at h
        exact h
    | _ =>
      rw [hop] at h hpass
      exact hpass n rfl h

/-- In balanced code, every part of a conditional has an end. -/
theorem Balanced.exists_end {a rest : Code} {i : Instruction}
    (h : Balanced (a ++ i :: rest)) (hop : i.opcode = .branch ∨ i.opcode = .otherwise) :
    ∃ (b : Code) (j : Instruction) (e : Code),
      rest = b ++ j :: e ∧ Balanced b ∧ (j.opcode = .otherwise ∨ j.opcode = .endBranch) := by
  rw [Balanced, balance_append] at h
  obtain ⟨d, -, h⟩ := bind_eq_some_iff.1 h
  rw [balance_cons] at h
  obtain ⟨d₁, hd₁, h⟩ := bind_eq_some_iff.1 h
  obtain ⟨k, rfl⟩ : ∃ k, d₁ = k + 1 := by
    rcases hop with hop | hop
    · rw [hop] at hd₁
      exact ⟨d, (some.inj hd₁).symm⟩
    · rw [hop] at hd₁
      cases d with
      | zero => cases hd₁
      | succ d => exact ⟨d, (some.inj hd₁).symm⟩
  refine exists_end_of_balance (d := k) ?_ (Nat.zero_le _)
  rw [Nat.zero_add]
  exact h

namespace X86

/-! ## Bridges without a target -/

/-- Whether just the bridges in `pending` have no target, each of them listed once. -/
structure Open (bridges : List (Option Nat)) (pending : List Bridge) : Prop where
  nodup : pending.Nodup
  mem_iff : ∀ b, b ∈ pending ↔ bridges[b]? = some none

/-- Whether bound bridges keep their targets. -/
def Lasting (bridges bridges' : List (Option Nat)) : Prop :=
  ∀ b target : Nat, bridges[b]? = some (some target) → bridges'[b]? = some (some target)

section

variable {bridges : List (Option Nat)} {pending pending' : List Bridge} {b : Bridge}

theorem Open.perm (h : Open bridges pending) (hperm : pending.Perm pending') :
    Open bridges pending' :=
  ⟨hperm.nodup_iff.1 h.nodup, fun b => hperm.mem_iff.symm.trans (h.mem_iff b)⟩

theorem Open.made (h : Open bridges pending) :
    Open (bridges ++ [none]) (bridges.length :: pending) := by
  have hnew : bridges.length ∉ pending := by
    rw [h.mem_iff, getElem?_eq_none (Nat.le_refl _)]
    simp
  refine ⟨nodup_cons.2 ⟨hnew, h.nodup⟩, ?_⟩
  intro b
  rw [mem_cons, h.mem_iff]
  rcases Nat.lt_trichotomy b bridges.length with hb | hb | hb
  · rw [getElem?_append_left hb]
    simp [Nat.ne_of_lt hb]
  · simp [hb]
  · rw [getElem?_eq_none (Nat.le_of_lt hb), getElem?_eq_none]
    · simp [Nat.ne_of_gt hb]
    · rw [length_append]
      exact hb

theorem Open.bound (h : Open bridges (b :: pending)) (target : Nat) :
    Open (bridges.set b (some target)) pending := by
  obtain ⟨hb, hnodup⟩ := nodup_cons.1 h.nodup
  refine ⟨hnodup, ?_⟩
  intro b'
  by_cases hne : b = b'
  · subst hne
    have hlt := (List.getElem?_eq_some_iff.1 ((h.mem_iff b).1 mem_cons_self)).1
    rw [getElem?_set_self hlt]
    simp [hb]
  · rw [getElem?_set_ne hne, ← h.mem_iff, mem_cons]
    simp [Ne.symm hne]

theorem Lasting.made (bridges : List (Option Nat)) : Lasting bridges (bridges ++ [none]) := by
  intro _ _ hb
  rw [getElem?_append_left (List.getElem?_eq_some_iff.1 hb).1, hb]

theorem Open.lasting (h : Open bridges (b :: pending)) (target : Nat) :
    Lasting bridges (bridges.set b (some target)) := by
  intro b' _ hb'
  have hne : b ≠ b' := by
    rintro rfl
    have hnone := (h.mem_iff b).1 mem_cons_self
    rw [hnone] at hb'
    cases hb'
  rw [getElem?_set_ne hne, hb']

theorem Lasting.trans {first second third : List (Option Nat)} (h : Lasting first second)
    (h' : Lasting second third) : Lasting first third :=
  fun b target hb => h' b target (h b target hb)

theorem Open.getElem?_set (h : Open bridges (b :: pending)) (target : Nat) :
    (bridges.set b (some target))[b]? = some (some target) :=
  getElem?_set_self (List.getElem?_eq_some_iff.1 ((h.mem_iff b).1 mem_cons_self)).1

end

/-- The bridges of open conditionals and of jumps. -/
def Control.pending (x : Control) : List Bridge := x.conditionals ++ x.jumps.map Prod.fst

/-- Whether the bridges without a target are those of open conditionals and of jumps. -/
def Control.Linked (x : Control) : Prop := Open x.listing.bridges x.pending

section

variable {index : Nat} {i : Instruction} {lines : List Line} {x y : Control}

section

variable (h : Arranges index i lines x y)
include h

theorem Arranges.linked (hx : x.Linked) : y.Linked ∧ Lasting x.listing.bridges y.listing.bridges ∧
      ∃ more, y.jumps = x.jumps ++ more := by
  cases h with
  | plain => exact ⟨hx, fun _ _ hb => hb, [], (append_nil _).symm⟩
  | forced | tested => exact ⟨hx.made, .made _, [], (append_nil _).symm⟩
  | @divided l skip cs js =>
    have hopen : Open (l.bridges ++ [none]) (skip :: l.bridges.length :: (cs ++ js.map Prod.fst)) :=
      hx.made.perm (.swap ..)
    exact ⟨hopen.bound _, (Lasting.made _).trans (hopen.lasting _), [], (append_nil _).symm⟩
  | closed => exact ⟨hx.bound _, hx.lasting _, [], (append_nil _).symm⟩
  | @jumped l cs js offset =>
    refine ⟨hx.made.perm ?_, .made _, _, rfl⟩
    simp only [Control.pending, map_append, map_singleton, ← append_assoc]
    exact (perm_append_singleton _ _).symm

/-- The end of a part has the jump over the other part as its line, or none, and binds the bridge of
its conditional to the line that comes next. -/
theorem Arranges.ends (hop : i.opcode = .otherwise ∨ i.opcode = .endBranch) (hx : x.Linked) :
    y.listing.size = x.listing.size + (if i.opcode = .otherwise then 1 else 0) ∧
      ∀ b cs, x.conditionals = b :: cs → y.listing.bridges[b]? = some (some y.listing.size) := by
  cases h with
  | plain hother | forced hother | tested hother | jumped hother =>
    rcases hop with hop | hop <;> rw [hop] at hother <;> cases hother
  | @divided l skip cs js hother =>
    have hopen : Open (l.bridges ++ [none]) (skip :: l.bridges.length :: (cs ++ js.map Prod.fst)) :=
      hx.made.perm (.swap ..)
    refine ⟨?_, ?_⟩
    · rw [if_pos hother]
      exact length_append
    · intro b cs' hcs
      obtain ⟨rfl, -⟩ := List.cons.inj hcs
      exact hopen.getElem?_set _
  | closed hother =>
    refine ⟨?_, ?_⟩
    · rw [hother]
      rfl
    · intro b cs' hcs
      obtain ⟨rfl, -⟩ := List.cons.inj hcs
      exact Open.getElem?_set hx _

/-- A conditional keeps a new bridge; it adds a jump over it behind its other lines, or no line. -/
theorem Arranges.opens (hop : i.opcode = .branch) :
    y.conditionals = x.listing.bridges.length :: x.conditionals ∧
      ((∃ number, i.branch? = some (.branch .forced number)) ∧ y.listing.size = x.listing.size ∨
        (∃ cond number, i.branch? = some (.branch cond number) ∧ cond ≠ .forced) ∧
          ∃ mnemonic line, mnemonic ≠ "JMP" ∧ y.listing.size = line + 1 ∧ x.listing.size ≤ line ∧
            y.listing.lines[line]? = some (.jump mnemonic x.listing.bridges.length)) := by
  cases h with
  | plain hother | divided hother | closed hother | jumped hother =>
    rw [hop] at hother
    cases hother
  | @forced _ _ _ number _ hbranch => exact ⟨rfl, .inl ⟨⟨number, hbranch⟩, rfl⟩⟩
  | @tested l _ _ cond number mnemonic _ hbranch hforced hjump =>
    refine ⟨rfl, .inr ⟨⟨cond, number, hbranch, hforced⟩, mnemonic,
      (l.newBridge.1.extended lines).size, hjump, length_append, ?_, ?_⟩⟩
    · exact (length_append ▸ Nat.le_add_right _ _ : l.lines.length ≤ (l.lines ++ lines).length)
    · exact getElem?_concat_length

/-- An `otherwise` keeps a new bridge in the place of that of its conditional and jumps over it. -/
theorem Arranges.divides (hop : i.opcode = .otherwise) :
    (∃ skip cs, x.conditionals = skip :: cs ∧ y.conditionals = x.listing.bridges.length :: cs) ∧
      y.listing.lines[x.listing.size]? = some (.jump "JMP" x.listing.bridges.length) := by
  cases h with
  | plain hother | forced hother | tested hother | closed hother | jumped hother =>
    rw [hop] at hother
    cases hother
  | divided => exact ⟨⟨_, _, rfl, rfl⟩, getElem?_concat_length⟩

/-- Code does not touch the bridges of conditionals that were open before. -/
theorem Arranges.conditionals {above below : List Bridge} {d : Nat}
    (hx : x.conditionals = above ++ below) (hd : i.opcode.balance above.length = some d) :
    ∃ above', y.conditionals = above' ++ below ∧ above'.length = d := by
  cases h with
  | plain hop =>
    rw [balance_of_bridgeless hop] at hd
    exact ⟨above, hx, some.inj hd⟩
  | @forced l _ _ _ hop | @tested l _ _ _ _ _ hop =>
    rw [hop] at hd
    exact ⟨l.bridges.length :: above, congrArg (l.bridges.length :: ·) hx, some.inj hd⟩
  | jumped hop =>
    rw [hop] at hd
    exact ⟨above, hx, some.inj hd⟩
  | @divided l _ _ _ hop =>
    rw [hop] at hd
    cases above with
    | nil => cases hd
    | cons _ above =>
      exact ⟨l.bridges.length :: above, congrArg (l.bridges.length :: ·) (List.cons.inj hx).2,
        some.inj hd⟩
  | closed hop =>
    rw [hop] at hd
    cases above with
    | nil => cases hd
    | cons _ above => exact ⟨above, (List.cons.inj hx).2, some.inj hd⟩

end

/-- Whether all jumps of a listing go over bridges of the listing. -/
def Listing.Bridged (l : Listing) : Prop :=
  ∀ mnemonic b, Line.jump mnemonic b ∈ l.lines → b < l.bridges.length

theorem Listing.Bridged.mono {l l' : Listing} {more : List Line} (h : l.Bridged)
    (hlines : l'.lines = l.lines ++ more) (hlen : l.bridges.length ≤ l'.bridges.length)
    (hmore : ∀ mnemonic b, Line.jump mnemonic b ∈ more → b < l'.bridges.length) : l'.Bridged := by
  intro mnemonic b hb
  rw [hlines] at hb
  rcases mem_append.1 hb with hb | hb
  · exact Nat.lt_of_lt_of_le (h mnemonic b hb) hlen
  · exact hmore mnemonic b hb

theorem Straight.not_jump (h : Straight lines) {mnemonic : String} {b : Bridge} :
    Line.jump mnemonic b ∉ lines := by
  intro hb
  cases h _ hb

theorem Arranges.bridged (h : Arranges index i lines x y) (hlines : Straight lines)
    (hx : x.listing.Bridged) : y.listing.Bridged := by
  have hmade : ∀ bridges : List (Option Nat), (bridges ++ [none]).length = bridges.length + 1 :=
    fun _ => length_append
  -- The bridge of a new jump is the one made last.
  have hnew : ∀ {n : Nat} {mnemonic' : String} (mnemonic : String) (b : Bridge),
      Line.jump mnemonic b ∈ [Line.jump mnemonic' n] → b < n + 1 := by
    intro n mnemonic' mnemonic b hb
    cases mem_singleton.1 hb
    exact Nat.lt_succ_self n
  cases h with
  | plain => exact hx.mono rfl (Nat.le_refl _) fun _ _ hb => absurd hb hlines.not_jump
  | @forced l => exact hx.mono (append_nil _).symm (hmade l.bridges ▸ Nat.le_succ _) (by simp)
  | @tested l =>
    refine hx.mono (append_assoc ..) (hmade l.bridges ▸ Nat.le_succ _) ?_
    intro mnemonic b hb
    rcases mem_append.1 hb with hb | hb
    · exact absurd hb hlines.not_jump
    · exact hmade l.bridges ▸ hnew mnemonic b hb
  | @divided l skip =>
    have hlen : ((l.newBridge.1.jump "JMP" l.bridges.length).patchHere skip).bridges.length =
        l.bridges.length + 1 := length_set.trans (hmade l.bridges)
    exact hx.mono rfl (hlen ▸ Nat.le_succ _) fun mnemonic b hb => hlen ▸ hnew mnemonic b hb
  | @closed l skip =>
    have hlen : (l.patchHere skip).bridges.length = l.bridges.length := length_set
    intro mnemonic b hb
    exact hlen ▸ hx mnemonic b hb
  | @jumped l =>
    exact hx.mono rfl (hmade l.bridges ▸ Nat.le_succ _)
      fun mnemonic b hb => hmade l.bridges ▸ hnew mnemonic b hb

end

/-! ## Jumps of code -/

/-- The number of the instruction to which the one at `index` jumps. -/
def destination? (index : Nat) (i : Instruction) : Option Int :=
  if i.opcode = .jump then i.jumpOffset.toOption.map ((index : Int) + ·) else none

/-- The numbers of the instructions to which code from `index` on jumps, in order. -/
def destinations : Nat → Code → List Int
  | _, [] => []
  | index, i :: rest => (destination? index i).toList ++ destinations (index + 1) rest

/-- Whether there is no instruction `target` in code of `length` instructions, nor an end there. -/
def strays (length : Nat) (target : Int) : Bool := !decide (0 ≤ target ∧ target ≤ length)

section

variable {c : Context} {code : Code} {index : Nat} {i : Instruction} {s s₁ s' : State}

theorem jump_ok (hop : i.opcode = .jump) (h : step c index i s = .ok s₁) :
    ∃ offset, i.jumpOffset = .ok offset ∧ Integer.fits 64 (index + offset) = true ∧
      s₁.listing = s.listing.newBridge.1.jump "JMP" s.listing.bridges.length ∧
      s₁.jumps = s.jumps ++ [(s.listing.bridges.length, index + offset)] := by
  rw [step, hop] at h
  obtain ⟨offset, _, hoffset, htarget, h⟩ := of_bind₂ h
  obtain ⟨rfl, hfits⟩ := inWord_ok htarget
  cases h
  exact ⟨offset, reading_ok hoffset, hfits, rfl, rfl⟩

/-- The numbers of the instructions to which compiled code jumps are words of 64 bits. -/
theorem fits_of_mem_destinations (h : walk c index code s = .ok s') {target : Int}
    (ht : target ∈ destinations index code) : Integer.fits 64 target = true := by
  induction code generalizing index s with
  | nil => cases ht
  | cons _ _ ih =>
    obtain ⟨_, hstep, h⟩ := of_bind h
    rcases mem_append.1 ht with ht | ht
    · rw [mem_toList, destination?, ite_none_right_eq_some] at ht
      obtain ⟨_, hoffset, hfits, -⟩ := jump_ok ht.1 hstep
      rw [hoffset] at ht
      obtain rfl := some.inj ht.2
      exact hfits
    · exact ih h ht

section

variable (ha : Apart s.frame s.stack)
include ha

theorem step_jumps (h : step c index i s = .ok s₁) :
    s₁.jumps.map Prod.snd = s.jumps.map Prod.snd ++ (destination? index i).toList := by
  by_cases hop : i.opcode = .jump
  · obtain ⟨_, hoffset, -, -, hjumps⟩ := jump_ok hop h
    rw [hjumps, destination?, if_pos hop, hoffset, map_append]
    rfl
  · obtain ⟨_, -, -, harranges⟩ := step_ok ha (Nat.zero_le _) h
    rw [destination?, if_neg hop]
    generalize hafter : s₁.control = after at harranges
    generalize hbefore : s.control = before at harranges
    rw [show s₁.jumps = after.jumps from congrArg Control.jumps hafter,
      show s.jumps = before.jumps from congrArg Control.jumps hbefore]
    cases harranges with
    | jumped hjump => exact absurd hjump hop
    | plain | forced | tested | divided | closed => exact (append_nil _).symm

theorem walk_jumps (h : walk c index code s = .ok s') :
    s'.jumps.map Prod.snd = s.jumps.map Prod.snd ++ destinations index code := by
  induction code generalizing index s with
  | nil =>
    cases h
    exact (append_nil _).symm
  | cons _ _ ih =>
    obtain ⟨_, hstep, h⟩ := of_bind h
    rw [ih (step_apart (s := s.mark) ha hstep) h, step_jumps (s := s.mark) ha hstep, destinations,
      append_assoc]
    rfl

/-- Code keeps bridges linked, bound ones as they are, and adds jumps. -/
theorem walk_linked (hs : s.control.Linked) (h : walk c index code s = .ok s') :
    s'.control.Linked ∧ Lasting s.listing.bridges s'.listing.bridges ∧
      ∃ more, s'.jumps = s.jumps ++ more := by
  induction code generalizing index s with
  | nil =>
    cases h
    exact ⟨hs, fun _ _ hb => hb, [], (append_nil _).symm⟩
  | cons _ _ ih =>
    obtain ⟨s₁, _, -, -, harranges, ha₁, h⟩ := walk_cons_ok ha h
    obtain ⟨hlinked, hlasting, more, hmore⟩ := harranges.linked hs
    obtain ⟨hlinked', hlasting', more', hmore'⟩ := ih ha₁ hlinked h
    refine ⟨hlinked', hlasting.trans hlasting', more ++ more', ?_⟩
    rw [hmore', show s₁.jumps = _ from hmore, append_assoc]
    rfl

theorem walk_bridged (hs : s.listing.Bridged) (h : walk c index code s = .ok s') :
    s'.listing.Bridged := by
  induction code generalizing index s with
  | nil =>
    cases h
    exact hs
  | cons _ _ ih =>
    obtain ⟨_, _, hacts, -, harranges, ha₁, h⟩ := walk_cons_ok ha h
    exact ih ha₁ (harranges.bridged hacts.straight hs) h

theorem walk_conditionals {above below : List Bridge} {d : Nat}
    (hs : s.conditionals = above ++ below) (hd : balance code above.length = some d)
    (h : walk c index code s = .ok s') :
    ∃ above', s'.conditionals = above' ++ below ∧ above'.length = d := by
  induction code generalizing index s above with
  | nil =>
    cases h
    exact ⟨above, hs, some.inj hd⟩
  | cons _ _ ih =>
    obtain ⟨_, _, -, -, harranges, ha₁, h⟩ := walk_cons_ok ha h
    rw [balance_cons] at hd
    obtain ⟨_, hfirst, hd⟩ := bind_eq_some_iff.1 hd
    obtain ⟨above', habove, rfl⟩ := harranges.conditionals hs hfirst
    exact ih ha₁ habove hd h

theorem walk_balanced (hcode : Balanced code) (h : walk c index code s = .ok s') :
    s'.conditionals = s.conditionals := by
  have hs : s.conditionals = [] ++ s.conditionals := rfl
  obtain ⟨_, habove, hlen⟩ := walk_conditionals ha hs hcode h
  rw [habove, length_eq_zero_iff.1 hlen]
  rfl

theorem walk_starts (h : walk c index code s = .ok s') :
    ∃ more, s'.mark.starts = s.mark.starts ++ more ∧ more.length = code.length := by
  induction code generalizing index s with
  | nil =>
    cases h
    exact ⟨[], (append_nil _).symm, rfl⟩
  | cons _ _ ih =>
    obtain ⟨s₁, _, -, hstarts, -, ha₁, h⟩ := walk_cons_ok ha h
    obtain ⟨more, hmore, hlen⟩ := ih ha₁ h
    refine ⟨s₁.listing.size :: more, ?_, congrArg (· + 1) hlen⟩
    rw [hmore, State.mark, hstarts, append_assoc]
    rfl

end

end

/-! ## Binding jumps -/

section

variable {c : Context} {starts : List Nat} {jumps : List (Bridge × Int)} {l bound : Listing}

/-- Jumps are bound to the lines of the instructions that they name, and no bridge is left. -/
theorem bindJumps_open (hl : Open l.bridges (jumps.map Prod.fst))
    (h : bindJumps c starts jumps l = .ok bound) :
    Open bound.bridges [] ∧ Lasting l.bridges bound.bridges ∧
      bound.bridges.length = l.bridges.length ∧
      ∀ b target, (b, target) ∈ jumps → 0 ≤ target ∧ ∃ start, starts[target.toNat]? = some start ∧
        bound.bridges[b]? = some (some start) := by
  induction jumps generalizing l with
  | nil =>
    cases h
    exact ⟨hl, fun _ _ hb => hb, rfl, by simp⟩
  | cons jump _ ih =>
    obtain ⟨start, hpos, hfound, h⟩ := bindJumps_cons_ok h
    obtain ⟨hopen, hlasting, hlen, hrest⟩ := ih (l := l.patch jump.1 start) (hl.bound start) h
    refine ⟨hopen, (hl.lasting start).trans hlasting, hlen.trans length_set, ?_⟩
    intro b target hmem
    rcases mem_cons.1 hmem with rfl | hmem
    · exact ⟨hpos, start, hfound, hlasting _ _ (hl.getElem?_set start)⟩
    · exact hrest b target hmem

/-- A jump to no instruction is at fault, the first one if there are more; else all are bound. -/
theorem bindJumps_eq {length : Nat} (hstarts : starts.length = length + 1) :
    (∀ target, (jumps.map Prod.snd).find? (strays length) = some target →
      bindJumps c starts jumps l = .error (.unresolvedJump c.name target)) ∧
    ((jumps.map Prod.snd).find? (strays length) = none →
      ∃ bound, bindJumps c starts jumps l = .ok bound) := by
  induction jumps generalizing l with
  | nil =>
    refine ⟨?_, fun _ => ⟨l, rfl⟩⟩
    intro target h
    cases h
  | cons jump _ ih =>
    obtain ⟨_, target⟩ := jump
    rw [map_cons, find?_cons]
    unfold bindJumps
    by_cases hstray : 0 ≤ target ∧ target ≤ length
    · have hlt : target.toNat < starts.length := by omega
      rw [show strays length target = false by simp [strays, hstray],
        if_neg (Int.not_lt.2 hstray.1), getElem?_eq_getElem hlt]
      exact ih
    · rw [show strays length target = true by
        simp only [strays, hstray, decide_false, Bool.not_false]]
      have hnone : (if target < 0 then none else starts[target.toNat]?) = none := by
        by_cases hneg : target < 0
        · rw [if_pos hneg]
        · rw [if_neg hneg, getElem?_eq_none]
          omega
      rw [hnone]
      refine ⟨?_, ?_⟩
      · intro _ h
        cases h
        rfl
      · intro h
        cases h

end

/-! ## Methods -/

/-- The number of the first line at or behind the instruction at `index` of a method. -/
def lineOf (p : Program) (m : Method) (shared : Shared) (index : Nat) : Nat :=
  match walk (.of p m) 0 (m.code.take index) (startOf p m shared) with
  | .ok s => s.listing.size
  | .error _ => 0

/-- Whether a line is a jump that lands on the line `target`. -/
def Listing.Lands (l : Listing) (mnemonic : String) (line target : Nat) : Prop :=
  ∃ b, l.lines[line]? = some (.jump mnemonic b) ∧ l.bridges[b]? = some (some target)

section

variable {p : Program} {m : Method} {shared : Shared} {l : Listing} {s r : State}
  {a rest : Code} {i : Instruction} {b : Bridge} {target : Nat}

theorem lineOf_eq (hcode : m.code = a ++ rest)
    (hr : walk (.of p m) 0 a (startOf p m shared) = .ok r) :
    lineOf p m shared a.length = r.listing.size := by
  rw [lineOf, hcode, take_left, hr]

theorem length_starts (h : walk (.of p m) 0 m.code (startOf p m shared) = .ok s) :
    s.mark.starts.length = m.code.length + 1 := by
  obtain ⟨_, hmore, hlen⟩ := walk_starts start_apart h
  rw [hmore, length_append, hlen, Nat.add_comm]
  rfl

theorem start_linked (p : Program) (m : Method) (shared : Shared) :
    (startOf p m shared).control.Linked :=
  ⟨nodup_nil, fun _ => by simp [Control.pending, State.control, startOf, State.start,
    Listing.op, Listing.push]⟩

theorem start_bridged (p : Program) (m : Method) (shared : Shared) :
    (startOf p m shared).listing.Bridged := by
  intro _ _ hb
  cases mem_singleton.1 hb

/-- What is known of the states before and behind the instruction between `a` and `rest`. -/
structure Around (p : Program) (m : Method) (shared : Shared) (l : Listing) (s : State)
    (a : Code) (i : Instruction) (rest : Code) (r r₁ : State) : Prop where
  before : walk (.of p m) 0 a (startOf p m shared) = .ok r
  behind : walk (.of p m) 0 (a ++ [i]) (startOf p m shared) = .ok r₁
  step : step (.of p m) a.length i r.mark = .ok r₁
  rest : walk (.of p m) (a.length + 1) rest r₁ = .ok s
  arranges : ∃ lines, Arranges a.length i lines r.control r₁.control
  linked : r.control.Linked
  line : lineOf p m shared a.length = r.listing.size
  line_succ : lineOf p m shared (a.length + 1) = r₁.listing.size
  found : ∀ line, r.listing.size ≤ line → line < r₁.listing.size →
    l.lines[line]? = r₁.listing.lines[line]?

theorem Compiled.around (h : Compiled p m shared l s) (hcode : m.code = a ++ i :: rest) :
    ∃ r r₁, Around p m shared l s a i rest r r₁ := by
  have hcode₁ : m.code = (a ++ [i]) ++ rest := hcode.trans (append_cons ..)
  have hwalk := h.code
  rw [hcode, walk_append] at hwalk
  obtain ⟨r, hr, hwalk⟩ := of_bind hwalk
  rw [Nat.zero_add, walk] at hwalk
  obtain ⟨r₁, hstep, hwalk⟩ := of_bind hwalk
  have hr₁ : walk (.of p m) 0 (a ++ [i]) (startOf p m shared) = .ok r₁ := by
    rw [walk_append, hr, ok_bind, Nat.zero_add, walk, hstep]
    rfl
  have hapart := walk_apart start_apart hr
  obtain ⟨lines, -, -, harranges⟩ :=
    @step_ok (.of p m) i 0 a.length r.mark r₁ hapart (Nat.zero_le _) hstep
  have hpos : 0 < r.listing.size := walk_size_le start_apart hr
  have hline := lineOf_eq hcode₁ hr₁
  rw [length_append] at hline
  exact ⟨r, r₁, hr, hr₁, hstep, hwalk, ⟨lines, harranges⟩,
    (walk_linked start_apart (start_linked p m shared) hr).1, lineOf_eq hcode hr, hline,
    fun _ _ hlt => h.found hcode₁ hr₁ (by omega) hlt⟩

theorem Around.linked_succ {r₁ : State} (h : Around p m shared l s a i rest r r₁) :
    Apart r₁.frame r₁.stack ∧ r₁.control.Linked :=
  ⟨walk_apart start_apart h.behind,
    (walk_linked start_apart (start_linked p m shared) h.behind).1⟩

section

variable (h : Compiled p m shared l s)
include h

/-- The bridges of the listing come from those behind the code. -/
theorem Compiled.bridges : Open l.bridges [] ∧ Lasting s.listing.bridges l.bridges ∧
      l.bridges.length = s.listing.bridges.length ∧ ∀ b target, (b, target) ∈ s.jumps → 0 ≤ target ∧
        ∃ start, s.mark.starts[target.toNat]? = some start ∧ l.bridges[b]? = some (some start) := by
  have hlinked := (walk_linked start_apart (start_linked p m shared) h.code).1
  obtain ⟨bound, hbound, rfl⟩ := h.listing
  have hended : (s.ended m.code).listing.bridges = s.listing.bridges := by
    rw [s.ended_eq]
    rfl
  have hopen : Open (s.ended m.code).listing.bridges (s.jumps.map Prod.fst) := by
    rw [Control.Linked, Control.pending, show s.control.conditionals = [] from h.closed] at hlinked
    rw [hended]
    exact hlinked
  obtain ⟨_, hsealed, -⟩ := bound.sealed_eq
  have hbridges : bound.sealed.bridges = bound.bridges := by
    rw [hsealed]
    rfl
  have hres := bindJumps_open hopen hbound
  rw [hended] at hres
  dsimp only
  rw [hbridges]
  exact hres

theorem Compiled.hasUnpatched : l.hasUnpatched = false := by
  rw [Listing.hasUnpatched, List.any_eq_false]
  intro _ hfound hnone
  obtain ⟨b, hb⟩ := mem_iff_getElem?.1 hfound
  rw [isNone_iff_eq_none.1 hnone] at hb
  cases (h.bridges.1.mem_iff b).2 hb

theorem Compiled.exists_target (hb : b < l.bridges.length) :
    ∃ target, l.bridges[b]? = some (some target) := by
  have hfound : l.bridges[b]? = some (l.bridges.get ⟨b, hb⟩) := getElem?_eq_getElem hb
  cases hbridge : l.bridges.get ⟨b, hb⟩ with
  | some target => exact ⟨target, hfound.trans (congrArg some hbridge)⟩
  | none => cases (h.bridges.1.mem_iff b).2 (hfound.trans (congrArg some hbridge))

theorem Compiled.starts :
    ∀ index ≤ m.code.length, s.mark.starts[index]? = some (lineOf p m shared index) := by
  intro index hindex
  have hcode : m.code = m.code.take index ++ m.code.drop index := (take_append_drop ..).symm
  have hwalk := h.code
  rw [hcode, walk_append] at hwalk
  obtain ⟨r, hr, hwalk⟩ := of_bind hwalk
  obtain ⟨_, hbefore, hlen⟩ := walk_starts start_apart hr
  obtain ⟨_, hmore, -⟩ := walk_starts (walk_apart start_apart hr) hwalk
  have htake : (m.code.take index).length = index := length_take_of_le hindex
  have hstarts : r.starts.length = index := by
    have hsize := congrArg List.length hbefore
    rw [State.mark, length_append, length_append, hlen, htake, Nat.add_comm] at hsize
    exact Nat.add_left_cancel hsize
  have hline := lineOf_eq hcode hr
  rw [htake] at hline
  rw [hmore, hline, State.mark, append_assoc, getElem?_append_right (by omega), hstarts,
    Nat.sub_self]
  rfl

theorem Compiled.target_lt (hb : l.bridges[b]? = some (some target)) : target < l.size := by
  obtain ⟨_, _, _, hcode, hr, rfl⟩ := h.landing hb
  have hwalk := h.code
  rw [hcode, walk_append, hr, ok_bind] at hwalk
  have hle := walk_size_le (walk_apart start_apart hr) hwalk
  obtain ⟨bound, hbound, rfl⟩ := h.listing
  have hended : s.listing.size ≤ bound.size := by
    rw [Listing.size, Listing.size, (bindJumps_ok hbound).1, s.ended_eq]
    exact length_append ▸ Nat.le_add_right _ _
  have hsize : ∀ (l : Listing) (line : Line),
      ({ l with lines := l.lines.set 0 line } : Listing).size = l.size :=
    fun _ _ => length_set
  rw [hsize]
  unfold Listing.sealed at hb ⊢
  by_cases hseal : bound.bridges.contains (some bound.size) = true
  · have hnop : (bound.op "NOP" []).size = bound.size + 1 := length_append
    rw [if_pos hseal, hnop]
    exact Nat.lt_succ_of_le (Nat.le_trans hle hended)
  · rw [if_neg hseal] at hb ⊢
    refine Nat.lt_of_le_of_ne (Nat.le_trans hle hended) fun heq => hseal ?_
    rw [heq] at hb
    exact contains_iff_mem.2 (mem_of_getElem? hb)

/-- Every jump of the listing goes over one of its bridges. -/
theorem Compiled.bridged : l.Bridged := by
  have hcode := walk_bridged start_apart (start_bridged p m shared) h.code
  obtain ⟨_, _, hending, hclosing, hlines, -⟩ := h.lines_eq
  intro mnemonic b hb
  rw [h.bridges.2.2.1]
  rw [hlines] at hb
  rcases mem_or_eq_of_mem_set hb with hb | hb
  · rcases mem_append.1 hb with hb | hb
    · exact hcode mnemonic b hb
    · rcases mem_append.1 hb with hb | hb
      · rcases hending with rfl | rfl <;> simp [epilogueLines] at hb
      · rcases hclosing with rfl | rfl <;> simp at hb
  · cases hb

/-- A jump leads to the first line of the instruction that it names, or of what comes behind. -/
theorem Compiled.jump_lands (hcode : m.code = a ++ i :: rest) (hop : i.opcode = .jump) :
    ∃ (offset : Int) (target : Nat), i.jumpOffset = .ok offset ∧ a.length + offset = target ∧
      target ≤ m.code.length ∧
      l.Lands "JMP" (lineOf p m shared a.length) (lineOf p m shared target) := by
  obtain ⟨r, r₁, hr⟩ := h.around hcode
  obtain ⟨k, hk, -, hlisting, hjumps⟩ := jump_ok hop hr.step
  obtain ⟨hapart, hlinked⟩ := hr.linked_succ
  obtain ⟨_, hmore⟩ := (walk_linked hapart hlinked hr.rest).2.2
  have hmem : (r.listing.bridges.length, (a.length : Int) + k) ∈ s.jumps := by
    rw [hmore, hjumps]
    exact mem_append_left _ (mem_append_right _ (mem_singleton.2 rfl))
  obtain ⟨hpos, _, hstart, hbridge⟩ := h.bridges.2.2.2 _ _ hmem
  have hlen := length_starts h.code
  have hle : ((a.length : Int) + k).toNat ≤ m.code.length := by
    have := (List.getElem?_eq_some_iff.1 hstart).1
    omega
  rw [h.starts _ hle] at hstart
  cases hstart
  refine ⟨k, _, hk, (Int.toNat_of_nonneg hpos).symm, hle, _, ?_, hbridge⟩
  have hnext : r₁.listing.size = r.listing.size + 1 := by
    rw [hlisting]
    exact length_append
  rw [hr.line, hr.found _ (Nat.le_refl _) (by omega), hlisting]
  exact getElem?_concat_length

/-- The end of a part has the jump over the other part as its line, or none. A bridge that is kept
when the part begins leads behind its end. -/
theorem Compiled.part_ends {b e : Code} {j : Instruction}
    (hcode : m.code = a ++ i :: (b ++ j :: e)) (hj : j.opcode = .otherwise ∨ j.opcode = .endBranch) :
    lineOf p m shared ((a ++ i :: b).length + 1) =
        lineOf p m shared (a ++ i :: b).length + (if j.opcode = .otherwise then 1 else 0) ∧
      (Balanced b → ∀ r₁ bridge cs, walk (.of p m) 0 (a ++ [i]) (startOf p m shared) = .ok r₁ →
        r₁.conditionals = bridge :: cs →
        l.bridges[bridge]? = some (some (lineOf p m shared ((a ++ i :: b).length + 1)))) := by
  have hcode : m.code = (a ++ i :: b) ++ j :: e := by rw [hcode, append_assoc, cons_append]
  obtain ⟨_, _, hq⟩ := h.around hcode
  obtain ⟨_, harranges⟩ := hq.arranges
  obtain ⟨hsize, hbound⟩ := harranges.ends hj hq.linked
  rw [hq.line, hq.line_succ]
  refine ⟨hsize, ?_⟩
  intro hb r₁ bridge cs hr hbridge
  obtain ⟨hapart, hlinked⟩ := hq.linked_succ
  refine h.bridges.2.1 _ _ ((walk_linked hapart hlinked hq.rest).2.1 _ _ ?_)
  -- The conditionals are those that were open when the part began, as all others are closed.
  have hpart := hq.before
  rw [append_cons, walk_append, hr, ok_bind] at hpart
  have hopen := walk_balanced (walk_apart start_apart hr) hb hpart
  exact hbound bridge cs (hopen.trans hbridge)

/-- The jump of a conditional, if it has one, and that of an `otherwise` lead behind the end of the
part that they begin. -/
theorem Compiled.part_lands {b e : Code} {j : Instruction}
    (hcode : m.code = a ++ i :: (b ++ j :: e)) (hb : Balanced b)
    (hj : j.opcode = .otherwise ∨ j.opcode = .endBranch) : (i.opcode = .branch →
      (∃ number, i.branch? = some (.branch .forced number)) ∧
          lineOf p m shared (a.length + 1) = lineOf p m shared a.length ∨
        (∃ cond number, i.branch? = some (.branch cond number) ∧ cond ≠ .forced) ∧
          ∃ mnemonic line, mnemonic ≠ "JMP" ∧ lineOf p m shared (a.length + 1) = line + 1 ∧
            lineOf p m shared a.length ≤ line ∧
            l.Lands mnemonic line (lineOf p m shared ((a ++ i :: b).length + 1))) ∧
    (i.opcode = .otherwise →
      l.Lands "JMP" (lineOf p m shared a.length)
        (lineOf p m shared ((a ++ i :: b).length + 1))) := by
  obtain ⟨r, r₁, hr⟩ := h.around hcode
  obtain ⟨_, harranges⟩ := hr.arranges
  have hends := (h.part_ends hcode hj).2 hb r₁
  rw [hr.line, hr.line_succ]
  refine ⟨?_, ?_⟩
  · intro hop
    obtain ⟨hcs, ⟨hforced, hsize⟩ | ⟨htested, mnemonic, line, hjump, hsize, hle, hline⟩⟩ :=
      harranges.opens hop
    · exact .inl ⟨hforced, hsize⟩
    · have hsize : r₁.listing.size = line + 1 := hsize
      refine .inr ⟨htested, mnemonic, line, hjump, hsize, hle, _, ?_, hends _ _ hr.behind hcs⟩
      rw [hr.found line hle (by omega)]
      exact hline
  · intro hop
    obtain ⟨⟨_, _, -, hcs⟩, hline⟩ := harranges.divides hop
    have hsize : r₁.listing.size = r.listing.size + if i.opcode = .otherwise then 1 else 0 :=
      (harranges.ends (.inl hop) hr.linked).1
    rw [if_pos hop] at hsize
    refine ⟨_, ?_, hends _ _ hr.behind hcs⟩
    rw [hr.found _ (Nat.le_refl _) (by omega)]
    exact hline

end

/-- With all else in order, a method is refused for a jump to no instruction only. -/
theorem compileMethod_of_destinations (hret : (Context.of p m).checkType m.returnType = .ok ())
    (htypes : (Context.of p m).checkTypes (m.parameterTypes ++ m.locals) = .ok ())
    (hcode : walk (.of p m) 0 m.code (startOf p m shared) = .ok s) (hbalanced : Balanced m.code) :
    (∀ target, (destinations 0 m.code).find? (strays m.code.length) = some target →
      compileMethod p m shared = .error (.unresolvedJump (p.referenceOf m).text target)) ∧
    ((destinations 0 m.code).find? (strays m.code.length) = none →
      ∃ compiled, compileMethod p m shared = .ok compiled) := by
  have hclosed : s.conditionals = [] := by
    have hcount := (walk_balance start_apart hcode).symm.trans hbalanced
    exact length_eq_zero_iff.1 (some.inj hcount)
  have hjumps : s.jumps.map Prod.snd = destinations 0 m.code :=
    walk_jumps start_apart hcode
  obtain ⟨hrefused, haccepted⟩ :=
    @bindJumps_eq (.of p m) s.mark.starts s.jumps (s.ended m.code).listing _
      (length_starts hcode)
  rw [hjumps] at hrefused haccepted
  rw [compileMethod_eq, hret, ok_bind, htypes, ok_bind, hcode, ok_bind,
    if_neg (not_not_intro hclosed)]
  refine ⟨?_, ?_⟩
  · intro target htarget
    rw [hrefused target htarget]
    rfl
  · intro hnone
    obtain ⟨_, hbound⟩ := haccepted hnone
    rw [hbound]
    exact ⟨_, rfl⟩

end

/-- In a compiled method no bridge is without a target, every jump names the label of one line that
is there, the first line reserves the frame as it is in the end, a jump lands on the first line at or
behind the instruction that it names, and the jump that begins a part of a conditional lands behind
the end of the part: behind the jump of an `otherwise`, or behind an `endBranch`, which has no line.
A part that an `otherwise` begins ends with an `endBranch`, unless the conditional is divided twice.
A method in which all else is in order is refused just for its first jump to no instruction, if the
numbers of the instructions to which it jumps are words of 64 bits. A jump beyond the greatest word
stops the compiler instead. -/
theorem jumps_land (p : Program) (m : Method) (shared : Shared) :
    (∀ l shared', compileMethod p m shared = .ok (l, shared') → l.hasUnpatched = false ∧
      (∀ mnemonic bridge, Line.jump mnemonic bridge ∈ l.lines → ∃ target < l.size,
        l.bridges[bridge]? = some (some target) ∧
        l.lineText (.jump mnemonic bridge) = Text.padRight 8 mnemonic ++ lineLabel target ∧
        ∀ line, lineLabel line = lineLabel target → line = target) ∧
      (∃ s, walk (.of p m) 0 m.code (startOf p m shared) = .ok s ∧
        l.lines[0]? = some (.instruction "ENTER" [.number s.frame.size, .number 0])) ∧
      (∀ (a : List Instruction) (i : Instruction) (rest : List Instruction),
        m.code = a ++ i :: rest → i.opcode = .jump →
        ∃ (offset : Int) (target : Nat), i.jumpOffset = .ok offset ∧ a.length + offset = target ∧
          target ≤ m.code.length ∧
          l.Lands "JMP" (lineOf p m shared a.length) (lineOf p m shared target)) ∧
      ∀ (a : List Instruction) (i : Instruction) (rest : List Instruction),
        m.code = a ++ i :: rest → i.opcode = .branch ∨ i.opcode = .otherwise →
        ∃ (b : List Instruction) (j : Instruction) (e : List Instruction),
          rest = b ++ j :: e ∧ Balanced b ∧
          (j.opcode = .endBranch ∨
            j.opcode = .otherwise ∧ (i.opcode = .otherwise → DividedTwice m.code)) ∧
          lineOf p m shared ((a ++ i :: b).length + 1) =
            lineOf p m shared (a ++ i :: b).length + (if j.opcode = .otherwise then 1 else 0) ∧
          (i.opcode = .branch →
            (∃ number, i.branch? = some (.branch .forced number)) ∧
                lineOf p m shared (a.length + 1) = lineOf p m shared a.length ∨
              (∃ cond number, i.branch? = some (.branch cond number) ∧
                cond ≠ .forced) ∧
                ∃ mnemonic line, mnemonic ≠ "JMP" ∧ lineOf p m shared (a.length + 1) = line + 1 ∧
                  lineOf p m shared a.length ≤ line ∧
                  l.Lands mnemonic line (lineOf p m shared ((a ++ i :: b).length + 1))) ∧
          (i.opcode = .otherwise →
            l.Lands "JMP" (lineOf p m shared a.length)
              (lineOf p m shared ((a ++ i :: b).length + 1)))) ∧
    ((Context.of p m).checkType m.returnType = .ok () →
      (Context.of p m).checkTypes (m.parameterTypes ++ m.locals) = .ok () →
      (∀ s, walk (.of p m) 0 m.code (startOf p m shared) = .ok s → Balanced m.code →
        (∀ target, (destinations 0 m.code).find? (strays m.code.length) = some target →
          Integer.fits 64 target = true ∧
            compileMethod p m shared = .error (.unresolvedJump (p.referenceOf m).text target)) ∧
        ((destinations 0 m.code).find? (strays m.code.length) = none →
          ∃ compiled, compileMethod p m shared = .ok compiled)) ∧
      ∀ (a : List Instruction) (i : Instruction) (rest : List Instruction) (s : State) (offset : Int),
        m.code = a ++ i :: rest → walk (.of p m) 0 a (startOf p m shared) = .ok s →
        i.opcode = .jump → i.jumpOffset = .ok offset → Integer.greatest 64 < a.length + offset →
        compileMethod p m shared = .error .overflow) := by
  refine ⟨?_, fun hret htypes => ⟨fun s hwalk hbalanced => ?_, ?_⟩⟩
  rotate_left
  · obtain ⟨hrefused, haccepted⟩ := compileMethod_of_destinations hret htypes hwalk hbalanced
    refine ⟨fun target htarget => ⟨?_, hrefused target htarget⟩, haccepted⟩
    exact fits_of_mem_destinations hwalk (List.mem_of_find?_eq_some htarget)
  · intro a i rest s offset hcode hwalk hop hoffset hbeyond
    exact compileMethod_overflow_iff.2
      ⟨hret, htypes, a, i, rest, s, hcode, hwalk, .inr ⟨hop, offset, hoffset, hbeyond⟩⟩
  intro l shared' hcomp
  obtain ⟨s, h, -⟩ := compileMethod_ok hcomp
  refine ⟨h.hasUnpatched, ?_, ⟨s, h.code, h.enter⟩, fun a i rest => h.jump_lands, ?_⟩
  · intro mnemonic bridge hmem
    obtain ⟨target, htarget⟩ := h.exists_target (h.bridged mnemonic bridge hmem)
    refine ⟨target, h.target_lt htarget, htarget, ?_, fun line hline => lineLabel_injective hline⟩
    rw [Listing.lineText, Listing.targetLabel, htarget]
  · intro a i rest hcode hop
    obtain ⟨b, j, e, rfl, hb, hj⟩ := Balanced.exists_end (hcode ▸ h.balanced) hop
    obtain ⟨hbranch, hotherwise⟩ := h.part_lands hcode hb hj
    refine ⟨b, j, e, rfl, hb, ?_, (h.part_ends hcode hj).1, hbranch, hotherwise⟩
    rcases hj with hj | hj
    · exact .inr ⟨hj, fun hi => ⟨a, i, b, j, e, hcode, hi, hj, hb⟩⟩
    · exact .inl hj

namespace Sample

/-- The code before the `otherwise` of `hopping`: a jump into the other part. -/
def hop : Code := [.getLocal 0, .branch .true none, .jump 3]

/-- The code behind the `otherwise` of `hopping`: a jump behind the last line. -/
def skip : Code :=
  [.loadConst .i32 "1", .setLocal 0, .endBranch, .jump 2, .ret]

def hopping : Method := { worker.method with code := hop ++ .otherwise :: skip }

/-- A method whose second jump is the first to lead to no instruction. -/
def astray : Method := { worker.method with code := [.jump 1, .jump 5, .jump (-7)] }

end Sample

/-- Jumps from one part of a conditional into the other and behind the last line land there. The first
jump to no instruction is reported, and one beyond the greatest word stops the compiler. -/
theorem jumps_land_hopping_and_astray :
    (∃ l shared, compileMethod {} Sample.hopping {} = .ok (l, shared) ∧ l.hasUnpatched = false ∧
      l.Lands "JMP" (lineOf {} Sample.hopping {} 2) (lineOf {} Sample.hopping {} 5) ∧
      ∃ (b : List Instruction) (j : Instruction) (e : List Instruction),
        Sample.skip = b ++ j :: e ∧ Balanced b ∧
        l.Lands "JMP" (lineOf {} Sample.hopping {} 3)
          (lineOf {} Sample.hopping {} ((Sample.hop ++ .otherwise :: b).length + 1))) ∧
    compileMethod {} Sample.astray {} =
      .error (.unresolvedJump (({} : Program).referenceOf Sample.astray).text 6) ∧
    compileMethod {} Sample.overshooting {} = .error .overflow := by
  have hok : (compileMethod {} Sample.hopping {}).isOk = true := by decide +kernel
  have hwalk : (walk (.of {} Sample.astray) 0 Sample.astray.code
      (startOf {} Sample.astray {})).isOk = true := by decide +kernel
  refine ⟨?_, ?_, ?_⟩
  · cases hcomp : compileMethod {} Sample.hopping {} with
    | error =>
      rw [hcomp] at hok
      cases hok
    | ok compiled =>
      obtain ⟨l, shared⟩ := compiled
      obtain ⟨hbound, -, -, hjump, hpart⟩ := (jumps_land {} Sample.hopping {}).1 l shared hcomp
      obtain ⟨offset, target, hoffset, htarget, -, hlands⟩ :=
        hjump [.getLocal 0, .branch .true none] (.jump 3) (.otherwise :: Sample.skip) rfl rfl
      obtain ⟨b, j, e, hskip, hb, -, -, -, hotherwise⟩ :=
        hpart Sample.hop .otherwise Sample.skip rfl (.inr rfl)
      have hthree : (Instruction.jump 3).jumpOffset = .ok 3 := by decide +kernel
      obtain rfl : offset = 3 := Except.ok.inj (hoffset.symm.trans hthree)
      obtain rfl : target = 5 := Int.ofNat.inj htarget.symm
      exact ⟨l, shared, rfl, hbound, hlands, b, j, e, hskip, hb, hotherwise rfl⟩
  · cases hs : walk (.of {} Sample.astray) 0 Sample.astray.code (startOf {} Sample.astray {}) with
    | error =>
      rw [hs] at hwalk
      cases hwalk
    | ok s =>
      exact ((((jumps_land {} Sample.astray {}).2 rfl rfl).1 s hs (by decide)).1 6
        (by decide +kernel)).2
  · exact ((jumps_land {} Sample.overshooting {}).2 rfl rfl).2 [.nop]
      (.jump (Integer.greatest 64)) [] _ (Integer.greatest 64) rfl rfl rfl (by decide +kernel)
      (by decide)

end X86

end ScriptCompiler
