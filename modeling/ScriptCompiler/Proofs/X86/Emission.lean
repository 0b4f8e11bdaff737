import ScriptCompiler.Proofs.X86.Actions

/-!
# What compiling an instruction does

Every compiled instruction is read back as a row of actions on the virtual stack, behind
which bridges are made and bound (`step_ok`). Nothing is asked of the code: it may be ill
typed, jump anywhere or leave its conditionals open.

As a first consequence the entries are kept apart behind any code, so no register and no
scratch slot ever stands for two of them.
-/

set_option autoImplicit false

namespace ScriptCompiler.X86

open List

/-! ## States -/

/-- What an instruction in the midst of its compilation works on. -/
def State.stage (s : State) (reserved : Nat) (held : Stack) : Stage :=
  ⟨s.frame, s.shared, reserved, held, s.stack⟩

/-- Whether a state has more lines than another one, but the same bridges. -/
structure State.Extends (s : State) (lines : List Line) (s' : State) : Prop where
  listing : s'.listing = s.listing.extended lines
  conditionals : s'.conditionals = s.conditionals
  starts : s'.starts = s.starts
  jumps : s'.jumps = s.jumps

/-- Whether actions lead from a state to another one. -/
def Leads (c : Context) (i : Instruction) (k : Nat) (s : State) (n : Nat) (held : Stack)
    (s' : State) (n' : Nat) (held' : Stack) : Prop :=
  ∃ lines, s.Extends lines s' ∧ Acts c i k (s.stage n held) lines (s'.stage n' held')

section

variable {c : Context} {i : Instruction} {k n n₁ n₂ : Nat} {s s₁ s₂ : State}
  {held held₁ held₂ : Stack} {lines : List Line}

theorem Listing.extended_nil (l : Listing) : l.extended [] = l := by simp [extended]

theorem Listing.extended_extended (l : Listing) (lines more : List Line) :
    (l.extended lines).extended more = l.extended (lines ++ more) := by
  simp [extended]

theorem State.Extends.rfl : s.Extends [] s :=
  ⟨s.listing.extended_nil.symm, Eq.refl _, Eq.refl _, Eq.refl _⟩

theorem State.Extends.trans {more : List Line} (h : s.Extends lines s₁) (h' : s₁.Extends more s₂) :
    s.Extends (lines ++ more) s₂ where
  listing := by rw [h'.listing, h.listing, Listing.extended_extended]
  conditionals := h'.conditionals.trans h.conditionals
  starts := h'.starts.trans h.starts
  jumps := h'.jumps.trans h.jumps

theorem Leads.refl : Leads c i k s n held s n held := ⟨[], .rfl, .refl⟩

theorem Leads.trans (h : Leads c i k s n held s₁ n₁ held₁)
    (h' : Leads c i k s₁ n₁ held₁ s₂ n₂ held₂) : Leads c i k s n held s₂ n₂ held₂ := by
  obtain ⟨lines, hext, hacts⟩ := h
  obtain ⟨more, hext', hacts'⟩ := h'
  exact ⟨lines ++ more, hext.trans hext', hacts.trans hacts'⟩

theorem Leads.action (h : Action c i k (s.stage n held) lines (s₁.stage n₁ held₁))
    (hext : s.Extends lines s₁) : Leads c i k s n held s₁ n₁ held₁ :=
  ⟨lines, hext, .single h⟩

theorem Leads.apart (h : Leads c i k s n held s₁ n₁ held₁) (ha : Apart s.frame (held ++ s.stack)) :
    Apart s₁.frame (held₁ ++ s₁.stack) := by
  obtain ⟨_, -, hacts⟩ := h
  exact hacts.apart ha

theorem Leads.outline (h : Leads c i k s n held s₁ n₁ held₁) :
    s₁.frame.outline = s.frame.outline := by
  obtain ⟨_, -, hacts⟩ := h
  exact hacts.outline

variable {vs : Stack} {v : StackValue} {values ws : Stack}
  {types : Types} {laid : List Argument} {mnemonic : String} (opcode : Opcode)

/-! ## Moving entries -/

theorem pop_ok (h : s.pop c i = .ok (v, s₁)) :
    ∃ rest, s.stack = v :: rest ∧ s₁ = { s with stack := rest } := by
  cases hstack : s.stack with
  | nil =>
    rw [State.pop, hstack] at h
    cases h
  | cons _ rest =>
    rw [State.pop, hstack] at h
    cases h
    exact ⟨rest, rfl, rfl⟩

theorem length_of_pop (h : s.pop c i = .ok (v, s₁)) : s.stack.length = s₁.stack.length + 1 := by
  obtain ⟨_, hstack, rfl⟩ := pop_ok h
  rw [hstack]
  rfl

theorem pop_leads {v : StackValue} (h : s.pop c i = .ok (v, s₁)) (hk : k ≤ s₁.stack.length) :
    Leads c i k s n held s₁ n (v :: held) := by
  obtain ⟨_, hstack, rfl⟩ := pop_ok h
  refine .action ?_ ⟨s.listing.extended_nil.symm, rfl, rfl, rfl⟩
  rw [State.stage, hstack]
  exact .take hk

theorem push_leads (hv : Pushable s.frame i v)
    (hclear : v.isOperation = true → Clear (held ++ s.stack)) :
    Leads c i k s n held (s.push v) n held :=
  .action (.push hv hclear) ⟨s.listing.extended_nil.symm, rfl, rfl, rfl⟩

theorem localOperand_ok {index : Int} {operand : Operand}
    (h : s.localOperand c index = .ok operand) : s.frame.localOperand? index = some operand := by
  obtain ⟨_, hfound, h⟩ := of_bind h
  obtain rfl := of_checkIndex hfound
  cases ho : s.frame.localOperand? index with
  | none =>
    rw [ho] at h
    cases h
  | some =>
    rw [ho] at h
    cases h
    rfl

theorem load_ok {r : Register} (h : s.load c v r = .ok s₁) :
    ∃ lines, loadLines? s.frame r v = some lines ∧
      s₁ = s.advance lines (s.frame.release v) s.stack := by
  cases v with
  | constant =>
    cases h
    exact ⟨_, rfl, rfl⟩
  | operation =>
    cases h
    refine ⟨_, rfl, ?_⟩
    split
    · exact s.advance_nil.symm
    · rfl
  | temp =>
    cases h
    exact ⟨_, rfl, rfl⟩
  | stored =>
    obtain ⟨_, hsource, h⟩ := of_bind h
    cases h
    refine ⟨_, ?_, rfl⟩
    rw [loadLines?, localOperand_ok hsource]
    rfl

theorem extends_advance (s : State) (lines : List Line) (f : Frame) (vs : Stack) :
    s.Extends lines (s.advance lines f vs) :=
  ⟨rfl, rfl, rfl, rfl⟩

theorem load_leads {v : StackValue} {r : Register} (h : s.load c v r = .ok s₁)
    (hr : r = .eax ∨ r = .ecx) (hclear : r = .eax → Clear (held ++ s.stack)) :
    Leads c i k s n (v :: held) s₁ n held ∧ s₁.stack = s.stack := by
  obtain ⟨_, hlines, rfl⟩ := load_ok h
  exact ⟨.action (.load hr hlines hclear) (extends_advance ..), rfl⟩

/-- The entry in `EAX`, if there is one, is moved, and no read becomes pending. -/
theorem spill_leads (ha : Apart s.frame (held ++ s.stack)) :
    Leads c i k s n held s.spill n held ∧ Clear s.spill.stack ∧
      ∀ t index, .stored t index ∈ s.spill.stack → .stored t index ∈ s.stack := by
  rcases s.spill_cases with ⟨hspill, hnone⟩ | ⟨_, slot, _, t, _, halloc, hstack, hspill⟩
  · rw [hspill]
    exact ⟨.refl, hnone, fun _ _ h => h⟩
  · rw [hspill]
    refine ⟨.action ?_ ⟨rfl, rfl, rfl, rfl⟩, ?_, ?_⟩
    · rw [State.stage, hstack]
      exact .spill halloc
    · rw [hstack] at ha
      exact ha.isOperation_of_moved slot
    · intro _ index hmem
      rw [hstack]
      simpa [State.advance] using hmem

/-- `EAX` is made free for an entry that may be there itself. -/
theorem clear_leads {v : StackValue} (ha : Apart s.frame (v :: s.stack)) :
    Leads c i k s n [v] (if v.isOperation then s else s.spill) n [v] ∧
      Clear (if v.isOperation then s else s.spill).stack ∧
      ∀ t index, .stored t index ∈ (if v.isOperation then s else s.spill).stack →
        .stored t index ∈ s.stack := by
  by_cases hv : v.isOperation = true
  · rw [if_pos hv]
    exact ⟨.refl, ha.isOperation_of_cons hv, fun _ _ h => h⟩
  · rw [if_neg hv]
    exact spill_leads ha

theorem detach_ok {w : StackValue} (h : s.detach c v = .ok (w, s₁)) :
    ∃ lines g slot, loadLines? s.frame .ecx v = some lines ∧
      (s.frame.release v).allocTemp = (g, slot) ∧ w = .temp v.type slot ∧
      s₁ = s.advance (lines ++ [.instruction "MOV" [g.tempOperand slot, .register .ecx]]) g
        s.stack := by
  obtain ⟨_, hload, h⟩ := of_bind h
  obtain ⟨lines, hlines, rfl⟩ := load_ok hload
  cases h
  refine ⟨lines, _, _, hlines, rfl, rfl, ?_⟩
  rw [← s.advance_advance lines _ (s.frame.release v) _ s.stack s.stack]
  rfl

/-- The pending reads of a slot are copied, with entries `above` them on the stack. -/
theorem detachAll_acts {index : Int} (hop : i.opcode = .setLocal)
    (hindex : i.number? 0 = some index) (h : State.detachAll c index vs s = .ok (ws, s₁))
    (k n : Nat) (u : Shared) (held above : Stack) :
    ∃ lines g, s₁ = s.advance lines g s.stack ∧ (∀ t, .stored t index ∉ ws) ∧
      Acts c i k ⟨s.frame, u, n, held, above ++ vs⟩ lines ⟨g, u, n, held, above ++ ws⟩ := by
  induction vs generalizing ws s₁ above with
  | nil =>
    cases h
    exact ⟨[], s.frame, s.advance_nil.symm, by simp, .refl⟩
  | cons v _ ih =>
    obtain ⟨⟨ws', _⟩, hrest, h⟩ := of_bind h
    obtain ⟨lines, g, rfl, hnone, hacts⟩ := ih hrest (above ++ [v])
    simp only [append_assoc, singleton_append] at hacts
    by_cases hv : ∃ t, v = .stored t index
    · obtain ⟨t, rfl⟩ := hv
      simp only [if_true] at h
      obtain ⟨⟨_, _⟩, hdetach, h⟩ := of_bind h
      obtain ⟨_, g', slot, hload, halloc, rfl, rfl⟩ := detach_ok hdetach
      cases h
      refine ⟨_, g', s.advance_advance .., by simpa using hnone, ?_⟩
      exact hacts.trans (.single (.detach hop hindex halloc hload))
    · -- an entry that does not read the slot stays
      have hkeep : (v :: ws', s.advance lines g s.stack) = (ws, s₁) := by
        cases v with
        | constant | operation | temp => exact Except.ok.inj h
        | stored t j =>
          have hj : j ≠ index := fun hj => hv ⟨t, hj ▸ rfl⟩
          simp only [if_neg hj] at h
          exact Except.ok.inj h
      cases hkeep
      refine ⟨lines, g, rfl, fun t ht => ?_, hacts⟩
      rcases mem_cons.1 ht with ht | ht
      · exact hv ⟨t, ht.symm⟩
      · exact hnone t ht

theorem detachLocal_leads {index : Int} (hop : i.opcode = .setLocal)
    (hindex : i.number? 0 = some index) (h : s.detachLocal c index = .ok s₁) :
    Leads c i k s n held s₁ n held ∧ ∀ t, .stored t index ∉ s₁.stack := by
  obtain ⟨⟨_, _⟩, hall, h⟩ := of_bind h
  obtain ⟨lines, _, rfl, hnone, hacts⟩ := detachAll_acts hop hindex hall k n s.shared held []
  cases h
  exact ⟨⟨lines, ⟨rfl, rfl, rfl, rfl⟩, hacts⟩, hnone⟩

/-! ## Storing -/

theorem store_ok (hv : v.isConstant = false) (h : s.load c v .eax = .ok s₁) (target : Operand)
    (size : Nat) : ∃ lines, storeLines? s.frame target size v = some lines ∧
      s₁.op "MOV" [target, .register (Width.ofSize size).accumulator] =
        s.advance lines (s.frame.release v) s.stack := by
  obtain ⟨lines, hlines, rfl⟩ := load_ok h
  refine ⟨lines ++ [.instruction "MOV" [target, .register (Width.ofSize size).accumulator]], ?_,
    s.advance_op ..⟩
  rw [storeLines?_eq hv, hlines, Option.map_some]

/-- An assignment leaves no pending read of its slot. -/
theorem setLocal_leads (hop : i.opcode = .setLocal) (ha : Apart s.frame s.stack)
    (hk : k ≤ s.stack.length - 1) (h : setLocal c i s = .ok s₁) : Leads c i k s 0 [] s₁ 0 [] ∧
      ∀ index, i.number? 0 = some index → ∀ t, .stored t index ∉ s₁.stack := by
  obtain ⟨index, target, hindex, htarget, h⟩ := of_bind₂ h
  obtain ⟨_, hlocal, h⟩ := of_bind h
  obtain rfl := of_checkIndex hlocal
  obtain ⟨⟨v, r⟩, r', hpop, hdetach, hstore⟩ := of_bind₂ h
  have hindex := Instruction.localIndex_ok (reading_ok hindex)
  have htarget := localOperand_ok htarget
  obtain ⟨t, ht, -⟩ := Option.map_eq_some_iff.1 htarget
  have hlen := length_of_pop hpop
  have hpopped := @pop_leads c i k 0 s r [] v hpop (by omega)
  obtain ⟨hdetached, hnone⟩ := @detachLocal_leads c i k 0 r r' [v] index hop hindex hdetach
  have hleads := hpopped.trans hdetached
  -- what is left is the store, from a state where the slot is no longer read
  have hassign : ∀ {q q' : State} {lines : List Line}, Leads c i k s 0 [] q 0 [v] →
      (∀ u, .stored u index ∉ q.stack) → (v.isConstant = false → Clear q.stack) →
      storeLines? q.frame target t.size v = some lines →
      q' = q.advance lines (q.frame.release v) q.stack →
      Leads c i k s 0 [] q' 0 [] ∧
        ∀ index, i.number? 0 = some index → ∀ t, .stored t index ∉ q'.stack := by
    rintro q q' lines hq hread hclear hlines rfl
    have htype : q.frame.localType? index = some t := by rw [Frame.localType?_congr hq.outline, ht]
    have hoperand : q.frame.localOperand? index = some target := by
      rw [Frame.localOperand?_congr hq.outline, htarget]
    refine ⟨hq.trans (.action (.assign hop hindex htype hoperand hlines hread hclear)
      (extends_advance ..)), ?_⟩
    intro j hj
    obtain rfl : index = j := Option.some.inj (hindex.symm.trans hj)
    exact hread
  have hsize : ((s.frame.localType? index).map Primitive.size).getD 4 = t.size := by
    rw [ht]
    rfl
  rw [hsize] at hstore
  by_cases hv : v.isConstant = true
  · cases v with
    | constant =>
      cases hstore
      exact hassign hleads hnone (fun hv => by cases hv) rfl rfl
    | stored | operation | temp => cases hv
  · have hv := Bool.eq_false_iff.2 hv
    have hload : ∃ q, (if v.isOperation then r' else r'.spill).load c v .eax = .ok q ∧
        s₁ = q.op "MOV" [target, .register (Width.ofSize t.size).accumulator] := by
      cases v with
      | constant => cases hv
      | stored | operation | temp =>
        obtain ⟨q, hq, hstore⟩ := of_bind hstore
        exact ⟨q, hq, (Except.ok.inj hstore).symm⟩
    obtain ⟨q, hload, rfl⟩ := hload
    obtain ⟨lines, hlines, hstate⟩ := store_ok hv hload target t.size
    obtain ⟨hcleared, hclear, hreads⟩ := @clear_leads c i k 0 r' v (hleads.apart ha)
    exact hassign (hleads.trans hcleared) (fun u hu => hnone u (hreads u index hu))
      (fun _ => hclear) hlines hstate

/-! ## Working on registers -/

/-- Whether a state differs from another one by lines that work on registers. -/
def State.Computed (s s' : State) : Prop :=
  ∃ lines, (∀ line ∈ lines, line.computes = true) ∧ s' = s.advance lines s.frame s.stack

theorem State.Computed.rfl : s.Computed s := ⟨[], by simp, s.advance_nil.symm⟩

theorem State.Computed.trans (h : s.Computed s₁) (h' : s₁.Computed s₂) : s.Computed s₂ := by
  obtain ⟨lines, hlines, rfl⟩ := h
  obtain ⟨more, hmore, rfl⟩ := h'
  refine ⟨lines ++ more, ?_, s.advance_advance ..⟩
  intro line hmem
  exact (mem_append.1 hmem).elim (hlines line) (hmore line)

theorem State.Computed.op {operands : List Operand} (h : s.Computed s₁)
    (hline : (Line.instruction mnemonic operands).computes = true) :
    s.Computed (s₁.op mnemonic operands) :=
  h.trans ⟨[.instruction mnemonic operands], forall_mem_singleton.2 hline, Eq.refl _⟩

theorem State.Computed.stack_eq (h : s.Computed s₁) : s₁.stack = s.stack := by
  obtain ⟨_, -, rfl⟩ := h
  rfl

theorem State.Computed.leads (h : s.Computed s₁) (hclear : Clear (held ++ s.stack)) :
    Leads c i k s n held s₁ n held ∧ s₁.stack = s.stack := by
  obtain ⟨_, hlines, rfl⟩ := h
  exact ⟨.action (.compute hlines hclear) (extends_advance ..), Eq.refl _⟩

theorem normalize_computed (s : State) (t : Primitive) : s.Computed (s.normalize t) := by
  have hline : ∀ r : Register, r ≠ .esp →
      (Line.instruction (if t.isSigned then "MOVSX" else "MOVZX")
        [.register .eax, .register r]).computes = true := by
    intro r hr
    split <;> simp [Line.computes, Operand.isPlain, hr]
  unfold State.normalize
  dsimp only
  split
  · exact State.Computed.rfl.op (hline .al (by decide))
  · split
    · exact State.Computed.rfl.op (hline .ax (by decide))
    · exact .rfl

variable (t : Primitive)

theorem divide_computed (remainder : Bool) (s : State) : s.Computed (divide t remainder s) := by
  have hquot : s.Computed (if t.isSigned then (s.op "CDQ" []).op "IDIV" [.register .ecx]
      else (s.op "XOR" [.register .edx, .register .edx]).op "DIV" [.register .ecx]) := by
    split <;> exact (State.Computed.rfl.op rfl).op rfl
  unfold divide
  dsimp only
  split
  · exact hquot.op rfl
  · exact hquot

theorem compare_computed (h : mnemonic = "SETE" ∨ mnemonic = "SETNE") (s : State) :
    s.Computed (compare mnemonic s) := by
  have hset : (Line.instruction mnemonic [.register .al]).computes = true := by
    rcases h with rfl | rfl <;> rfl
  exact ((State.Computed.rfl.op rfl).op hset).op rfl

/-- The result of an operator is a truth value or has the type of the operands. -/
theorem operate_computed (s : State) : s.Computed (operate opcode t s).1 ∧
      ((operate opcode t s).2 = t ∨ (operate opcode t s).2 = .bool) := by
  cases opcode with
  | add | sub | mul => exact ⟨State.Computed.rfl.op rfl, .inl rfl⟩
  | div => exact ⟨divide_computed t false s, .inl rfl⟩
  | rem => exact ⟨divide_computed t true s, .inl rfl⟩
  | equals => exact ⟨compare_computed (.inl rfl) s, .inr rfl⟩
  | _ => exact ⟨compare_computed (.inr rfl) s, .inr rfl⟩

theorem operated_computed (s : State) :
    s.Computed (if (operate opcode t s).2 = t then (operate opcode t s).1.normalize t
      else (operate opcode t s).1) := by
  split
  · exact (operate_computed opcode t s).1.trans (normalize_computed _ t)
  · exact (operate_computed opcode t s).1

theorem converted_computed (target : Primitive) (s : State) : s.Computed (if target = .bool then
      ((s.op "TEST" [.register .eax, .register .eax]).op "SETNE" [.register .al]).op
        "MOVZX" [.register .eax, .register .al]
      else s.normalize target) := by
  split
  · exact ((State.Computed.rfl.op rfl).op rfl).op rfl
  · exact normalize_computed s target

/-- A test compares with zero or with a number, and the jump behind it may be passed. -/
theorem test_computed {cond : Condition} {number : Option Int} {signed : Bool}
    {jump : String} (hforced : cond ≠ .forced)
    (h : test i cond number signed s = .ok (s₁, jump)) : s.Computed s₁ ∧ jump ≠ "JMP" := by
  have hcompare : ∀ x : Int, (Line.instruction "CMP" [.register .eax, .number x]).computes = true :=
    fun _ => rfl
  cases cond with
  | forced => exact absurd rfl hforced
  | true | false | zero =>
    cases h
    exact ⟨State.Computed.rfl.op rfl, by decide⟩
  | equal | unequal | greater | lesser | greaterEqual | lesserEqual =>
    cases number with
    | none => cases h
    | some x =>
      cases h
      refine ⟨State.Computed.rfl.op (hcompare x), ?_⟩
      cases signed <;> decide

theorem loadConstant_leads (hop : i.opcode ≠ .call) (h : loadConstant c i s = .ok s₁) :
    Leads c i k s 0 [] s₁ 0 [] := by
  obtain ⟨⟨_, _⟩, _, hconst, -, h⟩ := of_bind₂ h
  obtain ⟨⟨data, _⟩, -, h⟩ := of_bind h
  cases h
  have hintern : Leads c i k s 0 [] { s with shared := { s.shared with data } } 0 [] :=
    .action (.intern data) ⟨s.listing.extended_nil.symm, rfl, rfl, rfl⟩
  apply hintern.trans
  exact push_leads ⟨hop, (Instruction.constant_ok (reading_ok hconst)).1⟩
    (fun hop => by cases hop)

theorem getLocal_leads (h : getLocal i s = .ok s₁) : Leads c i k s 0 [] s₁ 0 [] := by
  obtain ⟨_, hindex, h⟩ := of_bind h
  obtain ⟨type, ht, h⟩ := of_bind h
  cases type with
  | none => cases h
  | some =>
    cases h
    have hindex := Instruction.localIndex_ok (reading_ok hindex)
    exact push_leads ⟨hindex, ht⟩ (fun hop => by cases hop)

/-- An operator as such a row. -/
theorem binary_leads (hop : i.opcode ≠ .call) (ha : Apart s.frame s.stack)
    (hk : k ≤ s.stack.length - 2) (h : binary c i s = .ok s₁) : Leads c i k s 0 [] s₁ 0 [] := by
  obtain ⟨t, _, htype, -, h⟩ := of_bind₂ h
  obtain ⟨⟨left, r⟩, hleft, h⟩ := of_bind h
  obtain ⟨⟨right, r'⟩, q', hright, hloads, h⟩ := of_bind₂ h
  obtain ⟨q, hload, hload'⟩ := of_bind hloads
  have htype := Instruction.operandType_ok (reading_ok htype)
  have hlen := length_of_pop hleft
  have hlen' := length_of_pop hright
  have hleft := @pop_leads c i k 0 s r [] left hleft (by omega)
  have hright := @pop_leads c i k 0 r r' [left] right hright (by omega)
  have htaken := hleft.trans hright
  obtain ⟨hspilled, hclear, -⟩ := @spill_leads c i k 0 r' [right, left] (htaken.apart ha)
  obtain ⟨hloaded, hq⟩ := @load_leads c i k 0 r'.spill q [left] right .ecx hload (.inr rfl)
    (fun h => by cases h)
  obtain ⟨hloaded', hq'⟩ := @load_leads c i k 0 q q' [] left .eax hload' (.inl rfl)
    (fun _ => by rw [hq]; exact hclear)
  have hleads := ((htaken.trans hspilled).trans hloaded).trans hloaded'
  have hclear' : Clear q'.stack := by
    rw [hq', hq]
    exact hclear
  have hres := (operate_computed i.opcode t q').2
  have hcomputed := operated_computed i.opcode t q'
  rcases hoperate : operate i.opcode t q' with ⟨_, _⟩
  rw [hoperate] at h hcomputed hres
  cases h
  obtain ⟨hdone, hstack⟩ := @State.Computed.leads c i k 0 q' _ [] hcomputed hclear'
  refine (hleads.trans hdone).trans (push_leads ?_ fun _ => ?_)
  · rcases hres with rfl | rfl
    · exact .inl ⟨htype, fun hcall => absurd hcall hop⟩
    · exact .inr rfl
  · exact hstack ▸ hclear'

/-! ## Calls -/

theorem map_value_layOut (h : types.length = values.length) (offset : Nat) :
    (layOut offset types values).map Argument.value = values := by
  induction types generalizing values offset with
  | nil =>
    rw [length_nil] at h
    rw [length_eq_zero_iff.1 h.symm]
    rfl
  | cons _ _ ih =>
    cases values with
    | nil => cases h
    | cons => rw [layOut, map_cons, ih (Nat.succ.inj h)]

theorem layOut_bounds {offset : Nat} {a : Argument} (h : a ∈ layOut offset types values) :
    ∃ t ∈ types, a.value ∈ values ∧ a.size = t.size ∧
      a.offset + t.size ≤ offset + totalSize types := by
  induction types generalizing values offset with
  | nil => cases h
  | cons t types ih =>
    cases values with
    | nil => cases h
    | cons v =>
      have htotal : totalSize (t :: types) = t.size + totalSize types := rfl
      rw [layOut] at h
      rcases mem_cons.1 h with rfl | h
      · refine ⟨t, mem_cons_self, mem_cons_self, rfl, ?_⟩
        dsimp only
        omega
      · obtain ⟨u, hu, hvalue, hsize, _⟩ := ih h
        exact ⟨u, mem_cons_of_mem t hu, mem_cons_of_mem v hvalue, hsize, by omega⟩

theorem storeArgument_leads {a : Argument} {t : Primitive} (ht : Passes c i a.value t)
    (hsize : a.size = t.size) (hbound : a.offset + t.size ≤ n) (hclear : Clear (held ++ s.stack))
    (h : storeArgument c a s = .ok s₁) :
    Leads c i k s n (a.value :: held) s₁ n held ∧ s₁.stack = s.stack := by
  obtain ⟨v, size, offset⟩ := a
  dsimp only at ht hsize hbound ⊢
  subst hsize
  have hstore : ∃ lines,
      storeLines? s.frame (.argument (.ofSize t.size) offset) t.size v = some lines ∧
        s₁ = s.advance lines (s.frame.release v) s.stack := by
    cases v with
    | constant =>
      cases h
      exact ⟨_, rfl, rfl⟩
    | stored | operation | temp =>
      obtain ⟨_, hload, h⟩ := of_bind h
      cases h
      obtain ⟨lines, hlines, hstate⟩ :=
        store_ok rfl hload (.argument (.ofSize t.size) offset) t.size
      exact ⟨lines, hlines, hstate⟩
  obtain ⟨lines, hlines, rfl⟩ := hstore
  exact ⟨.action (.argument ht hbound hlines fun _ => hclear) (extends_advance ..), rfl⟩

/-- Arguments are stored one by one; only the first may be in `EAX`. -/
theorem storeArguments_leads {arguments : List Argument}
    (hfit : ∀ a ∈ arguments, ∃ t, Passes c i a.value t ∧ a.size = t.size ∧ a.offset + t.size ≤ n)
    (hclear : Clear (arguments.tail.map Argument.value ++ s.stack)) 
    (h : storeArguments c arguments s = .ok s₁) :
    Leads c i k s n (arguments.map Argument.value) s₁ n [] ∧ s₁.stack = s.stack := by
  induction arguments generalizing s with
  | nil =>
    cases h
    exact ⟨.refl, rfl⟩
  | cons a rest ih =>
    obtain ⟨r, hfirst, hrest⟩ := of_bind h
    obtain ⟨t, ht, hsize, hbound⟩ := hfit a mem_cons_self
    obtain ⟨hleads, hstack⟩ := @storeArgument_leads c i k n s r _ a t ht hsize hbound hclear hfirst
    have hclear' : Clear (rest.tail.map Argument.value ++ r.stack) := by
      rw [hstack]
      intro v hv
      apply hclear v
      rw [mem_append] at hv ⊢
      exact hv.imp_left fun hv => ((tail_sublist rest).map Argument.value).subset hv
    obtain ⟨hleads', hstack'⟩ := ih (fun b hb => hfit b (mem_cons_of_mem a hb)) hclear' hrest
    exact ⟨hleads.trans hleads', hstack'.trans hstack⟩

/-- If at most one argument is in `EAX`, none but the first is there once that one is put first. -/
theorem clear_tail_ordered (hsingle : (laid.map Argument.value).countP StackValue.isOperation ≤ 1) :
    Clear (((laid.filter fun a => a.value.isOperation) ++
      laid.filter fun a => !a.value.isOperation).tail.map Argument.value) := by
  have hothers : ∀ a ∈ laid.filter fun a => !a.value.isOperation, a.value.isOperation = false := by
    intro a hmem
    simpa using (mem_filter.1 hmem).2
  intro _ hv
  obtain ⟨a, hmem, rfl⟩ := List.mem_map.1 hv
  cases hfirst : laid.filter fun a => a.value.isOperation with
  | nil =>
    rw [hfirst] at hmem
    exact hothers a (mem_of_mem_tail hmem)
  | cons b rest =>
    have hlen : (laid.filter fun a => a.value.isOperation).length ≤ 1 := by
      rw [← countP_eq_length_filter]
      rwa [countP_map] at hsingle
    rw [hfirst, length_cons] at hlen
    have hrest : rest = [] := length_eq_zero_iff.1 (by omega)
    rw [hfirst, hrest] at hmem
    exact hothers a hmem

theorem clear_ordered {f : Frame} (ha : Apart f (laid.map Argument.value ++ vs)) (hvs : Clear vs) :
    Clear (((laid.filter fun a => a.value.isOperation) ++
      laid.filter fun a => !a.value.isOperation).tail.map Argument.value ++ vs) := by
  have hsingle := ha.single
  rw [countP_append] at hsingle
  exact forall_mem_append.2 ⟨clear_tail_ordered (by omega), hvs⟩

/-- A call as a row of actions on the virtual stack. -/
theorem emitCall_leads {label : String} {parameters : Types} {arguments : Stack}
    {result : Primitive} (hlen : parameters.length = arguments.length)
    (hpasses : ∀ v ∈ arguments, ∀ t ∈ parameters, Passes c i v t) (hres : i.type? = some result)
    (ha : Apart s.frame (arguments ++ s.stack))
    (h : emitCall c label parameters arguments result s = .ok s₁) :
    Leads c i k s 0 arguments s₁ 0 [] := by
  obtain ⟨q, hstore, h⟩ := of_bind h
  cases h
  obtain ⟨hspilled, hclear, -⟩ := @spill_leads c i k 0 s arguments ha
  -- the argument area, if there are arguments
  have hreserved : Leads c i k s.spill 0 arguments
      (if 0 < totalSize parameters then
        s.spill.op "SUB" [.register .esp, .number (totalSize parameters)] else s.spill)
      (totalSize parameters) arguments := by
    by_cases htotal : 0 < totalSize parameters
    · rw [if_pos htotal]
      exact .action (.reserve _) ⟨rfl, rfl, rfl, rfl⟩
    · rw [if_neg htotal, Nat.eq_zero_of_not_pos htotal]
      exact .refl
  generalize hr : (if 0 < totalSize parameters then
    s.spill.op "SUB" [.register .esp, .number (totalSize parameters)] else s.spill) = r
    at hreserved hstore
  have hstack : r.stack = s.spill.stack := by
    rw [← hr]
    split <;> rfl
  have hvalues := map_value_layOut hlen 0
  have hperm := filter_append_perm (fun a : Argument => a.value.isOperation)
    (layOut 0 parameters arguments)
  have hord := (hperm.map Argument.value).symm
  rw [hvalues] at hord
  have hord : Leads c i k r (totalSize parameters) arguments r (totalSize parameters) _ :=
    .action (.reorder hord) .rfl
  have hleads := (hspilled.trans hreserved).trans hord
  have hapart := (hspilled.trans hreserved).apart ha
  rw [← hvalues] at hapart
  obtain ⟨hstored, hq⟩ := @storeArguments_leads c i k (totalSize parameters) r q _ (by
    intro a hmem
    obtain ⟨t, ht, hvalue, hsize, _⟩ := layOut_bounds (hperm.mem_iff.1 hmem)
    exact ⟨t, hpasses a.value hvalue t ht, hsize, by omega⟩)
    (clear_ordered hapart (hstack ▸ hclear)) hstore
  have hclear : Clear q.stack := by
    rw [hq, hstack]
    exact hclear
  have hcalled : Leads c i k q (totalSize parameters) []
      { q.op "CALL" [.label label] with shared := q.shared.recordCall label } 0 [] :=
    .action (.call label hclear) ⟨rfl, rfl, rfl, rfl⟩
  have hleads := (hleads.trans hstored).trans hcalled
  by_cases hvoid : result = .void
  · rw [if_pos hvoid]
    exact hleads
  · rw [if_neg hvoid]
    exact hleads.trans (push_leads (.inl ⟨hres, fun _ => hvoid⟩) fun _ => hclear)

theorem popArguments_leads {count : Nat} {arguments taken : Stack}
    (hk : k ≤ s.stack.length - count) (h : popArguments c i count taken s = .ok (arguments, s₁)) :
    Leads c i k s n taken s₁ n arguments ∧ arguments.length = count + taken.length := by
  induction count generalizing s taken with
  | zero =>
    cases h
    exact ⟨.refl, (Nat.zero_add _).symm⟩
  | succ _ ih =>
    obtain ⟨⟨_, _⟩, hpop, h⟩ := of_bind h
    have hlen := length_of_pop hpop
    obtain ⟨hleads, hcount⟩ := ih (by omega) h
    refine ⟨(pop_leads hpop (by omega)).trans hleads, ?_⟩
    rw [hcount, length_cons]
    omega

/-- The number of entries that an instruction takes. -/
def Context.takes (c : Context) (i : Instruction) : Nat :=
  match i.opcode with
  | .setLocal | .convert | .pop => 1
  | .add | .sub | .mul | .div | .rem | .equals | .unequals => 2
  | .call =>
    (i.callTarget.toOption.bind fun r =>
      (c.program.findMethod? r.2).bind c.program.methodAt?).elim 0 fun m => m.parameterTypes.length
  | .branch => if i.condition.toOption.map Prod.fst = some .forced then 0 else 1
  | .ret => if c.method.returnType = .void then 0 else 1
  | _ => 0

theorem callStatic_leads (hop : i.opcode = .call) (ha : Apart s.frame s.stack)
    (hk : k ≤ s.stack.length - c.takes i) (h : callStatic c i s = .ok s₁) :
    Leads c i k s 0 [] s₁ 0 [] := by
  obtain ⟨⟨_, target⟩, htarget, h⟩ := of_bind h
  have htarget := reading_ok htarget
  cases hcallee : (c.program.findMethod? target).bind c.program.methodAt? with
  | none =>
    simp only [hcallee] at h
    cases h
  | some callee =>
    simp only [hcallee] at h
    obtain ⟨_, _, -, -, h⟩ := of_bind₂ h
    obtain ⟨⟨arguments, r⟩, hpop, h⟩ := of_bind h
    have htakes : c.takes i = callee.parameterTypes.length := by
      simp only [Context.takes, hop, htarget, Except.toOption, Option.bind_some, hcallee,
        Option.elim_some]
    obtain ⟨htaken, hlen⟩ := @popArguments_leads c i k 0 s r _ arguments [] (htakes ▸ hk) hpop
    have hmem := Program.mem_of_bind_methodAt? hcallee
    refine htaken.trans (emitCall_leads hlen.symm ?_ (Instruction.callTarget_ok htarget).1
      (htaken.apart ha) h)
    exact fun _ _ _ ht => .inr ⟨callee, hmem, ht⟩

/-! ## Conversions -/

theorem convertValue_leads {target : Primitive} (hop : i.opcode = .convert)
    (htype : i.type? = some target) (ha : Apart s.frame (v :: s.stack))
    (h : convertValue c v target s = .ok s₁) : Leads c i k s 0 [v] s₁ 0 [] := by
  obtain ⟨q, hload, h⟩ := of_bind h
  cases h
  obtain ⟨hcleared, hclear, -⟩ := @clear_leads c i k 0 s v ha
  obtain ⟨hloaded, hq⟩ := @load_leads c i k 0 _ q [] v .eax hload (.inl rfl) (fun _ => hclear)
  have hclear : Clear q.stack := by
    rw [hq]
    exact hclear
  obtain ⟨hdone, hstack⟩ := @State.Computed.leads c i k 0 q _ [] (converted_computed target q) hclear
  refine ((hcleared.trans hloaded).trans hdone).trans (push_leads ?_ fun _ => hstack ▸ hclear)
  exact .inl ⟨htype, fun hcall => by rw [hop] at hcall; cases hcall⟩

/-- A conversion as such a row. -/
theorem convert_leads (hop : i.opcode = .convert) (ha : Apart s.frame s.stack)
    (hk : k ≤ s.stack.length - 1) (h : convert c i s = .ok s₁) : Leads c i k s 0 [] s₁ 0 [] := by
  obtain ⟨target, ⟨v, r⟩, htarget, hpop, h⟩ := of_bind₂ h
  have htarget := Instruction.operandType_ok (reading_ok htarget)
  have hlen := length_of_pop hpop
  have htaken := @pop_leads c i k 0 s r [] v hpop (by omega)
  have hapart := htaken.apart ha
  apply htaken.trans
  dsimp only at h
  by_cases hsame : v.type = target
  · rw [if_pos hsame] at h
    cases h
    exact .action (.restore (hsame ▸ htarget)) ⟨r.listing.extended_nil.symm, rfl, rfl, rfl⟩
  rw [if_neg hsame] at h
  by_cases htext : v.type = .str ∨ target = .str
  · rw [if_pos htext] at h
    refine emitCall_leads rfl ?_ htarget hapart h
    intro _ hw t ht
    rw [mem_singleton.1 hw, mem_singleton.1 ht]
    exact .inl ⟨hop, rfl⟩
  rw [if_neg htext] at h
  by_cases hsupp : (!Context.isSupported v.type || !Context.isSupported target) = true
  · rw [if_pos hsupp] at h
    cases h
  rw [if_neg hsupp] at h
  by_cases hnumber : ∃ t n, v = .constant t (.number n)
  · obtain ⟨t, n, rfl⟩ := hnumber
    cases h
    have hdropped : Leads c i k r 0 [.constant t (.number n)] r 0 [] := .action .discard .rfl
    have hcall : i.opcode ≠ .call := by
      rw [hop]
      decide
    exact hdropped.trans (push_leads ⟨hcall, htarget⟩ (fun hop => by cases hop))
  · have hvalue : convertValue c v target r = .ok s₁ := by
      rw [← h]
      split
      · exact absurd ⟨_, _, rfl⟩ hnumber
      · rfl
    exact convertValue_leads hop htarget hapart hvalue

/-! ## Returns and dropped entries -/

theorem epilogue_eq (s : State) :
    s.epilogue = s.advance (epilogueLines s.frame) s.frame s.stack := by
  have hsize : (s.op "LEAVE" []).frame.parametersSize = s.frame.parametersSize := rfl
  unfold State.epilogue epilogueLines
  dsimp only
  rw [hsize]
  split <;> simp [State.op_eq_advance, State.advance_advance]

theorem ret_leads (hk : k ≤ s.stack.length - if c.method.returnType = .void then 0 else 1)
    (h : ret c i s = .ok s₁) : Leads c i k s 0 [] s₁ 0 [] := by
  unfold ret at h
  by_cases hvoid : c.method.returnType = .void
  · rw [if_pos hvoid] at h
    cases h
    rw [epilogue_eq]
    exact .action .leave (extends_advance ..)
  · rw [if_neg hvoid] at h hk
    obtain ⟨⟨v, r⟩, _, hpop, hload, h⟩ := of_bind₂ h
    cases h
    have hlen := length_of_pop hpop
    obtain ⟨_, hlines, rfl⟩ := load_ok hload
    refine (@pop_leads c i k 0 s r [] v hpop (by omega)).trans ?_
    rw [epilogue_eq, State.advance_advance]
    exact .action (.deliver hlines) (extends_advance ..)

theorem drop_leads (hk : k ≤ s.stack.length - 1) (h : drop c i s = .ok s₁) :
    Leads c i k s 0 [] s₁ 0 [] := by
  obtain ⟨⟨v, r⟩, hpop, h⟩ := of_bind h
  have hlen := length_of_pop hpop
  refine (@pop_leads c i k 0 s r [] v hpop (by omega)).trans ?_
  have hstate : s₁ = { r with frame := r.frame.release v } := by
    cases v <;> exact (Except.ok.inj h).symm
  rw [hstate]
  exact .action .discard ⟨r.listing.extended_nil.symm, rfl, rfl, rfl⟩

end

/-! ## Instructions -/

/-- Whether an opcode makes and binds no bridges. -/
def bridgeless : Opcode → Bool
  | .branch | .otherwise | .endBranch | .jump => false
  | _ => true

/-- The listing with the bridges of open conditionals and of jumps. -/
structure Control where
  listing : Listing
  conditionals : List Bridge
  jumps : List (Bridge × Int)

def State.control (s : State) : Control := ⟨s.listing, s.conditionals, s.jumps⟩

/-- What the instruction at `index` does about bridges, with the lines of its actions. -/
inductive Arranges (index : Nat) (i : Instruction) (lines : List Line) :
    Control → Control → Prop where
  | plain {l : Listing} {cs : List Bridge} {js : List (Bridge × Int)}
      (hop : bridgeless i.opcode = true) :
      Arranges index i lines ⟨l, cs, js⟩ ⟨l.extended lines, cs, js⟩
  /-- A forced conditional has no jump, but a bridge. -/
  | forced {l : Listing} {cs : List Bridge} {js : List (Bridge × Int)} {number : Option Int}
      (hop : i.opcode = .branch) (hbranch : i.branch? = some (.branch .forced number))
      (hlines : lines = []) :
      Arranges index i lines ⟨l, cs, js⟩ ⟨l.newBridge.1, l.bridges.length :: cs, js⟩
  | tested {l : Listing} {cs : List Bridge} {js : List (Bridge × Int)} {cond : Condition}
      {number : Option Int} {mnemonic : String} (hop : i.opcode = .branch)
      (hbranch : i.branch? = some (.branch cond number)) (hforced : cond ≠ .forced)
      (hjump : mnemonic ≠ "JMP") :
      Arranges index i lines ⟨l, cs, js⟩
        ⟨(l.newBridge.1.extended lines).jump mnemonic l.bridges.length,
          l.bridges.length :: cs, js⟩
  | divided {l : Listing} {skip : Bridge} {cs : List Bridge} {js : List (Bridge × Int)}
      (hop : i.opcode = .otherwise) (hlines : lines = []) :
      Arranges index i lines ⟨l, skip :: cs, js⟩
        ⟨(l.newBridge.1.jump "JMP" l.bridges.length).patchHere skip, l.bridges.length :: cs, js⟩
  | closed {l : Listing} {skip : Bridge} {cs : List Bridge} {js : List (Bridge × Int)}
      (hop : i.opcode = .endBranch) (hlines : lines = []) :
      Arranges index i lines ⟨l, skip :: cs, js⟩ ⟨l.patchHere skip, cs, js⟩
  | jumped {l : Listing} {cs : List Bridge} {js : List (Bridge × Int)} {offset : Int}
      (hop : i.opcode = .jump) (hlines : lines = []) :
      Arranges index i lines ⟨l, cs, js⟩
        ⟨l.newBridge.1.jump "JMP" l.bridges.length, cs,
          js ++ [(l.bridges.length, index + offset)]⟩

variable {index : Nat} {s : State} {c : Context} {l : Listing} {s' : State} {starts : List Nat}
  {i : Instruction} {shared : Shared} {bound : Listing}

/-- Behind the lines of its actions, an instruction adds at most a jump. -/
theorem Arranges.lines_eq {lines : List Line} {x y : Control} (h : Arranges index i lines x y) :
    ∃ closing, y.listing.lines = x.listing.lines ++ (lines ++ closing) ∧
      (closing = [] ∨ ∃ mnemonic bridge, closing = [.jump mnemonic bridge]) ∧
      y.listing.label = x.listing.label := by
  cases h with
  | plain => exact ⟨[], by simp [Listing.extended], .inl rfl, rfl⟩
  | forced _ _ hlines | closed _ hlines =>
    subst hlines
    exact ⟨[], (append_nil _).symm, .inl rfl, rfl⟩
  | @tested l _ _ _ _ mnemonic =>
    exact ⟨[.jump mnemonic l.bridges.length], append_assoc .., .inr ⟨_, _, rfl⟩, rfl⟩
  | @divided l _ _ _ _ hlines | @jumped l _ _ _ _ hlines =>
    subst hlines
    exact ⟨[.jump "JMP" l.bridges.length], rfl, .inr ⟨_, _, rfl⟩, rfl⟩

section

variable {c : Context} {i : Instruction} {k index : Nat} {s s₁ : State}

/-- A conditional that tests a value leaves none in `EAX`. -/
theorem openBranch_ok (hop : i.opcode = .branch) (ha : Apart s.frame s.stack)
    (hk : k ≤ s.stack.length - c.takes i) (h : openBranch c i s = .ok s₁) :
    ∃ lines, Acts c i k (s.stage 0 []) lines (s₁.stage 0 []) ∧ s₁.starts = s.starts ∧
      Arranges index i lines s.control s₁.control ∧
      ((∃ number, i.branch? = some (.branch .forced number)) ∨ Clear s₁.stack) := by
  obtain ⟨⟨cond, number⟩, hcond, h⟩ := of_bind h
  have hcond := reading_ok hcond
  have hbranch := Instruction.branch?_of_condition hcond
  dsimp only at h
  by_cases hforced : cond = .forced
  · subst hforced
    rw [if_pos rfl] at h
    cases h
    exact ⟨[], .refl, rfl, .forced hop hbranch rfl, .inl ⟨number, hbranch⟩⟩
  · rw [if_neg hforced] at h
    obtain ⟨⟨v, r⟩, q, hpop, hload, h⟩ := of_bind₂ h
    obtain ⟨⟨q', mnemonic⟩, htest, h⟩ := of_bind h
    cases h
    have htakes : c.takes i = 1 := by
      simp [Context.takes, hop, hcond, Except.toOption, hforced]
    have hlen := length_of_pop hpop
    obtain ⟨hcomputed, hjump⟩ := test_computed hforced htest
    have htaken := @pop_leads c i k 0 _ r [] v hpop (by
      have : ({ s with listing := s.listing.newBridge.1 } : State).stack.length = s.stack.length :=
        rfl
      omega)
    obtain ⟨hspilled, hclear, -⟩ := @spill_leads c i k 0 r [v] (htaken.apart ha)
    obtain ⟨hloaded, hq⟩ := @load_leads c i k 0 _ q [] v .eax hload (.inl rfl) (fun _ => hclear)
    have hclear : Clear q.stack := by
      rw [hq]
      exact hclear
    obtain ⟨hdone, hstack⟩ := @State.Computed.leads c i k 0 q q' [] hcomputed hclear
    obtain ⟨lines, hext, hacts⟩ := ((htaken.trans hspilled).trans hloaded).trans hdone
    refine ⟨lines, hacts, hext.starts, ?_, .inr (hstack ▸ hclear)⟩
    have hcontrol : State.control { q' with
        listing := q'.listing.jump mnemonic s.listing.bridges.length
        conditionals := s.listing.bridges.length :: q'.conditionals } =
        ⟨(s.listing.newBridge.1.extended lines).jump mnemonic s.listing.bridges.length,
          s.listing.bridges.length :: s.conditionals, s.jumps⟩ := by
      rw [State.control, hext.listing, hext.conditionals, hext.jumps]
    exact hcontrol ▸ .tested hop hbranch hforced hjump

/-- Every compiled instruction is a row of actions, behind which bridges are made and bound. -/
theorem step_ok (ha : Apart s.frame s.stack) (hk : k ≤ s.stack.length - c.takes i)
    (h : step c index i s = .ok s₁) :
    ∃ lines, Acts c i k (s.stage 0 []) lines (s₁.stage 0 []) ∧ s₁.starts = s.starts ∧
      Arranges index i lines s.control s₁.control := by
  have hplain : ∀ {op : Opcode}, i.opcode = op → bridgeless op = true →
      Leads c i k s 0 [] s₁ 0 [] →
      ∃ lines, Acts c i k (s.stage 0 []) lines (s₁.stage 0 []) ∧ s₁.starts = s.starts ∧
        Arranges index i lines s.control s₁.control := by
    rintro _ rfl hop ⟨lines, hext, hacts⟩
    refine ⟨lines, hacts, hext.starts, ?_⟩
    have hcontrol : s₁.control = ⟨s.listing.extended lines, s.conditionals, s.jumps⟩ := by
      rw [State.control, hext.listing, hext.conditionals, hext.jumps]
    exact hcontrol ▸ .plain hop
  have htakes : ∀ {n : Nat}, c.takes i = n → k ≤ s.stack.length - n := by
    rintro _ rfl
    exact hk
  unfold step at h
  cases hop : i.opcode <;> rw [hop] at h
  case nop =>
    cases h
    exact hplain hop rfl .refl
  case loadConst => exact hplain hop rfl (loadConstant_leads (by simp [hop]) h)
  case getLocal => exact hplain hop rfl (getLocal_leads h)
  case setLocal =>
    exact hplain hop rfl (setLocal_leads hop ha (htakes (by simp only [Context.takes, hop])) h).1
  case add | sub | mul | div | rem | equals | unequals =>
    exact hplain hop rfl
      (binary_leads (by simp [hop]) ha (htakes (by simp only [Context.takes, hop])) h)
  case convert =>
    exact hplain hop rfl (convert_leads hop ha (htakes (by simp only [Context.takes, hop])) h)
  case call => exact hplain hop rfl (callStatic_leads hop ha hk h)
  case ret => exact hplain hop rfl (ret_leads (htakes (by simp only [Context.takes, hop])) h)
  case pop => exact hplain hop rfl (drop_leads (htakes (by simp only [Context.takes, hop])) h)
  case branch =>
    obtain ⟨lines, hacts, hstarts, harranges, -⟩ := @openBranch_ok c i k index s s₁ hop ha hk h
    exact ⟨lines, hacts, hstarts, harranges⟩
  case jump =>
    obtain ⟨offset, target, -, htarget, h⟩ := of_bind₂ h
    obtain ⟨rfl, -⟩ := inWord_ok htarget
    cases h
    exact ⟨[], .refl, rfl, .jumped hop rfl⟩
  case otherwise | endBranch =>
    dsimp only [otherwise, endBranch] at h
    rcases hcs : s.conditionals with _ | ⟨skip, rest⟩
    · rw [hcs] at h
      cases h
    · rw [hcs] at h
      cases h
      refine ⟨[], .refl, rfl, ?_⟩
      rw [State.control, hcs]
      first | exact .divided hop rfl | exact .closed hop rfl

theorem step_apart (ha : Apart s.frame s.stack) (h : step c index i s = .ok s₁) :
    Apart s₁.frame s₁.stack := by
  obtain ⟨_, hacts, -⟩ := step_ok ha (Nat.zero_le _) h
  exact hacts.apart ha

end

/-! ## Code -/

/-- The state behind code from `index` on, before the instruction that comes next is noted. -/
def walk (c : Context) : Nat → Code → State → Compiling State
  | _, [], s => .ok s
  | index, i :: rest, s => do
    let s ← step c index i s.mark
    walk c (index + 1) rest s

theorem walk_append (c : Context) (a b : Code) (index : Nat) (s : State) :
    walk c index (a ++ b) s = walk c index a s >>= walk c (index + a.length) b := by
  induction a generalizing index s with
  | nil => rfl
  | cons i _ ih =>
    rw [cons_append, walk, walk]
    cases hstep : step c index i s.mark with
    | error => rfl
    | ok =>
      rw [ok_bind, ok_bind, ih, length_cons]
      congr 2
      omega

theorem steps_eq_walk (c : Context) (index : Nat) (code : Code) (s : State) :
    steps c index code s = walk c index code s >>= fun r => .ok r.mark := by
  induction code generalizing index s with
  | nil => rfl
  | cons i _ ih =>
    rw [steps, walk]
    cases hstep : step c index i s.mark with
    | error => rfl
    | ok s₁ =>
      rw [ok_bind, ok_bind]
      exact ih (index + 1) s₁

theorem steps_append {a : Code} {s' : State} (h : walk c index a s = .ok s')
    (b : Code) : steps c index (a ++ b) s = steps c (index + a.length) b s' := by
  rw [steps_eq_walk, walk_append, h, ok_bind, steps_eq_walk]

/-- What the first instruction of code does, and the state that the others start from. -/
theorem walk_cons_ok {rest : Code} (ha : Apart s.frame s.stack)
    (h : walk c index (i :: rest) s = .ok s') :
    ∃ s₁ lines, Acts c i 0 (s.stage 0 []) lines (s₁.stage 0 []) ∧ s₁.starts = s.mark.starts ∧
      Arranges index i lines s.control s₁.control ∧ Apart s₁.frame s₁.stack ∧
      walk c (index + 1) rest s₁ = .ok s' := by
  obtain ⟨s₁, hstep, h⟩ := of_bind h
  obtain ⟨lines, hacts, hstarts, harranges⟩ :=
    @step_ok c i 0 index s.mark s₁ ha (Nat.zero_le _) hstep
  exact ⟨s₁, lines, hacts, hstarts, harranges, hacts.apart ha, h⟩

/-- Code keeps the entries apart. -/
theorem walk_apart {code : Code} (ha : Apart s.frame s.stack)
    (h : walk c index code s = .ok s') : Apart s'.frame s'.stack := by
  induction code generalizing index s with
  | nil =>
    cases h
    exact ha
  | cons _ _ ih =>
    obtain ⟨_, _, -, -, -, ha₁, h⟩ := walk_cons_ok ha h
    exact ih ha₁ h

theorem start_apart {c : Context} {label : String} {shared : Shared} :
    Apart (State.start c label shared).frame (State.start c label shared).stack :=
  ⟨nodup_nil, by simp [State.start], Nat.zero_le 1⟩

/-! ## Methods -/

/-- The context in which a method of a program is compiled. -/
def Context.of (p : Program) (m : Method) : Context := ⟨p, m, (p.referenceOf m).text⟩

/-- The state before the first instruction of a method. -/
def startOf (p : Program) (m : Method) (shared : Shared) : State :=
  .start (.of p m) (p.referenceOf m).asmLabel shared

/-- The state behind code: the method is left there, unless the last instruction does so. -/
def State.ended (code : Code) (s : State) : State :=
  if code.getLast?.map (·.opcode) = some .ret then s else s.epilogue

theorem State.ended_eq (code : Code) (s : State) :
    s.ended code = s.advance (if code.getLast?.map (·.opcode) = some .ret then []
      else epilogueLines s.frame) s.frame s.stack := by
  unfold ended
  split
  · exact s.advance_nil.symm
  · exact epilogue_eq s

/-- A listing as it comes from a method, with the state behind its code. -/
structure Compiled (p : Program) (m : Method) (shared : Shared) (l : Listing) (s : State) :
    Prop where
  supported : ∀ t ∈ m.parameterTypes ++ m.locals, Context.isSupported t = true
  code : walk (.of p m) 0 m.code (startOf p m shared) = .ok s
  closed : s.conditionals = []
  listing : ∃ bound,
    bindJumps (.of p m) s.mark.starts s.jumps (s.ended m.code).listing = .ok bound ∧
      l = { bound.sealed with
        lines := bound.sealed.lines.set 0 (.instruction "ENTER" [.number s.frame.size, .number 0]) }

theorem checkTypes_ok {types : Types} (h : c.checkTypes types = .ok ()) :
    ∀ t ∈ types, Context.isSupported t = true := by
  induction types with
  | nil => simp
  | cons t _ ih =>
    obtain ⟨_, hfirst, hrest⟩ := of_bind h
    refine forall_mem_cons.2 ⟨?_, ih hrest⟩
    cases hsupp : Context.isSupported t with
    | true => rfl
    | false =>
      rw [Context.checkType, hsupp] at hfirst
      cases hfirst

/-- A method is compiled from its code, then its jumps are bound and its frame is reserved. -/
theorem compileMethod_eq (p : Program) (m : Method) (shared : Shared) :
    compileMethod p m shared = do
      (Context.of p m).checkType m.returnType
      (Context.of p m).checkTypes (m.parameterTypes ++ m.locals)
      let s ← walk (.of p m) 0 m.code (startOf p m shared)
      if s.conditionals ≠ [] then throw (Context.of p m).unbalanced
      else do
        let bound ← bindJumps (.of p m) s.mark.starts s.jumps (s.ended m.code).listing
        return ({ bound.sealed with
          lines := bound.sealed.lines.set 0
            (.instruction "ENTER" [.number s.frame.size, .number 0]) }, s.shared) := by
  unfold compileMethod
  simp only [steps_eq_walk, bind_assoc, ok_bind]
  congr 1
  funext _
  congr 1
  funext _
  congr 1
  funext s
  have hended := s.mark.ended_eq m.code
  rw [State.ended] at hended
  simp only [hended, s.ended_eq]
  rfl

theorem compileMethod_ok {p : Program} {m : Method} {shared' : Shared}
    (h : compileMethod p m shared = .ok (l, shared')) :
    ∃ s, Compiled p m shared l s ∧ shared' = s.shared := by
  rw [compileMethod_eq] at h
  obtain ⟨_, _, -, htypes, h⟩ := of_bind₂ h
  obtain ⟨s, hwalk, h⟩ := of_bind h
  by_cases hopen : s.conditionals = []
  · rw [if_neg (not_not_intro hopen)] at h
    obtain ⟨bound, hbound, h⟩ := of_bind h
    cases h
    exact ⟨s, ⟨checkTypes_ok htypes, hwalk, hopen, bound, hbound, rfl⟩, rfl⟩
  · rw [if_pos hopen] at h
    cases h

theorem bindJumps_cons_ok {jump : Bridge × Int} {rest : List (Bridge × Int)}
    (h : bindJumps c starts (jump :: rest) l = .ok bound) :
    ∃ start, 0 ≤ jump.2 ∧ starts[jump.2.toNat]? = some start ∧
      bindJumps c starts rest (l.patch jump.1 start) = .ok bound := by
  obtain ⟨_, target⟩ := jump
  unfold bindJumps at h
  cases hstart : (if target < 0 then none else starts[target.toNat]?) with
  | none =>
    rw [hstart] at h
    cases h
  | some start =>
    rw [hstart] at h
    obtain ⟨hpos, hfound⟩ := Option.ite_none_left_eq_some.1 hstart
    exact ⟨start, Int.not_lt.1 hpos, hfound, h⟩

theorem bindJumps_ok {jumps : List (Bridge × Int)} (h : bindJumps c starts jumps l = .ok bound) :
    bound.lines = l.lines ∧ bound.label = l.label := by
  induction jumps generalizing l with
  | nil =>
    cases h
    exact ⟨rfl, rfl⟩
  | cons jump _ ih =>
    obtain ⟨start, -, -, h⟩ := bindJumps_cons_ok h
    exact ih (l := l.patch jump.1 start) h

theorem Listing.sealed_eq (l : Listing) : ∃ closing, l.sealed = l.extended closing ∧
      (closing = [] ∨ closing = [.instruction "NOP" []]) := by
  unfold sealed
  split
  · exact ⟨[.instruction "NOP" []], rfl, .inr rfl⟩
  · exact ⟨[], l.extended_nil.symm, .inl rfl⟩

theorem Compiled.lines_eq {p : Program} {m : Method} (h : Compiled p m shared l s) :
    ∃ ending closing, (ending = [] ∨ ending = epilogueLines s.frame) ∧
      (closing = [] ∨ closing = [.instruction "NOP" []]) ∧
      l.lines = (s.listing.lines ++ (ending ++ closing)).set 0
        (.instruction "ENTER" [.number s.frame.size, .number 0]) ∧
      l.label = s.listing.label := by
  obtain ⟨bound, hbound, rfl⟩ := h.listing
  obtain ⟨hlines, hlabel⟩ := bindJumps_ok hbound
  obtain ⟨closing, hsealed, hclosing⟩ := bound.sealed_eq
  obtain ⟨ending, hended, hending⟩ : ∃ ending,
      (s.ended m.code).listing = s.listing.extended ending ∧
        (ending = [] ∨ ending = epilogueLines s.frame) := by
    rw [s.ended_eq]
    refine ⟨_, rfl, ?_⟩
    split
    · exact .inl rfl
    · exact .inr rfl
  refine ⟨ending, closing, hending, hclosing, ?_, ?_⟩
  · dsimp only
    rw [hsealed, Listing.extended, hlines, hended, Listing.extended, append_assoc]
  · dsimp only
    rw [hsealed, Listing.extended, hlabel, hended]
    rfl

theorem Apart.pairwise {f : Frame} {vs : Stack} (h : Apart f vs) :
    vs.Pairwise fun v w => ¬(v.isOperation = true ∧ w.isOperation = true) ∧
      ∀ slot, v.slot? = some slot → w.slot? ≠ some slot := by
  have hslots := pairwise_filterMap.1 (nodup_append.1 h.nodup).1
  have hsingle := h.single
  clear h
  induction vs with
  | nil => exact .nil
  | cons _ _ ih =>
    rw [pairwise_cons] at hslots
    rw [countP_cons] at hsingle
    refine .cons (fun w hw => ⟨?_, fun slot hv hw' => hslots.1 w hw slot hv slot hw' rfl⟩)
      (ih hslots.2 (by omega))
    rintro ⟨hv, hw'⟩
    have hpos := countP_pos_iff.2 ⟨w, hw, hw'⟩
    rw [if_pos hv] at hsingle
    omega

/-- Behind any code, at most one entry is in `EAX`, the scratch slots of the entries are distinct,
were given out and are not free, and no free slot is listed twice. So no two entries share a
place. -/
theorem entries_kept_apart (c : Context) (label : String) (shared : Shared)
    (code : List Instruction) {s : State} (h : walk c 0 code (.start c label shared) = .ok s) :
    (∀ rest, steps c 0 (code ++ rest) (.start c label shared) = steps c code.length rest s) ∧
    s.stack.countP StackValue.isOperation ≤ 1 ∧ (s.stack.filterMap StackValue.slot?).Nodup ∧
    (∀ slot ∈ s.stack.filterMap StackValue.slot?, slot < s.frame.temps ∧ slot ∉ s.frame.free) ∧
    s.frame.free.Nodup ∧
    s.stack.Pairwise fun v w => ¬(v.isOperation = true ∧ w.isOperation = true) ∧
      ∀ slot, v.slot? = some slot → w.slot? ≠ some slot := by
  have hapart := walk_apart start_apart h
  obtain ⟨hused, hfree, hdisjoint⟩ := List.nodup_append.1 hapart.nodup
  refine ⟨fun rest => ?_, hapart.single, hused, ?_, hfree, hapart.pairwise⟩
  · rw [steps_append h rest, Nat.zero_add]
  · intro slot hslot
    refine ⟨hapart.given slot (List.mem_append_left _ hslot), ?_⟩
    exact fun hmem => hdisjoint slot hslot slot hmem rfl

namespace Sample

/-- A method with one local. -/
def worker : Context where
  program := {}
  method :=
    { id := 0
      owner := 0
      script := 0
      name := ⟨["Work"]⟩
      returnType := .void
      parameters := []
      external := false
      span := ⟨1, 1, 4⟩
      locals := [.i32] }
  name := "Work"

/-- Code in which a read is copied, results are moved, a conditional is opened and closed, and a text
is made by a call. -/
def mixed : Code :=
  [.getLocal 0, .loadConst .i32 "1", .loadConst .i32 "2", .binary .add .i32, .loadConst .i32 "3",
    .loadConst .i32 "4", .binary .mul .i32, .loadConst .i32 "5", .setLocal 0, .branch .true none,
    .loadConst .i32 "6", .loadConst .i32 "7", .binary .sub .i32, .pop, .endBranch,
    .binary .sub .i32, .convert .str, .getLocal 0, .getLocal 0, .binary .rem .i32]

end Sample

/-- Of the two scratch slots that were given out, one holds the text and one is free again. -/
theorem sample_entries_kept_apart :
    ∃ s, walk Sample.worker 0 Sample.mixed (.start Sample.worker "Work" {}) = .ok s ∧
      s.stack = [.operation .i32, .temp .str 0] ∧ s.frame.temps = 2 ∧ s.frame.free = [1] ∧
      s.stack.countP StackValue.isOperation ≤ 1 ∧ (s.stack.filterMap StackValue.slot?).Nodup ∧
      ∀ slot ∈ s.stack.filterMap StackValue.slot?, slot < s.frame.temps ∧ slot ∉ s.frame.free := by
  have hwalk : (walk Sample.worker 0 Sample.mixed (.start Sample.worker "Work" {})).map
      (fun s => (s.stack, s.frame.temps, s.frame.free)) =
      .ok ([.operation .i32, .temp .str 0], 2, [1]) := by decide +kernel
  obtain ⟨s, hs, hplaces⟩ := Except.map_eq_ok_iff.1 hwalk
  obtain ⟨-, hsingle, hnodup, hslots, -⟩ :=
    entries_kept_apart Sample.worker "Work" {} Sample.mixed hs
  exact ⟨s, hs, congrArg Prod.fst hplaces, congrArg (fun x => x.2.1) hplaces,
    congrArg (fun x => x.2.2) hplaces, hsingle, hnodup, hslots⟩

end ScriptCompiler.X86
