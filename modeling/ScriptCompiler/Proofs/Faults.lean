import ScriptCompiler.Proofs.Literals
import ScriptCompiler.Proofs.X86.Emission
import ScriptCompiler.Wat.Compile

/-!
# How compiling fails

Three reasons why a target refuses code are traced to the code itself: an instruction does not find
its operands on the stack of the target, a conditional is not open or not closed, or the arithmetic
on an operand leaves its word. What each part of the two compilers has to do with them is said here
once (`Abides`): the entries that it needs and leaves, that it finds no fault with conditionals, and
what keeps it from an overflow.
-/

set_option autoImplicit false

namespace ScriptCompiler

open List

/-! ## Operands -/

/-- Whether an instruction did not find its operands. -/
def CompilingError.isUnderflow : CompilingError → Bool
  | .stackUnderflow .. => true
  | _ => false

/-- Whether compiling goes by a condition. It succeeds under this condition only, with a result as
stated, and under it never fails for want of an operand. -/
def Follows {α : Type} (ready : Prop) (post : α → Prop) : Compiling α → Prop
  | .ok a => ready ∧ post a
  | .error e => ready → e.isUnderflow = false

namespace Follows

variable {α : Type} {ready ready₁ : Prop} {post₁ post₂ : α → Prop} {x : Compiling α}

theorem mono (hx : Follows ready₁ post₁ x) (hready : ready ↔ ready₁)
    (hpost : ∀ a, ready₁ → post₁ a → post₂ a) : Follows ready post₂ x := by
  cases x with
  | error => exact fun h => hx (hready.1 h)
  | ok a => exact ⟨hready.2 hx.1, hpost a hx.1 hx.2⟩

end Follows

/-! ## Conditionals -/

/-- Whether a fault is that of a conditional that is not closed or not open. -/
def CompilingError.isUnbalanced : CompilingError → Bool
  | .unbalancedConditional .. => true
  | _ => false

/-- Whether compiling does not fail for a conditional, nor by an overflow as far as it is `safe`. -/
def Avoids {α : Type} (safe : Prop) (x : Compiling α) : Prop :=
  ∀ e, x = .error e → e.isUnbalanced = false ∧ (safe → e ≠ .overflow)

namespace Avoids

variable {α β : Type} {safe : Prop} {x : Compiling α} {f : α → Compiling β}

theorem ok (a : α) : Avoids safe (.ok a) := fun _ h => by cases h

theorem error {e : CompilingError} (h : e.isUnbalanced = false) (h' : safe → e ≠ .overflow) :
    Avoids safe (.error e : Compiling α) := by
  intro _ he
  cases he
  exact ⟨h, h'⟩

theorem bind (hx : Avoids safe x) (hf : ∀ a, x = .ok a → Avoids safe (f a)) :
    Avoids safe (x >>= f) := by
  cases x with
  | error e => exact .error (hx e rfl).1 (hx e rfl).2
  | ok a => exact hf a rfl

end Avoids

/-! ## Words -/

/-- Whether an instruction takes or sets a local by the least index, which has no opposite. -/
def Instruction.NamesLeast (i : Instruction) : Prop :=
  (i.opcode = .getLocal ∨ i.opcode = .setLocal) ∧ i.localIndex = .ok (Integer.least 32)

/-- Whether the arithmetic on the operand of the instruction at a position leaves its word. -/
def Instruction.Overflows (position : Nat) (i : Instruction) : Prop :=
  i.NamesLeast ∨
    i.opcode = .jump ∧ ∃ n, i.jumpOffset = .ok n ∧ Integer.greatest 64 < position + n

/-- A number that is read as a word fits in it. -/
theorem Integer.fits_of_read? {bits : Nat} {text : String} {n : Int}
    (h : read? bits text = some n) : fits bits n = true := by
  obtain ⟨_, -, hk⟩ := Option.bind_eq_some_iff.1 h
  exact fits_of_within? hk

/-- Every word of 32 bits but the least can be looked up as an index. -/
theorem checkIndex_of_fits {n : Int} (h : Integer.fits 32 n = true) :
    checkIndex n = if n = Integer.least 32 then .error .overflow else .ok () := by
  by_cases hn : n = Integer.least 32
  · rw [if_pos hn, hn]
    rfl
  · rw [if_neg hn]
    refine checkIndex_eq (Bool.and_eq_true_iff.2 ⟨h, ?_⟩)
    rw [Integer.fits_iff] at h ⊢
    simp only [Integer.least, Integer.greatest] at h hn ⊢
    omega

/-- A position and an offset add up to a word unless they lead beyond the greatest one. -/
theorem inWord_add {position : Nat} {n : Int} (h : Integer.fits 64 n = true) :
    inWord 64 (position + n) =
      if Integer.greatest 64 < position + n then .error .overflow else .ok (position + n) := by
  rw [inWord]
  rw [Integer.fits_iff] at h
  by_cases hn : Integer.greatest 64 < position + n
  · rw [if_pos hn, if_neg fun hfits => Int.not_le.2 hn (Integer.fits_iff.1 hfits).2]
  · rw [if_neg hn, if_pos (Integer.fits_iff.2 ⟨by omega, by omega⟩)]

/-- The index of an instruction can be looked up unless it is the least one. -/
theorem Instruction.checkIndex_of_localIndex {i : Instruction} {n : Int}
    (hop : i.opcode = .getLocal ∨ i.opcode = .setLocal) (hn : i.localIndex = .ok n)
    (h : ¬i.NamesLeast) : checkIndex n = .ok () := by
  obtain ⟨_, -, hread⟩ := of_bind hn
  rw [checkIndex_of_fits (Integer.fits_of_read? (expect_ok hread)), if_neg]
  rintro rfl
  exact h ⟨hop, hn⟩

/-! ## Parts of the compilers -/

/-- Whether compiling goes by a condition, does not fail for a conditional and is free of overflows
as far as it is `safe`. -/
structure Abides {α : Type} (safe ready : Prop) (post : α → Prop) (x : Compiling α) :
    Prop where
  follows : Follows ready post x
  avoids : Avoids safe x

/-- Whether a fault is none of those that are traced to the code. -/
def CompilingError.isPlain (e : CompilingError) : Bool :=
  !e.isUnderflow && !e.isUnbalanced && e != .overflow

variable {safe : Prop}

namespace Abides

variable {α β : Type} {ready ready₁ : Prop} {post : β → Prop} {post₁ : α → Prop}
  {x : Compiling α} {f : α → Compiling β}

theorem ok {b : β} (h : ready) (hb : post b) : Abides safe ready post (.ok b) :=
  ⟨⟨h, hb⟩, .ok b⟩

theorem error {e : CompilingError} (h : e.isPlain = true) : Abides safe ready post (.error e) := by
  simp only [CompilingError.isPlain, Bool.and_eq_true, Bool.not_eq_true', bne_iff_ne] at h
  exact ⟨fun _ => h.1.1, .error h.1.2 fun _ => h.2⟩

theorem bind (hx : Abides safe ready₁ post₁ x) (hready : ready → ready₁)
    (hf : ∀ a, ready₁ → post₁ a → Abides safe ready post (f a)) :
    Abides safe ready post (x >>= f) := by
  cases x with
  | error e =>
    obtain ⟨hbalanced, hwords⟩ := hx.avoids e rfl
    exact ⟨fun h => hx.follows (hready h), .error hbalanced hwords⟩
  | ok a => exact hf a hx.follows.1 hx.follows.2

theorem pass (hx : Abides safe True post₁ x) (hf : ∀ a, post₁ a → Abides safe ready post (f a)) :
    Abides safe ready post (x >>= f) :=
  hx.bind (fun _ => trivial) fun a _ h => hf a h

theorem mono {post₂ : α → Prop} (hx : Abides safe ready₁ post₁ x) (hready : ready ↔ ready₁)
    (hpost : ∀ a, ready₁ → post₁ a → post₂ a) : Abides safe ready post₂ x :=
  ⟨hx.follows.mono hready hpost, hx.avoids⟩

end Abides

/-- Whether compiling that asks for no operands fails only for what it reads. -/
abbrev Reads {α : Type} (safe : Prop) (x : Compiling α) : Prop :=
  Abides safe True (fun _ => True) x

theorem Reads.ne_overflow {α : Type} {x : Compiling α} (h : Reads True x) :
    x ≠ .error .overflow := fun hx => (h.avoids _ hx).2 trivial rfl

theorem Reads.ok {α : Type} (a : α) : Reads safe (.ok a) := Abides.ok trivial trivial

theorem reading_abides {α : Type} (x : Except CodeError α) :
    Abides safe True (fun a => x = .ok a) (reading x) := by
  cases x with
  | error => exact .error rfl
  | ok => exact .ok trivial rfl

theorem checkIndex_abides {α : Type} {index : Int} (h : safe → checkIndex index = .ok ()) (a : α) :
    Reads safe (checkIndex index >>= fun _ => pure a) := by
  cases hindex : checkIndex index with
  | ok => exact .ok a
  | error e =>
    have he : e = .overflow := by
      unfold checkIndex inWord at hindex
      split at hindex
      · split at hindex <;> cases hindex
        rfl
      · cases hindex
    subst he
    exact ⟨fun _ => rfl, .error rfl fun hsafe => by cases hindex.symm.trans (h hsafe)⟩

variable {i : Instruction}

/-- A called method has as many parameters as the reference in the instruction says. -/
theorem Instruction.callTarget_length {p : Program} {result : Primitive} {text : String} {n : Nat}
    {r : Primitive × Reference} (hc : i.type? = some result) (ht : i.operands[1]? = some text)
    (hn : (p.parametersOf? text).map List.length = some n) (h : i.callTarget = .ok r) :
    r.1 = result ∧ ∀ callee, (p.findMethod? r.2).bind p.methodAt? = some callee →
      callee.parameterTypes.length = n := by
  obtain ⟨htype, _, htext, hparse⟩ := callTarget_ok h
  rw [hc] at htype
  rw [ht] at htext
  cases htext
  obtain ⟨_, htypes, rfl⟩ := Option.map_eq_some_iff.1 hn
  refine ⟨(Option.some.inj htype).symm, fun callee hcallee => ?_⟩
  rw [Program.parameterTypes_of_findMethod? hcallee, Program.parameters_of_parse? htypes hparse]

/-- Whether compiling takes some entries from the stack of a state and leaves others in their
place. -/
def Moves {σ α : Type} (safe : Prop) (stack : σ → List α) (s : σ) (taken left : Nat)
    (x : Compiling σ) : Prop :=
  Abides safe (taken ≤ (stack s).length)
    (fun s' => (stack s').length + taken = (stack s).length + left) x

/-- Whether compiling a call takes the parameters of the method that its text leads to, leaves the
result and does not fail for a conditional. -/
def Calls {σ α : Type} (safe : Prop) (p : Program) (i : Instruction) (stack : σ → List α)
    (s : σ) (x : Compiling σ) : Prop :=
  Avoids safe x ∧ ∀ result text n, i.type? = some result → i.operands[1]? = some text →
    (p.parametersOf? text).map List.length = some n →
    Moves safe stack s n (if result = .void then 0 else 1) x

theorem Calls.reading {σ α : Type} {p : Program} {stack : σ → List α} {s : σ}
    {f : Primitive × Reference → Compiling σ}
    (hf : ∀ r n, (∀ callee, (p.findMethod? r.2).bind p.methodAt? = some callee →
      callee.parameterTypes.length = n) → Moves safe stack s n (if r.1 = .void then 0 else 1) (f r)) :
    Calls safe p i stack s (ScriptCompiler.reading i.callTarget >>= f) := by
  refine ⟨(reading_abides _).avoids.bind fun r _ => ?_, fun result text n hc ht hn => ?_⟩
  · cases hcallee : (p.findMethod? r.2).bind p.methodAt? with
    | none => exact (hf r 0 (by simp [hcallee])).avoids
    | some callee => exact (hf r callee.parameterTypes.length (by simp [hcallee])).avoids
  · refine (reading_abides _).pass fun r hr => ?_
    obtain ⟨rfl, hcount⟩ := Instruction.callTarget_length hc ht hn hr
    exact hf r n hcount

/-- What compiling an instruction has to do to the stack of a state, by its opcode. A conversion
leaves an entry if it goes to one of the types `kept`, and may leave none otherwise. Only an
`otherwise` and an `endBranch` may fail for a conditional, and no operands are asked of jumps, which
no command stands for. -/
def Handles {σ α : Type} (safe : Prop) (kept : Primitive → Prop) (p : Program) (m : Method)
    (i : Instruction) (stack : σ → List α) (s : σ) (x : Compiling σ) : Prop :=
  match i.opcode with
  | .otherwise | .endBranch => Follows True (fun s' => stack s' = stack s) x ∧ x ≠ .error .overflow
  | .nop => Moves safe stack s 0 0 x
  | .loadConst | .getLocal => Moves safe stack s 0 1 x
  | .setLocal | .pop => Moves safe stack s 1 0 x
  | .add | .sub | .mul | .div | .rem | .equals | .unequals => Moves safe stack s 2 1 x
  | .convert =>
    Abides safe (1 ≤ (stack s).length) (fun s' => (stack s').length ≤ (stack s).length ∧
      ∀ target, i.type? = some target → kept target → (stack s').length = (stack s).length) x
  | .call => Calls safe p i stack s x
  | .branch =>
    ∀ cond, (∀ found number, i.condition = .ok (found, number) → found = cond) →
      Moves safe stack s (if cond = .forced then 0 else 1) 0 x
  | .ret => Moves safe stack s (if m.returnType = .void then 0 else 1) 0 x
  | .jump => Avoids safe x

/-- An instruction that is handled does not fail for a conditional, unless it divides or closes
one. -/
theorem Handles.avoids {σ α : Type} {kept : Primitive → Prop} {p : Program} {m : Method}
    {stack : σ → List α} {s : σ} {x : Compiling σ} (h : Handles safe kept p m i stack s x) :
    i.opcode = .otherwise ∨ i.opcode = .endBranch ∨ Avoids safe x := by
  unfold Handles at h
  cases hop : i.opcode with
  | otherwise => exact .inl rfl
  | endBranch => exact .inr (.inl rfl)
  | call =>
    rw [hop] at h
    exact .inr (.inr h.1)
  | jump =>
    rw [hop] at h
    exact .inr (.inr h)
  | branch =>
    rw [hop] at h
    cases hc : i.condition with
    | error => exact .inr (.inr (h .forced (by simp [hc])).avoids)
    | ok r => exact .inr (.inr (h r.1 (by simp +contextual [hc])).avoids)
  | _ =>
    rw [hop] at h
    exact .inr (.inr h.avoids)

/-- It does not overflow where it is safe. -/
theorem Handles.ne_overflow {σ α : Type} {kept : Primitive → Prop} {p : Program} {m : Method}
    {stack : σ → List α} {s : σ} {x : Compiling σ}
    (h : Handles True kept p m i stack s x) : x ≠ .error .overflow := by
  rcases h.avoids with hop | hop | havoids
  · unfold Handles at h
    rw [hop] at h
    exact h.2
  · unfold Handles at h
    rw [hop] at h
    exact h.2
  · exact fun hx => (havoids _ hx).2 trivial rfl

/-! ## The x86 target -/

namespace X86

variable {c : Context} {i : Instruction} (s : State)

@[simp] theorem State.length_spill : s.spill.stack.length = s.stack.length := by
  rcases s.spill_cases with ⟨hspill, -⟩ | ⟨_, _, _, _, _, -, hstack, hspill⟩
  · rw [hspill]
  · simp [hspill, State.advance, hstack]

variable (v : StackValue)

theorem State.length_clear :
    (if v.isOperation then s else s.spill).stack.length = s.stack.length := by
  split
  · rfl
  · exact s.length_spill

/-- Whether a place that an entry reads can be looked up. -/
def StackValue.Indexed : StackValue → Prop
  | .stored _ index => checkIndex index = .ok ()
  | _ => True

/-- Whether the places that the entries of a stack read can be looked up. -/
def Indexed (stack : Stack) : Prop := ∀ v ∈ stack, v.Indexed

theorem State.pop_abides : Abides safe (1 ≤ s.stack.length) (fun r =>
    r.2.stack.length + 1 = s.stack.length ∧ (Indexed s.stack → r.1.Indexed ∧ Indexed r.2.stack))
      (s.pop c i) := by
  unfold State.pop
  split
  · rename_i v rest hstack
    refine .ok (by simp [hstack]) ⟨by simp [hstack], fun h => ?_⟩
    rw [Indexed, hstack] at h
    exact forall_mem_cons.1 h
  · rename_i hstack
    exact ⟨fun hready => by simp [hstack] at hready, .error rfl fun _ => nofun⟩

variable {v} {index : Int}

theorem State.localOperand_abides (h : safe → checkIndex index = .ok ()) :
    Reads safe (s.localOperand c index) := by
  unfold State.localOperand
  refine (checkIndex_abides h _).pass fun operand _ => ?_
  cases operand with
  | none => exact .error rfl
  | some => exact .ok trivial trivial

theorem State.load_abides (hv : safe → v.Indexed) (s : State) (r : Register) :
    Abides safe True (fun s' => s'.stack = s.stack) (s.load c v r) := by
  cases v with
  | constant => exact .ok trivial rfl
  | operation =>
    refine .ok trivial ?_
    split <;> rfl
  | temp => exact .ok trivial rfl
  | stored => exact (s.localOperand_abides hv).pass fun _ _ => .ok trivial rfl

theorem State.detach_abides (hv : safe → v.Indexed) (s : State) : Reads safe (s.detach c v) := by
  unfold State.detach
  exact (load_abides hv s .ecx).pass fun _ _ => .ok trivial trivial

theorem State.detachAll_abides {stack : Stack} (hs : safe → Indexed stack) (s : State) :
    Abides safe True (fun r => r.1.length = stack.length) (detachAll c index stack s) := by
  induction stack with
  | nil => exact .ok trivial rfl
  | cons v rest ih =>
    refine (ih fun h => (forall_mem_cons.1 (hs h)).2).pass fun r hr => ?_
    have hlen : (v :: r.1).length = (v :: rest).length := by rw [length_cons, length_cons, hr]
    dsimp only
    split
    · split
      · refine (detach_abides (fun h => (forall_mem_cons.1 (hs h)).1) _).pass fun r' _ => ?_
        exact .ok trivial hlen
      · exact .ok trivial hlen
    · exact .ok trivial hlen

theorem State.detachLocal_abides (hs : safe → Indexed s.stack) :
    Abides safe True (fun s' => s'.stack.length = s.stack.length) (s.detachLocal c index) := by
  unfold State.detachLocal
  exact (detachAll_abides hs s).pass fun _ hr => .ok trivial hr

theorem Context.checkType_abides (type : Primitive) : Reads safe (c.checkType type) := by
  unfold Context.checkType
  split
  · exact .ok _
  · exact .error rfl

theorem Context.checkTypes_abides (types : Types) : Reads safe (c.checkTypes types) := by
  induction types with
  | nil => exact .ok _
  | cons t _ ih => exact (checkType_abides t).pass fun _ _ => ih

/-! ### Instructions -/

theorem loadConstant_abides : Moves safe State.stack s 0 1 (loadConstant c i s) := by
  unfold loadConstant
  refine (reading_abides _).pass fun r _ => ?_
  refine (Context.checkType_abides _).pass fun _ _ => ?_
  have hoperand : Reads safe (constantOperand i r.1 r.2 s.shared.data) := by
    unfold constantOperand
    split
    · exact .ok _
    · split
      · exact .ok _
      · split
        · exact .ok _
        · exact .error rfl
    · split
      · exact .ok _
      · exact .error rfl
  exact hoperand.pass fun _ _ => .ok (Nat.zero_le _) rfl

theorem getLocal_abides (hop : i.opcode = .getLocal) (hi : safe → ¬i.NamesLeast) (s : State) :
    Moves safe State.stack s 0 1 (getLocal i s) := by
  unfold getLocal
  refine (reading_abides _).pass fun _ hn => ?_
  have hindex := fun h => Instruction.checkIndex_of_localIndex (.inl hop) hn (hi h)
  refine (checkIndex_abides hindex _).pass fun type _ => ?_
  cases type with
  | none => exact .error rfl
  | some => exact .ok (Nat.zero_le _) rfl

variable {s : State} (hs : safe → Indexed s.stack)
include hs

theorem setLocal_abides (hop : i.opcode = .setLocal) (hi : safe → ¬i.NamesLeast) :
    Moves safe State.stack s 1 0 (setLocal c i s) := by
  unfold setLocal
  refine (reading_abides _).pass fun _ hn => ?_
  have hindex := fun h => Instruction.checkIndex_of_localIndex (.inr hop) hn (hi h)
  refine (s.localOperand_abides hindex).pass fun _ _ => ?_
  refine (checkIndex_abides hindex _).pass fun _ _ => ?_
  refine s.pop_abides.bind id fun r hready ⟨_, hrest⟩ => ?_
  refine (r.2.detachLocal_abides fun h => (hrest (hs h)).2).pass fun s₁ hs₁ => ?_
  dsimp only
  split
  · refine .ok hready ?_
    show s₁.stack.length + 1 = _
    omega
  · have hclear := s₁.length_clear r.1
    refine (State.load_abides (fun h => (hrest (hs h)).1) _ _).pass fun s₂ hs₂ => .ok hready ?_
    show s₂.stack.length + 1 = _
    rw [hs₂]
    omega

theorem binary_abides : Moves safe State.stack s 2 1 (binary c i s) := by
  unfold binary
  refine (reading_abides _).pass fun type _ => ?_
  refine (Context.checkType_abides type).pass fun _ _ => ?_
  refine s.pop_abides.bind (fun hready => by omega) fun left _ ⟨hleft, hrest⟩ => ?_
  refine left.2.pop_abides.bind (fun hready => by omega) fun right hready ⟨hright, hrest'⟩ => ?_
  have hload : Abides safe True (fun s' => s'.stack = right.2.spill.stack)
      (loadOperands c left.1 right.1 right.2.spill) := by
    unfold loadOperands
    refine (State.load_abides (fun h => (hrest' (hrest (hs h)).2).1) _ _).pass fun s₁ hs₁ => ?_
    rw [← hs₁]
    exact State.load_abides (fun h => (hrest (hs h)).1) s₁ _
  refine hload.pass fun s₁ hs₁ => ?_
  have hlen : s₁.stack.length = right.2.stack.length := by rw [hs₁, State.length_spill]
  have hres := (operated_computed i.opcode type s₁).stack_eq
  generalize operate i.opcode type s₁ = r at hres ⊢
  refine .ok (by omega) ?_
  show (_ :: State.stack _).length + 2 = _
  rw [length_cons, hres]
  omega

omit hs

theorem storeArguments_abides {args : List Argument}
    (ha : safe → ∀ a ∈ args, a.value.Indexed) (s : State) :
    Abides safe True (fun s' => s'.stack = s.stack) (storeArguments c args s) := by
  induction args generalizing s with
  | nil => exact .ok trivial rfl
  | cons a _ ih =>
    have hone : Abides safe True (fun s' => s'.stack = s.stack) (storeArgument c a s) := by
      unfold storeArgument
      dsimp only
      split
      · exact .ok trivial rfl
      · refine (State.load_abides (fun h => ha h a mem_cons_self) _ _).pass fun s₁ hs₁ => ?_
        exact .ok trivial hs₁
    refine hone.pass fun s₁ hs₁ => ?_
    rw [← hs₁]
    exact ih (fun h => (forall_mem_cons.1 (ha h)).2) s₁

/-- What a call puts in place are its arguments. -/
theorem value_mem_of_layOut {offset : Nat} {types : Types} {values : Stack}
    {a : Argument} (h : a ∈ layOut offset types values) : a.value ∈ values := by
  induction types generalizing offset values with
  | nil => cases h
  | cons _ _ ih =>
    cases values with
    | nil => cases h
    | cons =>
      rcases mem_cons.1 h with rfl | h
      · exact mem_cons_self
      · exact mem_cons_of_mem _ (ih h)

theorem emitCall_abides {args : Stack} (ha : safe → Indexed args)
    (label : String) (params : Types) (result : Primitive) (s : State) :
    Moves safe State.stack s 0 (if result = .void then 0 else 1)
      (emitCall c label params args result s) := by
  unfold emitCall
  dsimp only
  refine (storeArguments_abides ?_ _).pass fun s₁ hs₁ => .ok (Nat.zero_le _) ?_
  · intro h _ hmem
    refine ha h _ (@value_mem_of_layOut 0 params _ _ ?_)
    rcases mem_append.1 hmem with hmem | hmem <;> exact (mem_filter.1 hmem).1
  have hlen : s₁.stack.length = s.stack.length := by
    rw [hs₁]
    split <;> exact s.length_spill
  split
  · exact hlen
  · exact congrArg (· + 1) hlen

theorem popArguments_abides (count : Nat) {args : Stack}
    (ha : safe → Indexed args) {s : State} (hs : safe → Indexed s.stack) :
    Abides safe (count ≤ s.stack.length)
      (fun r => r.2.stack.length + count = s.stack.length ∧ (safe → Indexed r.1))
      (popArguments c i count args s) := by
  induction count generalizing args s with
  | zero => exact .ok (Nat.zero_le _) ⟨rfl, ha⟩
  | succ _ ih =>
    refine s.pop_abides.bind (fun _ => by omega) fun r _ ⟨hr, hrest⟩ => ?_
    have hnext := ih (fun h => forall_mem_cons.2 ⟨(hrest (hs h)).1, ha h⟩)
      fun h => (hrest (hs h)).2
    refine hnext.mono (by omega) fun _ _ ⟨_, hargs⟩ => ⟨by omega, hargs⟩

include hs

theorem callStatic_calls : Calls safe c.program i State.stack s (callStatic c i s) := by
  refine .reading fun r n hcount => ?_
  dsimp only
  cases hcallee : (c.program.findMethod? r.2).bind c.program.methodAt? with
  | none => exact .error rfl
  | some callee =>
    refine (Context.checkType_abides _).pass fun _ _ => ?_
    refine (Context.checkTypes_abides _).pass fun _ _ => ?_
    rw [hcount callee hcallee]
    have hnone : safe → Indexed [] := fun _ _ hv => by cases hv
    refine (popArguments_abides n hnone hs).bind id fun _ hready ⟨_, hargs⟩ => ?_
    refine (emitCall_abides hargs _ _ _ _).mono (by simp [hready]) fun _ _ _ => ?_
    omega

/-- Text that is converted to `void` leaves nothing; all other conversions leave a value. -/
theorem convert_abides : Abides safe (1 ≤ s.stack.length)
    (fun s' => s'.stack.length ≤ s.stack.length ∧
      (i.type? ≠ some .void → s'.stack.length = s.stack.length)) (convert c i s) := by
  unfold convert
  refine (reading_abides _).pass fun target htarget => ?_
  refine s.pop_abides.bind id fun r hready ⟨_, hrest⟩ => ?_
  have hv := fun h => (hrest (hs h)).1
  have hpush : ∀ s' : State, s'.stack.length = r.2.stack.length + 1 →
      s'.stack.length ≤ s.stack.length ∧
        (i.type? ≠ some .void → s'.stack.length = s.stack.length) := fun s' hs' =>
    ⟨by omega, fun _ => by omega⟩
  dsimp only
  split
  · exact .ok hready (hpush _ rfl)
  · split
    · have hone := fun h => forall_mem_singleton.2 (hv h)
      refine (emitCall_abides hone _ _ _ _).mono (by simp [hready]) fun s' _ hs' => ?_
      by_cases hvoid : target = .void
      · rw [if_pos hvoid] at hs'
        exact ⟨by omega, fun hne => absurd (hvoid ▸ Instruction.operandType_ok htarget) hne⟩
      · rw [if_neg hvoid] at hs'
        exact hpush s' hs'
    · split
      · exact .error rfl
      · split
        · exact .ok hready (hpush _ rfl)
        · unfold convertValue
          have hclear := r.2.length_clear r.1
          refine (State.load_abides hv _ _).pass fun s₁ hs₁ => .ok hready (hpush _ ?_)
          have hres := (converted_computed target s₁).stack_eq
          show (_ :: State.stack _).length = _
          rw [length_cons, hres, hs₁, hclear]

theorem openBranch_abides {cond : Condition}
    (hc : ∀ found number, i.condition = .ok (found, number) → found = cond) :
    Moves safe State.stack s (if cond = .forced then 0 else 1) 0 (openBranch c i s) := by
  unfold openBranch
  refine (reading_abides _).pass fun r hr => ?_
  obtain rfl := hc _ _ hr
  dsimp only
  split
  · exact .ok (Nat.zero_le _) rfl
  · refine (State.pop_abides _).bind id fun r' hready ⟨hr', hrest⟩ => ?_
    refine (State.load_abides (fun h => (hrest (hs h)).1) _ _).pass fun s₁ hs₁ => ?_
    have htest : Abides safe True (fun t => t.1.stack = s₁.stack)
        (test i r.1 r.2 r'.1.type.isSigned s₁) := by
      unfold test
      split
      · exact .ok trivial rfl
      · exact .ok trivial rfl
      · exact .ok trivial rfl
      · split
        · exact .ok trivial rfl
        · exact .error rfl
    refine htest.pass fun t ht => .ok hready ?_
    show t.1.stack.length + 1 = _
    rw [ht, hs₁, State.length_spill]
    exact hr'

theorem ret_abides :
    Moves safe State.stack s (if c.method.returnType = .void then 0 else 1) 0 (ret c i s) := by
  unfold ret
  split
  · refine .ok (Nat.zero_le _) ?_
    show s.epilogue.stack.length + 0 = _
    rw [epilogue_eq, State.advance_stack, Nat.add_zero]
  · refine s.pop_abides.bind id fun _ hready ⟨hr, hrest⟩ => ?_
    refine (State.load_abides (fun h => (hrest (hs h)).1) _ _).pass fun s₁ hs₁ => .ok hready ?_
    show s₁.epilogue.stack.length + 1 = _
    rw [epilogue_eq, State.advance_stack, hs₁]
    exact hr

omit hs
variable (s)

theorem drop_abides : Moves safe State.stack s 1 0 (drop c i s) := by
  unfold drop
  refine s.pop_abides.bind id fun _ hready hr => ?_
  dsimp only
  split <;> exact .ok hready hr.1

theorem otherwise_follows : Follows True (fun s' => s'.stack = s.stack) (otherwise c s) ∧
    otherwise c s ≠ .error .overflow := by
  unfold otherwise
  split
  · exact ⟨fun _ => rfl, nofun⟩
  · exact ⟨⟨trivial, rfl⟩, nofun⟩

theorem endBranch_follows : Follows True (fun s' => s'.stack = s.stack) (endBranch c s) ∧
    endBranch c s ≠ .error .overflow := by
  unfold endBranch
  split
  · exact ⟨fun _ => rfl, nofun⟩
  · exact ⟨⟨trivial, rfl⟩, nofun⟩

/-- What every instruction does to the virtual stack. -/
theorem step_handles {index : Nat} (hi : safe → ¬i.Overflows index) {s : State}
    (hs : safe → Indexed s.stack) :
    Handles safe (· ≠ .void) c.program c.method i State.stack s (step c index i s) := by
  unfold Handles step
  cases hop : i.opcode with
  | nop => exact .ok (Nat.zero_le _) rfl
  | loadConst => exact loadConstant_abides s
  | getLocal => exact getLocal_abides hop (fun h hleast => hi h (.inl hleast)) s
  | setLocal => exact setLocal_abides hs hop fun h hleast => hi h (.inl hleast)
  | add | sub | mul | div | rem | equals | unequals => exact binary_abides hs
  | convert =>
    refine (convert_abides hs).mono Iff.rfl fun _ _ hs => ⟨hs.1, fun target htarget hkept => ?_⟩
    exact hs.2 fun hvoid => hkept (Option.some.inj (htarget.symm.trans hvoid))
  | call => exact callStatic_calls hs
  | jump =>
    refine (reading_abides _).avoids.bind fun n hn => .bind ?_ fun _ _ => .ok _
    have hn := reading_ok hn
    obtain ⟨text, -, hread⟩ := of_bind hn
    rw [inWord_add (Integer.fits_of_read? (Instruction.expect_ok hread))]
    split
    · rename_i hbeyond
      exact .error rfl fun h => absurd (.inr ⟨hop, n, hn, hbeyond⟩) (hi h)
    · exact .ok _
  | branch => exact fun cond hcond => openBranch_abides hs hcond
  | otherwise => exact otherwise_follows s
  | endBranch => exact endBranch_follows s
  | ret => exact ret_abides hs
  | pop => exact drop_abides s

theorem bindJumps_abides (starts : List Nat) (jumps : List (Bridge × Int)) (l : Listing) :
    Reads safe (bindJumps c starts jumps l) := by
  induction jumps generalizing l with
  | nil => exact .ok _
  | cons _ _ ih =>
    unfold bindJumps
    split
    · exact ih _
    · exact .error rfl

end X86

/-! ## The target for modules -/

namespace Wat

variable {c : Context} {i : Instruction} (s : State)

@[simp] theorem State.types_add (line : Line Op) : (s.add line).types = s.types := by
  unfold State.add
  split <;> rfl

@[simp] theorem State.types_emit (op : Op) : (s.emit op).types = s.types :=
  s.types_add _

@[simp] theorem State.types_emitAll (ops : List Op) : (s.emitAll ops).types = s.types := by
  unfold State.emitAll
  induction ops generalizing s with
  | nil => rfl
  | cons _ _ ih => rw [foldl_cons, ih, types_emit]

@[simp] theorem State.types_scratchPair (type : ValueType) : (s.scratchPair c type).1.types = s.types := by
  unfold State.scratchPair
  split <;> rfl

@[simp] theorem State.types_push (type : Primitive) : (s.push type).types = type :: s.types := rfl

theorem State.pop_abides :
    Abides safe (1 ≤ s.types.length) (fun r => r.2.types.length + 1 = s.types.length) (s.pop c i) := by
  unfold State.pop
  split
  · rename_i t rest htypes
    exact .ok (by simp [htypes]) (by simp [htypes])
  · rename_i htypes
    exact ⟨fun hready => by simp [htypes] at hready, .error rfl fun _ => nofun⟩

theorem State.popMany_abides (count : Nat) (s : State) :
    Moves safe State.types s count 0 (s.popMany c i count) := by
  induction count generalizing s with
  | zero => exact .ok (Nat.zero_le _) rfl
  | succ _ ih =>
    refine s.pop_abides.bind (fun _ => by omega) fun r _ hr => ?_
    refine (ih r.2).mono (by omega) fun _ _ _ => ?_
    omega

variable (method : String)

theorem valueType_abides (type : Primitive) : Reads safe (valueType method type) := by
  unfold valueType
  split
  · exact .ok _
  · exact .error rfl

theorem valueTypes_abides (types : Types) : Reads safe (valueTypes method types) := by
  induction types with
  | nil => exact .ok _
  | cons t _ ih =>
    exact (valueType_abides method t).pass fun _ _ => ih.pass fun _ _ => .ok trivial trivial

theorem resultType_abides (type : Primitive) : Reads safe (resultType method type) := by
  unfold resultType
  split
  · exact .ok _
  · exact (valueType_abides method type).pass fun _ _ => .ok trivial trivial

/-! ### Instructions -/

theorem localOf_abides (hop : i.opcode = .getLocal ∨ i.opcode = .setLocal)
    (hi : safe → ¬i.NamesLeast) : Reads safe (localOf c i) := by
  unfold localOf
  refine (reading_abides _).pass fun _ hn => ?_
  have hindex := fun h => Instruction.checkIndex_of_localIndex hop hn (hi h)
  refine (checkIndex_abides hindex _).pass fun type _ => ?_
  cases type with
  | none => exact .error rfl
  | some => exact .ok trivial trivial

theorem loadConstant_abides : Moves safe State.types s 0 1 (loadConstant c i s) := by
  unfold loadConstant
  refine (reading_abides _).pass fun _ _ => ?_
  dsimp only
  split
  · refine .ok (Nat.zero_le _) ?_
    split <;> simp
  · split
    · exact .ok (Nat.zero_le _) (by simp)
    · split
      · exact .ok (Nat.zero_le _) (by simp)
      · exact .error rfl
  all_goals
    split
    · exact .error rfl
    · exact (valueType_abides _ _).pass fun _ _ => .ok (Nat.zero_le _) (by simp)

theorem getLocal_abides (hop : i.opcode = .getLocal) (hi : safe → ¬i.NamesLeast) :
    Moves safe State.types s 0 1 (getLocal c i s) := by
  unfold getLocal
  exact (localOf_abides (.inl hop) hi).pass fun _ _ => .ok (Nat.zero_le _) (by simp)

theorem setLocal_abides (hop : i.opcode = .setLocal) (hi : safe → ¬i.NamesLeast) :
    Moves safe State.types s 1 0 (setLocal c i s) := by
  unfold setLocal
  refine (localOf_abides (.inr hop) hi).pass fun _ _ => ?_
  exact s.pop_abides.bind id fun _ hready hr => .ok hready (by simpa using hr)

theorem binary_abides : Moves safe State.types s 2 1 (binary c i s) := by
  unfold binary
  refine (reading_abides _).pass fun _ _ => ?_
  refine (s.popMany_abides 2).bind id fun s₁ hready _ => ?_
  refine (valueType_abides _ _).pass fun _ _ => ?_
  have hpush : ∀ (r : State) (t : Primitive), r.types = s₁.types →
      (r.push t).types.length + 2 = s.types.length + 1 := fun r t hr => by
    rw [State.types_push, length_cons, hr]
    omega
  dsimp only
  split
  · split
    · exact .ok hready (hpush _ _ (by simp))
    · refine .ok hready ?_
      split <;> exact hpush _ _ (by simp)
  · refine .ok hready ?_
    split <;> exact hpush _ _ (by simp)

theorem convert_abides :
    Abides safe (1 ≤ s.types.length) (fun s' => s'.types.length = s.types.length) (convert c i s) := by
  unfold convert
  refine (reading_abides _).pass fun target _ => ?_
  refine s.pop_abides.bind id fun r hready hr => ?_
  have hops : Reads safe (conversion c r.1 target) := by
    unfold conversion
    split
    · exact .ok _
    · split
      · dsimp only
        split
        · exact .ok _
        · exact .error rfl
      · split
        · split <;> exact .ok _
        · exact .error rfl
  exact hops.pass fun _ _ => .ok hready (by simpa using hr)

theorem callStatic_calls : Calls safe c.program i State.types s (callStatic c i s) := by
  refine .reading fun r n hcount => ?_
  dsimp only
  cases hcallee : (c.program.findMethod? r.2).bind c.program.methodAt? with
  | none => exact .error rfl
  | some callee =>
    have hlen : callee.parameters.length = n := by
      rw [← hcount callee hcallee, Method.parameterTypes, length_map]
    dsimp only
    rw [hlen]
    refine (s.popMany_abides n).bind id fun _ hready hs₁ => .ok hready ?_
    split
    · simpa using hs₁
    · simp only [State.types_push, State.types_emit, length_cons]
      omega

theorem openBranch_abides {cond : Condition}
    (hc : ∀ found number, i.condition = .ok (found, number) → found = cond) (s : State) :
    Moves safe State.types s (if cond = .forced then 0 else 1) 0 (openBranch c i s) := by
  unfold openBranch
  refine (reading_abides _).pass fun r hr => ?_
  obtain rfl := hc _ _ hr
  dsimp only
  split
  · exact .ok (Nat.zero_le _) (by simp)
  · refine s.pop_abides.bind id fun r' hready hr' => ?_
    refine (valueType_abides _ _).pass fun value _ => ?_
    have hops : Reads safe (conditionOps i r.1 r.2 r'.1 value) := by
      unfold conditionOps
      split
      · exact .ok _
      · exact .ok _
      · exact .ok _
      · split
        · exact .ok _
        · exact .error rfl
    exact hops.pass fun _ _ => .ok hready (by simpa using hr')

theorem ret_abides :
    Moves safe State.types s (if c.method.returnType = .void then 0 else 1) 0 (ret c i s) := by
  unfold ret
  split
  · exact .ok (Nat.zero_le _) (by simp)
  · exact s.pop_abides.bind id fun _ hready hr => .ok hready (by simpa using hr)

theorem drop_abides : Moves safe State.types s 1 0 (drop c i s) := by
  unfold drop
  exact s.pop_abides.bind id fun _ hready hr => .ok hready (by simpa using hr)

theorem otherwise_follows : Follows True (fun s' => s'.types = s.types) (otherwise c s) ∧
    otherwise c s ≠ .error .overflow := by
  unfold otherwise
  split
  · exact ⟨⟨trivial, rfl⟩, nofun⟩
  · exact ⟨fun _ => rfl, nofun⟩

theorem endBranch_follows : Follows True (fun s' => s'.types = s.types) (endBranch c s) ∧
    endBranch c s ≠ .error .overflow := by
  unfold endBranch
  split
  · exact ⟨⟨trivial, by simp⟩, nofun⟩
  · exact ⟨fun _ => rfl, nofun⟩

/-- What every instruction does to the noted types. -/
theorem step_handles (hi : safe → ¬i.NamesLeast) (s : State) :
    Handles safe (fun _ => True) c.program c.method i State.types s (step c i s) := by
  unfold Handles step
  cases hop : i.opcode with
  | nop => exact .ok (Nat.zero_le _) (by simp)
  | loadConst => exact loadConstant_abides s
  | getLocal => exact getLocal_abides s hop hi
  | setLocal => exact setLocal_abides s hop hi
  | add | sub | mul | div | rem | equals | unequals => exact binary_abides s
  | convert =>
    exact (convert_abides s).mono Iff.rfl fun _ _ hs => ⟨Nat.le_of_eq hs, fun _ _ _ => hs⟩
  | call => exact callStatic_calls s
  | jump => exact .error rfl fun _ => nofun
  | branch => exact fun _ hcond => openBranch_abides hcond s
  | otherwise => exact otherwise_follows s
  | endBranch => exact endBranch_follows s
  | ret => exact ret_abides s
  | pop => exact drop_abides s

end Wat

end ScriptCompiler
