import ScriptCompiler.Proofs.X86.VirtualStack
import ScriptCompiler.X86.Compile

/-!
# Actions on the virtual stack

An instruction is compiled by a few kinds of actions: entries are taken from the virtual
stack and pushed on it, moved to scratch slots, brought to registers, to slots and to the
argument area, and registers are worked on. What each action does to the entries and
which lines it adds is said here once (`Action`). Entries that are kept apart stay so.
-/

set_option autoImplicit false

namespace ScriptCompiler.X86

open List Option

/-! ## Lines -/

/-- A listing with more lines. -/
def Listing.extended (l : Listing) (lines : List Line) : Listing :=
  { l with lines := l.lines ++ lines }

/-- Whether an entry is a constant. -/
def StackValue.isConstant : StackValue → Bool
  | constant .. => true
  | _ => false

/-- The lines that bring an entry to a register. -/
def loadLines? (f : Frame) (r : Register) : StackValue → Option (List Line)
  | .constant _ value => some [.instruction "MOV" [.register r, value]]
  | .operation _ =>
    some (if r = .eax then [] else [.instruction "MOV" [.register r, .register .eax]])
  | .temp _ slot => some [.instruction "MOV" [.register r, f.tempOperand slot]]
  | .stored t index =>
    (f.localOperand? index).map fun source =>
      [.instruction (State.loadMnemonic t) [.register r, source]]

/-- The lines that bring an entry to memory of `size` bytes. A constant goes there at once, any other
entry through `EAX`. -/
def storeLines? (f : Frame) (target : Operand) (size : Nat) : StackValue → Option (List Line)
  | .constant _ value => some [.instruction "MOV" [target, value]]
  | v => (loadLines? f .eax v).map
      (· ++ [.instruction "MOV" [target, .register (Width.ofSize size).accumulator]])

variable {v : StackValue} {f : Frame} {lines : List Line}

theorem storeLines?_eq (hv : v.isConstant = false) (f : Frame) (target : Operand) (size : Nat) :
    storeLines? f target size v = (loadLines? f .eax v).map
      (· ++ [.instruction "MOV" [target, .register (Width.ofSize size).accumulator]]) := by
  cases v with
  | constant => cases hv
  | stored | operation | temp => rw [storeLines?]; simp

variable {target : Operand}

theorem storeLines?_ok {size : Nat} (h : storeLines? f target size v = some lines) :
    (∃ t value, v = .constant t value ∧ lines = [.instruction "MOV" [target, value]]) ∨
      v.isConstant = false ∧ ∃ loaded, loadLines? f .eax v = some loaded ∧
        lines = loaded ++ [.instruction "MOV" [target, .register (Width.ofSize size).accumulator]] := by
  by_cases hv : v.isConstant = true
  · cases v with
    | constant t value => exact .inl ⟨t, value, rfl, (some.inj h).symm⟩
    | stored | operation | temp => cases hv
  · have hv := Bool.eq_false_iff.2 hv
    rw [storeLines?_eq hv] at h
    obtain ⟨loaded, hloaded, rfl⟩ := map_eq_some_iff.1 h
    exact .inr ⟨hv, loaded, hloaded, rfl⟩

/-- Whether an operand is a number or a register, but not that of the stack. -/
def Operand.isPlain : Operand → Bool
  | register r => r ≠ .esp
  | number _ => true
  | _ => false

/-- Whether a line works on registers only. -/
def Line.computes : Line → Bool
  | .instruction mnemonic operands =>
    ["ADD", "SUB", "IMUL", "CDQ", "IDIV", "XOR", "DIV", "MOV", "CMP", "TEST", "SETE", "SETNE",
      "MOVSX", "MOVZX"].contains mnemonic && operands.all Operand.isPlain
  | _ => false

/-- The lines that leave a method. -/
def epilogueLines (f : Frame) : List Line :=
  .instruction "LEAVE" [] ::
    (if 0 < f.parametersSize then
      [.instruction "POP" [.register .ecx],
        .instruction "ADD" [.register .esp, .number f.parametersSize],
        .instruction "PUSH" [.register .ecx]]
    else []) ++ [.instruction "RET" []]

/-- Whether a line is an instruction other than a call. -/
def Line.isDirect : Line → Bool
  | .instruction mnemonic _ => mnemonic != "CALL"
  | _ => false

/-- Whether lines run one after the other, without jumps and calls. -/
def Direct (lines : List Line) : Prop := ∀ line ∈ lines, line.isDirect = true

theorem Direct.append {a b : List Line} (ha : Direct a) (hb : Direct b) : Direct (a ++ b) :=
  fun line hline => (mem_append.1 hline).elim (ha line) (hb line)

theorem direct_loadLines {r : Register} (h : loadLines? f r v = some lines) : Direct lines := by
  cases v with
  | constant t value | temp t slot =>
    cases h
    simp [Direct, Line.isDirect]
  | operation =>
    cases h
    split <;> simp [Direct, Line.isDirect]
  | stored =>
    obtain ⟨_, -, rfl⟩ := map_eq_some_iff.1 h
    intro _ hline
    rw [mem_singleton.1 hline]
    unfold State.loadMnemonic
    split
    · rfl
    · split <;> rfl

theorem direct_storeLines {size : Nat} (h : storeLines? f target size v = some lines) :
    Direct lines := by
  rcases storeLines?_ok h with ⟨_, _, -, rfl⟩ | ⟨-, _, hloaded, rfl⟩
  · simp [Direct, Line.isDirect]
  · exact (direct_loadLines hloaded).append (by simp [Direct, Line.isDirect])

theorem direct_epilogueLines (f : Frame) : Direct (epilogueLines f) := by
  unfold epilogueLines
  split <;> simp [Direct, Line.isDirect]

theorem Line.isDirect_of_computes {line : Line} (h : line.computes = true) :
    line.isDirect = true := by
  cases line with
  | instruction =>
    have hmnemonic := (Bool.and_eq_true_iff.1 h).1
    refine bne_iff_ne.2 ?_
    rintro rfl
    exact absurd hmnemonic (by decide)
  | jump | raw => cases h

/-! ## Actions -/

/-- What an instruction is compiled over. -/
structure Stage where
  frame : Frame
  shared : Shared
  /-- The bytes reserved for the arguments of a call. -/
  reserved : Nat
  /-- The entries that the instruction has taken and not yet used. -/
  held : Stack
  stack : Stack

/-- Whether no entry is in `EAX`. -/
def Clear (vs : Stack) : Prop := ∀ v ∈ vs, v.isOperation = false

/-- Whether an instruction may push an entry: it has the type that the instruction names or that of
the slot it reads, or it is the truth of a comparison. A call of a method that returns nothing pushes
nothing. -/
def Pushable (f : Frame) (i : Instruction) : StackValue → Prop
  | .constant t _ => i.opcode ≠ .call ∧ i.type? = some t
  | .stored t index => i.number? 0 = some index ∧ f.localType index = .ok (some t)
  | .operation t => i.type? = some t ∧ (i.opcode = .call → t ≠ .void) ∨ t = .bool
  | .temp .. => False

/-- Whether an entry may be handed over as an argument of a type: that of a parameter, or its own if
it is converted by a call. -/
def Passes (c : Context) (i : Instruction) (v : StackValue) (t : Primitive) : Prop :=
  i.opcode = .convert ∧ t = v.type ∨ ∃ m ∈ c.program.methods, t ∈ m.parameterTypes

/-- The actions by which an instruction is compiled, with their lines. None of them takes one of the
lowest `k` entries of the stack. -/
inductive Action (c : Context) (i : Instruction) (k : Nat) : Stage → List Line → Stage → Prop where
  | take {f : Frame} {u : Shared} {n : Nat} {v : StackValue} {held vs : Stack}
      (hk : k ≤ vs.length) : Action c i k ⟨f, u, n, held, v :: vs⟩ [] ⟨f, u, n, v :: held, vs⟩
  | reorder {f : Frame} {u : Shared} {n : Nat} {held other vs : Stack}
      (hperm : held.Perm other) : Action c i k ⟨f, u, n, held, vs⟩ [] ⟨f, u, n, other, vs⟩
  /-- A conversion to the type that an entry has puts it back. -/
  | restore {f : Frame} {u : Shared} {n : Nat} {v : StackValue} {held vs : Stack}
      (htype : i.type? = some v.type) :
      Action c i k ⟨f, u, n, v :: held, vs⟩ [] ⟨f, u, n, held, v :: vs⟩
  | push {f : Frame} {u : Shared} {n : Nat} {v : StackValue} {held vs : Stack}
      (hv : Pushable f i v) (hclear : v.isOperation = true → Clear (held ++ vs)) :
      Action c i k ⟨f, u, n, held, vs⟩ [] ⟨f, u, n, held, v :: vs⟩
  | discard {f : Frame} {u : Shared} {n : Nat} {v : StackValue} {held vs : Stack} :
      Action c i k ⟨f, u, n, v :: held, vs⟩ [] ⟨f.release v, u, n, held, vs⟩
  /-- A text goes to the data of the unit. -/
  | intern {f : Frame} {u : Shared} {n : Nat} {held vs : Stack} (data : DataTable) :
      Action c i k ⟨f, u, n, held, vs⟩ [] ⟨f, { u with data }, n, held, vs⟩
  | spill {f g : Frame} {u : Shared} {n slot : Nat} {t : Primitive}
      {held before after : Stack} (halloc : f.allocTemp = (g, slot)) :
      Action c i k ⟨f, u, n, held, before ++ .operation t :: after⟩
        [.instruction "MOV" [g.tempOperand slot, .register .eax]]
        ⟨g, u, n, held, before ++ .temp t slot :: after⟩
  /-- A pending read of a slot that is assigned to is copied out of it. -/
  | detach {f g : Frame} {u : Shared} {n slot : Nat} {t : Primitive} {index : Int}
      {held before after : Stack} {lines : List Line} (hop : i.opcode = .setLocal)
      (hindex : i.number? 0 = some index) (halloc : f.allocTemp = (g, slot))
      (hlines : loadLines? f .ecx (.stored t index) = some lines) :
      Action c i k ⟨f, u, n, held, before ++ .stored t index :: after⟩
        (lines ++ [.instruction "MOV" [g.tempOperand slot, .register .ecx]])
        ⟨g, u, n, held, before ++ .temp t slot :: after⟩
  | load {f : Frame} {u : Shared} {n : Nat} {v : StackValue} {held vs : Stack}
      {r : Register} {lines : List Line} (hr : r = .eax ∨ r = .ecx)
      (hlines : loadLines? f r v = some lines) (hclear : r = .eax → Clear (held ++ vs)) :
      Action c i k ⟨f, u, n, v :: held, vs⟩ lines ⟨f.release v, u, n, held, vs⟩
  | compute {f : Frame} {u : Shared} {n : Nat} {held vs : Stack} {lines : List Line}
      (hlines : ∀ line ∈ lines, line.computes = true) (hclear : Clear (held ++ vs)) :
      Action c i k ⟨f, u, n, held, vs⟩ lines ⟨f, u, n, held, vs⟩
  /-- A slot is assigned to once no pending read of it is left. -/
  | assign {f : Frame} {u : Shared} {n : Nat} {v : StackValue} {held vs : Stack}
      {index : Int} {t : Primitive} {target : Operand} {lines : List Line}
      (hop : i.opcode = .setLocal) (hindex : i.number? 0 = some index)
      (htype : f.localType? index = some t) (htarget : f.localOperand? index = some target)
      (hlines : storeLines? f target t.size v = some lines)
      (hread : ∀ u, .stored u index ∉ vs) (hclear : v.isConstant = false → Clear (held ++ vs)) :
      Action c i k ⟨f, u, n, v :: held, vs⟩ lines ⟨f.release v, u, n, held, vs⟩
  | reserve {f : Frame} {u : Shared} {held vs : Stack} (total : Nat) :
      Action c i k ⟨f, u, 0, held, vs⟩ [.instruction "SUB" [.register .esp, .number total]]
        ⟨f, u, total, held, vs⟩
  | argument {f : Frame} {u : Shared} {n offset : Nat} {v : StackValue}
      {held vs : Stack} {t : Primitive} {lines : List Line} (ht : Passes c i v t)
      (hbound : offset + t.size ≤ n)
      (hlines : storeLines? f (.argument (.ofSize t.size) offset) t.size v = some lines)
      (hclear : v.isConstant = false → Clear (held ++ vs)) :
      Action c i k ⟨f, u, n, v :: held, vs⟩ lines ⟨f.release v, u, n, held, vs⟩
  /-- The called method gives the argument area back. -/
  | call {f : Frame} {u : Shared} {n : Nat} {held vs : Stack} (label : String)
      (hclear : Clear (held ++ vs)) :
      Action c i k ⟨f, u, n, held, vs⟩ [.instruction "CALL" [.label label]]
        ⟨f, u.recordCall label, 0, held, vs⟩
  | leave {f : Frame} {u : Shared} {n : Nat} {held vs : Stack} :
      Action c i k ⟨f, u, n, held, vs⟩ (epilogueLines f) ⟨f, u, n, held, vs⟩
  /-- An entry is returned, whatever else is in `EAX`. -/
  | deliver {f : Frame} {u : Shared} {n : Nat} {v : StackValue} {held vs : Stack}
      {lines : List Line} (hlines : loadLines? f .eax v = some lines) :
      Action c i k ⟨f, u, n, v :: held, vs⟩ (lines ++ epilogueLines (f.release v))
        ⟨f.release v, u, n, held, vs⟩

/-- Actions one after the other. -/
inductive Acts (c : Context) (i : Instruction) (k : Nat) : Stage → List Line → Stage → Prop where
  | refl {a : Stage} : Acts c i k a [] a
  | step {a b d : Stage} {lines more : List Line} (h : Action c i k a lines b)
      (hrest : Acts c i k b more d) : Acts c i k a (lines ++ more) d

section

variable {c : Context} {i : Instruction} {k : Nat} {a b d : Stage} {lines more : List Line}

theorem Acts.single (h : Action c i k a lines b) : Acts c i k a lines b := by
  have hacts := Acts.step h .refl
  rwa [append_nil] at hacts

theorem Acts.trans (h : Acts c i k a lines b) (hrest : Acts c i k b more d) :
    Acts c i k a (lines ++ more) d := by
  induction h with
  | refl => exact hrest
  | step hfirst _ ih =>
    rw [append_assoc]
    exact .step hfirst (ih hrest)

/-- An action keeps the entries apart, those taken and those on the stack together. -/
theorem Action.apart (h : Action c i k a lines b) (ha : Apart a.frame (a.held ++ a.stack)) :
    Apart b.frame (b.held ++ b.stack) := by
  cases h with
  | take => exact ha.perm perm_middle
  | reorder hperm => exact ha.perm (hperm.append_right _)
  | restore => exact ha.perm perm_middle.symm
  | @push f u n v held vs hv hclear =>
    have hslot : v.slot? = none := by
      cases v with
      | temp => exact hv.elim
      | constant | stored | operation => rfl
    exact (ha.push hslot hclear).perm perm_middle.symm
  | discard | load | assign | argument | deliver => exact ha.release
  | spill halloc | detach _ _ halloc _ =>
    dsimp only at ha ⊢
    rw [← append_assoc] at ha ⊢
    exact ((ha.perm perm_middle).to_temp rfl halloc _).perm perm_middle.symm
  | intern | compute | reserve | call | leave => exact ha

theorem Acts.apart (h : Acts c i k a lines b) (ha : Apart a.frame (a.held ++ a.stack)) :
    Apart b.frame (b.held ++ b.stack) := by
  induction h with
  | refl => exact ha
  | step hfirst _ ih => exact ih (hfirst.apart ha)

theorem Action.outline (h : Action c i k a lines b) : b.frame.outline = a.frame.outline := by
  cases h with
  | discard | load | assign | argument | deliver => exact Frame.release_outline _ _
  | spill halloc | detach _ _ halloc _ => exact allocTemp_outline halloc
  | take | reorder | restore | push | intern | compute | reserve | call | leave => rfl

theorem Acts.outline (h : Acts c i k a lines b) : b.frame.outline = a.frame.outline := by
  induction h with
  | refl => rfl
  | step hfirst _ ih => exact ih.trans hfirst.outline

/-- An entry behind an action was there before, is pushed by it, or is a scratch slot with the value
of another entry. -/
theorem Action.origin (h : Action c i k a lines b) (hv : v ∈ b.held ++ b.stack) :
    v ∈ a.held ++ a.stack ∨ Pushable a.frame i v ∨
      v.slot?.isSome = true ∧ ∃ w ∈ a.held ++ a.stack, w.type = v.type := by
  have hmoved : ∀ {w u : StackValue} {held before after : Stack}, u.slot?.isSome = true →
      w.type = u.type → v ∈ held ++ (before ++ u :: after) →
      v ∈ held ++ (before ++ w :: after) ∨ Pushable a.frame i v ∨
        v.slot?.isSome = true ∧ ∃ w' ∈ held ++ (before ++ w :: after), w'.type = v.type := by
    intro w u held before after hslot htype hv
    simp only [mem_append, mem_cons] at hv ⊢
    rcases hv with hv | hv | rfl | hv
    · exact .inl (.inl hv)
    · exact .inl (.inr (.inl hv))
    · exact .inr (.inr ⟨hslot, w, .inr (.inr (.inl rfl)), htype⟩)
    · exact .inl (.inr (.inr (.inr hv)))
  cases h with
  | push hpush =>
    rcases mem_cons.1 (perm_middle.mem_iff.1 hv) with rfl | hv
    · exact .inr (.inl hpush)
    · exact .inl hv
  | reorder hperm => exact .inl ((hperm.append_right _).mem_iff.2 hv)
  | take => exact .inl (perm_middle.mem_iff.2 hv)
  | restore => exact .inl (perm_middle.mem_iff.1 hv)
  | discard | load | assign | argument | deliver => exact .inl (mem_cons_of_mem _ hv)
  | intern | compute | reserve | call | leave => exact .inl hv
  | @spill _ _ _ _ slot t => exact @hmoved (.operation t) (.temp t slot) _ _ _ rfl rfl hv
  | @detach _ _ _ _ slot t index => exact @hmoved (.stored t index) (.temp t slot) _ _ _ rfl rfl hv

/-- The lines of an action are direct, or they are a call, which is noted. -/
theorem Action.direct (h : Action c i k a lines b) :
    Direct lines ∧ b.shared.calls = a.shared.calls ∨
      ∃ label, lines = [.instruction "CALL" [.label label]] ∧
        b.shared = a.shared.recordCall label := by
  cases h with
  | take | reorder | restore | push | discard | intern => exact .inl ⟨by simp [Direct], rfl⟩
  | spill | reserve => exact .inl ⟨by simp [Direct, Line.isDirect], rfl⟩
  | detach _ _ _ hlines =>
    exact .inl ⟨(direct_loadLines hlines).append (by simp [Direct, Line.isDirect]), rfl⟩
  | load _ hlines => exact .inl ⟨direct_loadLines hlines, rfl⟩
  | compute hlines =>
    exact .inl ⟨fun line hline => Line.isDirect_of_computes (hlines line hline), rfl⟩
  | assign _ _ _ _ hlines | argument _ _ hlines => exact .inl ⟨direct_storeLines hlines, rfl⟩
  | call label => exact .inr ⟨label, rfl, rfl⟩
  | leave => exact .inl ⟨direct_epilogueLines _, rfl⟩
  | deliver hlines => exact .inl ⟨(direct_loadLines hlines).append (direct_epilogueLines _), rfl⟩

end

end ScriptCompiler.X86
