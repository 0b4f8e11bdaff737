import ScriptCompiler.Proofs.Signatures
import ScriptCompiler.Proofs.WrittenForms

/-!
# Decoded instructions

What an instruction says once its operands are read: a `Command`. The meaning of
stack code is defined on commands, so that the texts of the operands matter in this
module only. Indices and numbers are read without a bound on their size. A jump
is no command: it belongs to no structured code.
-/

set_option autoImplicit false

namespace ScriptCompiler

open List Option

/-- An instruction with its operands read. -/
inductive Command where
  | nop
  | constant (type : Primitive) (text : String)
  | get (index : Int)
  | set (index : Int)
  /-- Takes the left operand from the top and the right one from below it. -/
  | operate (op : BinaryOp) (type : Primitive)
  | convert (target : Primitive)
  /-- Calls the method whose reference has this text. -/
  | call (result : Primitive) (target : String)
  | branch (cond : Condition) (number : Option Int)
  | otherwise
  | endBranch
  | ret
  | pop
  deriving DecidableEq, Repr

/-- Whether a number can be looked up as an index: a word of 32 bits that has an opposite. -/
def Integer.isIndex (n : Int) : Bool := fits 32 n && fits 32 (-n)

theorem checkIndex_eq {index : Int} (h : Integer.isIndex index = true) :
    checkIndex index = .ok () := by
  rw [checkIndex, inWord, if_pos (Bool.and_eq_true_iff.1 h).2]
  exact ite_self _

theorem inWord_ok {bits : Nat} {n k : Int} (h : inWord bits n = .ok k) :
    k = n ∧ Integer.fits bits n = true := by
  by_cases hn : Integer.fits bits n = true
  · rw [inWord, if_pos hn] at h
    exact ⟨(Except.ok.inj h).symm, hn⟩
  · rw [inWord, if_neg hn] at h
    cases h

/-- What is found by an index is what its place holds. -/
theorem of_checkIndex {α : Type} {index : Int} {a b : α}
    (h : (checkIndex index >>= fun _ => pure a) = .ok b) : a = b := by
  obtain ⟨-, -, h⟩ := of_bind h
  exact Except.ok.inj h

namespace Instruction

/-- The first operand as a type. -/
def type? (i : Instruction) : Option Primitive := i.operands[0]?.bind Primitive.ofTag?

/-- The operand at a position as a number. -/
def number? (i : Instruction) (position : Nat) : Option Int :=
  i.operands[position]?.bind fun text => Integer.readSigned? text.toList

/-- The operands of a branch; a condition that compares needs the number. -/
def branch? (i : Instruction) : Option Command := do
  let cond ← i.operands[0]?.bind Condition.ofName?
  match i.operands[1]? with
  | some _ => (i.number? 1).map fun n => .branch cond (some n)
  | none => if cond.takesValue then none else some (.branch cond none)

/-- The command of an instruction, if its operands can be read. -/
def command? (i : Instruction) : Option Command :=
  match i.opcode with
  | .nop => some .nop
  | .loadConst => i.type?.bind fun type => i.operands[1]?.map fun text => .constant type text
  | .getLocal => (i.number? 0).map .get
  | .setLocal => (i.number? 0).map .set
  | .add => i.type?.map (.operate .add)
  | .sub => i.type?.map (.operate .sub)
  | .mul => i.type?.map (.operate .mul)
  | .div => i.type?.map (.operate .div)
  | .rem => i.type?.map (.operate .rem)
  | .equals => i.type?.map (.operate .equal)
  | .unequals => i.type?.map (.operate .notEqual)
  | .convert => i.type?.map .convert
  | .call => i.type?.bind fun type => i.operands[1]?.map fun text => .call type text
  | .jump => none
  | .branch => i.branch?
  | .otherwise => some .otherwise
  | .endBranch => some .endBranch
  | .ret => some .ret
  | .pop => some .pop

/-! ## Well-formed instructions -/

@[simp] theorem command?_loadConst (type : Primitive) (text : String) :
    (loadConst type text).command? = some (.constant type text) := by
  simp [command?, loadConst, type?, Primitive.ofTag?_tag]

@[simp] theorem command?_getLocal (index : Int) : (getLocal index).command? = some (.get index) := by
  simp [command?, getLocal, number?, Integer.readSigned?_repr]

@[simp] theorem command?_setLocal (index : Int) : (setLocal index).command? = some (.set index) := by
  simp [command?, setLocal, number?, Integer.readSigned?_repr]

@[simp] theorem command?_binary (op : BinaryOp) (type : Primitive) :
    (binary op.opcode type).command? = some (.operate op type) := by
  cases op <;> simp [command?, binary, BinaryOp.opcode, type?, Primitive.ofTag?_tag]

@[simp] theorem command?_convert (target : Primitive) :
    (convert target).command? = some (.convert target) := by
  simp [command?, convert, type?, Primitive.ofTag?_tag]

@[simp] theorem command?_call (result : Primitive) (target : Reference) :
    (call result target).command? = some (.call result target.text) := by
  simp [command?, call, type?, Primitive.ofTag?_tag]

@[simp] theorem command?_branch_some (cond : Condition) (n : Int) :
    (branch cond (some n)).command? = some (.branch cond (some n)) := by
  simp [command?, branch, branch?, number?, Condition.ofName?_name, Integer.readSigned?_repr]

@[simp] theorem command?_branch_none {cond : Condition} (h : cond.takesValue = false) :
    (branch cond none).command? = some (.branch cond none) := by
  simp [command?, branch, branch?, Condition.ofName?_name, h]

@[simp] theorem command?_otherwise : otherwise.command? = some .otherwise := rfl

@[simp] theorem command?_endBranch : endBranch.command? = some .endBranch := rfl

@[simp] theorem command?_ret : ret.command? = some .ret := rfl

@[simp] theorem command?_pop : pop.command? = some .pop := rfl

theorem exists_of_branch? {i : Instruction} {c : Command} (h : i.branch? = some c) :
    ∃ cond number, c = .branch cond number := by
  obtain ⟨cond, -, h⟩ := bind_eq_some_iff.1 h
  split at h
  · obtain ⟨n, -, rfl⟩ := map_eq_some_iff.1 h
    exact ⟨cond, some n, rfl⟩
  · split at h
    · cases h
    · cases h
      exact ⟨cond, none, rfl⟩

/-! ## Operands -/

section

variable {i : Instruction} {t : Primitive} {text : String} {index : Int}

theorem operandType_of_type? (h : i.type? = some t) : i.operandType = .ok t := by
  obtain ⟨_, htag, ht⟩ := bind_eq_some_iff.1 h
  simp only [operandType, operand, htag, ok_bind, ht, expect]

theorem constant_of_type? (h : i.type? = some t) (htext : i.operands[1]? = some text) :
    i.constant = .ok (t, text) := by
  simp only [constant, operandType_of_type? h, ok_bind, operand, htext]
  rfl

theorem localIndex_of_number? (h : i.number? 0 = some index)
    (hi : Integer.isIndex index = true) : i.localIndex = .ok index := by
  obtain ⟨digits, hdigits, hread⟩ := bind_eq_some_iff.1 h
  have hindex : Integer.read? 32 digits = some index := by
    rw [Integer.read?, hread, bind_some, Integer.within?, if_pos (Bool.and_eq_true_iff.1 hi).1]
  simp only [localIndex, operand, hdigits, ok_bind, hindex, expect]

variable {cond : Condition} {number : Option Int} {r : Reference}

theorem callTarget_of_type? (h : i.type? = some t) (htext : i.operands[1]? = some text)
    (hr : Reference.parse? text = some r) : i.callTarget = .ok (t, r) := by
  simp only [callTarget, operandType_of_type? h, ok_bind, operand, htext, hr, expect]
  rfl

theorem condition_of_branch? (h : i.branch? = some (.branch cond number))
    (hfits : number.all (Integer.fits 128) = true) : i.condition = .ok (cond, number) := by
  obtain ⟨_, hfound, h⟩ := bind_eq_some_iff.1 h
  obtain ⟨_, hname, hfound⟩ := bind_eq_some_iff.1 hfound
  simp only [Instruction.condition, operand, hname, ok_bind, hfound, expect]
  cases htext : i.operands[1]? with
  | some text =>
    rw [htext] at h
    obtain ⟨n, hn, hsame⟩ := map_eq_some_iff.1 h
    cases hsame
    have hread : Integer.readSigned? text.toList = some n := by
      simpa only [number?, htext, bind_some] using hn
    have hbounds : Integer.fits 128 n = true := hfits
    have hnumber : Integer.read? 128 text = some n := by
      rw [Integer.read?, hread, bind_some, Integer.within?, if_pos hbounds]
    simp only [hnumber, ok_bind]
    rfl
  | none =>
    rw [htext] at h
    obtain ⟨hvalue, hsame⟩ := ite_none_left_eq_some.1 h
    cases hsame
    exact if_neg hvalue

theorem operand_ok {position : Nat} (h : i.operand position = .ok text) :
    i.operands[position]? = some text := by
  unfold operand at h
  split at h
  · rename_i htext
    cases h
    exact htext
  · cases h

theorem expect_ok {α : Type} {expected : String} {x : Option α} {a : α}
    (h : i.expect text expected x = .ok a) : x = some a := by
  cases x with
  | none => cases h
  | some =>
    cases h
    rfl

theorem operandType_ok (h : i.operandType = .ok t) : i.type? = some t := by
  obtain ⟨_, htext, h⟩ := of_bind h
  simp only [type?, operand_ok htext, bind_some]
  exact expect_ok h

theorem callTarget_ok (h : i.callTarget = .ok (t, r)) :
    i.type? = some t ∧ ∃ text, i.operands[1]? = some text ∧ Reference.parse? text = some r := by
  obtain ⟨type, text, htype, htext, h⟩ := of_bind₂ h
  obtain ⟨_, htarget, h⟩ := of_bind h
  cases h
  exact ⟨operandType_ok htype, text, operand_ok htext, expect_ok htarget⟩

theorem constant_ok (h : i.constant = .ok (t, text)) :
    i.type? = some t ∧ i.operands[1]? = some text := by
  obtain ⟨type, _, htype, hfound, h⟩ := of_bind₂ h
  cases h
  exact ⟨operandType_ok htype, operand_ok hfound⟩

theorem localIndex_ok (h : i.localIndex = .ok index) : i.number? 0 = some index := by
  obtain ⟨_, hdigits, h⟩ := of_bind h
  rw [number?, operand_ok hdigits, bind_some]
  exact Integer.readSigned?_of_read? (expect_ok h)

theorem branch?_of_condition (h : i.condition = .ok (cond, number)) :
    i.branch? = some (.branch cond number) := by
  obtain ⟨_, found, hname, hfound, h⟩ := of_bind₂ h
  simp only [branch?, operand_ok hname, bind_some, expect_ok hfound, bind_eq_bind]
  cases htext : i.operands[1]? with
  | some =>
    rw [htext] at h
    obtain ⟨_, hn, h⟩ := of_bind h
    cases h
    simp only [number?, htext, bind_some, Integer.readSigned?_of_read? (expect_ok hn), map_some]
  | none =>
    rw [htext] at h
    by_cases hvalue : found.takesValue = true
    · rw [if_pos hvalue] at h
      cases h
    · rw [if_neg hvalue] at h ⊢
      cases h
      rfl

end

end Instruction

theorem reading_ok {α : Type} {x : Except CodeError α} {a : α} (h : reading x = .ok a) :
    x = .ok a := by
  cases x with
  | error => cases h
  | ok =>
    cases h
    rfl

/-- The opcode of the instructions that a command is read from. -/
def Command.opcode : Command → Opcode
  | .nop => .nop
  | .constant .. => .loadConst
  | .get _ => .getLocal
  | .set _ => .setLocal
  | .operate op _ => op.opcode
  | .convert _ => .convert
  | .call .. => .call
  | .branch .. => .branch
  | .otherwise => .otherwise
  | .endBranch => .endBranch
  | .ret => .ret
  | .pop => .pop

/-- Whether the operands of an instruction are those of a command. -/
def Command.ReadsFrom (i : Instruction) : Command → Prop
  | .constant type text | .call type text => i.type? = some type ∧ i.operands[1]? = some text
  | .get index | .set index => i.number? 0 = some index
  | .operate _ type | .convert type => i.type? = some type
  | .branch cond number => i.branch? = some (.branch cond number)
  | _ => True

variable {i : Instruction}

/-- A command has the opcode of its instruction and the operands that can be read there. -/
theorem Instruction.of_command? {c : Command} (h : i.command? = some c) :
    i.opcode = c.opcode ∧ c.ReadsFrom i := by
  unfold command? at h
  cases hop : i.opcode with
  | loadConst | call =>
    rw [hop] at h
    obtain ⟨_, htype, h⟩ := bind_eq_some_iff.1 h
    obtain ⟨_, htext, rfl⟩ := map_eq_some_iff.1 h
    exact ⟨rfl, htype, htext⟩
  | getLocal | setLocal | add | sub | mul | div | rem | equals | unequals | convert =>
    rw [hop] at h
    obtain ⟨_, hoperand, rfl⟩ := map_eq_some_iff.1 h
    exact ⟨rfl, hoperand⟩
  | branch =>
    rw [hop] at h
    obtain ⟨_, _, rfl⟩ := exists_of_branch? h
    exact ⟨rfl, h⟩
  | jump =>
    rw [hop] at h
    cases h
  | nop | otherwise | endBranch | ret | pop =>
    rw [hop] at h
    cases h
    exact ⟨rfl, trivial⟩

theorem Instruction.opcode_of_command? {c : Command} (h : i.command? = some c) :
    i.opcode = c.opcode :=
  (i.of_command? h).1

/-! ## Straight code -/

/-- Whether a command opens, divides or closes a conditional. -/
def Command.isMark : Command → Bool
  | .branch .. | .otherwise | .endBranch => true
  | _ => false

/-- Whether a command opens, divides or closes a conditional, or leaves the method. -/
def Command.isControl : Command → Bool
  | .branch .. | .otherwise | .endBranch | .ret => true
  | _ => false

/-- Whether an instruction has a command that passes control on to the next one. -/
def Instruction.isStraight (i : Instruction) : Bool := i.command?.any fun c => !c.isControl

/-! ## Replaying code -/

section

variable {σ : Type} {step : Command → σ → Option σ}

/-- What becomes of a state when code is gone through from the first instruction to the last, if all
of them can be read and find what they need. -/
def replay (step : Command → σ → Option σ) : Code → σ → Option σ
  | [], s => some s
  | i :: rest, s => do
    let c ← i.command?
    let s ← step c s
    replay step rest s

theorem replay_append (a b : Code) (s : σ) :
    replay step (a ++ b) s = (replay step a s).bind (replay step b) := by
  induction a generalizing s with
  | nil => rfl
  | cons i _ ih =>
    simp only [cons_append, replay]
    cases i.command? with
    | none => rfl
    | some c =>
      simp only [bind_eq_bind, bind_some]
      cases step c s with
      | none => rfl
      | some s' => exact ih s'

theorem replay_singleton {c : Command} (h : i.command? = some c) (s : σ) :
    replay step [i] s = step c s := by
  simp only [replay, h, bind_eq_bind, bind_some]
  cases step c s <;> rfl

end

/-! ## Called methods -/

namespace Program

/-- The parameter types of the first method whose reference has this text. -/
def parametersOf? (p : Program) (text : String) : Option Types :=
  (p.methods.find? fun m => (p.referenceOf m).text == text).map Method.parameterTypes

variable {callee : Method} {p : Program}

theorem parametersOf?_of_mem (hmem : callee ∈ p.methods) :
    p.parametersOf? (p.referenceOf callee).text = some callee.parameterTypes := by
  have hsome : (p.methods.find? fun m =>
      (p.referenceOf m).text == (p.referenceOf callee).text).isSome = true :=
    find?_isSome.2 ⟨callee, hmem, by simp⟩
  obtain ⟨first, hfirst⟩ := isSome_iff_exists.1 hsome
  -- the first method with this text need not be the callee, but has its parameters
  have htext := find?_some hfirst
  have hsame : first.parameterTypes = callee.parameterTypes :=
    Reference.parameters_eq_of_text_eq (beq_iff_eq.1 htext)
  rw [parametersOf?, hfirst, map_some, hsame]

theorem mem_of_bind_methodAt? {method : Option MethodId} (h : method.bind p.methodAt? = some callee) :
    callee ∈ p.methods := by
  obtain ⟨_, -, hid⟩ := bind_eq_some_iff.1 h
  exact mem_of_getElem? hid

theorem parametersOf?_congr {q : Program} (h : p.outline = q.outline) :
    p.parametersOf? = q.parametersOf? := by
  have key : ∀ r : Program, r.outline.parametersOf? = r.parametersOf? := by
    intro r
    funext text
    unfold parametersOf?
    show ((r.methods.map Method.outline).find? _).map _ = _
    rw [find?_map, Option.map_map]
    rfl
  rw [← key p, h, key q]

variable {r : Reference}

theorem parameterTypes_of_findMethod? (h : (p.findMethod? r).bind p.methodAt? = some callee) :
    callee.parameterTypes = r.parameters := by
  obtain ⟨id, hid, hcallee⟩ := bind_eq_some_iff.1 h
  have hanswers : p.answersTo r id = true := find?_some hid
  rw [answersTo, hcallee, any_some, Bool.and_eq_true] at hanswers
  exact beq_iff_eq.1 hanswers.2

/-- The text of a method's reference is read with the parameters of the method. -/
theorem parameters_of_parse? {text : String} {types : Types}
    (h : p.parametersOf? text = some types) (hr : Reference.parse? text = some r) :
    r.parameters = types := by
  obtain ⟨m, hm, rfl⟩ := map_eq_some_iff.1 h
  have hfound := find?_some hm
  have htext : (p.referenceOf m).text = text := beq_iff_eq.1 hfound
  rw [← htext] at hr
  exact Reference.parameters_eq_of_text_eq (Reference.text_of_parse? hr)

end Program

end ScriptCompiler
