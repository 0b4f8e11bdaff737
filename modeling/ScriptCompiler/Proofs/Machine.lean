import ScriptCompiler.Proofs.Commands
import ScriptCompiler.Proofs.TreeMeaning

/-!
# The stack machine

Stack code runs over an interpretation of constants, conversions, operators and
calls. Each instruction works on the top of an operand stack of typed values; a
branch that is not taken is skipped by counting the conditionals that open and
close on the way. A return stops the machine. An instruction that does not find
its operands is stuck.
-/

set_option autoImplicit false

namespace ScriptCompiler

variable {V W : Type}

/-- What the machine does with the next instruction. -/
inductive Control (V : Type) where
  | running
  /-- Skips to the `otherwise` or the end of a conditional, `depth` others being open inside. -/
  | toOtherwise (depth : Nat)
  /-- Skips to the end of a conditional, `depth` others being open inside. -/
  | toEnd (depth : Nat)
  | returned (value : Option V)
  deriving DecidableEq, Repr

/-- The operand stack, the latest value first, the store and the control. -/
structure Machine (V W : Type) where
  stack : List (Primitive × V)
  store : Store V W
  control : Control V := .running

/-- What an instruction does to the control of a machine that skips. -/
def Opcode.skim : Opcode → Control V → Control V
  | .branch, .toOtherwise d => .toOtherwise (d + 1)
  | .branch, .toEnd d => .toEnd (d + 1)
  | .otherwise, .toOtherwise 0 => .running
  | .endBranch, .toOtherwise 0 => .running
  | .endBranch, .toOtherwise (d + 1) => .toOtherwise d
  | .endBranch, .toEnd 0 => .running
  | .endBranch, .toEnd (d + 1) => .toEnd d
  | _, control => control

/-- Whether the condition of a branch holds of the popped value. -/
def Meaning.holds (M : Meaning V W) (s : Store V W) :
    Condition → Option Int → Primitive × V → Except (Stop V W) Bool
  | .forced, _, _ => .ok true
  | .true, _, x => .ok (M.isTrue x.2)
  | .false, _, x => .ok !(M.isTrue x.2)
  | .zero, _, x => do
    let v ← Meaning.orTrap s (M.operate .equal x.1 x.2 (M.constant x.1 "0"))
    return M.isTrue v
  | .equal, some n, x => do
    let v ← Meaning.orTrap s (M.operate .equal x.1 x.2 (M.constant x.1 (toString n)))
    return M.isTrue v
  | .unequal, some n, x => do
    let v ← Meaning.orTrap s (M.operate .notEqual x.1 x.2 (M.constant x.1 (toString n)))
    return M.isTrue v
  | .greater, some n, x => .ok (M.below x.1 (M.constant x.1 (toString n)) x.2)
  | .lesser, some n, x => .ok (M.below x.1 x.2 (M.constant x.1 (toString n)))
  | .greaterEqual, some n, x => .ok !(M.below x.1 x.2 (M.constant x.1 (toString n)))
  | .lesserEqual, some n, x => .ok !(M.below x.1 (M.constant x.1 (toString n)) x.2)
  | _, none, _ => .error .stuck

/-- What a command does in a method of a program. -/
def Command.perform (M : Meaning V W) (p : Program) (m : Method) :
    Command → List (Primitive × V) → Store V W → Except (Stop V W) (Machine V W)
  | .nop, σ, s => .ok ⟨σ, s, .running⟩
  | .constant type text, σ, s => .ok ⟨(type, M.constant type text) :: σ, s, .running⟩
  | .get index, σ, s =>
    match m.localType? index with
    | some type => .ok ⟨(type, s.locals index) :: σ, s, .running⟩
    | none => .error .stuck
  | .set index, x :: σ, s =>
    match m.localType? index with
    | some _ => .ok ⟨σ, s.assign index x.2, .running⟩
    | none => .error .stuck
  | .operate op type, left :: right :: σ, s => do
    let v ← Meaning.orTrap s (M.operate op type left.2 right.2)
    return ⟨(if op.isComparison then .bool else type, v) :: σ, s, .running⟩
  | .convert target, x :: σ, s => do
    let v ← M.bring s target x
    return ⟨(target, v) :: σ, s, .running⟩
  | .call result target, σ, s =>
    match p.parametersOf? target with
    | none => .error .stuck
    | some params =>
      let count := params.length
      if count ≤ σ.length then do
        let (v, s) ← M.invoke target ((σ.take count).reverse.map (·.2)) s
        return ⟨if result = .void then σ.drop count else (result, v) :: σ.drop count, s, .running⟩
      else .error .stuck
  | .branch .forced _, σ, s => .ok ⟨σ, s, .running⟩
  | .branch cond number, x :: σ, s => do
    let taken ← M.holds s cond number x
    return ⟨σ, s, if taken then .running else .toOtherwise 0⟩
  | .otherwise, σ, s => .ok ⟨σ, s, .toEnd 0⟩
  | .endBranch, σ, s => .ok ⟨σ, s, .running⟩
  | .ret, σ, s =>
    if m.returnType = .void then .ok ⟨σ, s, .returned none⟩
    else
      match σ with
      | x :: σ => .ok ⟨σ, s, .returned (some x.2)⟩
      | [] => .error .stuck
  | .pop, _ :: σ, s => .ok ⟨σ, s, .running⟩
  | _, _, _ => .error .stuck

namespace Machine

/-- One instruction. -/
def step (M : Meaning V W) (p : Program) (m : Method) (i : Instruction) (k : Machine V W) :
    Except (Stop V W) (Machine V W) :=
  match k.control with
  | .running =>
    match i.command? with
    | some c => c.perform M p m k.stack k.store
    | none => .error .stuck
  | control => .ok { k with control := i.opcode.skim control }

/-- The instructions of a body, one after the other. -/
def run (M : Meaning V W) (p : Program) (m : Method) :
    Code → Machine V W → Except (Stop V W) (Machine V W)
  | [], k => .ok k
  | i :: rest, k => do
    let k ← step M p m i k
    run M p m rest k

section

variable {M : Meaning V W} {p : Program} {m : Method}

@[simp] theorem run_nil (k : Machine V W) : run M p m [] k = .ok k := rfl

variable (i : Instruction)

theorem run_cons (rest : Code) (k : Machine V W) :
    run M p m (i :: rest) k = step M p m i k >>= run M p m rest := rfl

@[simp] theorem run_singleton (k : Machine V W) : run M p m [i] k = step M p m i k := by
  rw [run_cons]
  cases step M p m i k <;> rfl

theorem run_append (a b : Code) (k : Machine V W) :
    run M p m (a ++ b) k = run M p m a k >>= run M p m b := by
  induction a generalizing k with
  | nil => rfl
  | cons i _ ih =>
    rw [List.cons_append, run_cons, run_cons]
    cases step M p m i k with
    | error => rfl
    | ok k' => exact ih k'

theorem exists_of_run_error {code : Code} {k : Machine V W} {e : Stop V W}
    (h : run M p m code k = .error e) :
    ∃ before i after k', code = before ++ i :: after ∧ run M p m before k = .ok k' ∧
      step M p m i k' = .error e := by
  induction code generalizing k with
  | nil => cases h
  | cons i rest ih =>
    rw [run_cons] at h
    cases hi : step M p m i k with
    | error =>
      rw [hi] at h
      cases h
      exact ⟨[], i, rest, k, rfl, rfl, hi⟩
    | ok =>
      rw [hi] at h
      obtain ⟨before, j, after, k'', rfl, hbefore, hj⟩ := ih h
      refine ⟨i :: before, j, after, k'', rfl, ?_, hj⟩
      rw [run_cons, hi]
      exact hbefore

/-- A running machine performs the command of an instruction. -/
theorem step_running {i : Instruction} {c : Command} (h : i.command? = some c)
    (σ : List (Primitive × V)) (s : Store V W) :
    step M p m i ⟨σ, s, .running⟩ = c.perform M p m σ s := by
  simp only [step, h]

theorem run_returned (code : Code) (σ : List (Primitive × V)) (s : Store V W)
    (v : Option V) : run M p m code ⟨σ, s, .returned v⟩ = .ok ⟨σ, s, .returned v⟩ := by
  induction code with
  | nil => rfl
  | cons i _ ih =>
    have hskim : i.opcode.skim (Control.returned v) = .returned v := by cases i.opcode <;> rfl
    rw [run_cons]
    simp only [step, hskim, ok_bind]
    exact ih

end

/-! ## Skipped code -/

end Machine

namespace Control

/-- Whether the machine skips instructions. -/
def isSkipping : Control V → Bool
  | .toOtherwise _ | .toEnd _ => true
  | _ => false

/-- The control inside one more conditional that is skipped. -/
def nested : Control V → Control V
  | .toOtherwise d => .toOtherwise (d + 1)
  | .toEnd d => .toEnd (d + 1)
  | control => control

theorem isSkipping_nested {c : Control V} (h : c.isSkipping = true) :
    c.nested.isSkipping = true := by
  cases c <;> first | rfl | cases h

variable (c : Control V)

theorem skim_branch : Opcode.branch.skim c = c.nested := by cases c <;> rfl

theorem skim_otherwise_nested : Opcode.otherwise.skim c.nested = c.nested := by cases c <;> rfl

theorem skim_endBranch_nested : Opcode.endBranch.skim c.nested = c := by cases c <;> rfl

end Control

namespace Machine

/-- Whether a machine with this control passes over the code without any effect. -/
def Skips (M : Meaning V W) (p : Program) (m : Method) (code : Code) (c : Control V) : Prop :=
  ∀ σ s, run M p m code ⟨σ, s, c⟩ = .ok ⟨σ, s, c⟩

section

variable {M : Meaning V W} {p : Program} {m : Method} {c : Control V}

theorem step_skipping {i : Instruction} {c' : Control V} (h : c.isSkipping = true)
    (hi : i.opcode.skim c = c') (σ : List (Primitive × V)) (s : Store V W) :
    step M p m i ⟨σ, s, c⟩ = .ok ⟨σ, s, c'⟩ := by
  rw [← hi]
  cases c <;> first | rfl | cases h

end

end Machine

/-! ## What the machine reads of the program -/

variable (M : Meaning V W) {p q : Program} {m n : Method} (hp : p.outline = q.outline)
  (hslots : m.localType? = n.localType?) (hret : m.returnType = n.returnType)

include hp hslots hret

/-- The outline of the program and the signature and slots of the method decide what a command
does. -/
theorem Command.perform_congr (c : Command) (σ : List (Primitive × V)) (s : Store V W) :
    c.perform M p m σ s = c.perform M q n σ s := by
  cases c with
  | call => simp only [Command.perform, Program.parametersOf?_congr hp]
  | get => simp only [Command.perform, hslots]
  | set => cases σ <;> simp only [Command.perform, hslots]
  | ret => simp only [Command.perform, hret]
  | operate => rcases σ with _ | ⟨_, _ | ⟨_, σ⟩⟩ <;> rfl
  | convert => cases σ <;> rfl
  | branch cond => cases cond <;> cases σ <;> rfl
  | pop => cases σ <;> rfl
  | _ => rfl

theorem Machine.run_congr (code : Code) (k : Machine V W) :
    run M p m code k = run M q n code k := by
  induction code generalizing k with
  | nil => rfl
  | cons i _ ih =>
    have hstep : step M p m i k = step M q n i k := by
      unfold step
      split
      · split
        · exact Command.perform_congr M hp hslots hret _ _ _
        · rfl
      · rfl
    rw [run_cons, run_cons, hstep]
    congr 1
    funext k'
    exact ih k'

end ScriptCompiler
