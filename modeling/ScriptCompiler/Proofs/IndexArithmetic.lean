import ScriptCompiler.Proofs.Faults
import ScriptCompiler.Proofs.Wat.Lines
import ScriptCompiler.Proofs.X86.WideValues

/-!
# Index arithmetic

Before anything is looked up, an index below zero is negated as a word of 32 bits, and an offset is
added to the position of the jump as one of 64 bits. Two operands leave their words: the least
index, and an offset that leads beyond the greatest position. Nothing else that compiling does can
overflow; the locals that entries of the virtual stack name were looked up before.
-/

set_option autoImplicit false

namespace ScriptCompiler

open List

/-! ## The x86 target -/

namespace X86

variable {c : Context} {i : Instruction} {index : Nat} {s : State}

/-- An instruction with an operand that leaves its word stops the compiler. -/
theorem step_of_overflows (h : i.Overflows index) (s : State) :
    step c index i s = .error .overflow := by
  have hleast : checkIndex (Integer.least 32) = .error .overflow := rfl
  rcases h with ⟨hop | hop, hindex⟩ | ⟨hop, n, hn, hbeyond⟩
  · rw [step, hop]
    simp only [getLocal, hindex, reading, ok_bind, Frame.localType, hleast, Except.error_bind]
  · rw [step, hop]
    simp only [setLocal, hindex, reading, ok_bind, State.localOperand, Frame.localOperand, hleast,
      Except.error_bind]
  · rw [step, hop]
    have hfits : Integer.fits 64 n = true := by
      obtain ⟨_, -, hread⟩ := of_bind hn
      exact Integer.fits_of_read? (Instruction.expect_ok hread)
    simp only [jump, hn, reading, ok_bind, inWord_add hfits, if_pos hbeyond, Except.error_bind]

/-- No other instruction does, where all entries can be looked up. -/
theorem step_ne_overflow (h : ¬i.Overflows index) (hs : Indexed s.stack) :
    step c index i s ≠ .error .overflow :=
  (step_handles (fun _ => h) fun _ => hs).ne_overflow

/-- Code stops the compiler just if it comes to an instruction with such an operand. -/
theorem walk_overflow_iff {code : Code} (ha : Apart s.frame s.stack)
    (hreads : ∀ u j, .stored u j ∈ s.stack → s.frame.localType j = .ok (some u)) :
    walk c index code s = .error .overflow ↔ ∃ a i rest r, code = a ++ i :: rest ∧
      walk c index a s = .ok r ∧ i.Overflows (index + a.length) := by
  constructor
  · intro h
    induction code generalizing index s with
    | nil => cases h
    | cons i rest ih =>
      rcases Except.bind_eq_error_iff.1 h with hstep | ⟨s₁, hstep, h⟩
      · refine ⟨[], i, rest, s, rfl, rfl, Classical.byContradiction fun hover => ?_⟩
        refine step_ne_overflow hover ?_ hstep
        intro v hv
        cases v with
        | constant | operation | temp => trivial
        | stored u j =>
          obtain ⟨_, hindex, -⟩ := of_bind (hreads u j hv)
          exact hindex
      · have hfirst : walk c index [i] s = .ok s₁ := by rw [walk, hstep]; rfl
        obtain ⟨a, i', rest', r, rfl, hr, hover⟩ :=
          ih (walk_apart ha hfirst) (walk_reads ha hreads hfirst) h
        refine ⟨i :: a, i', rest', r, rfl, ?_, ?_⟩
        · rw [walk, hstep]
          exact hr
        · rwa [length_cons, Nat.add_comm a.length, ← Nat.add_assoc]
  · rintro ⟨a, i, rest, r, rfl, hr, hover⟩
    rw [walk_append, hr, ok_bind, walk, step_of_overflows hover]
    rfl

/-- When compiling a method overflows. -/
theorem compileMethod_overflow_iff {p : Program} {m : Method} {shared : Shared} :
    compileMethod p m shared = .error .overflow ↔
      (Context.of p m).checkType m.returnType = .ok () ∧
      (Context.of p m).checkTypes (m.parameterTypes ++ m.locals) = .ok () ∧
      ∃ a i rest s, m.code = a ++ i :: rest ∧
        walk (.of p m) 0 a (startOf p m shared) = .ok s ∧ i.Overflows a.length := by
  have hwalk := @walk_overflow_iff (.of p m) 0 (startOf p m shared) m.code start_apart
    (fun _ _ hmem => by cases hmem)
  simp only [Nat.zero_add] at hwalk
  rw [compileMethod_eq, ← hwalk]
  constructor
  · intro h
    rcases Except.bind_eq_error_iff.1 h with h | ⟨⟨⟩, hret, h⟩
    · exact absurd h (Context.checkType_abides _).ne_overflow
    rcases Except.bind_eq_error_iff.1 h with h | ⟨⟨⟩, htypes, h⟩
    · exact absurd h (Context.checkTypes_abides _).ne_overflow
    rcases Except.bind_eq_error_iff.1 h with h | ⟨s, -, h⟩
    · exact ⟨hret, htypes, h⟩
    split at h
    · cases h
    · rcases Except.bind_eq_error_iff.1 h with h | ⟨_, -, h⟩
      · exact absurd h (bindJumps_abides _ _ _).ne_overflow
      · cases h
  · rintro ⟨hret, htypes, h⟩
    rw [hret, htypes, h]
    rfl

end X86

/-! ## The target for modules -/

namespace Wat

variable {c : Context} {i : Instruction} {s : State}

/-- An instruction stops the compiler just if it looks up the least index. -/
theorem step_overflow_iff : step c i s = .error .overflow ↔ i.NamesLeast := by
  constructor
  · exact Function.mtr fun h => (step_handles (fun _ => h) s).ne_overflow
  · rintro ⟨hop, hindex⟩
    have hleast : checkIndex (Integer.least 32) = .error .overflow := rfl
    have hlocal : localOf c i = .error .overflow := by
      simp only [localOf, hindex, reading, ok_bind, Method.localType, hleast, Except.error_bind]
    rcases hop with hop | hop <;> rw [step, hop]
    · simp only [getLocal, hlocal, Except.error_bind]
    · simp only [setLocal, hlocal, Except.error_bind]

/-- Code does just if it comes to such an instruction. -/
theorem steps_overflow_iff {code : Code} : steps c code s = .error .overflow ↔
    ∃ a i rest r, code = a ++ i :: rest ∧ steps c a s = .ok r ∧ i.NamesLeast := by
  constructor
  · intro h
    induction code generalizing s with
    | nil => cases h
    | cons i rest ih =>
      rcases Except.bind_eq_error_iff.1 h with hstep | ⟨_, hstep, h⟩
      · exact ⟨[], i, rest, s, rfl, rfl, step_overflow_iff.1 hstep⟩
      · obtain ⟨a, i', rest', r, rfl, hr, hover⟩ := ih h
        refine ⟨i :: a, i', rest', r, rfl, ?_, hover⟩
        rw [steps, hstep]
        exact hr
  · rintro ⟨a, i, rest, r, rfl, hr, hover⟩
    rw [steps_append, hr, ok_bind, steps, step_overflow_iff.2 hover]
    rfl

end Wat

/-- Compiling ends in an overflow just if it comes to an operand that leaves its word. For a method
in x86 code this is the least index of a local, or an offset that leads beyond the greatest position;
for a function of a module it is the least index, as jumps are refused there. Both come to it only
if the signature is in order and all instructions before it were compiled. -/
theorem overflow_iff_operand_leaves_word (p : Program) (m : Method) :
    (∀ shared, X86.compileMethod p m shared = .error .overflow ↔
      (X86.Context.of p m).checkType m.returnType = .ok () ∧
      (X86.Context.of p m).checkTypes (m.parameterTypes ++ m.locals) = .ok () ∧
      ∃ a i rest s, m.code = a ++ i :: rest ∧
        X86.walk (.of p m) 0 a (X86.startOf p m shared) = .ok s ∧ i.Overflows a.length) ∧
    ∀ loadString memory, Wat.compileFunction p loadString m memory = .error .overflow ↔
      (∃ params locals result, Wat.valueTypes (p.referenceOf m).text m.parameterTypes =
          .ok params ∧ Wat.valueTypes (p.referenceOf m).text m.locals = .ok locals ∧
        Wat.resultType (p.referenceOf m).text m.returnType = .ok result) ∧
      ∃ a i rest s, m.code = a ++ i :: rest ∧
        Wat.steps ⟨p, m, (p.referenceOf m).text, loadString⟩ a { memory } = .ok s ∧
        i.NamesLeast := by
  refine ⟨fun shared => X86.compileMethod_overflow_iff, fun loadString memory => ?_⟩
  rw [← Wat.steps_overflow_iff]
  constructor
  · intro h
    rcases Except.bind_eq_error_iff.1 h with h | ⟨params, hparams, h⟩
    · exact absurd h (Wat.valueTypes_abides _ _).ne_overflow
    rcases Except.bind_eq_error_iff.1 h with h | ⟨locals, hlocals, h⟩
    · exact absurd h (Wat.valueTypes_abides _ _).ne_overflow
    rcases Except.bind_eq_error_iff.1 h with h | ⟨result, hres, h⟩
    · exact absurd h (Wat.resultType_abides _ _).ne_overflow
    rcases Except.bind_eq_error_iff.1 h with h | ⟨s, -, h⟩
    · exact ⟨⟨params, locals, result, hparams, hlocals, hres⟩, h⟩
    · dsimp only at h
      split at h <;> cases h
  · rintro ⟨⟨params, locals, result, hparams, hlocals, hres⟩, h⟩
    simp only [Wat.compileFunction, hparams, hlocals, hres, ok_bind, h, Except.error_bind]

namespace Sample

/-- A method whose only jump leads beyond the greatest position. -/
def overshooting : Method :=
  { X86.Sample.widener with code := [.nop, .jump (Integer.greatest 64)] }

/-- A method that takes a local by the least index. -/
def deepest : Method := { overshooting with code := [.getLocal (Integer.least 32)] }

end Sample

/-- A jump by the greatest offset, from the second instruction on, stops the compiler, and so does the
least index of a local. -/
theorem overshooting_jump_overflows :
    X86.compileMethod {} Sample.overshooting {} = .error .overflow ∧
      Wat.compileFunction {} none Sample.deepest {} = .error .overflow := by
  have hoffset : (Instruction.jump (Integer.greatest 64)).jumpOffset =
      .ok (Integer.greatest 64) := by decide +kernel
  have hindex : (Instruction.getLocal (Integer.least 32)).localIndex = .ok (Integer.least 32) := by
    decide +kernel
  obtain ⟨hmethod, -⟩ := overflow_iff_operand_leaves_word {} Sample.overshooting
  obtain ⟨-, hfunction⟩ := overflow_iff_operand_leaves_word {} Sample.deepest
  exact ⟨(hmethod {}).2 ⟨rfl, rfl, [.nop], _, [], _, rfl, rfl, .inr ⟨rfl, _, hoffset, by decide⟩⟩,
    (hfunction none {}).2 ⟨⟨[], [], none, rfl, rfl, rfl⟩, [], _, [], _, rfl, rfl, .inl rfl, hindex⟩⟩

end ScriptCompiler
