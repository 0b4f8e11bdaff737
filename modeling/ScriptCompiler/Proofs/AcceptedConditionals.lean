import ScriptCompiler.Proofs.Faults
import ScriptCompiler.Proofs.Nesting
import ScriptCompiler.Proofs.Wat.ClosedModules

/-!
# Conditionals that the targets accept

The target for modules marks each open conditional once its `otherwise` is passed, and accepts
nested code only. The x86 target keeps no such mark: it accepts all code whose conditionals are
opened and closed in pairs with every `otherwise` inside one. Nested is the part of this code in
which no conditional is divided twice. What else compiling does fails in other ways (`Avoids`).
-/

set_option autoImplicit false

namespace ScriptCompiler

open List Option

/-! ## Counting open conditionals -/

/-- The number of open conditionals after an instruction, if it may stand there. Nothing is noted of
an `otherwise` but that it needs an open conditional. -/
def Opcode.balance : Opcode → Nat → Option Nat
  | .branch, d => some (d + 1)
  | .otherwise, d + 1 => some (d + 1)
  | .otherwise, 0 => none
  | .endBranch, d + 1 => some d
  | .endBranch, 0 => none
  | _, d => some d

/-- The number of open conditionals after code. -/
def balance (code : Code) (d : Nat) : Option Nat :=
  code.foldlM (fun d i => i.opcode.balance d) d

/-- Whether conditionals are opened and closed in pairs and every `otherwise` is inside one. -/
def Balanced (code : Code) : Prop := balance code 0 = some 0

instance (code : Code) : Decidable (Balanced code) :=
  inferInstanceAs (Decidable (_ = _))

/-- Whether a conditional of the code has two `otherwise`: all that is opened between them is closed
there, and nothing else is. -/
def DividedTwice (code : Code) : Prop :=
  ∃ a o b o' d, code = a ++ o :: (b ++ o' :: d) ∧ o.opcode = .otherwise ∧
    o'.opcode = .otherwise ∧ Balanced b

section

variable {a b code : Code} {i : Instruction} {marks marks' : List Bool} {d d' : Nat}

theorem balance_append (a b : Code) (d : Nat) :
    balance (a ++ b) d = (balance a d).bind (balance b) :=
  foldlM_append

theorem balance_singleton (i : Instruction) (d : Nat) : balance [i] d = i.opcode.balance d := by
  simp [balance]

theorem balance_cons (i : Instruction) (rest : Code) (d : Nat) :
    balance (i :: rest) d = (i.opcode.balance d).bind (balance rest) :=
  foldlM_cons

theorem Opcode.balance_of_nest {op : Opcode} (h : op.nest marks = some marks') :
    op.balance marks.length = some marks'.length := by
  cases op with
  | otherwise =>
    rcases marks with _ | ⟨_ | _, marks⟩ <;> cases h
    rfl
  | endBranch =>
    rcases marks with _ | ⟨_, marks⟩ <;> cases h
    rfl
  | _ =>
    cases h
    rfl

theorem balance_of_nest (h : nest code marks = some marks') :
    balance code marks.length = some marks'.length := by
  induction code generalizing marks with
  | nil =>
    cases h
    rfl
  | cons _ _ ih =>
    rw [nest_cons] at h
    obtain ⟨_, hnext, h⟩ := bind_eq_some_iff.1 h
    rw [balance_cons, Opcode.balance_of_nest hnext, bind_some, ih h]

/-- An instruction that finds its conditionals among the innermost ones leaves the marks of the others
as they are. -/
theorem Opcode.nest_above {op : Opcode} {above : List Bool}
    (h : op.nest (above ++ marks) = some marks') (hd : op.balance above.length = some d) :
    ∃ above', marks' = above' ++ marks ∧ above'.length = d := by
  cases op with
  | branch =>
    cases h
    cases hd
    exact ⟨false :: above, rfl, rfl⟩
  | otherwise =>
    rcases above with _ | ⟨_ | _, above⟩
    · cases hd
    · cases h
      cases hd
      exact ⟨true :: above, rfl, rfl⟩
    · cases h
  | endBranch =>
    rcases above with _ | ⟨_, above⟩
    · cases hd
    · cases h
      cases hd
      exact ⟨above, rfl, rfl⟩
  | _ =>
    cases h
    cases hd
    exact ⟨above, rfl, rfl⟩

theorem nest_above {above : List Bool} (h : nest code (above ++ marks) = some marks')
    (hd : balance code above.length = some d) :
    ∃ above', marks' = above' ++ marks ∧ above'.length = d := by
  induction code generalizing above with
  | nil =>
    cases h
    cases hd
    exact ⟨above, rfl, rfl⟩
  | cons _ _ ih =>
    rw [nest_cons] at h
    rw [balance_cons] at hd
    obtain ⟨_, hnext, h⟩ := bind_eq_some_iff.1 h
    obtain ⟨_, hd₁, hd⟩ := bind_eq_some_iff.1 hd
    obtain ⟨above', rfl, rfl⟩ := Opcode.nest_above hnext hd₁
    exact ih h hd

/-- The mark of an open conditional was set by an `otherwise`; behind it the conditionals inside are
opened, and no other is closed. -/
theorem exists_otherwise_of_mark {above : List Bool}
    (h : nest code [] = some (above ++ true :: marks)) :
    ∃ a o b, code = a ++ o :: b ∧ o.opcode = .otherwise ∧ balance b 0 = some above.length := by
  induction code using List.reverseRecOn generalizing above with
  | nil =>
    have hnil : [] = above ++ true :: marks := some.inj h
    simp at hnil
  | append_singleton rest i ih =>
    rw [nest_append] at h
    obtain ⟨before, hbefore, h⟩ := bind_eq_some_iff.1 h
    rw [nest_singleton] at h
    -- what the last instruction finds above the mark
    have hstep : ∀ above₁, before = above₁ ++ true :: marks →
        i.opcode.balance above₁.length = some above.length →
        ∃ a o b, rest ++ [i] = a ++ o :: b ∧ o.opcode = .otherwise ∧
          balance b 0 = some above.length := by
      rintro above₁ rfl hi
      obtain ⟨a, o, b, rfl, ho, hb⟩ := ih hbefore
      refine ⟨a, o, b ++ [i], by simp, ho, ?_⟩
      rw [balance_append, hb, bind_some, balance_singleton, hi]
    cases hop : i.opcode with
    | branch =>
      rw [hop] at h hstep
      rcases above with _ | ⟨mark, above⟩
      · cases h
      · cases h
        exact hstep above rfl rfl
    | otherwise =>
      rw [hop] at h hstep
      rcases before with _ | ⟨_ | _, before⟩
      · cases h
      · rcases above with _ | ⟨mark, above⟩
        · exact ⟨rest, i, [], rfl, hop, rfl⟩
        · cases h
          exact hstep (false :: above) rfl rfl
      · cases h
    | endBranch =>
      rw [hop] at h hstep
      rcases before with _ | ⟨mark, before⟩
      · cases h
      · cases h
        exact hstep (mark :: above) rfl rfl
    | _ =>
      rw [hop] at h hstep
      cases h
      exact hstep above rfl rfl

/-- An instruction that only the scan with marks refuses is a second `otherwise`. -/
theorem Opcode.of_nest_eq_none {op : Opcode} (h : op.nest marks = none)
    (hd : op.balance marks.length = some d) : op = .otherwise ∧ ∃ rest, marks = true :: rest := by
  cases op with
  | otherwise =>
    rcases marks with _ | ⟨_ | _, marks⟩
    · cases hd
    · cases h
    · exact ⟨rfl, marks, rfl⟩
  | endBranch =>
    rcases marks with _ | ⟨_, marks⟩
    · cases hd
    · cases h
  | _ => cases h

theorem exists_of_nest_eq_none (h : nest code marks = none) :
    ∃ a i b next, code = a ++ i :: b ∧ nest a marks = some next ∧ i.opcode.nest next = none := by
  induction code generalizing marks with
  | nil => cases h
  | cons i rest ih =>
    rw [nest_cons] at h
    cases hi : i.opcode.nest marks with
    | none => exact ⟨[], i, rest, marks, rfl, rfl, hi⟩
    | some =>
      rw [hi, bind_some] at h
      obtain ⟨a, j, b, last, rfl, ha, hj⟩ := ih h
      refine ⟨i :: a, j, b, last, rfl, ?_, hj⟩
      rw [nest_cons, hi, bind_some, ha]

theorem not_dividedTwice_of_nest (h : nest code [] = some marks) : ¬DividedTwice code := by
  rintro ⟨a, o, b, o', d, rfl, ho, ho', hb⟩
  rw [nest_append] at h
  obtain ⟨first, -, h⟩ := bind_eq_some_iff.1 h
  rw [nest_cons, ho] at h
  obtain ⟨_, hsecond, h⟩ := bind_eq_some_iff.1 h
  rw [nest_append] at h
  obtain ⟨third, hthird, h⟩ := bind_eq_some_iff.1 h
  rw [nest_cons, ho'] at h
  obtain ⟨_, hfourth, -⟩ := bind_eq_some_iff.1 h
  rcases first with _ | ⟨_ | _, first⟩
  · cases hsecond
  · cases hsecond
    -- what stands between the two leaves the mark of the first
    obtain ⟨_, rfl, hnil⟩ := @nest_above b (true :: first) third 0 [] hthird hb
    rw [length_eq_zero_iff.1 hnil] at hfourth
    cases hfourth
  · cases hsecond

/-- Nested is what is balanced and divides nothing twice. -/
theorem nested_iff_balanced (code : Code) : Nested code ↔ Balanced code ∧ ¬DividedTwice code := by
  constructor
  · intro h
    exact ⟨balance_of_nest h, not_dividedTwice_of_nest h⟩
  · rintro ⟨hbalanced, hdivided⟩
    cases hnest : nest code [] with
    | some =>
      have hlen := balance_of_nest hnest
      rw [length_nil, show balance code 0 = some 0 from hbalanced] at hlen
      have hnil := length_eq_zero_iff.1 (some.inj hlen).symm
      rw [Nested, hnest, hnil]
    | none =>
      -- the scan stops at the second `otherwise` of a conditional
      obtain ⟨a, i, d, next, rfl, ha, hi⟩ := exists_of_nest_eq_none hnest
      have hcount := balance_of_nest ha
      rw [Balanced, balance_append, show balance a 0 = some next.length from hcount,
        bind_some, balance_cons] at hbalanced
      obtain ⟨_, hd₁, -⟩ := bind_eq_some_iff.1 hbalanced
      obtain ⟨hop, rest, rfl⟩ := Opcode.of_nest_eq_none hi hd₁
      obtain ⟨a', o, b, rfl, ho, hb⟩ := @exists_otherwise_of_mark a rest [] ha
      exact absurd ⟨a', o, b, i, d, by simp, ho, hop, hb⟩ hdivided

end

/-! ## The x86 target -/

namespace X86

section

variable {c : Context} {i : Instruction}

/-- Only where conditionals are counted can an instruction fail for one. -/
theorem step_unbalanced {index : Nat} {s : State} {e : CompilingError}
    (h : step c index i s = .error e) (he : e.isUnbalanced = true) :
    i.opcode.balance s.conditionals.length = none := by
  rcases (@step_handles False c i index False.elim s False.elim).avoids with hop | hop | havoids
  · unfold step at h
    rw [hop] at h ⊢
    rcases hcs : s.conditionals with _ | ⟨skip, rest⟩
    · rfl
    · rw [otherwise, hcs] at h
      cases h
  · unfold step at h
    rw [hop] at h ⊢
    rcases hcs : s.conditionals with _ | ⟨skip, rest⟩
    · rfl
    · rw [endBranch, hcs] at h
      cases h
  · rw [(havoids e h).1] at he
    cases he

end

section

variable {c : Context} {code : Code} {index : Nat} {s s' : State}

theorem balance_of_bridgeless {op : Opcode} (h : bridgeless op = true) (d : Nat) :
    op.balance d = some d := by
  cases op with
  | branch | otherwise | endBranch => cases h
  | _ => rfl

theorem Arranges.balance {i : Instruction} {lines : List Line} {x y : Control}
    (h : Arranges index i lines x y) :
    i.opcode.balance x.conditionals.length = some y.conditionals.length := by
  cases h with
  | plain hop => exact balance_of_bridgeless hop _
  | forced hop | tested hop | divided hop | closed hop | jumped hop =>
    rw [hop]
    rfl

theorem walk_balance (ha : Apart s.frame s.stack) (h : walk c index code s = .ok s') :
    balance code s.conditionals.length = some s'.conditionals.length := by
  induction code generalizing index s with
  | nil =>
    cases h
    rfl
  | cons i _ ih =>
    obtain ⟨_, _, -, -, harranges, ha₁, h⟩ := walk_cons_ok ha h
    rw [balance_cons, show i.opcode.balance s.conditionals.length = _ from harranges.balance,
      bind_some]
    exact ih ha₁ h

/-- Code that fails for a conditional fails where they are counted. -/
theorem walk_unbalanced {e : CompilingError} (ha : Apart s.frame s.stack)
    (h : walk c index code s = .error e) (he : e.isUnbalanced = true) :
    balance code s.conditionals.length = none := by
  induction code generalizing index s with
  | nil => cases h
  | cons i _ ih =>
    rw [balance_cons]
    rcases Except.bind_eq_error_iff.1 h with hstep | ⟨s₁, hstep, h⟩
    · have hnone := step_unbalanced hstep he
      rw [show i.opcode.balance s.conditionals.length = none from hnone]
      rfl
    · obtain ⟨_, -, -, harranges⟩ := @step_ok c i 0 index s.mark s₁ ha (Nat.zero_le _) hstep
      rw [show i.opcode.balance s.conditionals.length = _ from harranges.balance, bind_some]
      exact ih (step_apart (s := s.mark) ha hstep) h

end

section

variable {p : Program} {m : Method} {shared : Shared}

theorem Compiled.balanced {l : Listing} {s : State} (h : Compiled p m shared l s) :
    Balanced m.code := by
  have hcount := walk_balance start_apart h.code
  rw [h.closed] at hcount
  exact hcount

/-- Among the faults of a method, that of a conditional is due to code that is not balanced. -/
theorem not_balanced_of_compileMethod {e : CompilingError}
    (h : compileMethod p m shared = .error e) (he : e.isUnbalanced = true) : ¬Balanced m.code := by
  have havoid : ∀ {α : Type} {x : Compiling α}, Avoids True x → x = .error e →
      ¬Balanced m.code := by
    intro α x hx hfails
    rw [(hx e hfails).1] at he
    cases he
  rw [compileMethod_eq] at h
  rcases Except.bind_eq_error_iff.1 h with h | ⟨_, -, h⟩
  · exact havoid (Context.checkType_abides _).avoids h
  rcases Except.bind_eq_error_iff.1 h with h | ⟨_, -, h⟩
  · exact havoid (Context.checkTypes_abides _).avoids h
  rcases Except.bind_eq_error_iff.1 h with h | ⟨s, hwalk, h⟩
  · have hnone := walk_unbalanced start_apart h he
    exact fun hbalanced => by cases hbalanced.symm.trans hnone
  by_cases hopen : s.conditionals = []
  · rw [if_neg (not_not_intro hopen)] at h
    rcases Except.bind_eq_error_iff.1 h with h | ⟨_, -, h⟩
    · exact havoid (bindJumps_abides _ _ _).avoids h
    · cases h
  · intro hbalanced
    have hcount := walk_balance start_apart hwalk
    have hzero := some.inj (hbalanced.symm.trans hcount)
    exact hopen (length_eq_zero_iff.1 hzero.symm)

end

end X86

/-! ## The target for modules -/

namespace Wat

section

variable {c : Context} {i : Instruction}

/-- The marks of the open conditionals. -/
def State.marks (s : State) : List Bool := s.branches.map fun b => b.alternative.isSome

theorem step_unbalanced {s : State} {e : CompilingError} (h : step c i s = .error e)
    (he : e.isUnbalanced = true) : i.opcode.nest s.marks = none := by
  rcases (@step_handles False c i False.elim s).avoids with hop | hop | havoids
  · unfold step at h
    rw [hop] at h ⊢
    unfold State.marks
    rcases hbranches : s.branches with _ | ⟨⟨_, _ | _⟩, rest⟩
    · rfl
    · rw [otherwise, hbranches] at h
      cases h
    · rfl
  · unfold step at h
    rw [hop] at h ⊢
    unfold State.marks
    rcases hbranches : s.branches with _ | ⟨_, rest⟩
    · rfl
    · rw [endBranch, hbranches] at h
      cases h
  · rw [(havoids e h).1] at he
    cases he

end

section

variable {c : Context} {code : Code} {s s' : State}

theorem State.marks_addAll (s : State) (lines : List (Line Op)) :
    (s.addAll lines).marks = s.marks := by
  unfold State.addAll State.marks
  cases s.branches with
  | nil => rfl
  | cons b => obtain ⟨_, _ | _⟩ := b <;> rfl

theorem State.marks_add (s : State) (line : Line Op) : (s.add line).marks = s.marks := by
  unfold State.add State.marks
  cases s.branches with
  | nil => rfl
  | cons b => obtain ⟨_, _ | _⟩ := b <;> rfl

theorem arrange_marks {cmd : Command} (h : arrange c cmd s = .ok s') :
    cmd.opcode.nest s.marks = some s'.marks := by
  cases cmd with
  | branch =>
    cases h
    rfl
  | otherwise =>
    obtain ⟨r, _, rfl, rfl⟩ := otherwise_ok h
    rfl
  | endBranch =>
    obtain ⟨r, _, rfl, rfl⟩ := endBranch_ok h
    rw [State.marks_add]
    rfl
  | operate op =>
    cases h
    cases op <;> rfl
  | _ =>
    cases h
    rfl

/-- The marks follow the conditionals that are opened, divided and closed. -/
theorem step_marks {i : Instruction} (hs : Numbered c.method s.scratch) (h : step c i s = .ok s') :
    i.opcode.nest s.marks = some s'.marks ∧ Numbered c.method s'.scratch := by
  obtain ⟨_, _, hcmd, hadds, harrange⟩ := step_ok hs h
  have hscratch := (arrange_ops harrange).2
  have hmarks := arrange_marks harrange
  cases hadds with
  | @intro _ τ S memory _ _ hS =>
    refine ⟨?_, hscratch ▸ hS⟩
    rw [i.opcode_of_command? hcmd, ← hmarks]
    exact congrArg _ ((s.storing memory).marks_addAll _).symm

theorem steps_marks (hs : Numbered c.method s.scratch) (h : steps c code s = .ok s') :
    nest code s.marks = some s'.marks := by
  induction code generalizing s with
  | nil =>
    cases h
    rfl
  | cons _ _ ih =>
    obtain ⟨_, hstep, h⟩ := of_bind h
    obtain ⟨hmarks, hs₁⟩ := step_marks hs hstep
    rw [nest_cons, hmarks, bind_some]
    exact ih hs₁ h

theorem steps_unbalanced {e : CompilingError} (hs : Numbered c.method s.scratch)
    (h : steps c code s = .error e) (he : e.isUnbalanced = true) : nest code s.marks = none := by
  induction code generalizing s with
  | nil => cases h
  | cons _ _ ih =>
    rw [nest_cons]
    rcases Except.bind_eq_error_iff.1 h with hstep | ⟨_, hstep, h⟩
    · rw [step_unbalanced hstep he]
      rfl
    · obtain ⟨hmarks, hs₁⟩ := step_marks hs hstep
      rw [hmarks, bind_some]
      exact ih hs₁ h

end

section

variable {p : Program} {m : Method} {loadString : Option String} {memory : Memory}

theorem Compiled.nested {f : Function} {s : State} (h : Compiled p loadString m memory f s) :
    Nested m.code := by
  have hmarks := steps_marks (by simp [Numbered]) h.code
  rw [show s.marks = [] by rw [State.marks, h.closed]; rfl] at hmarks
  exact hmarks

theorem not_nested_of_compileFunction {e : CompilingError}
    (h : compileFunction p loadString m memory = .error e) (he : e.isUnbalanced = true) :
    ¬Nested m.code := by
  have havoid : ∀ {α : Type} {x : Compiling α}, Avoids True x → x = .error e →
      ¬Nested m.code := by
    intro α x hx hfails
    rw [(hx e hfails).1] at he
    cases he
  rcases Except.bind_eq_error_iff.1 h with h | ⟨_, -, h⟩
  · exact havoid (valueTypes_abides _ _).avoids h
  rcases Except.bind_eq_error_iff.1 h with h | ⟨_, -, h⟩
  · exact havoid (valueTypes_abides _ _).avoids h
  rcases Except.bind_eq_error_iff.1 h with h | ⟨_, -, h⟩
  · exact havoid (resultType_abides _ _).avoids h
  rcases Except.bind_eq_error_iff.1 h with h | ⟨s, hsteps, h⟩
  · have hnone := steps_unbalanced (by simp [Numbered]) h he
    exact fun hnested => by cases hnested.symm.trans hnone
  · intro hnested
    have hmarks := steps_marks (by simp [Numbered]) hsteps
    have hnone := some.inj (hnested.symm.trans hmarks)
    have hclosed : s.branches = [] := map_eq_nil_iff.1 hnone.symm
    simp only [hclosed] at h
    cases h

end

end Wat

/-- Nested code is balanced code in which no conditional is divided twice. The x86 target accepts
balanced code only and finds fault with conditionals only in code that is not balanced; the target
for modules accepts nested code only and finds fault with them only in code that is not nested. -/
theorem accepted_conditionals (p : Program) (m : Method) (shared : X86.Shared)
    (loadString : Option String) (memory : Wat.Memory) :
    (Nested m.code ↔ Balanced m.code ∧ ¬DividedTwice m.code) ∧
    (∀ compiled, X86.compileMethod p m shared = .ok compiled → Balanced m.code) ∧
    (∀ name, X86.compileMethod p m shared = .error (.unbalancedConditional name) →
      ¬Balanced m.code) ∧
    (∀ compiled, Wat.compileFunction p loadString m memory = .ok compiled → Nested m.code) ∧
    (∀ name, Wat.compileFunction p loadString m memory = .error (.unbalancedConditional name) →
      ¬Nested m.code) := by
  refine ⟨nested_iff_balanced m.code, ?_, ?_, ?_, ?_⟩
  · intro compiled h
    obtain ⟨s, hs, -⟩ := X86.compileMethod_ok h
    exact hs.balanced
  · intro name h
    exact X86.not_balanced_of_compileMethod h rfl
  · intro compiled h
    obtain ⟨s, hs, -⟩ := Wat.compileFunction_ok h
    exact hs.nested
  · intro name h
    exact Wat.not_nested_of_compileFunction h rfl

namespace Sample

/-- A method whose only conditional has two `otherwise`. -/
def twiceDivided : Method :=
  { X86.Sample.worker.method with
    code := [.branch .forced none, .otherwise, .otherwise, .endBranch] }

end Sample

/-- A conditional with two `otherwise` goes through on x86 only. -/
theorem twice_divided_accepted :
    (∃ compiled, X86.compileMethod {} Sample.twiceDivided {} = .ok compiled) ∧
    (∃ name, Wat.compileFunction {} none Sample.twiceDivided {} =
      .error (.unbalancedConditional name)) ∧
    Balanced Sample.twiceDivided.code ∧ ¬Nested Sample.twiceDivided.code ∧
    DividedTwice Sample.twiceDivided.code := by
  have hx86 : (X86.compileMethod {} Sample.twiceDivided {}).isOk = true := by decide +kernel
  have hwat : ∃ name, Wat.compileFunction {} none Sample.twiceDivided {} =
      .error (.unbalancedConditional name) := ⟨_, rfl⟩
  obtain ⟨hiff, haccepts, -, -, hrefuses⟩ :=
    accepted_conditionals {} Sample.twiceDivided {} none {}
  cases hcomp : X86.compileMethod {} Sample.twiceDivided {} with
  | error =>
    rw [hcomp] at hx86
    cases hx86
  | ok compiled =>
    obtain ⟨name, hname⟩ := hwat
    have hbalanced := haccepts compiled hcomp
    have hnested := hrefuses name hname
    refine ⟨⟨compiled, rfl⟩, ⟨name, hname⟩, hbalanced, hnested, ?_⟩
    by_contra hdivided
    exact hnested (hiff.2 ⟨hbalanced, hdivided⟩)

end ScriptCompiler
