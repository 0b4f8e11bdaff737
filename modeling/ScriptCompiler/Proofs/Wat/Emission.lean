import ScriptCompiler.Proofs.Wat.Lines

/-!
# Instructions of commands

Compiling an instruction adds the instructions of its command to the part that is open, and then
opens, divides or closes a conditional. Which instructions these are is said here once (`Emits`),
and every compiled instruction is read back as such a step (`step_ok`), whatever the code is.
-/

set_option autoImplicit false

namespace ScriptCompiler

open List Option Wat.State

/-- The type of what a method returns, if it returns a value. -/
def Method.result? (m : Method) : Option Primitive :=
  if m.returnType = .void then none else some m.returnType

namespace Wat

/-! ## Instructions -/

/-- The instructions of an operator with its operands in order. -/
def resultOps (op : BinaryOp) (t : Primitive) (v : ValueType) : List Op :=
  .numeric v (operation op.opcode t).1 :: if (operation op.opcode t).2 = t then narrow t else []

/-- The instructions of an operator; operands whose order matters go through the scratch locals from
`first` on. -/
def operateOps (op : BinaryOp) (t : Primitive) (v : ValueType) (first : Nat) : List Op :=
  if isOrdered op.opcode then
    [.localSet first, .localSet (first + 1)] ++
      if t.isFloating && op.opcode == .rem then realRemainder v first (first + 1)
      else [.localGet first, .localGet (first + 1)] ++ resultOps op t v
  else resultOps op t v

/-- The instructions of a command with these scratch locals, and the types noted before and after
it. -/
inductive Emits (c : Context) (S : List (ValueType × Nat)) :
    Command → Types → List Op → Types → Prop where
  | nop {σ : Types} : Emits c S .nop σ [.nop] σ
  /-- The address is that of the text in memory. -/
  | text {σ : Types} {text : String} {address : Nat} :
      Emits c S (.constant .str text) σ (.const .i64 address :: c.loadString.toList.map .call)
        (.str :: σ)
  | truth {σ : Types} {b : Bool} :
      Emits c S (.constant .bool (toString b)) σ [.const .i32 (if b then 1 else 0)] (.bool :: σ)
  | real {σ : Types} {t : Primitive} {v : ValueType} {text : String} {x : Double}
      (ht : t.isFloating = true) (hv : ValueType.ofPrimitive? t = some v)
      (hx : Double.read? text = some x) : Emits c S (.constant t text) σ [.constReal v x] (t :: σ)
  | integer {σ : Types} {t : Primitive} {v : ValueType} {text : String} {n : Int}
      (hv : ValueType.ofPrimitive? t = some v) (hn : Integer.read? 128 text = some n) :
      Emits c S (.constant t text) σ [.const v (constantValue t v n)] (t :: σ)
  | get {σ : Types} {t : Primitive} {index : Int}
      (ht : c.method.localType? index = some t) :
      Emits c S (.get index) σ [.localGet (slotOf c.method index)] (t :: σ)
  | set {σ : Types} {t u : Primitive} {index : Int}
      (ht : c.method.localType? index = some t) :
      Emits c S (.set index) (u :: σ) [.localSet (slotOf c.method index)] σ
  | operate {σ : Types} {l r t : Primitive} {v : ValueType} {op : BinaryOp} {first : Nat}
      (hv : ValueType.ofPrimitive? t = some v)
      (hfirst : isOrdered op.opcode = true → (v, first) ∈ S) :
      Emits c S (.operate op t) (l :: r :: σ) (operateOps op t v first)
        ((if op.isComparison then .bool else t) :: σ)
  | convert {σ : Types} {source target : Primitive} {ops : List Op}
      (hops : conversion c source target = .ok ops) :
      Emits c S (.convert target) (source :: σ) ops (target :: σ)
  | call {taken σ : Types} {result : Primitive} {text : String} {r : Reference}
      {callee : Method} (hr : Reference.parse? text = some r)
      (hcallee : (c.program.findMethod? r).bind c.program.methodAt? = some callee)
      (htaken : taken.length = callee.parameters.length) :
      Emits c S (.call result text) (taken ++ σ) [.call r.flatName]
        (if result = .void then σ else result :: σ)
  | forced {σ : Types} {number : Option Int} :
      Emits c S (.branch .forced number) σ [.const .i32 1] σ
  | tested {σ : Types} {t : Primitive} {v : ValueType} {cond : Condition}
      {number : Option Int} {i : Instruction} {ops : List Op} (hcond : cond ≠ .forced)
      (hv : ValueType.ofPrimitive? t = some v) (hops : conditionOps i cond number t v = .ok ops) :
      Emits c S (.branch cond number) (t :: σ) ops σ
  | otherwise {σ : Types} : Emits c S .otherwise σ [] σ
  | endBranch {σ : Types} : Emits c S .endBranch σ [] σ
  | leave {σ : Types} (hvoid : c.method.returnType = .void) : Emits c S .ret σ [.ret] σ
  | ret {σ : Types} {t : Primitive} (hvoid : c.method.returnType ≠ .void) :
      Emits c S .ret (t :: σ) [.ret] σ
  | pop {σ : Types} {t : Primitive} : Emits c S .pop (t :: σ) [.drop] σ

/-- Opens, divides or closes a conditional where a command says so. -/
def arrange (c : Context) : Command → State → Compiling State
  | .branch .., s => .ok (s.opened {})
  | .otherwise, s => otherwise c s
  | .endBranch, s => endBranch c s
  | _, s => .ok s

theorem arrange_of_isMark {cmd : Command} (h : cmd.isMark = false) (c : Context) (s : State) :
    arrange c cmd s = .ok s := by
  cases cmd <;> first | rfl | cases h

/-- The states that the instructions of a command lead to. A constant may be new in memory. -/
inductive Adds (c : Context) (cmd : Command) (s : State) : State → Prop where
  | intro {ops : List Op} {τ : Types} {S : List (ValueType × Nat)} {memory : Memory}
      (hops : Emits c S cmd s.types ops τ) (hsub : s.scratch ⊆ S)
      (hS : Numbered c.method S) :
      Adds c cmd s ((s.storing memory).advance (ops.map .op) τ S)

/-! ## Operands -/

section

variable {c : Context} {i : Instruction} {s s' : State} {t : Primitive}

theorem valueType_ok {method : String} {v : ValueType} (h : valueType method t = .ok v) :
    ValueType.ofPrimitive? t = some v := by
  unfold valueType at h
  cases hv : ValueType.ofPrimitive? t with
  | none =>
    rw [hv] at h
    cases h
  | some =>
    rw [hv] at h
    cases h
    rfl

theorem pop_ok (h : s.pop c i = .ok (t, s')) :
    ∃ rest, s.types = t :: rest ∧ s' = s.advance [] rest s.scratch := by
  cases htypes : s.types with
  | nil =>
    rw [State.pop, htypes] at h
    cases h
  | cons _ rest =>
    rw [pop_eq htypes] at h
    cases h
    exact ⟨rest, rfl, rfl⟩

theorem popMany_ok {count : Nat} (h : s.popMany c i count = .ok s') :
    ∃ taken rest, s.types = taken ++ rest ∧ taken.length = count ∧
      s' = s.advance [] rest s.scratch := by
  induction count generalizing s with
  | zero =>
    obtain rfl : s = s' := Except.ok.inj h
    exact ⟨[], s.types, rfl, rfl, s.eq_advance⟩
  | succ _ ih =>
    obtain ⟨⟨t, _⟩, hpop, h⟩ := of_bind h
    obtain ⟨_, htypes, rfl⟩ := pop_ok hpop
    obtain ⟨taken, rest, hbelow, hlen, rfl⟩ := ih h
    refine ⟨t :: taken, rest, ?_, ?_, ?_⟩
    · rw [htypes, cons_append]
      exact congrArg (t :: ·) hbelow
    · rw [length_cons, hlen]
    · simp

theorem localOf_ok {slot : Nat} (h : localOf c i = .ok (slot, t)) :
    ∃ index, i.number? 0 = some index ∧ c.method.localType? index = some t ∧
      slot = slotOf c.method index := by
  obtain ⟨index, hindex, h⟩ := of_bind h
  refine ⟨index, Instruction.localIndex_ok (reading_ok hindex), ?_⟩
  obtain ⟨type, htype, h⟩ := of_bind h
  cases type with
  | none => cases h
  | some =>
    cases h
    exact ⟨of_checkIndex htype, rfl⟩

end

/-! ## Compiled instructions -/

section

variable {c : Context} {i : Instruction} {s s' : State}

section

variable (hs : Numbered c.method s.scratch)
include hs

theorem Adds.plain {cmd : Command} {ops : List Op} {σ τ : Types} (htypes : s.types = σ)
    (hops : Emits c s.scratch cmd σ ops τ) :
    Adds c cmd s (s.advance (ops.map .op) τ s.scratch) := by
  subst htypes
  exact .intro hops (List.Subset.refl _) hs

/-- A compiled constant read back. -/
theorem loadConstant_ok (h : loadConstant c i s = .ok s') :
    ∃ t text, i.type? = some t ∧ i.operands[1]? = some text ∧ Adds c (.constant t text) s s' := by
  obtain ⟨⟨t, text⟩, hconst, h⟩ := of_bind h
  obtain ⟨htype, htext⟩ := Instruction.constant_ok (reading_ok hconst)
  refine ⟨t, text, htype, htext, ?_⟩
  cases t with
  | str =>
    have hops := @Emits.text c s.scratch s.types text (s.memory.string text).2
    have hadds := @Adds.intro c _ s _ _ _ (s.memory.string text).1 hops (List.Subset.refl _) hs
    cases hload : c.loadString with
    | none =>
      rw [hload] at hadds
      simp only [hload] at h
      cases h
      rw [emit_eq_advance, push_advance]
      exact hadds
    | some =>
      rw [hload] at hadds
      simp only [hload] at h
      cases h
      simp only [emit_eq_advance, State.advance_advance, types_advance,
        scratch_advance, push_advance]
      exact hadds
  | bool =>
    by_cases htrue : text = "true"
    · subst htrue
      cases h
      rw [emit_eq_advance, push_advance]
      exact .plain hs rfl (@Emits.truth c _ _ true)
    · by_cases hfalse : text = "false"
      · subst hfalse
        cases h
        rw [emit_eq_advance, push_advance]
        exact .plain hs rfl (@Emits.truth c _ _ false)
      · simp only [if_neg htrue, if_neg hfalse] at h
        cases h
  | f32 | f64 =>
    cases hx : Double.read? text with
    | none =>
      simp only [hx] at h
      cases h
    | some =>
      simp only [hx] at h
      obtain ⟨v, hv, h⟩ := of_bind h
      cases h
      rw [emit_eq_advance, push_advance]
      exact .plain hs rfl (.real rfl (valueType_ok hv) hx)
  | _ =>
    cases hn : Integer.read? 128 text with
    | none =>
      simp only [hn] at h
      cases h
    | some =>
      simp only [hn] at h
      obtain ⟨v, hv, h⟩ := of_bind h
      cases h
      rw [emit_eq_advance, push_advance]
      exact .plain hs rfl (.integer (valueType_ok hv) hn)

theorem getLocal_ok (h : getLocal c i s = .ok s') :
    ∃ index, i.number? 0 = some index ∧ Adds c (.get index) s s' := by
  obtain ⟨⟨_, _⟩, hlocal, h⟩ := of_bind h
  obtain ⟨index, hindex, ht, rfl⟩ := localOf_ok hlocal
  cases h
  refine ⟨index, hindex, ?_⟩
  rw [emit_eq_advance, push_advance]
  exact .plain hs rfl (.get ht)

theorem setLocal_ok (h : setLocal c i s = .ok s') :
    ∃ index, i.number? 0 = some index ∧ Adds c (.set index) s s' := by
  obtain ⟨⟨_, _⟩, hlocal, h⟩ := of_bind h
  obtain ⟨index, hindex, ht, rfl⟩ := localOf_ok hlocal
  obtain ⟨⟨_, _⟩, hpop, h⟩ := of_bind h
  obtain ⟨_, htypes, rfl⟩ := pop_ok hpop
  cases h
  refine ⟨index, hindex, ?_⟩
  rw [emit_advance]
  exact .plain hs htypes (.set ht)

end

variable (op : BinaryOp) (t : Primitive)

theorem operation_result : (operation op.opcode t).2 = if op.isComparison then .bool else t := by
  cases op <;> rfl

theorem finish_eq (v : ValueType) (lines : Body) (σ : Types)
    (S : List (ValueType × Nat)) : (if (operation op.opcode t).2 = t then
        ((s.advance lines σ S).emit (.numeric v (operation op.opcode t).1)).emitAll (narrow t)
      else (s.advance lines σ S).emit (.numeric v (operation op.opcode t).1)).push
        (operation op.opcode t).2 = s.advance (lines ++ (resultOps op t v).map .op)
        ((if op.isComparison then .bool else t) :: σ) S := by
  rw [resultOps, ← operation_result]
  by_cases hsame : (operation op.opcode t).2 = t
  · simp [if_pos hsame]
  · simp [if_neg hsame]

/-- A compiled operator read back. -/
theorem binary_ok {op : BinaryOp} (hop : i.opcode = op.opcode) (hs : Numbered c.method s.scratch)
    (h : binary c i s = .ok s') : ∃ t, i.type? = some t ∧ Adds c (.operate op t) s s' := by
  obtain ⟨t, _, htype, hpop, h⟩ := of_bind₂ h
  obtain ⟨v, hv, h⟩ := of_bind h
  refine ⟨t, Instruction.operandType_ok (reading_ok htype), ?_⟩
  obtain ⟨taken, rest, htypes, hlen, rfl⟩ := popMany_ok hpop
  obtain ⟨left, right, rfl⟩ : ∃ left right, taken = [left, right] := by
    match taken, hlen with
    | [left, right], _ => exact ⟨left, right, rfl⟩
  have hv := valueType_ok hv
  rw [hop] at h
  have hadds : ∀ {S : List (ValueType × Nat)} {first : Nat}, s.scratch ⊆ S → Numbered c.method S →
      (isOrdered op.opcode = true → (v, first) ∈ S) →
      Adds c (.operate op t) s (s.advance ((operateOps op t v first).map .op)
        ((if op.isComparison then .bool else t) :: rest) S) := by
    intro S first hsub hS hfirst
    refine .intro ?_ hsub hS
    rw [htypes]
    exact .operate hv hfirst
  by_cases hord : isOrdered op.opcode = true
  · obtain ⟨S, first, hpair, hsub, hS, hmem⟩ :=
      scratchPair_spec c (s.advance [] rest s.scratch) v hs
    have hstate := @hadds S first hsub hS fun _ => hmem
    rw [operateOps, if_pos hord] at hstate
    simp only [if_pos hord, hpair, note_scratch_advance, emitAll_advance] at h
    by_cases hreal : (t.isFloating && op.opcode == .rem) = true
    · have harithmetic : op.isComparison = false := by
        cases op <;> first | rfl | cases hord
      rw [if_pos hreal] at h hstate
      cases h
      simpa [harithmetic] using hstate
    · rw [if_neg hreal] at h hstate
      rw [finish_eq] at h
      cases h
      simpa using hstate
  · have hstate := @hadds s.scratch 0 (List.Subset.refl _) hs fun h => absurd h hord
    simp only [if_neg hord, finish_eq] at h
    cases h
    rwa [operateOps, if_neg hord] at hstate

section

variable (hs : Numbered c.method s.scratch)
include hs

theorem convert_ok (h : convert c i s = .ok s') :
    ∃ target, i.type? = some target ∧ Adds c (.convert target) s s' := by
  obtain ⟨target, ⟨_, _⟩, htarget, hpop, h⟩ := of_bind₂ h
  obtain ⟨_, hconversion, h⟩ := of_bind h
  obtain ⟨_, htypes, rfl⟩ := pop_ok hpop
  cases h
  refine ⟨target, Instruction.operandType_ok (reading_ok htarget), ?_⟩
  rw [emitAll_advance, push_advance]
  exact .plain hs htypes (.convert hconversion)

theorem callStatic_ok (h : callStatic c i s = .ok s') :
    ∃ result text, i.type? = some result ∧ i.operands[1]? = some text ∧
      Adds c (.call result text) s s' := by
  obtain ⟨⟨result, r⟩, htarget, h⟩ := of_bind h
  obtain ⟨htype, text, htext, hr⟩ := Instruction.callTarget_ok (reading_ok htarget)
  refine ⟨result, text, htype, htext, ?_⟩
  cases hcallee : (c.program.findMethod? r).bind c.program.methodAt? with
  | none =>
    simp only [hcallee] at h
    cases h
  | some callee =>
    simp only [hcallee] at h
    obtain ⟨_, hpop, h⟩ := of_bind h
    obtain ⟨taken, rest, htypes, hlen, rfl⟩ := popMany_ok hpop
    cases h
    have hadds := Adds.plain hs htypes
      (@Emits.call c s.scratch taken rest result text r callee hr hcallee hlen)
    rw [emit_advance]
    by_cases hvoid : result = .void
    · rwa [if_pos hvoid] at hadds ⊢
    · rw [if_neg hvoid] at hadds ⊢
      exact hadds

theorem openBranch_ok (h : openBranch c i s = .ok s') :
    ∃ cond number r, i.branch? = some (.branch cond number) ∧
      Adds c (.branch cond number) s r ∧ s' = r.opened {} := by
  obtain ⟨⟨cond, number⟩, hcond, h⟩ := of_bind h
  have hbranch := Instruction.branch?_of_condition (reading_ok hcond)
  by_cases hforced : cond = .forced
  · subst hforced
    cases h
    refine ⟨_, number, _, hbranch, ?_, rfl⟩
    rw [emit_eq_advance]
    exact .plain hs rfl .forced
  · simp only [if_neg hforced] at h
    obtain ⟨⟨_, _⟩, _, hpop, hv, h⟩ := of_bind₂ h
    obtain ⟨_, htest, h⟩ := of_bind h
    obtain ⟨_, htypes, rfl⟩ := pop_ok hpop
    cases h
    refine ⟨cond, number, _, hbranch, ?_, rfl⟩
    rw [emitAll_advance]
    exact .plain hs htypes (.tested hforced (valueType_ok hv) htest)

theorem ret_ok (h : ret c i s = .ok s') : Adds c .ret s s' := by
  unfold ret at h
  by_cases hvoid : c.method.returnType = .void
  · rw [if_pos hvoid] at h
    cases h
    rw [emit_eq_advance]
    exact .plain hs rfl (.leave hvoid)
  · rw [if_neg hvoid] at h
    obtain ⟨⟨_, _⟩, hpop, h⟩ := of_bind h
    obtain ⟨_, htypes, rfl⟩ := pop_ok hpop
    cases h
    rw [emit_advance]
    exact .plain hs htypes (.ret hvoid)

theorem drop_ok (h : drop c i s = .ok s') : Adds c .pop s s' := by
  obtain ⟨⟨_, _⟩, hpop, h⟩ := of_bind h
  obtain ⟨_, htypes, rfl⟩ := pop_ok hpop
  cases h
  rw [emit_advance]
  exact .plain hs htypes .pop

/-- A compiled instruction has a command, whose instructions are added before the conditionals are
arranged. -/
theorem step_ok (h : step c i s = .ok s') :
    ∃ cmd r, i.command? = some cmd ∧ Adds c cmd s r ∧ arrange c cmd r = .ok s' := by
  have hmark : ∀ cmd, Emits c s.scratch cmd s.types [] s.types → Adds c cmd s s := by
    intro cmd hops
    have hadds := Adds.plain hs rfl hops
    rwa [map_nil, ← s.eq_advance] at hadds
  have hoperate : ∀ op : BinaryOp, i.opcode = op.opcode → binary c i s = .ok s' →
      ∃ cmd r, i.command? = some cmd ∧ Adds c cmd s r ∧ arrange c cmd r = .ok s' := by
    intro op hop h
    obtain ⟨t, htype, hadds⟩ := binary_ok hop hs h
    refine ⟨_, s', ?_, hadds, rfl⟩
    rw [Instruction.command?, hop, htype]
    cases op <;> rfl
  rw [step] at h
  cases hop : i.opcode <;> rw [hop] at h
  case nop =>
    cases h
    refine ⟨.nop, _, by rw [Instruction.command?, hop], ?_, rfl⟩
    rw [emit_eq_advance]
    exact .plain hs rfl .nop
  case loadConst =>
    obtain ⟨t, text, htype, htext, hadds⟩ := loadConstant_ok hs h
    exact ⟨_, s', by simp [Instruction.command?, hop, htype, htext], hadds, rfl⟩
  case getLocal =>
    obtain ⟨index, hindex, hadds⟩ := getLocal_ok hs h
    exact ⟨_, s', by simp [Instruction.command?, hop, hindex], hadds, rfl⟩
  case setLocal =>
    obtain ⟨index, hindex, hadds⟩ := setLocal_ok hs h
    exact ⟨_, s', by simp [Instruction.command?, hop, hindex], hadds, rfl⟩
  case add => exact hoperate .add hop h
  case sub => exact hoperate .sub hop h
  case mul => exact hoperate .mul hop h
  case div => exact hoperate .div hop h
  case rem => exact hoperate .rem hop h
  case equals => exact hoperate .equal hop h
  case unequals => exact hoperate .notEqual hop h
  case convert =>
    obtain ⟨target, htarget, hadds⟩ := convert_ok hs h
    exact ⟨_, s', by simp [Instruction.command?, hop, htarget], hadds, rfl⟩
  case call =>
    obtain ⟨result, text, htype, htext, hadds⟩ := callStatic_ok hs h
    exact ⟨_, s', by simp [Instruction.command?, hop, htype, htext], hadds, rfl⟩
  case jump => cases h
  case branch =>
    obtain ⟨cond, number, r, hbranch, hadds, rfl⟩ := openBranch_ok hs h
    exact ⟨_, r, by rw [Instruction.command?, hop, hbranch], hadds, rfl⟩
  case otherwise => exact ⟨_, s, by rw [Instruction.command?, hop], hmark _ .otherwise, h⟩
  case endBranch => exact ⟨_, s, by rw [Instruction.command?, hop], hmark _ .endBranch, h⟩
  case ret => exact ⟨_, s', by rw [Instruction.command?, hop], ret_ok hs h, rfl⟩
  case pop => exact ⟨_, s', by rw [Instruction.command?, hop], drop_ok hs h, rfl⟩

end

theorem step_command {cmd : Command} (hi : i.command? = some cmd)
    (hs : Numbered c.method s.scratch) (h : step c i s = .ok s') :
    ∃ r, Adds c cmd s r ∧ arrange c cmd r = .ok s' := by
  obtain ⟨_, r, hfound, hadds, harrange⟩ := step_ok hs h
  obtain rfl := some.inj (hfound.symm.trans hi)
  exact ⟨r, hadds, harrange⟩

end

/-! ## Compiled functions -/

section

variable {p : Program} {m : Method} {loadString : Option String} {memory memory' : Memory}
  {f : Function} {s : State} {result : Option ValueType} {types : Types}
  {vs : List ValueType} {method : String}

theorem valueTypes_ok (h : valueTypes method types = .ok vs) :
    types.map ValueType.ofPrimitive? = vs.map some := by
  induction types generalizing vs with
  | nil =>
    cases h
    rfl
  | cons _ _ ih =>
    obtain ⟨_, _, hv, hmore, h⟩ := of_bind₂ h
    cases h
    rw [map_cons, map_cons, valueType_ok hv, ih hmore]

theorem resultType_ok (h : resultType method m.returnType = .ok result) :
    m.result?.map ValueType.ofPrimitive? = result.map some := by
  unfold resultType at h
  unfold Method.result?
  by_cases hvoid : m.returnType = .void
  · rw [if_pos hvoid] at h ⊢
    cases h
    rfl
  · rw [if_neg hvoid] at h ⊢
    obtain ⟨_, hv, h⟩ := of_bind h
    cases h
    rw [map_some, valueType_ok hv]
    rfl

/-- The types of the parameters and locals of a function, in the order of their numbers. -/
def Function.localTypes (f : Function) : List ValueType := f.parameters.map Prod.snd ++ f.locals

/-- A function as it comes from a method, with the state at the end of the code. -/
structure Compiled (p : Program) (loadString : Option String) (m : Method) (memory : Memory)
    (f : Function) (s : State) : Prop where
  names : f.parameters.map Prod.fst = m.parameters.map (·.name)
  parameters : m.parameterTypes.map ValueType.ofPrimitive? = (f.parameters.map Prod.snd).map some
  result : m.result?.map ValueType.ofPrimitive? = f.result.map some
  locals : ∃ locals, m.locals.map ValueType.ofPrimitive? = locals.map some ∧
    f.locals = locals ++ s.scratch.flatMap fun e => [e.1, e.1]
  code : steps ⟨p, m, (p.referenceOf m).text, loadString⟩ m.code { memory } = .ok s
  closed : s.branches = []
  body : f.body = closeBody f.result s.body

theorem compileFunction_ok (h : compileFunction p loadString m memory = .ok (f, memory')) :
    ∃ s, Compiled p loadString m memory f s ∧ memory' = s.memory := by
  obtain ⟨parameters, locals, hparams, hlocals, h⟩ := of_bind₂ h
  obtain ⟨_, s, hres, hsteps, h⟩ := of_bind₂ h
  have hparams := valueTypes_ok hparams
  have hlen : (m.parameters.map (·.name)).length = parameters.length := by
    have hlengths := congrArg List.length hparams
    simpa [Method.parameterTypes] using hlengths
  cases hopen : s.branches with
  | cons =>
    simp only [hopen] at h
    cases h
  | nil =>
    simp only [hopen] at h
    cases h
    refine ⟨s, ⟨map_fst_zip (Nat.le_of_eq hlen), ?_, resultType_ok hres,
      ⟨locals, valueTypes_ok hlocals, rfl⟩, hsteps, hopen, rfl⟩, rfl⟩
    rw [hparams, map_snd_zip (Nat.le_of_eq hlen.symm)]

/-- The value type that represents a type; where there is none, any will do. -/
def ValueType.ofPrimitive (t : Primitive) : ValueType := (ofPrimitive? t).getD .i32

theorem ofPrimitive_eq {t : Primitive} {v : ValueType} (hv : ValueType.ofPrimitive? t = some v) :
    .ofPrimitive t = v := by
  rw [ValueType.ofPrimitive, hv, getD_some]

theorem map_ofPrimitive (h : types.map ValueType.ofPrimitive? = vs.map some) :
    types.map .ofPrimitive = vs := by
  have hmapped := congrArg (List.map fun v => Option.getD v .i32) h
  rw [List.map_map, List.map_map] at hmapped
  exact hmapped.trans (List.map_id vs)

theorem result_ofPrimitive (h : m.result?.map ValueType.ofPrimitive? = result.map some) :
    m.result?.map .ofPrimitive = result := by
  have hmapped := congrArg (Option.map fun v => Option.getD v .i32) h
  rw [Option.map_map, Option.map_map] at hmapped
  exact hmapped.trans (map_id_apply)

namespace Compiled

section

variable (h : Compiled p loadString m memory f s)
include h

theorem localTypes_eq : f.localTypes = (m.parameterTypes ++ m.locals).map .ofPrimitive ++
      s.scratch.flatMap fun e => [e.1, e.1] := by
  obtain ⟨locals, hlocals, hf⟩ := h.locals
  rw [Function.localTypes, hf, ← map_ofPrimitive h.parameters, ← map_ofPrimitive hlocals,
    map_append, append_assoc]

theorem fits (hs : Numbered m s.scratch) : Fits m f.localTypes s.scratch := by
  rw [h.localTypes_eq]
  exact fits_append (by simp [slotCount, Method.parameterTypes]) hs

theorem getElem?_localTypes {index : Int} {t : Primitive} (ht : m.localType? index = some t) :
    f.localTypes[slotOf m index]? = some (.ofPrimitive t) := by
  have hslot := getElem?_slotOf ht
  obtain ⟨hlt, -⟩ := List.getElem?_eq_some_iff.1 hslot
  rw [h.localTypes_eq, getElem?_append_left (by simpa using hlt), getElem?_map, hslot]
  rfl

end

end Compiled

end

end Wat

end ScriptCompiler
