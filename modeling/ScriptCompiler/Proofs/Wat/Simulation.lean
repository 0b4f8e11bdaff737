import ScriptCompiler.Proofs.Wat.Lines
import ScriptCompiler.Proofs.Wat.Operators

/-!
# Commands as instructions

Code over truth values and integers and the lines it is compiled to are related by representation:
every value is a number of its type on the stack machine and the represented number in the function.
Compiled code keeps this relation from whatever state it starts in (`Compiles`), and pieces of code
can be put together.
-/

set_option autoImplicit false

namespace ScriptCompiler.Wat

open List Option

variable {W : Type}

/-! ## Calls on both sides -/

/-- The value type of a result, if there is one. -/
def resultOf (t : Primitive) : Option ValueType := if t = .void then none else some (.ofIntegral t)

/-- A function of numbers as one of represented numbers. -/
def hostOf (F : Functions W) (name : String) : Option (Host W) :=
  (F.signature? name).map fun (parameters, result) => {
    parameters := parameters.map .ofIntegral
    result := resultOf result
    body := fun args world =>
      let (n, world) := F.call name (List.zipWith Value.decode parameters args) world
      ((resultOf result).map fun _ => .encode result n, world) }

/-- A call with its arguments represented, under the name of the function. -/
def representCall? (call : String × List Int) : Option (String × List Value) :=
  (Reference.parse? call.1).map fun r => (r.flatName, List.zipWith Value.encode r.parameters call.2)

/-! ## The relation -/

/-- A value of the stack machine in its representation. -/
def represent (x : Primitive × Int) : Value := .encode x.1 x.2

/-- Whether a function holds what the store of the stack machine holds: every parameter and local in
its representation, the world, and the calls made so far. -/
structure Stored (m : Method) (s : Store Int W) (c : Config W) : Prop where
  slots : ∀ index t, m.localType? index = some t → t.holds (s.locals index) = true ∧
    c.locals[slotOf m index]? = some (.encode t (s.locals index))
  world : c.world = s.world
  calls : s.calls.map representCall? = c.calls.map some

/-- Whether a running function with locals of certain types is where the stack machine is. -/
structure Related (m : Method) (locals : List ValueType) (σ : List (Primitive × Int))
    (s : Store Int W) (c : Config W) : Prop extends Stored m s c where
  values : ∀ x ∈ σ, x.1.isIntegral = true ∧ x.1.holds x.2 = true
  stack : c.stack = σ.map represent
  types : c.locals.map Value.type = locals

/-- Whether a function ended as the stack machine did. It ran to the end with values of these types
on its own stack, or returned the same value. Nothing is said where the stack machine traps. -/
inductive Mirrors (m : Method) (locals : List ValueType) (types : Types)
    (outer : List (Primitive × Int)) :
    Except (Stop Int W) (Machine Int W) → Except (End W) (Config W) → Prop where
  | fell {σ : List (Primitive × Int)} {s : Store Int W} {c : Config W}
      (htypes : σ.map Prod.fst = types) (h : Related m locals σ s c) :
      Mirrors m locals types outer (.ok ⟨σ ++ outer, s, .running⟩) (.ok c)
  | returned {τ : List (Primitive × Int)} {s : Store Int W} {c : Config W} {v : Option Int}
      (hv : ∀ n ∈ v, m.returnType.holds n = true) (h : Stored m s c) :
      Mirrors m locals types outer (.ok ⟨τ, s, .returned v⟩)
        (.error (.returned (v.map (.encode m.returnType)) c))
  | trapped {s : Store Int W} {r : Except (End W) (Config W)} :
      Mirrors m locals types outer (.error (.trapped s)) r

/-- Whether lines do what code does that leads from types to types, in a function with at least these
scratch locals. -/
def Simulates (F : Functions W) (p : Program) (m : Method) (S : List (ValueType × Nat))
    (before : Types) (code : Code) (lines : Body) (after : Types) : Prop :=
  ∀ (locals : List ValueType) (σ outer : List (Primitive × Int)) (s : Store Int W) (c : Config W),
    Fits m locals S → σ.map Prod.fst = before → Related m locals σ s c →
    Mirrors m locals after outer
      (Machine.run (integers F) p m code ⟨σ ++ outer, s, .running⟩)
      (Line.execAll (hostOf F) (resultOf m.returnType) lines c)

section

variable {F : Functions W} {p : Program} {m : Method} {S R : List (ValueType × Nat)}
  {σ τ υ : Types} {a b : Code} {x y : Body}

theorem Mirrors.bind {locals : List ValueType} {outer : List (Primitive × Int)}
    {r : Except (Stop Int W) (Machine Int W)} {r' : Except (End W) (Config W)}
    (h : Mirrors m locals τ outer r r') (hb : Simulates F p m S τ b y υ) (hfits : Fits m locals S) :
    Mirrors m locals υ outer (r >>= Machine.run (integers F) p m b)
      (r' >>= Line.execAll (hostOf F) (resultOf m.returnType) y) := by
  cases h with
  | fell htypes h => exact hb locals _ outer _ _ hfits htypes h
  | returned hv h =>
    rw [ok_bind, Except.error_bind, Machine.run_returned]
    exact .returned hv h
  | trapped => exact .trapped

theorem Simulates.append (ha : Simulates F p m S σ a x τ) (hsub : S ⊆ R)
    (hb : Simulates F p m R τ b y υ) : Simulates F p m R σ (a ++ b) (x ++ y) υ := by
  intro locals vs outer s c hfits htypes h
  rw [Machine.run_append, Line.execAll_append]
  exact (ha locals vs outer s c (hfits.mono hsub) htypes h).bind hb hfits

theorem simulates_nil (σ : Types) : Simulates F p m S σ [] [] σ :=
  fun _ _ _ _ _ _ htypes h => .fell htypes h

/-- One instruction is followed through what its command does. -/
theorem simulates_of_command {i : Instruction} {cmd : Command} (hi : i.command? = some cmd)
    (h : ∀ locals vs outer s c, Fits m locals S → vs.map Prod.fst = σ → Related m locals vs s c →
      Mirrors m locals τ outer (cmd.perform (integers F) p m (vs ++ outer) s)
        (Line.execAll (hostOf F) (resultOf m.returnType) x c)) : Simulates F p m S σ [i] x τ := by
  intro locals vs outer s c hfits htypes hrelated
  rw [Machine.run_singleton, Machine.step_running hi]
  exact h locals vs outer s c hfits htypes hrelated

end

/-- Whether code that leads from types to types is compiled to lines that do what it does, with
whatever is noted below. -/
def Compiles (F : Functions W) (c : Context) (before : Types) (code : Code)
    (after : Types) : Prop :=
  ∀ (s : State) (outer : Types), s.types = before ++ outer → Numbered c.method s.scratch →
    ∃ lines S, steps c code s = .ok (s.advance lines (after ++ outer) S) ∧ s.scratch ⊆ S ∧
      Numbered c.method S ∧ Simulates F c.program c.method S before code lines after

theorem Compiles.append {F : Functions W} {c : Context} {σ τ υ : Types}
    {a b : Code} (ha : Compiles F c σ a τ) (hb : Compiles F c τ b υ) :
    Compiles F c σ (a ++ b) υ := by
  intro s outer htypes hnumbered
  obtain ⟨x, S, hx, hsub, hS, hsimulates⟩ := ha s outer htypes hnumbered
  obtain ⟨y, R, hy, hsub', hR, hsimulates'⟩ := hb (s.advance x (τ ++ outer) S) outer rfl hS
  rw [State.advance_advance] at hy
  refine ⟨x ++ y, R, ?_, List.Subset.trans hsub hsub', hR, hsimulates.append hsub' hsimulates'⟩
  rw [steps_append, hx, ok_bind, hy]

/-! ## Steps of the relation -/

section

variable {m : Method} {locals : List ValueType} {σ τ : List (Primitive × Int)} {s : Store Int W}
  {c : Config W}

theorem Related.restack (h : Related m locals σ s c)
    (hτ : ∀ x ∈ τ, x.1.isIntegral = true ∧ x.1.holds x.2 = true) :
    Related m locals τ s { c with stack := τ.map represent } :=
  ⟨⟨h.slots, h.world, h.calls⟩, hτ, rfl, h.types⟩

section

variable {H : String → Option (Host W)} {result : Option ValueType} {ops : List Op}
  {taken left rest : List (Primitive × Int)} (h : Related m locals (taken ++ rest) s c)
  (hops : Yields ops (taken.map represent) (left.map represent))
  (hleft : ∀ x ∈ left, x.1.isIntegral = true ∧ x.1.holds x.2 = true)

include h hops hleft

/-- Instructions that only work on the stack are followed there. -/
theorem Related.yields :
    ∃ d, Line.execAll H result (ops.map .op) c = .ok d ∧ Related m locals (left ++ rest) s d := by
  refine ⟨{ c with stack := (left ++ rest).map represent }, ?_, h.restack ?_⟩
  · rw [hops.execAll (h.stack.trans map_append), map_append]
  · intro x hx
    rcases mem_append.1 hx with hx | hx
    · exact hleft x hx
    · exact h.values x (mem_append_right _ hx)

variable (taken left)

/-- Such instructions mirror a command that takes and leaves the same values. -/
theorem Related.mirrors {outer : List (Primitive × Int)} :
    Mirrors m locals ((left ++ rest).map Prod.fst) outer (.ok ⟨left ++ rest ++ outer, s, .running⟩)
      (Line.execAll H result (ops.map .op) c) := by
  obtain ⟨_, hd, hrelated⟩ := @Related.yields W m locals s c H result ops taken left rest h hops hleft
  rw [hd]
  exact .fell rfl hrelated

end

theorem map_type_set {vs : List Value} {index : Nat} {v : Value}
    (h : vs[index]?.map Value.type = some v.type) :
    (vs.set index v).map Value.type = vs.map Value.type := by
  rw [map_set]
  apply ext_getElem?
  intro k
  by_cases hk : index = k
  · rw [← hk, getElem?_set_self', getElem?_map, h]
    rfl
  · rw [getElem?_set_ne hk]

theorem Related.scratch {index : Nat} {v : Value} (h : Related m locals σ s c)
    (hindex : slotCount m ≤ index) (hv : locals[index]? = some v.type)
    (stack : List (Primitive × Int))
    (hstack : ∀ x ∈ stack, x.1.isIntegral = true ∧ x.1.holds x.2 = true) : Related m locals stack s
      { c with stack := stack.map represent, locals := c.locals.set index v } := by
  have htype : c.locals[index]?.map Value.type = some v.type := by rw [← getElem?_map, h.types, hv]
  refine ⟨⟨?_, h.world, h.calls⟩, hstack, rfl, (map_type_set htype).trans h.types⟩
  intro k t ht
  have hbound := (slotOf_bounds ht).1
  have hne : index ≠ slotOf m k := by omega
  obtain ⟨hholds, hslot⟩ := h.slots k t ht
  refine ⟨hholds, ?_⟩
  rw [getElem?_set_ne hne]
  exact hslot

/-- An assignment keeps both sides related. -/
theorem Related.assign {x : Primitive × Int} {index : Int} (h : Related m locals (x :: σ) s c)
    (hx : m.localType? index = some x.1) :
    c.locals[slotOf m index]?.map Value.type = some (represent x).type ∧
      Related m locals σ (s.assign index x.2)
        { c with
          stack := σ.map represent
          locals := c.locals.set (slotOf m index) (represent x) } := by
  obtain ⟨-, hslot⟩ := h.slots index x.1 hx
  have htype : c.locals[slotOf m index]?.map Value.type = some (represent x).type := by
    rw [hslot]
    rfl
  refine ⟨htype, ⟨?_, h.world, h.calls⟩, fun y hy => h.values y (mem_cons_of_mem _ hy), rfl,
    (map_type_set htype).trans h.types⟩
  intro k t ht
  by_cases hk : k = index
  · subst hk
    obtain rfl : x.1 = t := some.inj (hx.symm.trans ht)
    have hlt : slotOf m k < c.locals.length := (List.getElem?_eq_some_iff.1 hslot).1
    have hvalue : (s.assign k x.2).locals k = x.2 := if_pos rfl
    rw [hvalue, getElem?_set_self hlt]
    exact ⟨(h.values x mem_cons_self).2, rfl⟩
  · have hne : slotOf m index ≠ slotOf m k := fun hsame => hk (slotOf_inj hx ht hsame).symm
    have hvalue : (s.assign index x.2).locals k = s.locals k := if_neg hk
    rw [hvalue, getElem?_set_ne hne]
    exact h.slots k t ht

end

/-! ## Commands -/

section

variable {F : Functions W} {c : Context} {i : Instruction} {σ τ : Types}

/-- An instruction whose lines are the same from every state is compiled if they do what its command
does. -/
theorem compiles_of_command {cmd : Command} (lines : Body)
    (hi : i.command? = some cmd) (hstep : ∀ (s : State) (outer : Types), s.types = σ ++ outer →
      step c i s = .ok (s.advance lines (τ ++ outer) s.scratch))
    (h : ∀ locals vs outer s d, vs.map Prod.fst = σ → Related c.method locals vs s d →
      Mirrors c.method locals τ outer
        (cmd.perform (integers F) c.program c.method (vs ++ outer) s)
        (Line.execAll (hostOf F) (resultOf c.method.returnType) lines d)) :
    Compiles F c σ [i] τ := by
  intro s outer htypes hnumbered
  refine ⟨lines, s.scratch, ?_, List.Subset.refl _, hnumbered, ?_⟩
  · rw [steps_singleton, hstep s outer htypes]
  · apply simulates_of_command hi
    intro locals vs outer s d _ hvs hrelated
    exact h locals vs outer s d hvs hrelated

theorem compiles_nop (hi : i.command? = some .nop) (σ : Types) : Compiles F c σ [i] σ := by
  apply compiles_of_command [.op .nop] hi
  · intro s outer htypes
    rw [step, i.opcode_of_command? hi]
    show Except.ok (s.emit .nop) = _
    rw [s.eq_advance, State.emit_advance, ← htypes]
    simp
  · intro _ _ outer s _ htypes h
    exact .fell htypes h

variable {t : Primitive}

theorem valueType_of_isIntegral (method : String) (ht : t.isIntegral = true) :
    valueType method t = .ok (.ofIntegral t) := by
  rw [valueType, ofPrimitive?_of_isIntegral ht]

variable {text : String}

theorem loadConstant_integer {n : Int} (ht : t.isIntegral = true) (hbool : t ≠ .bool)
    (hconst : i.constant = .ok (t, text)) (hread : Integer.read? 128 text = some n) (s : State) :
    loadConstant c i s =
      .ok ((s.emit (.const (.ofIntegral t) (constantValue t (.ofIntegral t) n))).push t) := by
  unfold loadConstant
  simp only [hconst, reading, ok_bind]
  split
  · cases ht
  · exact absurd rfl hbool
  · cases ht
  · cases ht
  · rw [hread]
    show valueType c.name t >>= _ = _
    rw [valueType_of_isIntegral c.name ht]
    rfl

theorem compiles_constant (hi : i.command? = some (.constant t text)) (ht : t.isIntegral = true)
    (hreads : t.reads text = true) (σ : Types) : Compiles F c σ [i] (t :: σ) := by
  obtain ⟨hop, htype, htext⟩ := i.of_command? hi
  have hconst := i.constant_of_type? htype htext
  -- a truth value is written as a word, a number as a number
  have hcases : ∃ op, (∀ s, loadConstant c i s = .ok ((s.emit op).push t)) ∧
      t.holds ((integers F).constant t text) = true ∧
      Yields [op] [] [.encode t ((integers F).constant t text)] := by
    by_cases hbool : t = .bool
    · subst hbool
      rw [Primitive.reads, if_pos rfl, Bool.or_eq_true, beq_iff_eq, beq_iff_eq] at hreads
      rcases hreads with rfl | rfl
      · refine ⟨.const .i32 1, fun s => ?_, rfl, yields_const rfl⟩
        rw [loadConstant, hconst]
        rfl
      · refine ⟨.const .i32 0, fun s => ?_, rfl, yields_const rfl⟩
        rw [loadConstant, hconst]
        rfl
    · have hbits := (Primitive.isIntegral_bits ht).2
      obtain ⟨_, hn, hread, hholds⟩ := Primitive.read?_of_reads hbool hbits hreads
      rw [integers_constant_eq F hbool hn]
      exact ⟨_, loadConstant_integer ht hbool hconst hread, hholds, constant_yields ht hholds⟩
  obtain ⟨op, hload, hholds, hyields⟩ := hcases
  apply compiles_of_command [.op op] hi
  · intro s outer htypes
    rw [step, hop]
    show loadConstant c i s = _
    rw [hload, s.eq_advance, State.emit_advance, State.push_advance, htypes]
    simp
  · intro _ _ outer s _ htypes h
    rw [← htypes]
    exact h.mirrors [] [(t, (integers F).constant t text)] hyields (by simpa using ⟨ht, hholds⟩)

theorem compiles_get {index : Int} (hi : i.command? = some (.get index))
    (hplace : Integer.isIndex index = true) (ht : c.method.localType? index = some t)
    (hint : t.isIntegral = true) (σ : Types) : Compiles F c σ [i] (t :: σ) := by
  obtain ⟨hop, hindex⟩ := i.of_command? hi
  apply compiles_of_command [.op (.localGet (slotOf c.method index))] hi
  · intro s outer htypes
    rw [step, hop]
    show getLocal c i s = _
    rw [getLocal, localOf_eq hindex hplace ht, ok_bind, s.eq_advance]
    simp [htypes]
  · intro locals vs outer s d htypes h
    obtain ⟨hholds, hslot⟩ := h.slots index t ht
    have hvalues : ∀ x ∈ (t, s.locals index) :: vs, x.1.isIntegral = true ∧ x.1.holds x.2 = true :=
      forall_mem_cons.2 ⟨⟨hint, hholds⟩, h.values⟩
    have hexec : Line.execAll (hostOf F) (resultOf c.method.returnType)
        [.op (.localGet (slotOf c.method index))] d =
        .ok { d with stack := ((t, s.locals index) :: vs).map represent } := by
      rw [Line.execAll_singleton, Line.exec, Op.exec_localGet hslot, Config.push, h.stack]
      rfl
    rw [Command.perform, ht, hexec]
    exact .fell (by rw [← htypes]; rfl) (h.restack hvalues)

theorem compiles_set {index : Int} (hi : i.command? = some (.set index))
    (hplace : Integer.isIndex index = true) (ht : c.method.localType? index = some t)
    (σ : Types) : Compiles F c (t :: σ) [i] σ := by
  obtain ⟨hop, hindex⟩ := i.of_command? hi
  apply compiles_of_command [.op (.localSet (slotOf c.method index))] hi
  · intro s outer htypes
    rw [step, hop]
    show setLocal c i s = _
    simp only [setLocal, localOf_eq hindex hplace ht, ok_bind, pop_eq htypes]
    simp
  · intro locals vs outer s d htypes h
    obtain ⟨x, vs, rfl, rfl, rfl⟩ := map_eq_cons_iff.1 htypes
    obtain ⟨htype, hrelated⟩ := h.assign ht
    have hexec : Line.execAll (hostOf F) (resultOf c.method.returnType)
        [.op (.localSet (slotOf c.method index))] d =
        .ok { d with
          stack := vs.map represent
          locals := d.locals.set (slotOf c.method index) (represent x) } := by
      rw [Line.execAll_singleton, Line.exec, Op.exec_localSet h.stack htype]
    rw [cons_append, Command.perform, ht, hexec]
    exact .fell rfl hrelated

theorem compiles_pop (hi : i.command? = some .pop) (σ : Types) : Compiles F c (t :: σ) [i] σ := by
  obtain ⟨hop, -⟩ := i.of_command? hi
  apply compiles_of_command [.op .drop] hi
  · intro s outer htypes
    rw [step, hop]
    show drop c i s = _
    rw [drop, pop_eq htypes, ok_bind]
    simp
  · intro _ vs outer s d htypes h
    obtain ⟨x, vs, rfl, rfl, rfl⟩ := map_eq_cons_iff.1 htypes
    have hexec : Line.execAll (hostOf F) (resultOf c.method.returnType) [.op .drop] d =
        .ok { d with stack := vs.map represent } := by
      have hstack : d.stack = represent x :: vs.map represent := h.stack
      rw [Line.execAll_singleton, Line.exec, Op.exec]
      simp only [hstack]
    rw [hexec]
    exact .fell rfl (h.restack fun y hy => h.values y (mem_cons_of_mem _ hy))

/-- The instructions that put the operands of an operator in order. -/
def orderOps (op : BinaryOp) (first : Nat) : List Op :=
  if isOrdered op.opcode then
    [.localSet first, .localSet (first + 1), .localGet first, .localGet (first + 1)]
  else []

/-- An operator takes its operands in order, through scratch locals where the order matters. -/
theorem binary_eq {op : BinaryOp} {t : Primitive} {rest : Types} {s : State}
    (hop : i.opcode = op.opcode) (htype : i.type? = some t) (ht : t.isIntegral = true)
    (htypes : s.types = t :: t :: rest) (hnumbered : Numbered c.method s.scratch) :
    ∃ S first, binary c i s = .ok (s.advance ((orderOps op first ++ operatorOps op t).map .op)
        ((if op.isComparison then .bool else t) :: rest) S) ∧ s.scratch ⊆ S ∧ Numbered c.method S ∧
      (isOrdered op.opcode = true → (ValueType.ofIntegral t, first) ∈ S) := by
  have hpop : s.popMany c i 2 = .ok (s.advance [] rest s.scratch) :=
    @popMany_eq c i s [t, t] rest htypes
  have hres : (operation op.opcode t).2 = if op.isComparison then .bool else t := by
    cases op <;> rfl
  have hfinish : ∀ x S, (if (operation op.opcode t).2 = t then
        ((s.advance x rest S).emit (.numeric (.ofIntegral t) (operation op.opcode t).1)).emitAll
          (narrow t)
      else (s.advance x rest S).emit (.numeric (.ofIntegral t) (operation op.opcode t).1)).push
        (operation op.opcode t).2 =
      s.advance (x ++ (operatorOps op t).map .op)
        ((if op.isComparison then .bool else t) :: rest) S := by
    intro x S
    rw [← hres]
    unfold operatorOps
    split <;> simp
  simp only [binary, i.operandType_of_type? htype, reading, ok_bind, hpop,
    valueType_of_isIntegral c.name ht, hop, isFloating_of_isIntegral ht, Bool.false_and]
  by_cases hord : isOrdered op.opcode = true
  · obtain ⟨S, first, hpair, hsub, hS, hmem⟩ :=
      scratchPair_spec c (s.advance [] rest s.scratch) (.ofIntegral t) hnumbered
    refine ⟨S, first, ?_, hsub, hS, fun _ => hmem⟩
    rw [if_pos hord, hpair]
    simp only [State.note_scratch_advance, State.emitAll_advance, if_neg Bool.false_ne_true]
    rw [hfinish, orderOps, if_pos hord]
    simp
  · refine ⟨s.scratch, 0, ?_, List.Subset.refl _, hnumbered, fun h => absurd h hord⟩
    rw [if_neg hord, hfinish, orderOps, if_neg hord]
    simp

section

variable {m : Method} {locals : List ValueType} {x y : Primitive × Int}
  {vs : List (Primitive × Int)} {s : Store Int W} {d : Config W} {op : BinaryOp} {first : Nat}
  {H : String → Option (Host W)} {result : Option ValueType}
  (h : Related m locals (x :: y :: vs) s d)

include h

/-- The two values on top change places through scratch locals of their type. -/
theorem swap_related (hfirst : slotCount m ≤ first) (hx : locals[first]? = some (represent x).type)
    (hy : locals[first + 1]? = some (represent y).type) : ∃ e, Line.execAll H result
        ([Op.localSet first, .localSet (first + 1), .localGet first, .localGet (first + 1)].map .op) d =
          .ok e ∧ Related m locals (y :: x :: vs) s e := by
  have hvalues := forall_mem_cons.1 h.values
  have htail := forall_mem_cons.1 hvalues.2
  have hset := h.scratch hfirst hx (y :: vs) hvalues.2
  have hset' := hset.scratch (Nat.le_succ_of_le hfirst) hy vs htail.2
  have hlen : ∀ {k : Nat} {t : ValueType}, locals[k]? = some t → k < d.locals.length := by
    intro k t hk
    rw [← h.types, getElem?_map] at hk
    obtain ⟨_, hv, -⟩ := map_eq_some_iff.1 hk
    exact (List.getElem?_eq_some_iff.1 hv).1
  have htype : ∀ {k : Nat} {t : ValueType} {e : Config W} {us : List (Primitive × Int)},
      locals[k]? = some t → Related m locals us s e → e.locals[k]?.map Value.type = some t := by
    intro k t e us hk he
    rw [← getElem?_map, he.types, hk]
  have hleft : ((d.locals.set first (represent x)).set (first + 1) (represent y))[first]? =
      some (represent x) := by
    rw [getElem?_set_ne (Nat.succ_ne_self first), getElem?_set_self (hlen hx)]
  have hright : ((d.locals.set first (represent x)).set (first + 1) (represent y))[first + 1]? =
      some (represent y) := by
    rw [getElem?_set_self]
    rw [length_set]
    exact hlen hy
  have hlists : ∀ u ∈ y :: x :: vs, u.1.isIntegral = true ∧ u.1.holds u.2 = true :=
    forall_mem_cons.2 ⟨htail.1, forall_mem_cons.2 ⟨hvalues.1, htail.2⟩⟩
  refine ⟨_, ?_, hset'.restack hlists⟩
  rw [map_cons, Line.execAll_cons, Line.exec, Op.exec_localSet h.stack (htype hx h),
    ok_bind, map_cons, Line.execAll_cons, Line.exec,
    Op.exec_localSet hset.stack (htype hy hset), ok_bind, map_cons, Line.execAll_cons,
    Line.exec, Op.exec_localGet hleft, ok_bind, map_singleton, Line.execAll_singleton,
    Line.exec]
  exact Op.exec_localGet hright

/-- The operands as the instructions of an operator find them. -/
theorem order_related (hfirst : isOrdered op.opcode = true → slotCount m ≤ first ∧
      locals[first]? = some (represent x).type ∧ locals[first + 1]? = some (represent y).type) :
    ∃ e, Line.execAll H result ((orderOps op first).map .op) d = .ok e ∧
      Related m locals ((if isOrdered op.opcode then [y, x] else [x, y]) ++ vs) s e := by
  unfold orderOps
  by_cases hord : isOrdered op.opcode = true
  · obtain ⟨hcount, hx, hy⟩ := hfirst hord
    rw [if_pos hord, if_pos hord]
    exact swap_related h hcount hx hy
  · rw [if_neg hord, if_neg hord]
    exact ⟨d, rfl, h⟩

end

/-- An operator keeps both sides related. -/
theorem compiles_operate {op : BinaryOp} (hi : i.command? = some (.operate op t))
    (ht : t.isIntegral = true) (hop : (op.isComparison || t.isInteger) = true) (σ : Types) :
    Compiles F c (t :: t :: σ) [i] ((if op.isComparison then .bool else t) :: σ) := by
  obtain ⟨hopcode, htype⟩ := i.of_command? hi
  intro s outer htypes hnumbered
  obtain ⟨S, first, hbinary, hsub, hS, hmem⟩ := binary_eq hopcode htype ht htypes hnumbered
  refine ⟨(orderOps op first ++ operatorOps op t).map .op, S, ?_, hsub, hS, ?_⟩
  · have hstep : step c i s = binary c i s := by
      rw [step, hopcode]
      cases op <;> rfl
    rw [steps_singleton, hstep, hbinary]
    rfl
  · apply simulates_of_command hi
    intro locals vs outer s d hfits hvs h
    obtain ⟨x, vs, rfl, rfl, hvs⟩ := map_eq_cons_iff.1 hvs
    obtain ⟨y, vs, rfl, hy, rfl⟩ := map_eq_cons_iff.1 hvs
    have hleft := (h.values x mem_cons_self).2
    have hright := (h.values y (by simp)).2
    rw [hy] at hright
    rw [cons_append, cons_append, Command.perform]
    show Mirrors _ _ _ _ (Meaning.orTrap s (words.operate op x.1 x.2 y.2) >>= _) _
    cases hn : words.operate op x.1 x.2 y.2 with
    | none => exact .trapped
    | some n =>
      have hsame : (represent y).type = .ofIntegral x.1 := congrArg ValueType.ofIntegral hy
      obtain ⟨_, he, hrelated⟩ := @order_related W c.method locals x y vs s d op first (hostOf F)
        (resultOf c.method.returnType) h fun hord => hsame ▸ hfits _ (hmem hord)
      have htaken : (if isOrdered op.opcode then [y, x] else [x, y]).map represent =
          if isOrdered op.opcode then [.encode x.1 y.2, .encode x.1 x.2]
          else [.encode x.1 x.2, .encode x.1 y.2] := by
        unfold represent
        split <;> simp [hy]
      have hyields := operator_yields ht hop hleft hright hn
      rw [← htaken] at hyields
      have hres := holds_of_operate (Primitive.isIntegral_bits ht).1 hleft hn
      have hint : (if op.isComparison then Primitive.bool else x.1).isIntegral = true := by
        split
        · rfl
        · exact ht
      rw [map_append, Line.execAll_append, he, ok_bind]
      exact hrelated.mirrors _ [(if op.isComparison then .bool else x.1, n)] hyields
        (by simpa using ⟨hint, hres⟩)

theorem compiles_convert {source target : Primitive} (hi : i.command? = some (.convert target))
    (hsource : source.isIntegral = true) (htarget : target.isIntegral = true) (σ : Types) :
    Compiles F c (source :: σ) [i] (target :: σ) := by
  obtain ⟨hop, htype⟩ := i.of_command? hi
  -- the instructions are the same for all values of the source
  have hcases : ∃ ops, conversion c source target = .ok ops ∧
      ∀ s n, source.holds n = true → ∃ v, (integers F).bring s target (source, n) = .ok v ∧
        target.holds v = true ∧ Yields ops [.encode source n] [.encode target v] := by
    by_cases hsame : source = target
    · subst hsame
      refine ⟨[], if_pos rfl, fun s n hn => ⟨n, if_pos rfl, hn, .refl _⟩⟩
    · obtain ⟨ops, hops, -⟩ := conversion_yields c hsource htarget hsame source.holds_zero
      refine ⟨ops, hops, fun s n hn => ⟨target.cast n, ?_, ?_, ?_⟩⟩
      · rw [Meaning.bring, if_neg hsame]
        rfl
      · exact Primitive.holds_cast (Primitive.isIntegral_bits htarget).1 n
      · obtain ⟨ops', hops', hyields⟩ := conversion_yields c hsource htarget hsame hn
        obtain rfl : ops = ops' := Except.ok.inj (hops.symm.trans hops')
        exact hyields
  obtain ⟨ops, hops, hconvert⟩ := hcases
  apply compiles_of_command (ops.map .op) hi
  · intro s outer htypes
    rw [step, hop]
    show convert c i s = _
    simp only [convert, i.operandType_of_type? htype, reading, ok_bind, pop_eq htypes, hops]
    simp
  · intro _ vs outer s _ htypes h
    obtain ⟨x, vs, rfl, rfl, rfl⟩ := map_eq_cons_iff.1 htypes
    obtain ⟨v, hv, hholds, hyields⟩ := hconvert s x.2 (h.values x mem_cons_self).2
    rw [cons_append, Command.perform, hv, ok_bind]
    exact h.mirrors [x] [(target, v)] hyields (by simpa using ⟨htarget, hholds⟩)

theorem execAll_ret (H : String → Option (Host W)) (result : Option ValueType) (d : Config W) :
    Line.execAll H result [.op .ret] d = .error (d.ret result) := by
  rw [Line.execAll_singleton]
  rfl

theorem compiles_ret_void (hi : i.command? = some .ret) (hvoid : c.method.returnType = .void)
    (σ : Types) : Compiles F c σ [i] σ := by
  obtain ⟨hop, -⟩ := i.of_command? hi
  apply compiles_of_command [.op .ret] hi
  · intro s outer htypes
    rw [step, hop]
    show ret c i s = _
    rw [ret, if_pos hvoid, s.eq_advance, State.emit_advance, htypes]
    simp
  · intro _ vs outer s _ htypes h
    have hperform : Command.ret.perform (integers F) c.program c.method (vs ++ outer) s =
        .ok ⟨vs ++ outer, s, .returned none⟩ := if_pos hvoid
    rw [execAll_ret, hperform, resultOf, if_pos hvoid]
    exact .returned (by simp) h.toStored

theorem compiles_ret_value (hi : i.command? = some .ret) (hvoid : c.method.returnType ≠ .void)
    (σ : Types) : Compiles F c (c.method.returnType :: σ) [i] σ := by
  obtain ⟨hop, -⟩ := i.of_command? hi
  apply compiles_of_command [.op .ret] hi
  · intro s outer htypes
    rw [step, hop]
    show ret c i s = _
    rw [ret, if_neg hvoid, pop_eq htypes, ok_bind]
    simp
  · intro _ vs outer s d htypes h
    obtain ⟨x, vs, rfl, hx, rfl⟩ := map_eq_cons_iff.1 htypes
    have hholds := (h.values x mem_cons_self).2
    have hret : d.ret (some (.ofIntegral c.method.returnType)) =
        .returned (some (.encode c.method.returnType x.2)) d := by
      have hstack : d.stack = represent x :: vs.map represent := h.stack
      rw [Config.ret, hstack, ← hx]
      exact if_pos rfl
    have hperform : Command.ret.perform (integers F) c.program c.method (x :: vs ++ outer) s =
        .ok ⟨vs ++ outer, s, .returned (some x.2)⟩ := if_neg hvoid
    rw [execAll_ret, hperform, resultOf, if_neg hvoid, hret]
    exact .returned (by simpa [hx] using hholds) h.toStored

theorem zipWith_encode (σ : List (Primitive × Int)) :
    List.zipWith Value.encode (σ.map Prod.fst) (σ.map Prod.snd) = σ.map represent := by
  rw [zipWith_map, zipWith_self]
  rfl

theorem zipWith_decode {σ : List (Primitive × Int)}
    (h : ∀ x ∈ σ, x.1.isIntegral = true ∧ x.1.holds x.2 = true) :
    List.zipWith Value.decode (σ.map Prod.fst) (σ.map represent) = σ.map Prod.snd := by
  rw [zipWith_map, zipWith_self]
  apply map_congr_left
  intro x hx
  exact Value.decode_encode (h x hx).1 (h x hx).2

/-- A call passes on the same arguments and makes the same of what comes back. -/
theorem Related.call {m : Method} {locals : List ValueType} {taken rest : List (Primitive × Int)}
    {s : Store Int W} {d : Config W} {output : Option ValueType} {target : String} {r : Reference}
    {result : Primitive} (h : Related m locals (taken ++ rest) s d)
    (hr : Reference.parse? target = some r)
    (hsignature : F.signature? r.flatName = some (r.parameters, result))
    (htypes : taken.reverse.map Prod.fst = r.parameters) (hres : result.isIntegralResult = true) :
    ∃ v t e, (integers F).invoke target (taken.reverse.map Prod.snd) s = .ok (v, t) ∧
      Line.execAll (hostOf F) output [.op (.call r.flatName)] d = .ok e ∧
      Related m locals ((if result = .void then [] else [(result, v)]) ++ rest) t e := by
  have hdecode : List.zipWith Value.decode r.parameters (taken.reverse.map represent) =
      taken.reverse.map Prod.snd := by
    rw [← htypes]
    apply zipWith_decode
    intro x hx
    exact h.values x (mem_append_left _ (mem_reverse.1 hx))
  obtain ⟨n, world, hanswer⟩ : ∃ n world,
      F.call r.flatName (taken.reverse.map Prod.snd) s.world = (n, world) := ⟨_, _, rfl⟩
  have hinvoke := integers_invoke hr hsignature (taken.reverse.map Prod.snd) s
  rw [hanswer] at hinvoke
  have hexec : Op.exec (hostOf F) output (.call r.flatName) d =
      .ok { d with
        stack := ((resultOf result).map fun _ => Value.encode result n).toList ++ rest.map represent
        world
        calls := d.calls ++ [(r.flatName, taken.reverse.map represent)] } := by
    refine Op.exec_call (by rw [hostOf, hsignature, map_some]) ?_ ?_ ?_ ?_
    · rw [h.stack, map_append, map_reverse, reverse_reverse]
    · show _ = r.parameters.map ValueType.ofIntegral
      rw [← htypes, List.map_map, List.map_map]
      rfl
    · simp only [hdecode, h.world, hanswer]
    · show _ = resultOf result
      rw [resultOf]
      split <;> rfl
  -- what the call leaves on both sides
  have hleft : (∀ x ∈ if result = .void then [] else [(result, result.lowBits n)],
        x.1.isIntegral = true ∧ x.1.holds x.2 = true) ∧
      ((resultOf result).map fun _ => Value.encode result n).toList =
        (if result = .void then [] else [(result, result.lowBits n)]).map represent := by
    unfold resultOf
    by_cases hvoid : result = .void
    · rw [if_pos hvoid, if_pos hvoid]
      exact ⟨fun x hx => absurd hx not_mem_nil, rfl⟩
    · have hint := Primitive.isIntegral_of_isIntegralResult hres hvoid
      have hholds := Primitive.holds_lowBits (Primitive.isIntegral_bits hint).1 n
      rw [if_neg hvoid, if_neg hvoid]
      refine ⟨forall_mem_singleton.2 ⟨hint, hholds⟩, ?_⟩
      show [Value.encode result n] = [Value.encode result (result.lowBits n)]
      rw [Value.encode_lowBits hint]
  refine ⟨_, _, _, hinvoke, (Line.execAll_singleton _ _).trans hexec, ⟨h.slots, rfl, ?_⟩, ?_, ?_,
    h.types⟩
  · have hcall : representCall? (target, taken.reverse.map Prod.snd) =
        some (r.flatName, taken.reverse.map represent) := by
      rw [representCall?, hr, map_some, ← htypes, zipWith_encode]
    rw [map_append, map_append, h.calls, map_singleton, map_singleton, hcall]
  · intro x hx
    rcases mem_append.1 hx with hx | hx
    · exact hleft.1 x hx
    · exact h.values x (mem_append_right _ hx)
  · rw [map_append, ← hleft.2]

/-- A call keeps both sides related. -/
theorem compiles_call {result : Primitive} {target : String} {callee : Method}
    {parameters : Types} (hi : i.command? = some (.call result target))
    (hcallee : c.program.callee? target = some callee) (hreturn : callee.returnType = result)
    (hres : result.isIntegralResult = true)
    (hparams : c.program.parametersOf? target = some parameters)
    (hdeclares : F.Declares c.program target) (σ : Types) :
    Compiles F c (parameters.reverse ++ σ) [i] (if result = .void then σ else result :: σ) := by
  obtain ⟨hop, htype, htext⟩ := i.of_command? hi
  obtain ⟨r, found, hr, hfound, hsignature⟩ := hdeclares
  obtain rfl : callee = found := some.inj (hcallee.symm.trans hfound)
  have hmethod : (c.program.findMethod? r).bind c.program.methodAt? = some callee := by
    rw [Program.callee?, hr, bind_some] at hcallee
    exact hcallee
  have hsame : r.parameters = parameters := Program.parameters_of_parse? hparams hr
  have htypes : callee.parameterTypes = r.parameters := Program.parameterTypes_of_findMethod? hmethod
  rw [htypes, hreturn] at hsignature
  apply compiles_of_command [.op (.call r.flatName)] hi
  · intro s outer hs
    have hcount : callee.parameters.length = parameters.reverse.length := by
      rw [length_reverse, ← hsame, ← htypes, Method.parameterTypes, length_map]
    rw [append_assoc] at hs
    rw [step, hop]
    show callStatic c i s = _
    simp only [callStatic, i.callTarget_of_type? htype htext hr, reading, ok_bind, hmethod,
      hcount, popMany_eq hs]
    split <;> simp
  · intro locals _ outer s d hvs h
    obtain ⟨taken, rest, rfl, htaken, rfl⟩ := map_eq_append_iff.1 hvs
    have hreversed : taken.reverse.map Prod.fst = r.parameters := by
      rw [map_reverse, htaken, reverse_reverse, hsame]
    obtain ⟨v, t, _, hinvoke, he, hrelated⟩ := @Related.call W F c.method locals taken rest s d
      (resultOf c.method.returnType) target r result h hr hsignature hreversed hres
    have hlen : parameters.length = taken.length := by
      rw [← hsame, ← hreversed, length_map, length_reverse]
    have hperform : (Command.call result target).perform (integers F) c.program c.method
        (taken ++ rest ++ outer) s =
        .ok ⟨(if result = .void then [] else [(result, v)]) ++ rest ++ outer, t, .running⟩ := by
      have hcount : taken.length ≤ (taken ++ (rest ++ outer)).length := by simp
      rw [append_assoc, Command.perform, hparams]
      simp only [hlen, if_pos hcount, take_left, drop_left]
      have hinvoked : (integers F).invoke target (taken.reverse.map fun x => x.2) s = .ok (v, t) :=
        hinvoke
      rw [hinvoked, ok_bind]
      split <;> rfl
    rw [he, hperform]
    refine .fell ?_ hrelated
    split <;> rfl

end

end ScriptCompiler.Wat
