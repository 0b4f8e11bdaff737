import ScriptCompiler.Proofs.Wat.Simulation

/-!
# Conditionals

A branch becomes instructions that leave the truth of its condition, and a
conditional line behind them. The stack machine goes through both parts of the
conditional and passes over the one that is not chosen; a function goes through the
chosen part only, on a stack of its own. What was pushed before stays below on the
one side and aside on the other.
-/

set_option autoImplicit false

namespace ScriptCompiler.Wat

open List

variable {W : Type} {F : Functions W}

/-! ## The chosen part -/

section

variable {H : String → Option (Host W)} {result : Option ValueType} {d : Config W} {v : Value}
  {rest : List Value} {truth : Bool}

variable (hstack : d.stack = v :: rest) (hv : v.Tests truth)
include hstack hv

theorem Config.pop_of_tests :
    ∃ x, d.pop .i32 = .ok (x, { d with stack := rest }) ∧ (x = 0 ↔ truth = false) := by
  obtain ⟨x, rfl, hx⟩ := hv
  refine ⟨x, ?_, hx⟩
  simp only [Config.pop, hstack]
  rfl

theorem Line.exec_ifElse (yes no : Body) : Line.exec H result (.ifElse yes no) d =
      Config.block { d with stack := rest } (Line.execAll H result (if truth then yes else no)) := by
  obtain ⟨_, hpop, hx⟩ := Config.pop_of_tests hstack hv
  rw [Line.exec, hpop, ok_bind]
  cases truth with
  | false => exact if_pos (hx.2 rfl)
  | true => exact if_neg fun h => Bool.noConfusion (hx.1 h)

end

section

variable {p : Program} {m : Method} {S : List (ValueType × Nat)} {locals : List ValueType}
  {below : Types} {us outer : List (Primitive × Int)} {s : Store Int W} {d : Config W}

/-- A part works above what was pushed before it on the one side, and without it on the other. -/
theorem Simulates.block {code : Code} {lines : Body}
    (h : Simulates F p m S [] code lines []) (hfits : Fits m locals S)
    (hd : Related m locals us s d) : Mirrors m locals (us.map Prod.fst) outer
      (Machine.run (integers F) p m code ⟨us ++ outer, s, .running⟩)
      (d.block (Line.execAll (hostOf F) (resultOf m.returnType) lines)) := by
  have hinner : Related m locals [] s { d with stack := [] } :=
    hd.restack fun _ hx => absurd hx not_mem_nil
  have hpart := h locals [] (us ++ outer) s { d with stack := [] } hfits rfl hinner
  rw [nil_append] at hpart
  unfold Config.block
  generalize Machine.run (integers F) p m code ⟨us ++ outer, s, .running⟩ = r at hpart ⊢
  generalize Line.execAll (hostOf F) (resultOf m.returnType) lines { d with stack := [] } = r'
    at hpart ⊢
  cases hpart with
  | @fell σ s' e htypes he =>
    obtain rfl := map_eq_nil_iff.1 htypes
    have hstack : e.stack = [] := he.stack
    simp only [ok_bind, hstack]
    rw [hd.stack, nil_append]
    exact .fell rfl (he.restack hd.values)
  | returned hv he => exact .returned hv he
  | trapped => exact .trapped

/-- Whether code leaves a running machine as it is. -/
def Passes (F : Functions W) (p : Program) (m : Method) (code : Code) : Prop :=
  ∀ σ s, Machine.run (integers F) p m code ⟨σ, s, .running⟩ = .ok ⟨σ, s, .running⟩

theorem Mirrors.followed {types : Types} {r : Except (Stop Int W) (Machine Int W)}
    {r' : Except (End W) (Config W)} {code : Code} (h : Mirrors m locals types outer r r')
    (hcode : Passes F p m code) :
    Mirrors m locals types outer (r >>= Machine.run (integers F) p m code) r' := by
  cases h with
  | fell htypes h =>
    rw [ok_bind, hcode]
    exact .fell htypes h
  | returned hv h =>
    rw [ok_bind, Machine.run_returned]
    exact .returned hv h
  | trapped => exact .trapped

end

/-! ## Branches -/

/-- Whether a branch is compiled to instructions that leave the truth of its condition on top of
what lies below its operand. -/
structure Opens (F : Functions W) (c : Context) (i : Instruction) (ops : List Op)
    (σ below : Types) : Prop where
  compiled : ∀ (s : State) (outer : Types), s.types = σ ++ outer →
    step c i s = .ok ((s.advance (ops.map .op) (below ++ outer) s.scratch).opened {})
  tested : ∀ (locals : List ValueType) (vs outer : List (Primitive × Int)) (s : Store Int W)
      (d : Config W), vs.map Prod.fst = σ → Related c.method locals vs s d →
    ∃ truth v us, us.map Prod.fst = below ∧ us ⊆ vs ∧ v.Tests truth ∧
      Machine.step (integers F) c.program c.method i ⟨vs ++ outer, s, .running⟩ =
        .ok ⟨us ++ outer, s, if truth then .running else .toOtherwise 0⟩ ∧
      Line.execAll (hostOf F) (resultOf c.method.returnType) (ops.map .op) d =
        .ok { d with stack := v :: us.map represent }

section

variable {c : Context} {i : Instruction} {σ below : Types} {cond : Condition}
  {number : Option Int}

theorem opens_forced (hi : i.command? = some (.branch .forced number))
    (hfits : number.all (Integer.fits 128) = true) (σ : Types) :
    Opens F c i [.const .i32 1] σ σ := by
  obtain ⟨hop, hbranch⟩ := i.of_command? hi
  constructor
  · intro s outer htypes
    rw [step, hop]
    show openBranch c i s = _
    simp only [openBranch, i.condition_of_branch? hbranch hfits, reading, ok_bind, if_true]
    rw [s.eq_advance, State.emit_advance, htypes]
    simp [State.opened]
  · intro _ vs outer s _ htypes h
    refine ⟨true, .truth true, vs, htypes, List.Subset.refl _, Value.truth_tests true, ?_, ?_⟩
    · rw [Machine.step_running hi]
      rfl
    · rw [← h.stack, map_singleton, Line.execAll_singleton]
      rfl

theorem opens_tested {t : Primitive} (hi : i.command? = some (.branch cond number))
    (hfits : number.all (Integer.fits 128) = true) (ht : t.isIntegral = true)
    (hforced : cond ≠ .forced)
    (hnumber : cond.takesValue = false ∨ number.any t.holds = true) (σ : Types) :
    ∃ ops, Opens F c i ops (t :: σ) σ := by
  obtain ⟨hop, hbranch⟩ := i.of_command? hi
  obtain ⟨ops, -, hops, -⟩ := condition_yields i ht t.holds_zero hforced hnumber
  refine ⟨ops, ?_, ?_⟩
  · intro s outer htypes
    rw [step, hop]
    show openBranch c i s = _
    simp only [openBranch, i.condition_of_branch? hbranch hfits, reading, ok_bind,
      if_neg hforced, pop_eq htypes, valueType_of_isIntegral c.name ht, hops]
    simp [State.opened]
  · intro _ vs outer s _ htypes h
    obtain ⟨x, vs, rfl, rfl, rfl⟩ := map_eq_cons_iff.1 htypes
    -- the instructions are the same for all values
    obtain ⟨ops', v, hops', hyields, hv⟩ :=
      condition_yields i ht (h.values x mem_cons_self).2 hforced hnumber
    obtain rfl : ops = ops' := Except.ok.inj (hops.symm.trans hops')
    refine ⟨_, v, vs, rfl, subset_cons_self x vs, hv, ?_, ?_⟩
    · have hgiven : cond.takesValue = false ∨ number.isSome = true := by
        apply hnumber.imp_right
        intro hany
        obtain ⟨_, rfl, -⟩ := (Option.any_eq_true _ _).1 hany
        rfl
      rw [Machine.step_running hi, cons_append, Command.perform, integers_holds F s hgiven]
      · rfl
      · intro hsame
        exact hforced hsame
    · exact hyields.execAll h.stack

end

/-! ## Conditionals as a whole -/

section

variable {c : Context} {i o e : Instruction} {ops : List Op} {σ below : Types}
  {body alternative : Code}

theorem passes_endBranch (he : e.command? = some .endBranch) : Passes F c.program c.method [e] := by
  intro _ _
  rw [Machine.run_singleton, Machine.step_running he]
  rfl

/-- A skipping machine goes on behind a part that is not chosen. -/
theorem run_skipped {control : Control Int} {code : Code}
    (hskips : Machine.Skips (integers F) c.program c.method code control)
    (hcontrol : control.isSkipping = true) (he : e.opcode.skim control = .running)
    (rest : Code) (vs : List (Primitive × Int)) (s : Store Int W) :
    Machine.run (integers F) c.program c.method (code ++ e :: rest) ⟨vs, s, control⟩ =
      Machine.run (integers F) c.program c.method rest ⟨vs, s, .running⟩ := by
  rw [Machine.run_append, hskips, ok_bind, Machine.run_cons,
    Machine.step_skipping hcontrol he, ok_bind]

section

variable (h : Opens F c i ops σ below)
  (hskips : Machine.Skips (integers F) c.program c.method body (.toOtherwise 0))
include h hskips

/-- A branch leads to what the chosen part does, if nothing else is done behind the parts. -/
theorem Opens.simulates {S : List (ValueType × Nat)} {ending : Code} {line : Line Op}
    {yes no : Body} (hline : Line.exec (hostOf F) (resultOf c.method.returnType) line =
      Line.exec (hostOf F) (resultOf c.method.returnType) (.ifElse yes no))
    (hyes : Simulates F c.program c.method S [] body yes [])
    (hno : Simulates F c.program c.method S [] alternative no [])
    (hskim : o.opcode.skim (.toOtherwise 0 : Control Int) = .running)
    (hrest : Passes F c.program c.method (o :: (alternative ++ ending)))
    (hending : Passes F c.program c.method ending) :
    Simulates F c.program c.method S σ (i :: (body ++ o :: (alternative ++ ending)))
      (ops.map .op ++ [line]) below := by
  intro locals vs outer s d hfits hvs hrelated
  obtain ⟨truth, _, _, rfl, hsub, hv, hstep, hexec⟩ := h.tested locals vs outer s d hvs hrelated
  have hrelated := hrelated.restack fun x hx => hrelated.values x (hsub hx)
  rw [Machine.run_cons, hstep, ok_bind, Line.execAll_append, hexec, ok_bind,
    Line.execAll_singleton, hline, Line.exec_ifElse rfl hv]
  cases truth with
  | true =>
    rw [if_pos rfl, Machine.run_append]
    exact (hyes.block hfits hrelated).followed hrest
  | false =>
    rw [if_neg Bool.noConfusion, run_skipped hskips rfl hskim, Machine.run_append]
    exact (hno.block hfits hrelated).followed hending

variable (hbody : Compiles F c [] body [])
include hbody

theorem Compiles.ifThen (he : e.command? = some .endBranch) :
    Compiles F c σ (i :: (body ++ [e])) below := by
  have hend := e.opcode_of_command? he
  intro s outer htypes hnumbered
  obtain ⟨lines, S, hsteps, hsub, hS, hsimulates⟩ :=
    hbody ((s.advance (ops.map .op) (below ++ outer) s.scratch).opened {}) (below ++ outer) rfl
      hnumbered
  refine ⟨ops.map .op ++ [.ifThen lines], S, ?_, hsub, hS, ?_⟩
  · rw [steps_cons, h.compiled s outer htypes, ok_bind, steps_append, hsteps, ok_bind,
      steps_singleton, step_endBranch he, State.advance_opened, endBranch_opened]
    simp [OpenBranch.addAll, OpenBranch.close]
  · exact h.simulates hskips (by rfl) hsimulates (simulates_nil []) (by rw [hend]; rfl)
      (passes_endBranch he) fun _ _ => rfl

theorem Compiles.ifElse (ho : o.command? = some .otherwise)
    (halt : Compiles F c [] alternative [])
    (hskips' : Machine.Skips (integers F) c.program c.method alternative (.toEnd 0))
    (he : e.command? = some .endBranch) :
    Compiles F c σ (i :: (body ++ o :: (alternative ++ [e]))) below := by
  have hother := o.opcode_of_command? ho
  have hend := e.opcode_of_command? he
  intro s outer htypes hnumbered
  obtain ⟨yes, S, hsteps, hsub, hS, hsimulates⟩ :=
    hbody ((s.advance (ops.map .op) (below ++ outer) s.scratch).opened {}) (below ++ outer) rfl
      hnumbered
  obtain ⟨no, R, hsteps', hsub', hR, hsimulates'⟩ :=
    halt ((s.advance (ops.map .op) (below ++ outer) S).opened
      { body := yes, alternative := some [] }) (below ++ outer) rfl hS
  refine ⟨ops.map .op ++ [.ifElse yes no], R, ?_, List.Subset.trans hsub hsub', hR, ?_⟩
  · rw [steps_cons, h.compiled s outer htypes, ok_bind, steps_append, hsteps, ok_bind,
      steps_cons, step_otherwise ho, State.advance_opened]
    show otherwise c (State.opened _ { body := yes }) >>= _ = _
    rw [otherwise_opened, ok_bind, steps_append, State.advance_advance, append_nil,
      nil_append, hsteps', ok_bind, steps_singleton, step_endBranch he,
      State.advance_opened, endBranch_opened]
    simp [OpenBranch.addAll, OpenBranch.close]
  · refine h.simulates hskips rfl (fun locals vs outer s d hfits =>
      hsimulates locals vs outer s d (hfits.mono hsub')) hsimulates' (by rw [hother]; rfl) ?_
      (passes_endBranch he)
    intro vs s
    rw [Machine.run_cons, Machine.step_running ho]
    exact run_skipped hskips' rfl (by rw [hend]; rfl) [] vs s

end

end

end ScriptCompiler.Wat
