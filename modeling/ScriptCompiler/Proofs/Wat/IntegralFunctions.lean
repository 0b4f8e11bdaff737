import ScriptCompiler.Proofs.Wat.Conditionals

/-!
# Functions run as their code

A method over truth values and integers of at most 64 bits, with well typed and structured code, is
compiled to a function that ends as the code does on the stack machine (`Ends`). Code that ends
without a return needs a word: a function with a result traps there, and one without a result is
stuck if values are left on the stack.
-/

set_option autoImplicit false

namespace ScriptCompiler.Wat

open List Option

variable {W : Type} {F : Functions W}

/-! ## Code -/

section

variable {c : Context} {i : Instruction} {σ τ : Types}

theorem compiles_nil (σ : Types) : Compiles F c σ [] σ := by
  intro s _ htypes hnumbered
  refine ⟨[], s.scratch, ?_, List.Subset.refl _, hnumbered, simulates_nil σ⟩
  rw [← htypes, ← s.eq_advance]
  rfl

/-- A command that is well typed is compiled, and what it leaves are integers again. -/
theorem compiles_command {cmd : Command} (hm : c.method.Integral c.program)
    (hi : i.command? = some cmd) (hmark : cmd.isMark = false)
    (hstep : cmd.integralStep c.program c.method σ = some τ)
    (hσ : ∀ t ∈ σ, t.isIntegral = true) (hcalls : F.DeclaresCalls c.program [i]) :
    Compiles F c σ [i] τ ∧ ∀ t ∈ τ, t.isIntegral = true := by
  obtain ⟨hint, hretype⟩ := Command.retype_of_integralStep hmark hstep
  cases cmd with
  | nop =>
    cases hretype
    exact ⟨compiles_nop hi σ, hσ⟩
  | constant =>
    cases hretype
    obtain ⟨ht, hreads⟩ := Bool.and_eq_true_iff.1 hint
    exact ⟨compiles_constant hi ht hreads σ, forall_mem_cons.2 ⟨ht, hσ⟩⟩
  | get =>
    obtain ⟨t, ht, rfl⟩ := map_eq_some_iff.1 hretype
    have hslot := hm.slot ht
    exact ⟨compiles_get hi hint ht hslot σ, forall_mem_cons.2 ⟨hslot, hσ⟩⟩
  | set =>
    cases σ with
    | nil => cases hretype
    | cons =>
      obtain ⟨ht, hsame⟩ := ite_none_right_eq_some.1 hretype
      cases hsame
      exact ⟨compiles_set hi hint ht τ, (forall_mem_cons.1 hσ).2⟩
  | operate =>
    rcases σ with _ | ⟨_, _ | ⟨_, σ⟩⟩
    · cases hretype
    · cases hretype
    · obtain ⟨⟨rfl, rfl⟩, hsame⟩ := ite_none_right_eq_some.1 hretype
      cases hsame
      obtain ⟨ht, hop⟩ := Bool.and_eq_true_iff.1 hint
      refine ⟨compiles_operate hi ht hop σ, forall_mem_cons.2 ⟨?_, ?_⟩⟩
      · split
        · rfl
        · exact ht
      · exact (forall_mem_cons.1 (forall_mem_cons.1 hσ).2).2
  | convert target =>
    cases σ with
    | nil => cases hretype
    | cons _ σ =>
      obtain ⟨hsource, hrest⟩ := forall_mem_cons.1 hσ
      have htarget : target.isIntegral = true := hint
      obtain ⟨-, hsame⟩ := ite_none_left_eq_some.1 hretype
      cases hsame
      exact ⟨compiles_convert hi hsource htarget σ, forall_mem_cons.2 ⟨htarget, hrest⟩⟩
  | call result target =>
    obtain ⟨_, hcallee, hcheck⟩ := (Option.any_eq_true _ _).1 hint
    rw [Bool.and_eq_true, Bool.and_eq_true, beq_iff_eq] at hcheck
    obtain ⟨⟨hret, hres⟩, -⟩ := hcheck
    obtain ⟨_, rest, hparams, rfl, rfl⟩ := Command.exists_of_retype_call hretype
    have hdeclares := hcalls i mem_cons_self result target hi
    have hrest := (forall_mem_append.1 hσ).2
    refine ⟨compiles_call hi hcallee hret hres hparams hdeclares rest, ?_⟩
    by_cases hvoid : result = .void
    · rw [if_pos hvoid]
      exact hrest
    · rw [if_neg hvoid]
      have hvalue := Primitive.isIntegral_of_isIntegralResult hres hvoid
      exact forall_mem_cons.2 ⟨hvalue, hrest⟩
  | ret =>
    by_cases hvoid : c.method.returnType = .void
    · have hsame : some σ = some τ := (if_pos hvoid).symm.trans hretype
      cases hsame
      exact ⟨compiles_ret_void hi hvoid σ, hσ⟩
    · have htyped := (if_neg hvoid).symm.trans hretype
      cases σ with
      | nil => cases htyped
      | cons =>
        obtain ⟨rfl, hsame⟩ := ite_none_right_eq_some.1 htyped
        cases hsame
        exact ⟨compiles_ret_value hi hvoid τ, (forall_mem_cons.1 hσ).2⟩
  | pop =>
    cases σ with
    | nil => cases hretype
    | cons =>
      cases hretype
      exact ⟨compiles_pop hi τ, (forall_mem_cons.1 hσ).2⟩
  | branch | otherwise | endBranch => cases hmark

/-- A branch that is well typed is compiled, and what lies below its operand are integers. -/
theorem opens_branch {cond : Condition} {number : Option Int} {below : Types}
    (hi : i.command? = some (.branch cond number))
    (hstep : (Command.branch cond number).integralStep c.program c.method σ = some below)
    (hσ : ∀ t ∈ σ, t.isIntegral = true) :
    (∃ ops, Opens F c i ops σ below) ∧ ∀ t ∈ below, t.isIntegral = true := by
  obtain ⟨hfits, hbelow⟩ := ite_none_right_eq_some.1 hstep
  by_cases hforced : cond = .forced
  · subst hforced
    cases hbelow
    exact ⟨⟨_, opens_forced hi hfits σ⟩, hσ⟩
  · obtain ⟨t, rfl, hnumber⟩ := Command.exists_of_integralStep_branch hforced hstep
    obtain ⟨ht, hrest⟩ := forall_mem_cons.1 hσ
    exact ⟨opens_tested hi hfits ht hforced hnumber below, hrest⟩

/-- Structured code is compiled as a whole. -/
theorem Structured.compiles {code : Code} (hm : c.method.Integral c.program)
    (h : Structured (Command.integralStep c.program c.method) σ code τ)
    (hσ : ∀ t ∈ σ, t.isIntegral = true) (hcalls : F.DeclaresCalls c.program code) :
    Compiles F c σ code τ := by
  induction h with
  | nil => exact compiles_nil _
  | @cons i cmd σ τ υ rest hi hmark hstep _ ih =>
    obtain ⟨hone, hmore⟩ := forall_mem_cons.1 hcalls
    obtain ⟨hcmd, hτ⟩ :=
      compiles_command hm hi hmark hstep hσ (forall_mem_singleton.2 hone)
    exact hcmd.append (ih hτ hmore)
  | @ifThen i e cond number σ below υ body rest hi hstep hbody he _ ihbody ihrest =>
    obtain ⟨⟨ops, hopens⟩, hbelow⟩ := opens_branch hi hstep hσ
    obtain ⟨hinside, houtside⟩ := forall_mem_append.1 (forall_mem_cons.1 hcalls).2
    have hpart := ihbody (by simp) hinside
    have hrest := ihrest hbelow (forall_mem_cons.1 houtside).2
    have hwhole := (Compiles.ifThen hopens (Nested.skips (hbody.nest []) rfl) hpart he).append hrest
    simpa using hwhole
  | @ifElse i o e cond number σ below υ body alt rest hi hstep hbody ho halt he _
      ihbody ihalternative ihrest =>
    obtain ⟨⟨ops, hopens⟩, hbelow⟩ := opens_branch hi hstep hσ
    obtain ⟨hinside, houtside⟩ := forall_mem_append.1 hcalls
    obtain ⟨hfirst, hsecond⟩ := forall_mem_append.1 (forall_mem_cons.1 hinside).2
    have hpart := ihbody (by simp) hfirst
    have hother := ihalternative (by simp) (forall_mem_cons.1 hsecond).2
    have hrest := ihrest hbelow (forall_mem_cons.1 houtside).2
    have hwhole := (Compiles.ifElse hopens (Nested.skips (hbody.nest []) rfl) hpart ho hother
      (Nested.skips (halt.nest []) rfl) he).append hrest
    simpa using hwhole

end

/-! ## Functions -/

section

variable {m : Method} {S : List (ValueType × Nat)}

/-- The types of the locals of a function: parameters, locals, pairs of scratch locals. -/
def localTypes (m : Method) (S : List (ValueType × Nat)) : List ValueType :=
  m.parameterTypes.map .ofIntegral ++ (m.locals.map .ofIntegral ++ S.flatMap fun e => [e.1, e.1])

theorem fits_localTypes (h : Numbered m S) : Fits m (localTypes m S) S := by
  rw [localTypes, ← append_assoc]
  exact fits_append (by simp [slotCount, Method.parameterTypes]) h

variable {args : List Int}

theorem map_type_encode {types : Types} (h : args.length = types.length) :
    (List.zipWith Value.encode types args).map Value.type = types.map .ofIntegral := by
  induction types generalizing args with
  | nil => rfl
  | cons _ _ ih =>
    obtain ⟨_, _, rfl⟩ := exists_cons_of_length_eq_add_one h
    rw [zipWith_cons_cons, map_cons, map_cons, ih (Nat.succ.inj h)]
    rfl

/-- Both sides are related on entry. -/
theorem related_entry {p : Program} (hm : m.Integral p) (world : W)
    (hargs : m.accepts args = true) : Related m (localTypes m S) [] (Method.entry args world)
      { stack := []
        locals := List.zipWith Value.encode m.parameterTypes args ++
          (m.locals.map ValueType.ofIntegral ++ S.flatMap fun e => [e.1, e.1]).map (Value.ofInt · 0)
        world } := by
  have hcount := m.length_of_accepts hargs
  have hlen : (List.zipWith Value.encode m.parameterTypes args).length =
      m.parameters.length := by
    rw [length_zipWith, hcount, Nat.min_self, Method.parameterTypes, length_map]
  refine ⟨⟨?_, rfl, rfl⟩, by simp, rfl, ?_⟩
  · intro index t ht
    obtain ⟨_, _⟩ := slotOf_bounds ht
    have hint := hm.slot ht
    unfold Method.localType? at ht
    by_cases hneg : index < 0
    · rw [if_pos hneg] at ht
      obtain ⟨n, hn, hholds⟩ := Method.exists_argument hargs ht
      have hvalue : (Method.entry args world).locals index = n := by
        simp only [Method.entry, if_pos hneg, hn, getD_some]
      have hslot : slotOf m index = (-index - 1).toNat := if_pos hneg
      rw [hvalue]
      refine ⟨hholds, ?_⟩
      rw [getElem?_append_left (by omega), hslot, getElem?_zipWith, ht, hn]
    · rw [if_neg hneg] at ht
      have hvalue : (Method.entry args world).locals index = 0 := if_neg hneg
      have hslot : slotOf m index = m.parameters.length + index.toNat := if_neg hneg
      rw [hvalue]
      refine ⟨t.holds_zero, ?_⟩
      rw [hslot, ← hlen, getElem?_append_right (Nat.le_add_right _ _), Nat.add_sub_cancel_left,
        map_append, getElem?_append_left, List.map_map, getElem?_map, ht,
        Value.encode_eq_ofInt hint t.holds_zero]
      · rfl
      · simpa using (List.getElem?_eq_some_iff.1 ht).1
  · rw [map_append, map_type_encode hcount, List.map_map, localTypes]
    exact congrArg _ (List.map_id _)

end

/-- Whether a function ends as the code of a method does, with what the store holds: with the returned
value, or without one. If the code comes to its end without a return, a function with a result
traps, and one without a result has to leave nothing on its stack. -/
def Ends (m : Method) (r : Except (Stop Int W) (Machine Int W)) (r' : Except (End W) (Config W)) :
    Prop :=
  ∃ k c, r = .ok k ∧ Stored m k.store c ∧
    match k.control with
    | .returned v => (∀ n ∈ v, m.returnType.holds n = true) ∧
      r' = .error (.returned (v.map (.encode m.returnType)) c)
    | .running => r' = if m.returnType ≠ .void then .error (.trapped c)
      else if k.stack = [] then .ok c else .error .stuck
    | _ => False

/-- A body that should return a value and does not traps. -/
theorem execAll_closeBody (H : String → Option (Host W)) (result : Option ValueType)
    (lines : Body) (c : Config W) : Line.execAll H result (closeBody result lines) c =
      Line.execAll H result lines c >>= fun d =>
        if result.isSome then .error (.trapped d) else .ok d := by
  unfold closeBody
  cases result with
  | none =>
    show Line.execAll H none lines c = _
    cases Line.execAll H none lines c <;> rfl
  | some t =>
    cases hlast : lines.getLast?.any (Line.isOp .ret) with
    | false => exact Line.execAll_append lines [.op .unreachable] c
    | true =>
      -- behind a return there is no way to the end
      obtain ⟨front, rfl⟩ := exists_of_getLast?_ret hlast
      show Line.execAll H (some t) (front ++ [.op .ret]) c = _
      cases hend : Line.execAll H (some t) (front ++ [.op .ret]) c with
      | error => rfl
      | ok => exact absurd hend Line.execAll_ne_ok_of_ret

theorem Mirrors.ends {m : Method} {locals : List ValueType} {types : Types}
    {H : String → Option (Host W)} {lines : Body} {c : Config W}
    {r : Except (Stop Int W) (Machine Int W)}
    (h : Mirrors m locals types [] r (Line.execAll H (resultOf m.returnType) lines c))
    (hr : ∀ s, r ≠ .error (.trapped s)) :
    Ends m r (Line.execAll H (resultOf m.returnType) (closeBody (resultOf m.returnType) lines) c >>=
      fun d => d.leave (resultOf m.returnType)) := by
  rw [execAll_closeBody]
  generalize Line.execAll H (resultOf m.returnType) lines c = r' at h ⊢
  cases h with
  | returned hv h => exact ⟨_, _, rfl, h, hv, rfl⟩
  | trapped => exact absurd rfl (hr _)
  | @fell σ s d _ h =>
    refine ⟨_, _, rfl, h.toStored, ?_⟩
    show _ = if m.returnType ≠ .void then _ else if σ ++ [] = [] then _ else _
    unfold resultOf
    by_cases hvoid : m.returnType = .void
    · rw [if_pos hvoid, if_neg (not_not_intro hvoid)]
      show d.leave none = _
      rw [Config.leave, h.stack]
      cases σ <;> rfl
    · rw [if_neg hvoid, if_pos hvoid]
      rfl

section

variable {p : Program} {m : Method} {loadString : Option String} {memory : Memory} (method : String)

theorem valueTypes_of_isIntegral {types : Types} (h : ∀ t ∈ types, t.isIntegral = true) :
    valueTypes method types = .ok (types.map .ofIntegral) := by
  induction types with
  | nil => rfl
  | cons _ _ ih =>
    obtain ⟨ht, hrest⟩ := forall_mem_cons.1 h
    rw [valueTypes, valueType_of_isIntegral method ht, ok_bind, ih hrest]
    rfl

theorem resultType_of_isIntegralResult {t : Primitive} (h : t.isIntegralResult = true) :
    resultType method t = .ok (resultOf t) := by
  unfold resultType resultOf
  by_cases hvoid : t = .void
  · rw [if_pos hvoid, if_pos hvoid]
  · have ht := Primitive.isIntegral_of_isIntegralResult h hvoid
    rw [if_neg hvoid, if_neg hvoid, valueType_of_isIntegral method ht]
    rfl

theorem compileFunction_eq {lines : Body} {τ : Types} {S : List (ValueType × Nat)}
    (hm : m.Integral p)
    (hsteps : steps ⟨p, m, (p.referenceOf m).text, loadString⟩ m.code { memory } =
      .ok (State.advance { memory } lines τ S)) : compileFunction p loadString m memory = .ok ({
      name := (p.referenceOf m).flatName
      parameters := (m.parameters.map (·.name)).zip (m.parameterTypes.map .ofIntegral)
      result := resultOf m.returnType
      locals := m.locals.map .ofIntegral ++ S.flatMap fun e => [e.1, e.1]
      body := closeBody (resultOf m.returnType) lines }, memory) := by
  simp only [compileFunction, valueTypes_of_isIntegral _ (List.all_eq_true.1 hm.parameters),
    valueTypes_of_isIntegral _ (List.all_eq_true.1 hm.locals),
    resultType_of_isIntegralResult _ hm.result, ok_bind, hsteps]
  rfl

end

/-- A method over truth values and integers is compiled to a function that runs as its code, as long as
every division has a quotient. -/
theorem integral_functions_run_as_code (F : Functions W) (p : Program) (m : Method)
    (loadString : Option String) (memory : Memory) (hm : m.Integral p)
    (hcalls : F.DeclaresCalls p m.code) :
    ∃ f, compileFunction p loadString m memory = .ok (f, memory) ∧
      ∀ (args : List Int) (world : W), m.accepts args = true →
        ¬Machine.LacksQuotient F p m m.code ⟨[], Method.entry args world, .running⟩ →
        Ends m (Machine.run (integers F) p m m.code ⟨[], Method.entry args world, .running⟩)
          (f.run (hostOf F) (List.zipWith Value.encode m.parameterTypes args) world) := by
  obtain ⟨τ, hτ⟩ := Option.isSome_iff_exists.1 hm.code
  have hcompiles := @Structured.compiles W F ⟨p, m, (p.referenceOf m).text, loadString⟩ [] τ m.code hm
    (structured_of_leavesTypes? hτ) (by simp) hcalls
  obtain ⟨_, S, hsteps, -, hS, hsimulates⟩ := hcompiles { memory } [] rfl (by simp [Numbered])
  refine ⟨_, compileFunction_eq hm hsteps, ?_⟩
  intro args world hargs hquotients
  have hmirrors := hsimulates (localTypes m S) [] [] _ _ (fits_localTypes hS) rfl
    (related_entry hm world hargs)
  have htypes : (List.zipWith Value.encode m.parameterTypes args).map Value.type =
      ((m.parameters.map (·.name)).zip (m.parameterTypes.map ValueType.ofIntegral)).map (·.2) := by
    rw [map_type_encode (m.length_of_accepts hargs), List.map_snd_zip]
    simp [Method.parameterTypes]
  rw [Function.run, if_pos htypes]
  apply hmirrors.ends
  intro s htrap
  exact hquotients ((Machine.lacksQuotient_iff hcalls _).2 ⟨s, htrap⟩)

namespace Sample

/-- A method that is called with two numbers. -/
def mix : Method where
  id := 0
  owner := 0
  script := 0
  name := ⟨["Mix"]⟩
  returnType := .i64
  parameters := [⟨"x", .i64⟩, ⟨"y", .u16⟩]
  external := true
  span := ⟨1, 1, 3⟩

/-- A method with a value on the stack below a conditional, a sum that wraps and a call. -/
def method : Method where
  id := 1
  owner := 0
  script := 0
  name := ⟨["Main"]⟩
  returnType := .i64
  parameters := [⟨"a", .i8⟩, ⟨"b", .u16⟩]
  external := false
  span := ⟨2, 1, 4⟩
  locals := [.i8]
  code :=
    [.getLocal (-1), .getLocal (-2), .branch .greater (some 5), .loadConst .i8 "100", .getLocal (-1),
      .binary .add .i8, .setLocal 0, .otherwise, .loadConst .i8 "1", .setLocal 0, .endBranch,
      .getLocal 0, .binary .sub .i8, .loadConst .i8 "-45", .binary .rem .i8, .convert .i64,
      .getLocal (-2), .call .i64 ⟨["App"], ["Mix"], [.i64, .u16]⟩, .ret]

/-- A method that comes to its end without the value that it should return. -/
def unreturned : Method where
  id := 2
  owner := 0
  script := 0
  name := ⟨["F"]⟩
  returnType := .i32
  parameters := []
  external := false
  span := ⟨3, 1, 1⟩
  code := [.nop]

/-- A method that returns nothing and leaves a value on the stack. -/
def leaving : Method :=
  { unreturned with id := 3, name := ⟨["G"]⟩, returnType := .void, code := [.loadConst .i32 "5"] }

/-- A namespace with these methods. -/
def program : Program where
  namespaces := [{ id := 0, name := .explicit ⟨["App"]⟩, script := 0, methods := [0, 1, 2, 3] }]
  methods := [mix, method, unreturned, leaving]

/-- A function that adds its arguments and counts its calls. -/
def functions : Functions Nat where
  signature? name := if name = "App.Mix?i64_u16" then some ([.i64, .u16], .i64) else none
  call _ args world := (args.foldl (· + ·) 0, world + 1)

/-- The machine at the start of a method. -/
def start (args : List Int) : Machine Int Nat := ⟨[], Method.entry args 0, .running⟩

end Sample

/-- The sum wraps, the difference is taken from what lies below the conditional, and the remainder has
the sign of the dividend. -/
theorem sample_function_runs_as_code : Sample.method.Integral Sample.program ∧
    Sample.functions.DeclaresCalls Sample.program Sample.method.code ∧
    Sample.method.accepts [30, 1000] = true ∧
    ¬Machine.LacksQuotient Sample.functions Sample.program Sample.method Sample.method.code
      (Sample.start [30, 1000]) ∧
    ∃ f c, compileFunction Sample.program none Sample.method {} = .ok (f, {}) ∧
      f.run (hostOf Sample.functions) [.ofInt .i32 30, .ofInt .i32 1000] 0 =
        .error (.returned (some (.ofInt .i64 955)) c) ∧
      c.locals[2]? = some (.ofInt .i32 (-126)) ∧ c.world = 1 ∧
      c.calls = [("App.Mix?i64_u16", [.ofInt .i64 (-45), .ofInt .i32 1000])] := by
  have hint : Sample.method.Integral Sample.program :=
    ⟨by decide, by decide, by decide, by decide +kernel⟩
  have hcalls : Sample.functions.DeclaresCalls Sample.program Sample.method.code := by
    have htarget : ∀ i ∈ Sample.method.code, (i.command?.any fun c => match c with
        | .call _ target => target == "App:Mix?i64_u16"
        | _ => true) = true := by decide +kernel
    intro i hi _ target hc
    have hsame := htarget i hi
    rw [hc, Option.any_some, beq_iff_eq] at hsame
    subst hsame
    exact ⟨⟨["App"], ["Mix"], [.i64, .u16]⟩, Sample.mix, by decide +kernel, by rfl, by decide +kernel⟩
  have haccepts : Sample.method.accepts [30, 1000] = true := by decide
  have hreturned : (Machine.run (integers Sample.functions) Sample.program Sample.method
      Sample.method.code (Sample.start [30, 1000])).toOption.map
        (fun k => (k.control, k.store.locals 0)) = some (.returned (some 955), -126) := by
    decide +kernel
  have hcalled : (Machine.run (integers Sample.functions) Sample.program Sample.method
      Sample.method.code (Sample.start [30, 1000])).toOption.map
        (fun k => (k.store.calls, k.store.world)) =
      some ([("App:Mix?i64_u16", [-45, 1000])], 1) := by decide +kernel
  have hquotients : ¬Machine.LacksQuotient Sample.functions Sample.program Sample.method
      Sample.method.code (Sample.start [30, 1000]) := by
    intro hlacks
    obtain ⟨_, hs⟩ := (Machine.lacksQuotient_iff hcalls _).1 hlacks
    rw [hs] at hreturned
    cases hreturned
  obtain ⟨f, hf, hall⟩ := integral_functions_run_as_code Sample.functions Sample.program Sample.method
    none {} hint hcalls
  obtain ⟨k, c, hk, hstored, hend⟩ := hall [30, 1000] 0 haccepts hquotients
  rw [Sample.start, hk] at hreturned hcalled
  obtain ⟨hcontrol, hlocal⟩ : k.control = .returned (some 955) ∧ k.store.locals 0 = -126 := by
    simpa [Except.toOption] using hreturned
  obtain ⟨hmade, hworld⟩ : k.store.calls = [("App:Mix?i64_u16", [-45, 1000])] ∧ k.store.world = 1 := by
    simpa [Except.toOption] using hcalled
  rw [hcontrol] at hend
  refine ⟨hint, hcalls, haccepts, hquotients, f, c, hf, ?_, ?_, ?_, ?_⟩
  · have hencoded : List.zipWith Value.encode Sample.method.parameterTypes [30, 1000] =
        [.ofInt .i32 30, .ofInt .i32 1000] := by decide +kernel
    have hvalue : Value.encode .i64 955 = .ofInt .i64 955 := by decide +kernel
    rw [← hencoded, ← hvalue]
    exact hend.2
  · have hvalue : Value.encode .i8 (-126) = .ofInt .i32 (-126) := by decide +kernel
    rw [← hvalue, ← hlocal]
    exact (hstored.slots 0 .i8 rfl).2
  · rw [hstored.world, hworld]
  · have hrepresented : representCall? ("App:Mix?i64_u16", [-45, 1000]) =
        some ("App.Mix?i64_u16", [.ofInt .i64 (-45), .ofInt .i32 1000]) := by decide +kernel
    have hsame := hstored.calls
    rw [hmade, List.map_singleton, hrepresented] at hsame
    obtain ⟨call, hcall, hsome⟩ := List.map_eq_singleton_iff.1 hsame.symm
    rw [hcall, Option.some.inj hsome]

/-- Whether code without arguments and without calls comes to its end, and no division on the way
lacks a quotient. -/
def Sample.FallsThrough (m : Method) : Prop :=
  m.Integral program ∧ functions.DeclaresCalls program m.code ∧ m.accepts [] = true ∧
    ¬Machine.LacksQuotient functions program m m.code (start []) ∧
    ∃ k, Machine.run (integers functions) program m m.code (start []) = .ok k ∧ k.control = .running

theorem Sample.FallsThrough.of {m : Method} (hm : m.Integral program)
    (hcalls : functions.DeclaresCalls program m.code) (haccepts : m.accepts [] = true)
    (hrun : ∃ k, Machine.run (integers functions) program m m.code (start []) = .ok k ∧
      k.control = .running) : FallsThrough m := by
  refine ⟨hm, hcalls, haccepts, fun hlacks => ?_, hrun⟩
  obtain ⟨_, hs⟩ := (Machine.lacksQuotient_iff hcalls _).1 hlacks
  obtain ⟨k, hk, -⟩ := hrun
  rw [hk] at hs
  cases hs

/-- Where code comes to its end without a return, a function with a result traps, and one without a
result is stuck with the values that the code leaves. -/
theorem fallen_functions_trap_or_stick : (Sample.FallsThrough Sample.unreturned ∧
      ∃ f, compileFunction Sample.program none Sample.unreturned {} = .ok (f, {}) ∧
        ∃ c, f.run (hostOf Sample.functions) [] 0 = .error (.trapped c)) ∧
    Sample.FallsThrough Sample.leaving ∧
      ∃ f, compileFunction Sample.program none Sample.leaving {} = .ok (f, {}) ∧
        f.run (hostOf Sample.functions) [] 0 = .error .stuck := by
  have hcalls : ∀ i : Instruction, i.opcode ≠ .call →
      Sample.functions.DeclaresCalls Sample.program [i] := by
    intro i hop _ hi _ _ hc
    obtain rfl := List.mem_singleton.1 hi
    exact absurd (Instruction.opcode_of_command? hc) hop
  refine ⟨⟨.of ⟨by decide, by decide, by decide, by decide +kernel⟩ (hcalls _ (by decide)) (by decide)
    ⟨_, rfl, rfl⟩, _, rfl, _, rfl⟩, .of ⟨by decide, by decide, by decide, by decide +kernel⟩
    (hcalls _ (by decide)) (by decide) ⟨_, rfl, rfl⟩, _, rfl, rfl⟩

end ScriptCompiler.Wat
