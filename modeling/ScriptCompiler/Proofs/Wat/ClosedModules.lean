import ScriptCompiler.Proofs.Coherence
import ScriptCompiler.Proofs.Wat.Emission
import ScriptCompiler.Proofs.Wat.FlatBodies
import ScriptCompiler.Proofs.Wat.FunctionNames

/-!
# Closed modules

Whatever the code, the functions of an emitted module refer to what the module declares. A call goes
to an imported or defined function; every local that is read or written exists. Scratch locals are
made while the body is written and declared behind it, in pairs, one for each value type. What holds
of the instructions of each command holds of the body.
-/

set_option autoImplicit false

namespace ScriptCompiler.Wat

open List Option

/-! ## Commands in order -/

variable {c : Context} {cmd : Command}

/-- A conditional is opened, divided and closed without a change to the instructions. -/
theorem arrange_ops {s s' : State} (h : arrange c cmd s = .ok s') :
    s'.ops = s.ops ∧ s'.scratch = s.scratch := by
  cases cmd with
  | branch =>
    cases h
    refine ⟨?_, rfl⟩
    rw [s.ops_opened]
    exact append_nil _
  | otherwise =>
    obtain ⟨r, _, rfl, rfl⟩ := otherwise_ok h
    refine ⟨?_, rfl⟩
    rw [r.ops_opened, r.ops_opened]
    rfl
  | endBranch =>
    obtain ⟨r, b, rfl, rfl⟩ := endBranch_ok h
    refine ⟨?_, ?_⟩
    · rw [r.ops_add, r.ops_opened, b.ops_close]
    · unfold State.add
      cases r.branches <;> rfl
  | _ =>
    cases h
    exact ⟨rfl, rfl⟩

theorem Emits.mono {S R : List (ValueType × Nat)} {σ τ : Types} {ops : List Op}
    (h : Emits c S cmd σ ops τ) (hsub : S ⊆ R) : Emits c R cmd σ ops τ := by
  cases h with
  | operate hv hfirst => exact .operate hv fun hord => hsub (hfirst hord)
  | _ => constructor <;> assumption

/-- Whether instructions are those of the command of an instruction. -/
def Stems (c : Context) (S : List (ValueType × Nat)) (i : Instruction) (ops : List Op) : Prop :=
  ∃ cmd σ τ, i.command? = some cmd ∧ Emits c S cmd σ ops τ

/-- The instructions of compiled code are those of its commands, in order. -/
theorem steps_ok {code : Code} {s s' : State} (hs : Numbered c.method s.scratch)
    (h : steps c code s = .ok s') : Numbered c.method s'.scratch ∧ s.scratch ⊆ s'.scratch ∧
      ∃ parts : List (List Op), s'.ops = s.ops ++ parts.flatten ∧
        List.Forall₂ (Stems c s'.scratch) code parts := by
  induction code generalizing s with
  | nil =>
    obtain rfl : s = s' := Except.ok.inj h
    exact ⟨hs, List.Subset.refl _, [], (append_nil _).symm, .nil⟩
  | cons _ _ ih =>
    obtain ⟨r, hr, h⟩ := of_bind h
    obtain ⟨cmd, _, hcmd, @⟨ops, τ, S, _, hops, hsub, hS⟩, harrange⟩ := step_ok hs hr
    obtain ⟨hkept, hscratch⟩ := arrange_ops harrange
    rw [State.scratch_advance] at hscratch
    rw [State.ops_advance, Line.allOps_map_op] at hkept
    obtain ⟨hs', hsub', parts, hparts, hstems⟩ := @ih r (hscratch ▸ hS) h
    rw [hscratch] at hsub'
    refine ⟨hs', List.Subset.trans hsub hsub', ops :: parts, ?_, .cons ?_ hstems⟩
    · rw [hparts, hkept, flatten_cons, append_assoc]
      rfl
    · exact ⟨cmd, _, _, hcmd, hops.mono hsub'⟩

/-! ## References of instructions -/

/-- The local that an instruction reads or writes. -/
def Op.local? : Op → Option Nat
  | .localGet k | .localSet k => some k
  | _ => none

/-- Whether an instruction refers to a function or a local. -/
def Op.refers : Op → Bool
  | .call _ | .localGet _ | .localSet _ => true
  | _ => false

theorem Op.local?_of_refers {op : Op} (h : op.refers = false) : op.local? = none := by
  cases op <;> first | rfl | cases h

/-- The functions and locals that the instructions of a command may refer to. -/
inductive Refers (c : Context) (S : List (ValueType × Nat)) : Command → Op → Prop where
  | loadString {cmd : Command} {name : String} (h : c.loadString = some name) :
      Refers c S cmd (.call name)
  | method {cmd : Command} {r : Reference} (h : (c.program.findMethod? r).isSome = true) :
      Refers c S cmd (.call r.flatName)
  | get {index : Int} {t : Primitive} (ht : c.method.localType? index = some t) :
      Refers c S (.get index) (.localGet (slotOf c.method index))
  | set {index : Int} {t : Primitive} (ht : c.method.localType? index = some t) :
      Refers c S (.set index) (.localSet (slotOf c.method index))
  | scratch {o : BinaryOp} {t : Primitive} {v : ValueType} {first : Nat} {op : Op}
      (hv : ValueType.ofPrimitive? t = some v) (hpair : (v, first) ∈ S)
      (hop : op.local? = some first ∨ op.local? = some (first + 1)) : Refers c S (.operate o t) op

section

variable {c : Context} {S : List (ValueType × Nat)} {cmd : Command} {op : Op}

theorem narrow_refers (t : Primitive) : ∀ op ∈ narrow t, op.refers = false := by
  cases t <;> simp [narrow, Op.refers]

theorem between_refers (source target : Primitive) (v w : ValueType) :
    ∀ op ∈ between source target v w, op.refers = false := by
  cases v <;> cases w <;> simp [between, Op.refers]

theorem resultOps_refers (o : BinaryOp) (t : Primitive) (v : ValueType) :
    ∀ op ∈ resultOps o t v, op.refers = false := by
  intro op hop
  rcases mem_cons.1 hop with rfl | hop
  · rfl
  · split at hop
    · exact narrow_refers t op hop
    · cases hop

variable {ops : List Op} {t : Primitive} {v : ValueType}

theorem conditionOps_refers {i : Instruction} {cond : Condition} {number : Option Int}
    (h : conditionOps i cond number t v = .ok ops) : ∀ op ∈ ops, op.refers = false := by
  unfold conditionOps at h
  split at h
  · cases h
    split <;> simp [Op.refers]
  · cases h
    split <;> simp [Op.refers]
  · cases h
    split <;> simp [Op.refers]
  · split at h
    · cases h
      simp [Op.refers]
    · cases h

/-- An operator uses its pair of scratch locals and no other. -/
theorem operateOps_refers {o : BinaryOp} {first : Nat} (hop : op ∈ operateOps o t v first) :
    op.refers = false ∨ isOrdered o.opcode = true ∧
      (op.local? = some first ∨ op.local? = some (first + 1)) := by
  unfold operateOps at hop
  by_cases hord : isOrdered o.opcode = true
  · rw [if_pos hord] at hop
    split at hop
    · simp only [realRemainder, mem_append, mem_cons, not_mem_nil, or_false] at hop
      rcases hop with (rfl | rfl) | rfl | rfl | rfl | rfl | rfl | rfl | rfl | rfl <;>
        simp [Op.local?, Op.refers, hord]
    · simp only [mem_append, mem_cons, not_mem_nil, or_false] at hop
      rcases hop with (rfl | rfl) | (rfl | rfl) | hop
      iterate 4 simp [Op.local?, hord]
      exact .inl (resultOps_refers o t v op hop)
  · rw [if_neg hord] at hop
    exact .inl (resultOps_refers o t v op hop)

/-- A conversion refers to nothing but the library method that it calls. -/
theorem conversion_refers {source target : Primitive} (h : conversion c source target = .ok ops)
    (hop : op ∈ ops) :
    op.refers = false ∨ ∃ r, (c.program.findMethod? r).isSome = true ∧ op = .call r.flatName := by
  unfold conversion at h
  by_cases hsame : source = target
  · rw [if_pos hsame] at h
    cases h
    cases hop
  · rw [if_neg hsame] at h
    by_cases htext : source = .str ∨ target = .str
    · simp only [if_pos htext] at h
      split at h
      · rename_i hfound
        cases h
        exact .inr ⟨_, hfound, mem_singleton.1 hop⟩
      · cases h
    · rw [if_neg htext] at h
      left
      split at h
      · split at h
        · cases h
          simp only [mem_cons, not_mem_nil, or_false] at hop
          rcases hop with rfl | rfl <;> rfl
        · cases h
          rcases mem_append.1 hop with hop | hop
          · exact between_refers _ _ _ _ op hop
          · exact narrow_refers _ op hop
      · cases h

/-- What an instruction refers to is named by its command. -/
theorem Emits.refers {σ τ : Types} (h : Emits c S cmd σ ops τ) (hop : op ∈ ops) :
    op.refers = false ∨ Refers c S cmd op := by
  cases h with
  | text =>
    rcases mem_cons.1 hop with rfl | hop
    · exact .inl rfl
    · obtain ⟨_, hname, rfl⟩ := List.mem_map.1 hop
      exact .inr (.loadString (mem_toList.1 hname))
  | get ht =>
    obtain rfl := mem_singleton.1 hop
    exact .inr (.get ht)
  | set ht =>
    obtain rfl := mem_singleton.1 hop
    exact .inr (.set ht)
  | operate hv hfirst =>
    rcases operateOps_refers hop with hrefers | ⟨hord, hlocal⟩
    · exact .inl hrefers
    · exact .inr (.scratch hv (hfirst hord) hlocal)
  | convert hops =>
    rcases conversion_refers hops hop with hrefers | ⟨_, hfound, rfl⟩
    · exact .inl hrefers
    · exact .inr (.method hfound)
  | call _ hcallee =>
    obtain rfl := mem_singleton.1 hop
    obtain ⟨_, hid, -⟩ := bind_eq_some_iff.1 hcallee
    exact .inr (.method (by rw [hid]; rfl))
  | tested _ _ hops => exact .inl (conditionOps_refers hops op hop)
  | otherwise | endBranch => cases hop
  | nop | truth | real | integer | forced | leave | ret | pop =>
    obtain rfl := mem_singleton.1 hop
    exact .inl rfl

end

/-! ## Locals -/

/-- Where a function keeps what an index of its method means: the index `-(j + 1)` the parameter `j`,
and the index `k` the local `k` behind the parameters. -/
inductive Addresses (m : Method) (f : Function) : Int → Nat → Prop where
  | parameter {j : Nat} {name : String} {t : Primitive} {v : ValueType}
      (hm : m.parameters[j]? = some ⟨name, t⟩) (hf : f.parameters[j]? = some (name, v))
      (hv : ValueType.ofPrimitive? t = some v) : Addresses m f (-(j + 1)) j
  | declared {k : Nat} {t : Primitive} {v : ValueType} (hm : m.locals[k]? = some t)
      (hf : f.locals[k]? = some v) (hv : ValueType.ofPrimitive? t = some v) :
      Addresses m f k (f.parameters.length + k)

/-- Whether the instructions of a command reach the locals that they should: the one that an index
means, and for an operator the scratch locals of its own type, which no index leads to. -/
def Located (m : Method) (f : Function) : Command → List Op → Prop
  | .get index, ops => ∃ slot, Addresses m f index slot ∧ ops = [.localGet slot]
  | .set index, ops => ∃ slot, Addresses m f index slot ∧ ops = [.localSet slot]
  | .operate _ t, ops => ∃ v, ValueType.ofPrimitive? t = some v ∧ ∀ op ∈ ops, ∀ k,
      op.local? = some k → f.localTypes[k]? = some v ∧ ∀ index, ¬Addresses m f index k
  | _, ops => ∀ op ∈ ops, op.local? = none

section

variable {p : Program} {m : Method} {loadString : Option String} {memory : Memory} {f : Function}
  {s : State} {index : Int} {k : Nat}

theorem Addresses.lt (h : Addresses m f index k) : k < f.localTypes.length := by
  rw [Function.localTypes, length_append, length_map]
  cases h with
  | parameter _ hf _ | declared _ hf _ =>
    obtain ⟨_, -⟩ := List.getElem?_eq_some_iff.1 hf
    omega

theorem Located.lt {ops : List Op} {op : Op} (h : Located m f cmd ops) (hop : op ∈ ops)
    (hk : op.local? = some k) : k < f.localTypes.length := by
  cases cmd with
  | get index | set index =>
    obtain ⟨slot, hslot, rfl⟩ := h
    obtain rfl := mem_singleton.1 hop
    obtain rfl : slot = k := some.inj hk
    exact hslot.lt
  | operate =>
    obtain ⟨_, -, hscratch⟩ := h
    exact (List.getElem?_eq_some_iff.1 (hscratch op hop k hk).1).1
  | _ =>
    rw [h op hop] at hk
    cases hk

namespace Compiled

section

variable (h : Compiled p loadString m memory f s)
include h

theorem length_parameters : f.parameters.length = m.parameters.length := by
  have hlen := congrArg List.length h.names
  rwa [length_map, length_map] at hlen

theorem addresses {t : Primitive} (ht : m.localType? index = some t) :
    Addresses m f index (slotOf m index) := by
  unfold Method.localType? at ht
  unfold slotOf
  by_cases hi : index < 0
  · rw [if_pos hi] at ht ⊢
    generalize hj : (-index - 1).toNat = j at ht ⊢
    obtain rfl : index = -((j : Int) + 1) := by omega
    rw [Method.parameterTypes, getElem?_map, map_eq_some_iff] at ht
    obtain ⟨⟨_, t⟩, hm, rfl⟩ := ht
    obtain ⟨hlt, -⟩ := List.getElem?_eq_some_iff.1 hm
    obtain ⟨⟨name', v⟩, hf⟩ : ∃ r, f.parameters[j]? = some r :=
      ⟨_, getElem?_eq_getElem (h.length_parameters ▸ hlt)⟩
    have hname := congrArg (·[j]?) h.names
    have htype := congrArg (·[j]?) h.parameters
    simp only [Method.parameterTypes, getElem?_map, hm, hf, map_some,
      Option.some.injEq] at hname htype
    exact .parameter hm (hname ▸ hf) htype
  · rw [if_neg hi] at ht ⊢
    generalize hk : index.toNat = k at ht ⊢
    obtain rfl : index = k := by omega
    obtain ⟨locals, hlocals, hf⟩ := h.locals
    have htype := congrArg (·[k]?) hlocals
    simp only [getElem?_map, ht, map_some] at htype
    obtain ⟨v, hv, hsome⟩ := map_eq_some_iff.1 htype.symm
    obtain ⟨hlt, -⟩ := List.getElem?_eq_some_iff.1 hv
    rw [← h.length_parameters]
    refine .declared ht ?_ hsome.symm
    rw [hf, getElem?_append_left hlt, hv]

/-- An index leads to nothing behind the parameters and locals. -/
theorem lt_slotCount (hk : Addresses m f index k) : k < slotCount m := by
  unfold slotCount
  cases hk with
  | @parameter j name t v hm hf hv =>
    obtain ⟨hlt, -⟩ := List.getElem?_eq_some_iff.1 hm
    omega
  | @declared k t v hm hf hv =>
    obtain ⟨hlt, -⟩ := List.getElem?_eq_some_iff.1 hm
    rw [h.length_parameters]
    omega

theorem located (hs : Numbered m s.scratch) (hc : c.method = m) {σ τ : Types}
    {ops : List Op} (hops : Emits c s.scratch cmd σ ops τ) : Located m f cmd ops := by
  subst hc
  cases cmd with
  | get =>
    cases hops with
    | get ht => exact ⟨_, h.addresses ht, rfl⟩
  | set =>
    cases hops with
    | set ht => exact ⟨_, h.addresses ht, rfl⟩
  | operate =>
    cases hops with
    | @operate _ _ _ _ v _ first hv hfirst =>
      refine ⟨v, hv, ?_⟩
      intro op hop _ hk
      rcases operateOps_refers hop with hrefers | ⟨hord, hlocal⟩
      · rw [Op.local?_of_refers hrefers] at hk
        cases hk
      · obtain ⟨hslots, hleft, hright⟩ := h.fits hs _ (hfirst hord)
        rw [hk, Option.some.injEq, Option.some.injEq] at hlocal
        refine ⟨?_, ?_⟩
        · rcases hlocal with rfl | rfl
          · exact hleft
          · exact hright
        · intro _ hindex
          have hlt := h.lt_slotCount hindex
          have hbehind : slotCount c.method ≤ first := hslots
          omega
  | _ =>
    intro op hop
    rcases hops.refers hop with hrefers | hrefers
    · exact Op.local?_of_refers hrefers
    · cases hrefers <;> rfl

end

end Compiled

end

/-! ## Functions and modules -/

/-- Whether a function refers only to functions of these names and to its own locals, and to each
local as the code of its method means it. -/
structure Function.Closed (declared : List String) (m : Method) (f : Function) : Prop where
  calls : ∀ name, .call name ∈ Line.allOps f.body → name ∈ declared
  bounds : ∀ op ∈ Line.allOps f.body, ∀ k, op.local? = some k →
    k < f.parameters.length + f.locals.length
  /-- The instructions of the code in order, and behind them at most a trap. -/
  located : ∃ (parts : List (List Op)) (closing : List Op),
    Line.allOps f.body = parts.flatten ++ closing ∧ (closing = [] ∨ closing = [.unreachable]) ∧
    List.Forall₂ (fun i ops => ∃ cmd, i.command? = some cmd ∧ Located m f cmd ops) m.code
      parts

section

variable {d : SignatureHash.Digest} {p : Program} {m : Method} {memory : Memory} {f : Function}
  {s : State}

theorem exists_of_mem_flatten {R : Instruction → List Op → Prop} {code : Code}
    {parts : List (List Op)} {op : Op} (h : List.Forall₂ R code parts) (hop : op ∈ parts.flatten) :
    ∃ i ops, R i ops ∧ op ∈ ops := by
  induction h with
  | nil => cases hop
  | cons hi _ ih =>
    rcases mem_append.1 hop with hop | hop
    · exact ⟨_, _, hi, hop⟩
    · exact ih hop

variable {name : String}

/-- The function that loads text belongs to a method. -/
theorem exists_of_loadString? (h : loadString? p = some name) :
    ∃ m ∈ p.methods, p.functionName m = name := by
  obtain ⟨_, -, h⟩ := bind_eq_some_iff.1 h
  obtain ⟨m, hm, h⟩ := bind_eq_some_iff.1 h
  obtain ⟨-, hname⟩ := ite_none_right_eq_some.1 h
  exact ⟨m, mem_of_getElem? hm, some.inj hname⟩

theorem exists_of_refers {S : List (ValueType × Nat)} (hp : c.program.Registered d)
    (hload : c.loadString = loadString? c.program) (h : Refers c S cmd (.call name)) :
    ∃ m ∈ c.program.methods, c.program.functionName m = name := by
  cases h with
  | loadString hname => exact exists_of_loadString? (hload.symm.trans hname)
  | @method _ r hfound =>
    obtain ⟨_, hid⟩ := isSome_iff_exists.1 hfound
    obtain ⟨m, hm, href⟩ := hp.referenceOf_of_findMethod? hid
    refine ⟨m, mem_of_getElem? hm, ?_⟩
    rw [Program.functionName, href]
  | scratch _ _ hop => rcases hop with hop | hop <;> cases hop

/-- The functions of all methods are imported or defined. -/
theorem mem_declared {functions : List Function}
    (h : functions.map (·.name) = (p.methods.filter fun m => !m.external).map p.functionName)
    (hm : m ∈ p.methods) : p.functionName m ∈
      (p.methods.filter (·.external)).map p.functionName ++ functions.map (·.name) := by
  rw [h, ← map_append]
  apply List.mem_map_of_mem
  cases hexternal : m.external with
  | true => exact mem_append_left _ (mem_filter.2 ⟨hm, hexternal⟩)
  | false => exact mem_append_right _ (mem_filter.2 ⟨hm, by rw [hexternal]; rfl⟩)

theorem allOps_closeBody (result : Option ValueType) (lines : Body) :
    ∃ closing, Line.allOps (closeBody result lines) = Line.allOps lines ++ closing ∧
      (closing = [] ∨ closing = [.unreachable]) := by
  unfold closeBody
  split
  · exact ⟨[.unreachable], Line.allOps_append lines _, .inr rfl⟩
  · exact ⟨[], (append_nil _).symm, .inl rfl⟩

/-- A compiled function is closed. -/
theorem closed_of_compiled (hp : p.Registered d) (h : Compiled p (loadString? p) m memory f s)
    {declared : List String} (hdeclared : ∀ m ∈ p.methods, p.functionName m ∈ declared) :
    f.Closed declared m := by
  obtain ⟨hs, -, parts, hparts, hstems⟩ := steps_ok (by simp [Numbered]) h.code
  obtain ⟨closing, hbody, hclosing⟩ := allOps_closeBody f.result s.body
  have hops : Line.allOps f.body = parts.flatten ++ closing := by
    have hsame : s.ops = Line.allOps s.body := by
      rw [State.ops, h.closed]
      exact append_nil _
    rw [h.body, hbody, ← hsame, hparts]
    rfl
  have hlocated : List.Forall₂
      (fun i ops => ∃ cmd, i.command? = some cmd ∧ Located m f cmd ops) m.code parts := by
    refine hstems.imp ?_
    rintro i ops ⟨cmd, σ, τ, hcmd, hemits⟩
    exact ⟨cmd, hcmd, h.located hs rfl hemits⟩
  -- what is behind the code refers to nothing
  have htrap : ∀ op ∈ closing, op.refers = false := by
    rcases hclosing with rfl | rfl <;> simp [Op.refers]
  refine ⟨?_, ?_, parts, closing, hops, hclosing, hlocated⟩
  · intro _ hname
    rw [hops] at hname
    rcases mem_append.1 hname with hname | hname
    · obtain ⟨i, ops, ⟨cmd, σ, τ, -, hemits⟩, hmem⟩ := exists_of_mem_flatten hstems hname
      rcases hemits.refers hmem with hrefers | hrefers
      · cases hrefers
      · obtain ⟨callee, hcallee, rfl⟩ := exists_of_refers hp rfl hrefers
        exact hdeclared callee hcallee
    · cases htrap _ hname
  · intro op hop _ hk
    rw [hops] at hop
    rcases mem_append.1 hop with hop | hop
    · obtain ⟨i, ops, ⟨cmd, -, hpart⟩, hmem⟩ := exists_of_mem_flatten hlocated hop
      have hlt := hpart.lt hmem hk
      rwa [Function.localTypes, length_append, length_map] at hlt
    · rw [Op.local?_of_refers (htrap op hop)] at hk
      cases hk

/-- Modules are closed: every function is compiled from a method and refers only to functions that the
module imports or defines and to its own locals, as its method means them. -/
theorem emitted_modules_closed (hreach : p.Reachable d) {o : Options} {text : String}
    (h : emit o p = .ok text) :
    ∃ imports functions data, text = moduleText o imports functions data ∧
      (p.methods.filter (·.external)).mapM (importText p) = .ok imports ∧ List.Forall₂ (fun m f =>
          (∃ before after, compileFunction p (loadString? p) m before = .ok (f, after)) ∧ f.Closed
            ((p.methods.filter (·.external)).map p.functionName ++ functions.map (·.name)) m)
        (p.methods.filter fun m => !m.external) functions := by
  obtain ⟨imports, functions, data, himports, hcomp, htext⟩ := exists_compiled_of_emit h
  have hnames := names_of_compiled hcomp
  refine ⟨imports, functions, data, htext, himports, hcomp.imp ?_⟩
  rintro m f ⟨before, after, hf⟩
  obtain ⟨_, hs, -⟩ := compileFunction_ok hf
  exact ⟨⟨before, after, hf⟩,
    closed_of_compiled hreach.registered hs fun _ hm => mem_declared hnames hm⟩

end

namespace Sample

/-- Namespaces for two library methods and a program. -/
def libraryPaths : Program :=
  (((Program.empty.addNamespace ⟨["Std", "Memory"]⟩ 0).1.addNamespace ⟨["Std", "Type", "Casting"]⟩
    0).1.addNamespace ⟨["App"]⟩ 0).1

/-- The library methods that load and convert text, and `App:Main`. -/
def libraryOffers : List (NamespaceId × Program.Declaration) :=
  [(0, ⟨⟨["LoadString"]⟩, .ptr, [⟨"address", .str⟩], true, .unknown⟩),
    (1, ⟨⟨["Cast_i32"]⟩, .i32, [⟨"value", .str⟩], true, .unknown⟩),
    (2, ⟨⟨["Main"]⟩, .i32, [⟨"a", .u8⟩, ⟨"b", .f64⟩], false, .unknown⟩)]

/-- The program with these methods. -/
def library : Program :=
  libraryOffers.foldl (fun p offered => (p.offer SignatureHash.digest offered.1 offered.2).1) libraryPaths

/-- Code that takes a number for a float and a float for a number. -/
def strayCode : Code :=
  [.loadConst .str "7", .convert .i32, .getLocal (-2), .binary .sub .u8, .setLocal 1, .getLocal (-1),
    .getLocal 0, .binary .rem .f64, .branch .true none, .getLocal 1, .getLocal (-1), .binary .div .u32,
    .setLocal (-2), .endBranch]

/-- The program with this code. -/
def stray : Program :=
  library.updateMethod 2 fun m => { m with locals := [.i64, .f32], code := strayCode }

theorem reachable_stray : stray.Reachable SignatureHash.digest := by
  have hpaths : libraryPaths.Reachable SignatureHash.digest :=
    .addNamespace _ 0 (.addNamespace _ 0 (.addNamespace _ 0 .empty))
  have howner : ∀ offered ∈ libraryOffers, offered.1 < 3 := by simp [libraryOffers]
  have hlibrary : library.Reachable SignatureHash.digest := by
    refine (List.foldlRecOn (motive := fun p : Program =>
      p.Reachable SignatureHash.digest ∧ p.namespaces.length = 3) libraryOffers _ ⟨hpaths, rfl⟩ ?_).1
    rintro p ⟨hp, hlen⟩ offered hoffered
    refine ⟨hp.offer ?_ offered.2, ?_⟩
    · rw [hlen]
      exact howner offered hoffered
    · rw [Program.length_namespaces_offer, hlen]
  refine .work hlibrary (library.outline_updateMethod 2 ?_).symm
  exact fun _ => rfl

end Sample

/-- Code with operands of the wrong types still gets a closed function, with calls to both library
methods. -/
theorem stray_module_closed : Sample.stray.Reachable SignatureHash.digest ∧
    ∃ text m f, emit {} Sample.stray = .ok text ∧ m ∈ Sample.stray.methods ∧
      m.code = Sample.strayCode ∧ (∃ before after,
        compileFunction Sample.stray (loadString? Sample.stray) m before = .ok (f, after)) ∧
      Function.Closed
        ["Std.Memory.LoadString?str", "Std.Type.Casting.Cast_i32?str", "App.Main?u8_f64"] m f := by
  have hemit : (emit {} Sample.stray).isOk = true := by decide +kernel
  have himported : (Sample.stray.methods.filter (·.external)).map Sample.stray.functionName =
      ["Std.Memory.LoadString?str", "Std.Type.Casting.Cast_i32?str"] := by decide +kernel
  have hdefined : (Sample.stray.methods.filter fun m => !m.external).map
      (fun m => (Sample.stray.functionName m, m.code)) =
        [("App.Main?u8_f64", Sample.strayCode)] := by decide +kernel
  obtain ⟨m, hfilter, hm⟩ := List.map_eq_singleton_iff.1 hdefined
  obtain ⟨hname, hcode⟩ := Prod.mk.inj hm
  have hmem : m ∈ Sample.stray.methods.filter fun m => !m.external := by
    rw [hfilter]
    exact List.mem_singleton_self m
  cases htext : emit {} Sample.stray with
  | error =>
    rw [htext] at hemit
    cases hemit
  | ok text =>
    obtain ⟨_, _, _, -, -, hfunctions⟩ :=
      emitted_modules_closed Sample.reachable_stray htext
    rw [hfilter, himported] at hfunctions
    cases hfunctions with
    | @cons _ f _ rest hf hrest =>
      cases hrest
      obtain ⟨⟨before, after, hcomp⟩, hclosed⟩ := hf
      have hfname := name_of_compileFunction hcomp
      rw [List.map_singleton, hfname, hname] at hclosed
      exact ⟨Sample.reachable_stray, text, m, f, rfl, (List.mem_filter.1 hmem).1, hcode,
        ⟨before, after, hcomp⟩, hclosed⟩

end ScriptCompiler.Wat
