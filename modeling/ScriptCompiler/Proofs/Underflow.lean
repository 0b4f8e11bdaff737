import ScriptCompiler.Proofs.Faults
import ScriptCompiler.Proofs.StackDepth
import ScriptCompiler.Wat.Emit
import ScriptCompiler.X86.Emit

/-!
# Missing operands in the targets

Both targets keep a stack of their own while they compile. It always has as many entries as the
operand stack has values, so a target fails for want of an operand only if the code cannot be
replayed over the number of values. Evaluation accepts programs whose value positions are not all
filled: `return a = 5` is typed as the variable and leaves nothing to return.
-/

set_option autoImplicit false

namespace ScriptCompiler

open List Option

/-! ## Instructions -/

/-- The condition that a target reads is that of the command. -/
theorem Instruction.condition_unique {i : Instruction} {condition found : Condition}
    {number n : Option Int} (hbranch : i.branch? = some (.branch condition number))
    (h : i.condition = .ok (found, n)) : found = condition := by
  have hsame := (branch?_of_condition h).symm.trans hbranch
  cases hsame
  rfl

/-- An instruction that is handled takes and leaves as many entries as its command does values. -/
theorem Handles.follows {σ α : Type} {safe : Prop} {kept : Primitive → Prop} {p : Program}
    {m : Method} {i : Instruction} {stack : σ → List α} {s : σ} {n : Nat}
    {x : Compiling σ} {c : Command} (h : Handles safe kept p m i stack s x) (hc : i.command? = some c)
    (hn : c.takes p m = some n) :
    Follows (n ≤ (stack s).length) (fun s' => (stack s').length ≤ (stack s).length - n + c.leaves ∧
      ((∀ t, c = .convert t → kept t) → (stack s').length = (stack s).length - n + c.leaves)) x := by
  -- all but a conversion leave the same number in any case
  have hmoves : Moves safe stack s n c.leaves x → Follows (n ≤ (stack s).length)
      (fun s' => (stack s').length ≤ (stack s).length - n + c.leaves ∧
        ((∀ t, c = .convert t → kept t) →
          (stack s').length = (stack s).length - n + c.leaves)) x := fun h =>
    h.follows.mono Iff.rfl fun _ hready hs => ⟨by omega, fun _ => by omega⟩
  obtain ⟨hop, hreads⟩ := i.of_command? hc
  unfold Handles at h
  rw [hop] at h
  cases c with
  | otherwise | endBranch =>
    cases hn
    refine h.1.mono (by simp) fun _ _ hs => ?_
    rw [hs]
    exact ⟨Nat.le_refl _, fun _ => rfl⟩
  | nop | constant | get | set | ret | pop =>
    cases hn
    exact hmoves h
  | operate op =>
    cases hn
    cases op <;> exact hmoves h
  | convert target =>
    cases hn
    refine h.follows.mono Iff.rfl fun s' hready hs => ?_
    rw [show (stack s).length - 1 + (Command.convert target).leaves = (stack s).length from
      Nat.sub_add_cancel hready]
    exact ⟨hs.1, fun hkept => hs.2 target hreads (hkept target rfl)⟩
  | call result text => exact hmoves (h.2 result text n hreads.1 hreads.2 hn)
  | branch condition =>
    cases hn
    exact hmoves (h condition fun _ _ => Instruction.condition_unique hreads)

/-! ## Code -/

/-- Whether compiling code succeeds under a condition only and, where it is `sure`, never fails for
want of an operand under this condition. -/
def Agrees {α : Type} (sure ready : Prop) : Compiling α → Prop
  | .ok _ => ready
  | .error e => sure → ready → e.isUnderflow = false

namespace Agrees

variable {α β : Type} {sure ready ready₁ : Prop} {x : Compiling α}
  {f : α → Compiling β}

theorem bind (hx : Agrees sure ready₁ x) (hready : ready → ready₁)
    (hf : ∀ a, ready₁ → Agrees sure ready (f a)) : Agrees sure ready (x >>= f) := by
  cases x with
  | error => exact fun hsure h => hx hsure (hready h)
  | ok a => exact hf a hx

theorem pass (hx : Reads True x) (hf : ∀ a, Agrees sure ready (f a)) :
    Agrees sure ready (x >>= f) := by
  cases x with
  | error => exact fun _ _ => hx.follows trivial
  | ok a => exact hf a

theorem cons {P : Method → Prop} {m : Method} {rest : List Method} (hx : Agrees sure (P m) x)
    (hf : ∀ a, Agrees sure (∀ q ∈ rest, P q) (f a)) :
    Agrees sure (∀ q ∈ m :: rest, P q) (x >>= f) := by
  rw [forall_mem_cons]
  refine hx.bind And.left fun a hm => ?_
  rw [eq_true hm, true_and]
  exact hf a

theorem ne_underflow (hx : Agrees sure ready x) (hsure : sure) (h : ready) (name text : String) :
    x ≠ .error (.stackUnderflow name text) := by
  rintro rfl
  cases hx hsure h

theorem ready_of_ok {a : α} (hx : Agrees sure ready x) (h : x = .ok a) : ready := by
  subst h
  exact hx

/-- An instruction ahead of code that agrees with the replay over the number of values. The stack
of the target may be lower than counted, unless it is sure. -/
theorem replay {size : α → Nat} {kept : Primitive → Prop} {p : Program} {m : Method}
    {i : Instruction} {rest : Code} {c : Command} {n d k : Nat}
    (hc : i.command? = some c) (hn : c.takes p m = some n) (hle : k ≤ d) (heq : sure → k = d)
    (hkept : sure → ∀ t, c = .convert t → kept t)
    (hx : Follows (n ≤ k) (fun s => size s ≤ k - n + c.leaves ∧
      ((∀ t, c = .convert t → kept t) → size s = k - n + c.leaves)) x)
    (hf : ∀ s d', size s ≤ d' → (sure → size s = d') →
      Agrees sure ((depth p m rest d').isSome = true) (f s)) :
    Agrees sure ((depth p m (i :: rest) d).isSome = true) (x >>= f) := by
  have hfirst : ∀ d', depth p m [i] d = some d' ↔ n ≤ d ∧ d' = d - n + c.leaves := fun d' =>
    depth_singleton_eq_some_iff hc hn
  cases x with
  | error =>
    intro hsure hready
    obtain ⟨d', hd'⟩ := isSome_iff_exists.1 hready
    obtain ⟨d₁, hd₁, -⟩ := depth_append_eq_some_iff.1 (singleton_append ▸ hd')
    have hn := ((hfirst d₁).1 hd₁).1
    have hk := heq hsure
    exact hx (by omega)
  | ok s =>
    obtain ⟨hready, _, hexact⟩ := hx
    have hrest : depth p m (i :: rest) d = depth p m rest (d - n + c.leaves) := by
      have hone := (hfirst (d - n + c.leaves)).2 ⟨by omega, rfl⟩
      rw [← singleton_append, depth_append_of hone]
    rw [hrest]
    refine hf s _ (by omega) fun hsure => ?_
    have hk := heq hsure
    rw [hexact (hkept hsure), hk]

end Agrees

theorem Program.forall_bodies (p : Program) {P : Method → Prop} :
    (∀ m ∈ p.methods.filter fun m => !m.external, P m) ↔
      ∀ m ∈ p.methods, m.external = false → P m := by
  simp

/-! ## The x86 target -/

namespace X86

variable {c : Context} {i : Instruction}

theorem steps_agree {sure : Prop} {code : Code}
    (hcounted : ∀ i ∈ code, i.Counted c.program c.method)
    (hsure : sure → ∀ i ∈ code, ¬ i.IsVoiding) (index : Nat) (s : State) {d : Nat}
    (hle : s.stack.length ≤ d) (heq : sure → s.stack.length = d) :
    Agrees sure ((depth c.program c.method code d).isSome = true) (steps c index code s) := by
  induction code generalizing index s d with
  | nil => exact rfl
  | cons i _ ih =>
    obtain ⟨cmd, _, hc, hn⟩ := hcounted i (by simp)
    have hkept : sure → ∀ t, cmd = .convert t → t ≠ .void := by
      rintro h t rfl rfl
      exact hsure h i (by simp) hc
    have hone := (@step_handles False c i index False.elim s.mark False.elim).follows hc hn
    refine Agrees.replay hc hn hle heq hkept hone fun s' _ hle' heq' => ?_
    exact ih (fun j hj => hcounted j (mem_cons_of_mem _ hj))
      (fun h j hj => hsure h j (mem_cons_of_mem _ hj)) (index + 1) s' hle' heq'

theorem compileMethod_agrees {sure : Prop} {p : Program} {m : Method}
    (hcounted : ∀ i ∈ m.code, i.Counted p m) (hsure : sure → ∀ i ∈ m.code, ¬ i.IsVoiding)
    (shared : Shared) :
    Agrees sure ((depth p m m.code 0).isSome = true) (compileMethod p m shared) := by
  unfold compileMethod
  refine Agrees.pass (Context.checkType_abides _) fun _ => ?_
  refine Agrees.pass (Context.checkTypes_abides _) fun _ => ?_
  have hsteps := @steps_agree ⟨p, m, (p.referenceOf m).text⟩ sure m.code hcounted hsure 0
    (.start ⟨p, m, (p.referenceOf m).text⟩ (p.referenceOf m).asmLabel shared) 0 (Nat.le_refl 0)
    fun _ => rfl
  refine hsteps.bind id fun s hready => ?_
  dsimp only
  generalize (if m.code.getLast?.map (·.opcode) = some .ret then s else s.epilogue) = s'
  split
  · exact fun _ _ => rfl
  · exact Agrees.pass (bindJumps_abides _ _ _) fun _ => hready

theorem compileMethods_agree {sure : Prop} {p : Program} {methods : List Method}
    (hcounted : ∀ m ∈ methods, ∀ i ∈ m.code, i.Counted p m)
    (hsure : sure → ∀ m ∈ methods, ∀ i ∈ m.code, ¬ i.IsVoiding) (shared : Shared) :
    Agrees sure (∀ m ∈ methods, (depth p m m.code 0).isSome = true)
      (compileMethods p methods shared) := by
  induction methods generalizing shared with
  | nil =>
    intro m hm
    cases hm
  | cons m _ ih =>
    have hone := compileMethod_agrees (hcounted m (by simp)) (fun h => hsure h m (by simp)) shared
    refine hone.cons fun r => ?_
    have hrest := ih (fun q hq => hcounted q (mem_cons_of_mem _ hq))
      (fun h q hq => hsure h q (mem_cons_of_mem _ hq)) r.2
    exact hrest.bind id fun _ hall => hall

/-- The x86 target accepts programs only if their code finds all operands, and refuses none of them
for want of an operand if nothing is converted to `void`. -/
theorem emit_agrees {p : Program}
    (hcounted : ∀ m ∈ p.methods, m.external = false → ∀ i ∈ m.code, i.Counted p m) (o : Options)
    (scripts : ScriptTable) :
    Agrees (∀ m ∈ p.methods, m.external = false → ∀ i ∈ m.code, ¬ i.IsVoiding) p.Supplied
      (emit o p scripts) := by
  have hentry : Reads True (entryPoint o p) := by
    unfold entryPoint
    split
    · split
      · exact .ok _
      · exact .error rfl
    · exact .ok _
  have hcomp := @compileMethods_agree _ p _ (p.forall_bodies.2 hcounted) p.forall_bodies.2
  unfold emit
  refine (hcomp _).bind p.forall_bodies.2 fun _ hready => ?_
  exact Agrees.pass hentry fun _ => p.forall_bodies.1 hready

end X86

/-! ## The module target -/

namespace Wat

variable {c : Context} {i : Instruction}

theorem steps_agree {code : Code}
    (hcounted : ∀ i ∈ code, i.Counted c.program c.method) (s : State) :
    Agrees True ((depth c.program c.method code s.types.length).isSome = true) (steps c code s) := by
  induction code generalizing s with
  | nil => exact rfl
  | cons i _ ih =>
    obtain ⟨_, _, hc, hn⟩ := hcounted i (by simp)
    have hone := (@step_handles False c i False.elim s).follows hc hn
    refine Agrees.replay hc hn (Nat.le_refl _) (fun _ => rfl) (fun _ _ _ => trivial) hone ?_
    intro s' _ _ heq'
    rw [← heq' trivial]
    exact ih (fun j hj => hcounted j (mem_cons_of_mem _ hj)) s'

theorem compileFunction_agrees {p : Program} {m : Method}
    (hcounted : ∀ i ∈ m.code, i.Counted p m) (loadString : Option String) (memory : Memory) :
    Agrees True ((depth p m m.code 0).isSome = true) (compileFunction p loadString m memory) := by
  unfold compileFunction
  refine Agrees.pass (valueTypes_abides _ _) fun _ => ?_
  refine Agrees.pass (valueTypes_abides _ _) fun _ => ?_
  refine Agrees.pass (resultType_abides _ _) fun _ => ?_
  have hsteps := @steps_agree ⟨p, m, (p.referenceOf m).text, loadString⟩ m.code hcounted
    { memory := memory }
  refine hsteps.bind id fun _ hready => ?_
  dsimp only
  split
  · exact fun _ _ => rfl
  · exact hready

theorem renderFunctions_agree {p : Program} {methods : List Method}
    (hcounted : ∀ m ∈ methods, ∀ i ∈ m.code, i.Counted p m) (loadString : Option String)
    (memory : Memory) (page : Page) :
    Agrees True (∀ m ∈ methods, (depth p m m.code 0).isSome = true)
      (renderFunctions p loadString methods memory page) := by
  induction methods generalizing memory page with
  | nil =>
    intro m hm
    cases hm
  | cons m _ ih =>
    have hone := compileFunction_agrees (hcounted m (by simp)) loadString memory
    exact hone.cons fun r => ih (fun q hq => hcounted q (mem_cons_of_mem _ hq)) r.2 _

theorem renderImports_abides {p : Program} (methods : List Method) (page : Page) :
    Reads True (renderImports p methods page) := by
  induction methods generalizing page with
  | nil => exact .ok _
  | cons m _ ih =>
    have htext : Reads True (importText p m) := by
      unfold importText
      refine (valueTypes_abides _ _).pass fun _ _ => ?_
      exact (resultType_abides _ _).pass fun _ _ => .ok trivial trivial
    exact htext.pass fun text _ => ih (page.line text)

/-- The module target accepts programs only if their code finds all operands, and refuses none of
them for want of an operand. -/
theorem emit_agrees {p : Program}
    (hcounted : ∀ m ∈ p.methods, m.external = false → ∀ i ∈ m.code, i.Counted p m) (o : Options) :
    Agrees True p.Supplied (emit o p) := by
  unfold emit
  refine Agrees.pass (renderImports_abides _ _) fun _ => ?_
  refine (renderFunctions_agree (p.forall_bodies.2 hcounted) _ _ _).bind p.forall_bodies.2 ?_
  exact fun _ hready => p.forall_bodies.1 hready

end Wat

/-! ## Whole programs -/

section

variable {scripts : ScriptTable} {files : List SourceFile} {id : MethodId}

theorem exists_checked_of_evaluate {target : Method}
    (h : (evaluate scripts files).program.methodAt? id = some target)
    (hext : target.external = false) :
    ∃ source code, (checked scripts files).program.methodAt? id = some source ∧
      source.external = false ∧
      Stmt.lowerAll (checked scripts files).program source.returnType source.statements = .ok code ∧
      target = { source with statements := [], code, compiled := true } := by
  have hlower := h
  rw [evaluate_eq_lower, Evaluation.methodAt?_lower] at hlower
  obtain ⟨source, hsource, he, -⟩ := Method.exists_of_map_bodies hlower hext
  obtain ⟨-, -, code, hcode, htarget⟩ := exists_code_of_checked hsource he
  exact ⟨source, code, hsource, he, hcode, some.inj (h.symm.trans htarget)⟩

theorem depth_evaluate {source target : Method} (h : source.returnType = target.returnType) :
    depth (evaluate scripts files).program target = depth (checked scripts files).program source :=
  depth_congr (checked scripts files).outline_lower h.symm

/-- The code of a program finds all operands if the checked bodies are complete. -/
theorem supplied_of_complete (h : (checked scripts files).program.Complete) :
    (evaluate scripts files).program.Supplied := by
  intro _ hmem hext
  obtain ⟨_, htarget⟩ := getElem?_of_mem hmem
  obtain ⟨source, code, hsource, he, hcode, rfl⟩ := exists_checked_of_evaluate htarget hext
  obtain ⟨hsound, hconc, -⟩ := exists_code_of_checked hsource he
  obtain ⟨_, hw, -⟩ := Stmt.weighs_lowerAll hconc hsound hcode
  rw [depth_evaluate rfl]
  exact isSome_iff_exists.2 ⟨_, (hw 0).2.2 (h source (mem_of_getElem? hsource) he)⟩

/-- If no statement leaves a value behind, only complete bodies have code that finds all operands. -/
theorem complete_of_supplied (hleak : (checked scripts files).program.Leakless)
    (h : (evaluate scripts files).program.Supplied) : (checked scripts files).program.Complete := by
  intro source hmem hext
  obtain ⟨_, hsource⟩ := getElem?_of_mem hmem
  obtain ⟨hsound, hconc, _, hcode, htarget⟩ := exists_code_of_checked hsource hext
  have hready := h _ (mem_of_getElem? htarget) hext
  rw [depth_evaluate rfl] at hready
  obtain ⟨d, hd⟩ := isSome_iff_exists.1 hready
  obtain ⟨_, hw, hzero⟩ := Stmt.weighs_lowerAll hconc hsound hcode
  obtain rfl := hzero (hleak source hmem hext)
  obtain rfl : d = 0 := Nat.le_zero.1 ((hw 0).1 d hd)
  exact (hw 0).2.1 hd

theorem emitted_evaluate {target : Method} (hmem : target ∈ (evaluate scripts files).program.methods)
    (hext : target.external = false) : ∃ source : Method, source.returnType = target.returnType ∧
      ∀ i ∈ target.code, Emitted (checked scripts files).program source False
        (checked scripts files).program.VoidFree i := by
  obtain ⟨_, htarget⟩ := getElem?_of_mem hmem
  obtain ⟨source, code, hsource, he, hcode, rfl⟩ := exists_checked_of_evaluate htarget hext
  obtain ⟨hsound, hconc, -⟩ := exists_code_of_checked hsource he
  have hplain : Stmt.AllMeet (.all (Expr.Plain False (checked scripts files).program.VoidFree))
      source.statements := by
    by_cases hvoid : (checked scripts files).program.VoidFree
    · exact Stmt.AllMeet.mono (Demands.implies_all fun e he => ⟨False.elim, fun _ => he⟩) _
        (hvoid source (mem_of_getElem? hsource) he)
    · exact Stmt.AllMeet.mono
        (Demands.implies_all_of_forall fun e => ⟨False.elim, fun h => absurd h hvoid⟩) _ hsound
  exact ⟨source, rfl, Stmt.lowerAll_closed (emitted_closed hconc) source.statements code
    (Stmt.AllMeet.both _ hsound hplain) hcode⟩

theorem counted_evaluate : ∀ m ∈ (evaluate scripts files).program.methods, m.external = false →
    ∀ i ∈ m.code, i.Counted (evaluate scripts files).program m := by
  intro _ hmem hext i hi
  obtain ⟨_, hret, hemitted⟩ := emitted_evaluate hmem hext
  obtain ⟨c, n, hc, hn⟩ := (hemitted i hi).counted
  refine ⟨c, n, hc, ?_⟩
  rw [← hn]
  unfold Command.takes
  rw [evaluate_eq_lower, Program.parametersOf?_congr (checked scripts files).outline_lower, hret]

theorem not_isVoiding_evaluate (hvoid : (checked scripts files).program.VoidFree) :
    ∀ m ∈ (evaluate scripts files).program.methods, m.external = false →
      ∀ i ∈ m.code, ¬ i.IsVoiding := by
  intro _ hmem hext i hi
  obtain ⟨_, -, hemitted⟩ := emitted_evaluate hmem hext
  exact (hemitted i hi).not_isVoiding hvoid

end

/-- The code of a program finds all operands if the checked bodies are complete and, where no
statement leaves a value behind, only then. Either target accepts only programs whose code finds
all operands. The module target refuses none of these for want of an operand, and the x86 target
refuses none in which nothing is cast to `void`. -/
theorem evaluate_finds_operands (scripts : ScriptTable) (files : List SourceFile) :
    ((checked scripts files).program.Complete → (evaluate scripts files).program.Supplied) ∧
      ((checked scripts files).program.Leakless → (evaluate scripts files).program.Supplied →
        (checked scripts files).program.Complete) ∧
      ((evaluate scripts files).program.Supplied → ∀ options name text,
        Wat.emit options (evaluate scripts files).program ≠ .error (.stackUnderflow name text)) ∧
      (∀ options text, Wat.emit options (evaluate scripts files).program = .ok text →
        (evaluate scripts files).program.Supplied) ∧
      ((checked scripts files).program.VoidFree → (evaluate scripts files).program.Supplied →
        ∀ options table name text, X86.emit options (evaluate scripts files).program table ≠
          .error (.stackUnderflow name text)) ∧
      (∀ options table text, X86.emit options (evaluate scripts files).program table = .ok text →
        (evaluate scripts files).program.Supplied) := by
  refine ⟨supplied_of_complete, complete_of_supplied, ?_, ?_, ?_, ?_⟩
  · intro hsupplied options name text
    exact (Wat.emit_agrees counted_evaluate options).ne_underflow trivial hsupplied name text
  · intro options text h
    exact (Wat.emit_agrees counted_evaluate options).ready_of_ok h
  · intro hvoid hsupplied options table name text
    have hagrees := X86.emit_agrees (@counted_evaluate scripts files) options table
    exact hagrees.ne_underflow (not_isVoiding_evaluate hvoid) hsupplied name text
  · intro options table text h
    exact (X86.emit_agrees counted_evaluate options table).ready_of_ok h

namespace Sample

/-- `i32 Main(i32 a)` returns `a = 5`. -/
def assigning : MethodDecl :=
  ⟨.i32, ⟨["Main"]⟩, [⟨"a", .i32, .unknown⟩],
    [.ret (some (assign "a" (number 5))) .unknown], .unknown⟩

def assigningFiles : List SourceFile := [⟨0, [.group ⟨["App"]⟩ [.method assigning] .unknown]⟩]

end Sample

/-- Evaluation accepts a method that returns an assignment, and both targets then miss the returned
value. The code of the program with two methods finds all operands. -/
theorem assigning_misses_operand :
    (evaluate Sample.scripts Sample.assigningFiles).scripts.hasErrors = false ∧
      (checked Sample.scripts Sample.assigningFiles).program.Leakless ∧
      ¬ (evaluate Sample.scripts Sample.assigningFiles).program.Supplied ∧
      Wat.emit {} (evaluate Sample.scripts Sample.assigningFiles).program =
        .error (.stackUnderflow "App:Main?i32" "conv.i32") ∧
      X86.emit {} (evaluate Sample.scripts Sample.assigningFiles).program Sample.scripts =
        .error (.stackUnderflow "App:Main?i32" "conv.i32") ∧
      (evaluate Sample.scripts Sample.files).program.Supplied := by
  have hleak : (checked Sample.scripts Sample.assigningFiles).program.Leakless := by decide +kernel
  have hempty : ¬ (checked Sample.scripts Sample.assigningFiles).program.Complete := by
    decide +kernel
  have hfilled : (checked Sample.scripts Sample.files).program.Complete := by decide +kernel
  have hassigning := evaluate_finds_operands Sample.scripts Sample.assigningFiles
  have hsample := evaluate_finds_operands Sample.scripts Sample.files
  refine ⟨?_, hleak, fun h => hempty (hassigning.2.1 hleak h), ?_, ?_, hsample.1 hfilled⟩
  · decide +kernel
  · decide +kernel
  · decide +kernel

end ScriptCompiler
