import ScriptCompiler.Proofs.EmittedCode

/-!
# Operands on the stack

Code finds all its operands if it can be replayed over the number of values on the stack. So does
the code of a body if every value position of the body holds an expression that leaves a value; an
assignment and a call of a method that returns nothing leave none. The converse needs that no
statement leaves a value behind, which could make up for a missing operand: only a cast to `void`
does.
-/

set_option autoImplicit false

namespace ScriptCompiler

open List Option Instruction

variable {p : Program} {m : Method}

namespace Command

/-- The number of values that a command takes from the stack. A call that leads nowhere has none. -/
def takes (p : Program) (m : Method) : Command → Option Nat
  | .set _ | .convert _ | .pop => some 1
  | .operate .. => some 2
  | .call _ target => (p.parametersOf? target).map List.length
  | .branch condition _ => some (if condition = .forced then 0 else 1)
  | .ret => some (if m.returnType = .void then 0 else 1)
  | _ => some 0

/-- The number of values that a command leaves on the stack. -/
def leaves : Command → Nat
  | .constant .. | .get _ | .operate .. | .convert _ => 1
  | .call result _ => if result = .void then 0 else 1
  | _ => 0

/-- The number of values on the stack after a command, if it finds all that it takes. -/
def depth (p : Program) (m : Method) (c : Command) (d : Nat) : Option Nat :=
  (c.takes p m).bind fun n => if n ≤ d then some (d - n + c.leaves) else none

theorem depth_eq_some_iff {c : Command} {d d' : Nat} :
    c.depth p m d = some d' ↔ ∃ n, c.takes p m = some n ∧ n ≤ d ∧ d' = d - n + c.leaves := by
  unfold depth
  rw [bind_eq_some_iff]
  constructor
  · rintro ⟨n, hn, h⟩
    split at h
    · rename_i hle
      cases h
      exact ⟨n, hn, hle, rfl⟩
    · cases h
  · rintro ⟨n, hn, hle, rfl⟩
    exact ⟨n, hn, if_pos hle⟩

end Command

/-- The number of values on the stack after code, if every instruction finds all that it takes. -/
def depth (p : Program) (m : Method) : Code → Nat → Option Nat :=
  replay (Command.depth p m)

variable {d' d : Nat} {target : Primitive} {e : Expr} {i : Instruction} {a b : Code}
  {strict : Prop}

theorem depth_append_eq_some_iff : depth p m (a ++ b) d = some d' ↔
      ∃ d₁, depth p m a d = some d₁ ∧ depth p m b d₁ = some d' := by
  rw [depth, replay_append, bind_eq_some_iff]

theorem depth_append_of {d₁ : Nat} (h : depth p m a d = some d₁) :
    depth p m (a ++ b) d = depth p m b d₁ := by
  have ha : replay (Command.depth p m) a d = some d₁ := h
  rw [depth, replay_append, ha, bind_some]

theorem depth_singleton_eq_some_iff {c : Command} {n : Nat} (hc : i.command? = some c)
    (hn : c.takes p m = some n) : depth p m [i] d = some d' ↔ n ≤ d ∧ d' = d - n + c.leaves := by
  rw [depth, replay_singleton hc, Command.depth_eq_some_iff, hn]
  constructor
  · rintro ⟨_, hsame, hle, hd⟩
    cases hsame
    exact ⟨hle, hd⟩
  · rintro ⟨hle, hd⟩
    exact ⟨n, rfl, hle, hd⟩

theorem depth_congr {q : Program} {n : Method} (hp : p.outline = q.outline)
    (hret : m.returnType = n.returnType) : depth p m = depth q n := by
  have hstep : Command.depth p m = Command.depth q n := by
    funext c d
    unfold Command.depth Command.takes
    rw [hret, Program.parametersOf?_congr hp]
  rw [depth, depth, hstep]

/-- Whether in the code of every method all instructions find the values that they take. -/
def Program.Supplied (p : Program) : Prop :=
  ∀ m ∈ p.methods, m.external = false → (depth p m m.code 0).isSome = true

/-! ## Expressions -/

section

variable {callee : Method} {method : Option MethodId}

theorem takes_call (hcallee : method.bind p.methodAt? = some callee) :
    (Command.call callee.returnType (p.referenceOf callee).text).takes p m =
      some callee.parameterTypes.length := by
  have hmem := Program.mem_of_bind_methodAt? hcallee
  simp only [Command.takes, Program.parametersOf?_of_mem hmem, map_some]

theorem Expr.toNat_pushes_call {target : DottedName} {args : List Expr} {span : Span}
    (hcallee : method.bind p.methodAt? = some callee) :
    ((Expr.call target args method span).pushes p).toNat =
      (Command.call callee.returnType (p.referenceOf callee).text).leaves := by
  simp only [Expr.pushes, hcallee, any_some, Command.leaves]
  by_cases hres : callee.returnType = .void <;> simp [hres]

end

/-- Whether code leaves at most `w` values more than it finds, and as many as that exactly if `filled`
holds. -/
def Weighs (p : Program) (m : Method) (code : Code) (w : Nat) (filled : Prop) : Prop :=
  ∀ d, (∀ d', depth p m code d = some d' → d' ≤ d + w) ∧
    (depth p m code d = some (d + w) ↔ filled)

namespace Weighs

variable {a b : Code} {w w' : Nat} {F G : Prop}

theorem congr (h : Weighs p m a w F) (hw : w = w') (hF : F ↔ G) : Weighs p m a w' G := by
  subst hw
  exact fun d => ⟨(h d).1, (h d).2.trans hF⟩

theorem nil : Weighs p m [] 0 True := by
  refine fun _ => ⟨fun d' h => ?_, iff_of_true rfl trivial⟩
  cases h
  exact Nat.le_refl _

theorem append (ha : Weighs p m a w F) (hb : Weighs p m b w' G) :
    Weighs p m (a ++ b) (w + w') (F ∧ G) := by
  intro d
  refine ⟨fun d' h => ?_, ?_⟩
  · obtain ⟨d₁, hd₁, hd'⟩ := depth_append_eq_some_iff.1 h
    have hle₁ := (ha d).1 d₁ hd₁
    have hle₂ := (hb d₁).1 d' hd'
    omega
  · rw [← (ha d).2, ← (hb (d + w)).2, depth_append_eq_some_iff, ← Nat.add_assoc]
    constructor
    · rintro ⟨d₁, hd₁, hd'⟩
      have hle₁ := (ha d).1 d₁ hd₁
      have hle₂ := (hb d₁).1 _ hd'
      obtain rfl : d₁ = d + w := by omega
      exact ⟨hd₁, hd'⟩
    · rintro ⟨hd₁, hd'⟩
      exact ⟨_, hd₁, hd'⟩

theorem snoc {c : Command} {n : Nat} (ha : Weighs p m a w F) (hc : i.command? = some c)
    (hn : c.takes p m = some n) (hle : n ≤ w) : Weighs p m (a ++ [i]) (w - n + c.leaves) F := by
  intro d
  have hone : ∀ {d₁ d'}, depth p m [i] d₁ = some d' ↔ n ≤ d₁ ∧ d' = d₁ - n + c.leaves :=
    depth_singleton_eq_some_iff hc hn
  simp only [depth_append_eq_some_iff, hone, ← (ha d).2]
  constructor
  · rintro d' ⟨d₁, hd₁, -, rfl⟩
    have hle₁ := (ha d).1 d₁ hd₁
    omega
  · constructor
    · rintro ⟨d₁, hd₁, htake, hd'⟩
      have hle₁ := (ha d).1 d₁ hd₁
      obtain rfl : d₁ = d + w := by omega
      exact hd₁
    · intro h
      exact ⟨_, h, by omega, by omega⟩

theorem value {leaves : Bool} (h : Weighs p m a leaves.toNat F) :
    Weighs p m a 1 (F ∧ leaves = true) := by
  cases leaves with
  | true => exact h.congr rfl (by simp)
  | false =>
    intro d
    refine ⟨fun d' hd => Nat.le_succ_of_le ((h d).1 d' hd), fun hd => ?_, by simp⟩
    exact absurd ((h d).1 _ hd) (Nat.not_succ_le_self d)

theorem convertTo (h : Weighs p m a 1 F) (target pushed : Primitive) :
    Weighs p m (a ++ convertTo target pushed) 1 F := by
  unfold ScriptCompiler.convertTo
  split
  · rwa [append_nil]
  · exact h.snoc (command?_convert target) rfl (Nat.le_refl 1)

end Weighs

/-- Whether the code of an expression leaves what the expression is worth exactly if all value
positions inside are filled, and less than that otherwise. -/
def Expr.Weighed (p : Program) (m : Method) (e : Expr) : Prop :=
  ∀ slot code pushed, e.lower p slot = .ok (code, pushed) →
    Weighs p m code (e.pushes p).toNat (e.complete p = true)

theorem Expr.Weighed.lowerTo (he : e.Weighed p m) {code : Code}
    (h : e.lowerTo p target = .ok code) :
    Weighs p m code 1 (e.complete p = true ∧ e.pushes p = true) := by
  obtain ⟨c, t, hc, rfl⟩ := lowerTo_ok h
  exact (he _ c t hc).value.convertTo target t

theorem Expr.weighs_lowerArguments {args : List Expr} (hargs : ∀ a ∈ args, a.Weighed p m) :
    ∀ {types : Types} {code : Code}, args.length = types.length →
      Expr.lowerArguments p args types = .ok code →
      Weighs p m code types.length (Expr.allComplete p args = true) := by
  induction args with
  | nil =>
    intro types code hlen h
    obtain rfl := length_eq_zero_iff.1 hlen.symm
    cases h
    exact Weighs.nil.congr rfl (by simp [Expr.allComplete])
  | cons a _ ih =>
    intro types code hlen h
    cases types with
    | nil => cases hlen
    | cons =>
      obtain ⟨_, _, hfirst, hmore, rfl⟩ := lowerArguments_cons_ok h
      have hrest := ih (fun b hb => hargs b (mem_cons_of_mem _ hb)) (by simpa using hlen) hmore
      refine (((hargs a (by simp)).lowerTo hfirst).append hrest).congr ?_ ?_
      · rw [length_cons, Nat.add_comm]
      · simp [Expr.allComplete]

/-- The code of an expression leaves as much as the expression is worth exactly if all value
positions inside are filled. -/
theorem Expr.Sound.weighed (hs : e.Sound p m.localType?) : e.Weighed p m := by
  induction hs with
  | literal =>
    intro slot code pushed h
    cases h
    exact (Weighs.nil.snoc (command?_loadConst _ _) rfl (Nat.le_refl 0)).congr rfl
      (by simp [Expr.complete])
  | name hu =>
    intro slot code pushed h
    simp only [Expr.lower, NameUse.found, hu] at h
    cases h
    exact (Weighs.nil.snoc (command?_getLocal _) rfl (Nat.le_refl 0)).congr rfl
      (by simp [Expr.complete])
  | binary _ _ _ ihl ihr =>
    intro slot code pushed h
    obtain ⟨_, _, _, _, _, -, -, -, hright, hleft, rfl, -⟩ :=
      lower_binary_ok h
    have hoperands := (ihr.lowerTo hright).append (ihl.lowerTo hleft)
    exact (hoperands.snoc (command?_binary _ _) rfl (Nat.le_refl 2)).congr rfl
      (by simp [Expr.complete, and_comm])
  | assign _ _ _ ihv =>
    intro slot code pushed h
    obtain ⟨_, _, -, hvalue, rfl, -⟩ := lower_assign_ok h
    exact ((ihv.lowerTo hvalue).snoc (command?_setLocal _) rfl (Nat.le_refl 1)).congr rfl
      (by simp [Expr.complete])
  | call hcallee hlen _ ihargs =>
    intro slot code pushed h
    obtain ⟨_, _, hcallee', harguments, rfl, -⟩ := lower_call_ok h
    rw [hcallee] at hcallee'
    cases hcallee'
    have hall := weighs_lowerArguments ihargs hlen harguments
    refine (hall.snoc (command?_call _ _) (takes_call hcallee) (Nat.le_refl _)).congr ?_ Iff.rfl
    rw [Nat.sub_self, Nat.zero_add, toNat_pushes_call hcallee]
  | @cast operand type span _ iho =>
    intro slot code pushed h
    obtain ⟨hoperand, -⟩ := lower_cast_ok h
    by_cases hvoid : type = .void
    · subst hvoid
      -- what the operand leaves, if anything, is converted and stays
      obtain ⟨c, t, hc, rfl⟩ := lowerTo_ok hoperand
      have hvalue := iho _ c t hc
      cases hp : operand.pushes p with
      | true =>
        rw [hp] at hvalue
        exact (hvalue.convertTo .void t).congr (by simp [Expr.pushes, hp]) (by simp [Expr.complete])
      | false =>
        have hnone : convertTo .void t = [] := by simp [convertTo, pushed_eq_void hp hc]
        rw [hnone, append_nil]
        exact hvalue.congr (by simp [Expr.pushes]) (by simp [Expr.complete])
    · have hworth : (Expr.cast operand type span).pushes p = true := by simp [Expr.pushes, hvoid]
      exact (iho.lowerTo hoperand).congr (by rw [hworth]; rfl) (by simp [Expr.complete, hvoid])

/-! ## Bodies -/

/-- Expressions that leave a value in all value positions. -/
def Demands.complete (p : Program) : Demands where
  effect e := e.complete p = true
  condition e := e.complete p = true ∧ e.pushes p = true
  result v := ∀ e ∈ v, e.complete p = true ∧ e.pushes p = true

/-- Whether all value positions in the bodies of a program hold expressions that leave a value. -/
def Program.Complete (p : Program) : Prop :=
  ∀ m ∈ p.methods, m.external = false → Stmt.AllMeet (.complete p) m.statements

/-- Statements that leave no value behind. -/
def Demands.leakless (p : Program) : Demands where
  effect e := e.leaks p = false
  condition _ := True
  result _ := True

/-- Whether no statement of a program leaves a value behind. -/
def Program.Leakless (p : Program) : Prop :=
  ∀ m ∈ p.methods, m.external = false → Stmt.AllMeet (.leakless p) m.statements

section

variable (p : Program)

instance : Decidable p.Complete :=
  inferInstanceAs (Decidable (∀ m ∈ p.methods, m.external = false → Stmt.AllMeet (.mk _ _ _) _))

instance : Decidable p.Leakless :=
  inferInstanceAs (Decidable (∀ m ∈ p.methods, m.external = false → Stmt.AllMeet (.mk _ _ _) _))

end

section

variable {code : Code}

theorem Expr.weighs_lowerCondition (hs : e.Sound p m.localType?)
    (h : e.lowerCondition p = .ok code) :
    Weighs p m code 0 (e.complete p = true ∧ e.pushes p = true) := by
  rcases lowerCondition_ok h with ⟨c, hcode, rfl⟩ |
    ⟨kind, left, n, type, c, t, hcmp, -, -, hcode, rfl⟩
  · have htakes : (Command.branch .true none).takes p m = some 1 := rfl
    exact (hs.weighed.lowerTo hcode).snoc (command?_branch_none rfl) htakes (Nat.le_refl 1)
  · obtain ⟨hkind, _, _, rfl⟩ := eq_of_comparison? hcmp
    have htakes : (Command.branch kind (some n)).takes p m = some 1 := by
      rcases hkind with rfl | rfl <;> rfl
    cases hs with
    | binary _ hleft =>
      have hvalue := (Expr.Sound.weighed hleft none c t hcode).value
      refine (hvalue.snoc (command?_branch_some _ _) htakes (Nat.le_refl 1)).congr rfl ?_
      simp [Expr.complete, Expr.pushes]

theorem Method.weighs_ret {v : Option Expr} {span : Span} (hv : (Demands.sound p m).result v)
    (h : (Stmt.ret v span).lower p m.returnType = .ok code) :
    Weighs p m code 0 ((Demands.complete p).result v) := by
  rcases hv with ⟨rfl, hvoid⟩ | ⟨_, rfl, hvoid, hs⟩
  · cases h
    have htakes : Command.ret.takes p m = some 0 := by simp [Command.takes, hvoid]
    exact (Weighs.nil.snoc command?_ret htakes (Nat.le_refl 0)).congr rfl
      (by simp [Demands.complete])
  · obtain ⟨_, hcode, rfl⟩ := Stmt.lower_ret_ok h
    have htakes : Command.ret.takes p m = some 1 := by simp [Command.takes, hvoid]
    exact ((hs.weighed.lowerTo hcode).snoc command?_ret htakes (Nat.le_refl 1)).congr rfl
      (by simp [Demands.complete])

/-- The code of a part leaves what it leaves behind, which is nothing unless a value is cast to
`void`, exactly if the value positions in it are filled. -/
theorem Part.weighs (hc : Concrete p m.localType?) {x : Part} (hx : (Demands.sound p m).Holds x)
    (h : x.lower p m.returnType = .ok code) :
    ∃ w, Weighs p m code w ((Demands.complete p).Holds x) ∧
      ((Demands.leakless p).Holds x → w = 0) := by
  have hotherwise : Weighs p m [.otherwise] 0 True :=
    Weighs.nil.snoc command?_otherwise rfl (Nat.le_refl 0)
  cases x with
  | effect e =>
    rw [Part.lower] at h
    obtain ⟨c, pushed, hcode, rfl⟩ := Stmt.lower_expression_ok h
    have hvalue := Expr.Sound.weighed hx none c pushed hcode
    split
    · rename_i hvoid
      refine ⟨_, hvalue, fun hl => ?_⟩
      cases hp : e.pushes p with
      | false => rfl
      | true => exact absurd hvoid (Expr.Sound.pushed_ne_void hx hc hp hl hcode)
    · rename_i hvoid
      cases hp : e.pushes p with
      | false => exact absurd (Expr.pushed_eq_void hp hcode) hvoid
      | true =>
        rw [hp] at hvalue
        exact ⟨0, hvalue.snoc command?_pop rfl (Nat.le_refl 1), fun _ => rfl⟩
  | declaration => exact hx.elim
  | result => exact ⟨0, Method.weighs_ret hx h, fun _ => rfl⟩
  | condition => exact ⟨0, Expr.weighs_lowerCondition hx h, fun _ => rfl⟩
  | alternative condition =>
    refine ⟨0, ?_, fun _ => rfl⟩
    cases condition with
    | none =>
      cases h
      exact hotherwise.congr rfl (by simp [Demands.Holds])
    | some e =>
      obtain ⟨test, htest, h⟩ := of_bind h
      cases h
      exact (hotherwise.append (Expr.weighs_lowerCondition (hx e rfl) htest)).congr rfl
        (by simp [Demands.Holds, Demands.complete])
  | mark k =>
    refine ⟨0, ?_, fun _ => rfl⟩
    cases k with
    | ending =>
      cases h
      exact Weighs.nil.snoc command?_endBranch rfl (Nat.le_refl 0)
    | assembly | opening | closing =>
      cases h
      exact Weighs.nil

/-- The code of statements leaves what they leave behind exactly if they are complete. -/
theorem Stmt.weighs_lowerAll (hc : Concrete p m.localType?) {body : List Stmt}
    (hbody : Stmt.AllMeet (.sound p m) body) (h : Stmt.lowerAll p m.returnType body = .ok code) :
    ∃ w, Weighs p m code w (Stmt.AllMeet (.complete p) body) ∧
      (Stmt.AllMeet (.leakless p) body → w = 0) := by
  simp only [allMeet_iff_parts] at hbody ⊢
  rw [lowerAll_eq_parts] at h
  refine lowerParts_induction (P := fun xs code =>
    (∀ x ∈ xs, x.1 = true → (Demands.sound p m).Holds x.2) → ∃ w,
      Weighs p m code w (∀ x ∈ xs, x.1 = true → (Demands.complete p).Holds x.2) ∧
        ((∀ x ∈ xs, x.1 = true → (Demands.leakless p).Holds x.2) → w = 0)) ?_ ?_ ?_ code h hbody
  · exact fun _ => ⟨0, Weighs.nil.congr rfl (by simp), fun _ => rfl⟩
  · intro x rest code _ hcode ih hxs
    obtain ⟨hx, hrest⟩ := forall_mem_cons.1 hxs
    obtain ⟨w, hw, hzero⟩ := Part.weighs hc (hx rfl) hcode
    obtain ⟨w', hw', hzero'⟩ := ih hrest
    refine ⟨w + w', (hw.append hw').congr rfl (by simp), fun hleakless => ?_⟩
    obtain ⟨hx, hrest⟩ := forall_mem_cons.1 hleakless
    rw [hzero (hx rfl), hzero' hrest]
  · intro x rest code ih hxs
    simpa using ih (forall_mem_cons.1 hxs).2

end

/-! ## Instructions of bodies -/

/-- Whether it can be told how many values an instruction takes: it can be read, and a called method
exists. -/
def Instruction.Counted (p : Program) (m : Method) (i : Instruction) : Prop :=
  ∃ c n, i.command? = some c ∧ c.takes p m = some n

theorem Emitted.counted {sized : Prop} (h : Emitted p m sized strict i) : i.Counted p m := by
  cases h with
  | constant => exact ⟨_, 0, command?_loadConst _ _, rfl⟩
  | get => exact ⟨_, 0, command?_getLocal _, rfl⟩
  | set => exact ⟨_, 1, command?_setLocal _, rfl⟩
  | operate op t => exact ⟨_, 2, command?_binary op t, rfl⟩
  | convert t => exact ⟨_, 1, command?_convert t, rfl⟩
  | @call id callee hid => exact ⟨_, _, command?_call _ _, @takes_call p m callee (some id) hid⟩
  | truth => exact ⟨_, 1, command?_branch_none rfl, rfl⟩
  | compare => exact ⟨_, _, command?_branch_some _ _, rfl⟩
  | otherwise => exact ⟨_, 0, command?_otherwise, rfl⟩
  | endBranch => exact ⟨_, 0, command?_endBranch, rfl⟩
  | ret => exact ⟨_, _, command?_ret, rfl⟩
  | pop => exact ⟨_, 1, command?_pop, rfl⟩

/-! ## Conversions to `void`

A target may take such a conversion for one that leaves nothing. There is none in the code of
bodies without casts to `void`. -/

/-- Whether an instruction converts a value to `void`. -/
def Instruction.IsVoiding (i : Instruction) : Prop := i.command? = some (.convert .void)

/-- Expressions without casts to `void`. -/
def Demands.voidFree : Demands where
  effect e := e.voidFree = true
  condition e := e.voidFree = true
  result v := ∀ e ∈ v, e.voidFree = true

/-- Whether nothing in the bodies of a program is cast to `void`. -/
def Program.VoidFree (p : Program) : Prop :=
  ∀ m ∈ p.methods, m.external = false → Stmt.AllMeet .voidFree m.statements

instance (p : Program) : Decidable p.VoidFree :=
  inferInstanceAs (Decidable (∀ m ∈ p.methods, m.external = false → Stmt.AllMeet (.mk _ _ _) _))

/-- No instruction that is emitted strictly converts a value to `void`. -/
theorem Emitted.not_isVoiding {sized : Prop} (h : Emitted p m sized strict i) (hstrict : strict) :
    ¬ i.IsVoiding := by
  unfold Instruction.IsVoiding
  cases h with
  | convert _ ht => simpa using ht hstrict
  | operate => simp
  | truth => rw [command?_branch_none rfl]; simp
  | _ => simp

end ScriptCompiler
