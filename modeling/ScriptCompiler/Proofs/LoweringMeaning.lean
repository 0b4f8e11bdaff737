import ScriptCompiler.Proofs.Nesting

/-!
# Lowering keeps the meaning

Running the code of a body from an empty operand stack has exactly the effect of evaluating its
statements: the same slots, the same world, the same calls in the same order, and the same returned
value or none. Where the interpretation refuses to answer, both trap. The statements are generalised
over the stack below the value of an expression (`Expr.run_lower`) and the stack that a statement
leaves alone (`Stmt.run_lower`).
-/

set_option autoImplicit false

namespace ScriptCompiler

open List Option Instruction Machine

variable {V W : Type} {M : Meaning V W} {p : Program} {m : Method}

/-! ## Types from slots -/

/-- The type that lowering settles on is the one that the slot gives. -/
theorem Primitive.settle_eq_inSlot (t : Primitive) (slot : Option Primitive) :
    t.settle slot = t.inSlot slot := by
  unfold settle inSlot
  split
  · cases slot with
    | none => rfl
    | some =>
      simp only [filter_some]
      split <;> rfl
  · rfl

/-- The constant of a literal has the type that the slot gives, and its text. -/
theorem Literal.constant_eq (value : Literal) (slot : Option Primitive) :
    value.constant slot = (value.inSlot slot, value.written) := by
  cases value with
  | integer n | real n =>
    cases slot with
    | none => rfl
    | some s => cases s <;> rfl
  | text => rfl
  | boolean b => cases b <;> rfl
  | null => rfl

theorem Expr.operandType?_eq {left right : Expr} {l r common : Primitive}
    (hl : left.typeIn p = .ok l) (hr : right.typeIn p = .ok r) (hc : l.common? r = some common)
    (slot : Option Primitive) :
    Expr.operandType? p left right slot = some (common.settle slot) := by
  simp only [Expr.operandType?, hl, hr, hc, map_some, Primitive.settle_eq_inSlot]

variable {e : Expr} {code : Code} {args : List Expr} {t : Primitive}
  {c : Control V} {α : Type}

/-- A value that is pushed has the type that lowering reports. -/
theorem Expr.eval_type {slot : Option Primitive} {pushed : Primitive} {s s' : Store V W}
    {x : Primitive × V} (hp : e.pushes p = true) (h : e.lower p slot = .ok (code, pushed))
    (he : e.eval M p slot s = .ok (x, s')) : x.1 = pushed := by
  cases e with
  | literal =>
    simp only [Expr.lower, Literal.constant_eq] at h
    cases h
    cases he
    rfl
  | name =>
    simp only [Expr.lower] at h
    obtain ⟨_, ht, h⟩ := of_bind h
    cases h
    simp only [Expr.eval, NameUse.found_ok ht] at he
    cases he
    rfl
  | binary =>
    obtain ⟨_, _, _, _, _, hl, hr, hc, -, -, -, rfl⟩ := lower_binary_ok h
    simp only [Expr.eval, operandType?_eq hl hr hc] at he
    obtain ⟨_, _, -, -, he⟩ := of_bind₂ he
    obtain ⟨_, -, he⟩ := of_bind he
    cases he
    rfl
  | assign => cases hp
  | call =>
    obtain ⟨_, _, hcallee, -, -, rfl⟩ := lower_call_ok h
    simp only [Expr.eval, hcallee] at he
    obtain ⟨_, _, -, -, he⟩ := of_bind₂ he
    cases he
    rfl
  | cast =>
    obtain ⟨-, rfl⟩ := lower_cast_ok h
    simp only [Expr.eval] at he
    obtain ⟨_, -, he⟩ := of_bind he
    cases he
    rfl

/-! ## Expressions -/

/-- Whether the code of an expression does what the expression does: it leaves the value on the
stack, if the expression is one that leaves a value, and the store of the evaluation. -/
def Expr.Runs (M : Meaning V W) (p : Program) (m : Method) (e : Expr) : Prop :=
  ∀ slot code pushed, e.lower p slot = .ok (code, pushed) → ∀ σ s,
    Machine.run M p m code ⟨σ, s, .running⟩ = e.eval M p slot s >>= fun r =>
      .ok ⟨if e.pushes p then r.1 :: σ else σ, r.2, .running⟩

theorem Expr.Runs.lowerTo (he : e.Runs M p m) (hp : e.pushes p = true) {target : Primitive}
    (h : e.lowerTo p target = .ok code) (σ : List (Primitive × V)) (s : Store V W) :
    Machine.run M p m code ⟨σ, s, .running⟩ = e.evalTo M p target s >>= fun r =>
      .ok ⟨(target, r.1) :: σ, r.2, .running⟩ := by
  obtain ⟨c, t, hc, rfl⟩ := lowerTo_ok h
  rw [Machine.run_append, he _ c t hc σ s]
  unfold Expr.evalTo Meaning.into
  cases heval : e.eval M p (some target) s with
  | error => rfl
  | ok r =>
    obtain ⟨⟨t', v⟩, s'⟩ := r
    obtain rfl : t' = t := eval_type hp hc heval
    simp only [ok_bind, hp, if_true, convertTo]
    split
    · rename_i hsame
      subst hsame
      simp [Meaning.bring]
    · rename_i hother
      rw [Machine.run_singleton, step_running (command?_convert target)]
      simp only [Command.perform]
      cases M.bring s' target (t', v) <;> rfl

/-- The code of arguments leaves their values, the last one on top. -/
theorem Expr.run_lowerArguments (hargs : ∀ a ∈ args, a.Runs M p m ∧ a.pushes p = true) :
    ∀ {types : Types} {code : Code}, args.length = types.length →
      Expr.lowerArguments p args types = .ok code → ∀ (σ : List (Primitive × V)) (s : Store V W),
      Machine.run M p m code ⟨σ, s, .running⟩ =
        Expr.evalArguments M p args types s >>= fun r =>
          .ok ⟨(types.zip r.1).reverse ++ σ, r.2, .running⟩ := by
  induction args with
  | nil =>
    intro types code hlen h σ s
    cases types with
    | nil =>
      cases h
      rfl
    | cons => cases hlen
  | cons a rest ih =>
    intro types code hlen h σ s
    cases types with
    | nil => cases hlen
    | cons type types =>
      obtain ⟨_, _, hfirst, hmore, rfl⟩ := lowerArguments_cons_ok h
      obtain ⟨ha, hp⟩ := hargs a (by simp)
      rw [Machine.run_append, ha.lowerTo hp hfirst]
      simp only [Expr.evalArguments]
      unfold Expr.evalTo
      cases M.into type (a.eval M p (some type) s) with
      | error => rfl
      | ok r =>
        simp only [ok_bind]
        rw [ih (fun b hb => hargs b (mem_cons_of_mem _ hb)) (by simpa using hlen) hmore]
        cases Expr.evalArguments M p rest types r.2 with
        | error => rfl
        | ok => simp

theorem Expr.length_evalArguments : ∀ {types : Types} {s : Store V W} {r : List V × Store V W},
      args.length = types.length → Expr.evalArguments M p args types s = .ok r →
      r.1.length = types.length := by
  induction args with
  | nil =>
    intro types s r hlen h
    cases types with
    | nil =>
      cases h
      rfl
    | cons => cases hlen
  | cons _ _ ih =>
    intro types s r hlen h
    cases types with
    | nil => cases hlen
    | cons =>
      simp only [Expr.evalArguments] at h
      obtain ⟨_, _, -, h₂, h⟩ := of_bind₂ h
      cases h
      simp [ih (by simpa using hlen) h₂]

theorem Command.perform_call {callee : Method} {method : Option MethodId}
    (hcallee : method.bind p.methodAt? = some callee) {vs : List V}
    (hlen : vs.length = callee.parameterTypes.length) (σ : List (Primitive × V)) (s : Store V W) :
    (Command.call callee.returnType (p.referenceOf callee).text).perform M p m
        ((callee.parameterTypes.zip vs).reverse ++ σ) s =
      M.invoke (p.referenceOf callee).text vs s >>= fun r =>
        .ok ⟨if callee.returnType = .void then σ else (callee.returnType, r.1) :: σ, r.2,
          .running⟩ := by
  have hparams := Program.parametersOf?_of_mem (Program.mem_of_bind_methodAt? hcallee)
  have hcount : (callee.parameterTypes.zip vs).reverse.length = callee.parameterTypes.length := by
    simp [hlen]
  have htake : ((callee.parameterTypes.zip vs).reverse ++ σ).take callee.parameterTypes.length =
      (callee.parameterTypes.zip vs).reverse := by
    rw [← hcount, take_left]
  have hdrop : ((callee.parameterTypes.zip vs).reverse ++ σ).drop callee.parameterTypes.length =
      σ := by
    rw [← hcount, drop_left]
  have hvalues : ((callee.parameterTypes.zip vs).reverse.reverse.map (·.2)) = vs := by
    rw [reverse_reverse]
    exact map_snd_zip (by omega)
  have henough : callee.parameterTypes.length ≤
      ((callee.parameterTypes.zip vs).reverse ++ σ).length := by
    rw [length_append, hcount]
    omega
  simp only [Command.perform, hparams, if_pos henough, htake, hdrop, hvalues]
  cases M.invoke (p.referenceOf callee).text vs s <;> rfl

/-- The code of a sound and whole expression does what the expression does. -/
theorem Expr.run_lower (hs : e.Sound p m.localType?) (hw : e.Whole p) : e.Runs M p m := by
  induction hs with
  | @literal value span =>
    intro slot code pushed h σ s
    simp only [Expr.lower, Literal.constant_eq] at h
    cases h
    rw [Machine.run_singleton, step_running (command?_loadConst _ _)]
    rfl
  | @name use t hu hg =>
    intro slot code pushed h σ s
    simp only [Expr.lower, NameUse.found, hu] at h
    cases h
    rw [Machine.run_singleton, step_running (command?_getLocal _)]
    have htype : m.localType? t.index = some t.type := hg
    simp only [Command.perform, htype, Expr.eval, hu]
    rfl
  | @binary op left right span _ _ _ ihl ihr =>
    intro slot code pushed h σ s
    obtain ⟨hwl, hwr⟩ := whole_binary_iff.1 hw
    obtain ⟨_, r, common, _, _, hl, hr, hc, hright, hleft, rfl, -⟩ :=
      lower_binary_ok h
    rw [Machine.run_append, Machine.run_append, (ihr hwr.toWhole).lowerTo hwr.pushes hright]
    simp only [Expr.eval, operandType?_eq hl hr hc]
    unfold Expr.evalTo
    cases M.into (common.settle slot) (right.eval M p (some (common.settle slot)) s) with
    | error => rfl
    | ok r₁ =>
      simp only [ok_bind]
      rw [(ihl hwl.toWhole).lowerTo hwl.pushes hleft]
      unfold Expr.evalTo
      cases M.into (common.settle slot) (left.eval M p (some (common.settle slot)) r₁.2) with
      | error => rfl
      | ok r₂ =>
        simp only [ok_bind]
        rw [Machine.run_singleton, step_running (command?_binary _ _)]
        simp only [Command.perform]
        cases Meaning.orTrap r₂.2 (M.operate op (common.settle slot) r₂.1 r₁.1) <;> rfl
  | @assign target t value span hu hg _ ihv =>
    intro slot code pushed h σ s
    have hwv := whole_assign_iff.1 hw
    obtain ⟨_, _, hu', hvalue, rfl, -⟩ := lower_assign_ok h
    rw [hu] at hu'
    cases hu'
    rw [Machine.run_append, (ihv hwv.toWhole).lowerTo hwv.pushes hvalue]
    simp only [Expr.eval, hu]
    unfold Expr.evalTo
    cases M.into t.type (value.eval M p (some t.type) s) with
    | error => rfl
    | ok =>
      simp only [ok_bind]
      rw [Machine.run_singleton, step_running (command?_setLocal _)]
      have htype : m.localType? t.index = some t.type := hg
      simp only [Command.perform, htype]
      rfl
  | @call target args method span callee hcallee hlen _ ihargs =>
    intro slot code pushed h σ s
    have hwa := whole_call_iff.1 hw
    obtain ⟨_, _, hcallee', harguments, rfl, -⟩ := lower_call_ok h
    rw [hcallee] at hcallee'
    cases hcallee'
    have hpushes : (Expr.call target args method span).pushes p =
        (callee.returnType != .void) := by
      simp [Expr.pushes, hcallee]
    rw [Machine.run_append, run_lowerArguments
      (fun a ha => ⟨ihargs a ha (hwa a ha).toWhole, (hwa a ha).pushes⟩) hlen harguments]
    simp only [Expr.eval, hcallee, hpushes]
    cases hvalues : Expr.evalArguments M p args callee.parameterTypes s with
    | error => rfl
    | ok r =>
      simp only [ok_bind]
      rw [Machine.run_singleton, step_running (command?_call _ _),
        Command.perform_call hcallee (length_evalArguments hlen hvalues)]
      cases M.invoke (p.referenceOf callee).text r.1 r.2 with
      | error => rfl
      | ok =>
        by_cases hvoid : callee.returnType = .void
        · simp [hvoid]
        · simp [hvoid]
  | @cast operand type span _ iho =>
    intro slot code pushed h σ s
    obtain ⟨hwo, ht⟩ := whole_cast_iff.1 hw
    obtain ⟨hoperand, -⟩ := lower_cast_ok h
    have hpushes : (Expr.cast operand type span).pushes p = true := by simp [Expr.pushes, ht]
    rw [(iho hwo.toWhole).lowerTo hwo.pushes hoperand]
    simp only [Expr.eval, hpushes]
    unfold Expr.evalTo
    cases M.into type (operand.eval M p (some type) s) <;> rfl

/-! ## Conditions -/

theorem Expr.eval_of_isConcreteInteger (hp : e.pushes p = true) (ht : e.typeIn p = .ok t)
    (hi : t.isConcreteInteger = true) (slot slot' : Option Primitive) (s : Store V W) :
    e.eval M p slot s = e.eval M p slot' s := by
  have hg : t.isGeneric = false := by
    simp only [Primitive.isConcreteInteger, Bool.and_eq_true, Bool.not_eq_true'] at hi
    exact hi.2
  cases e with
  | literal value =>
    cases ht
    cases value with
    | integer => cases hg
    | real => cases hg
    | text => rfl
    | boolean => rfl
    | null => rfl
  | name => rfl
  | binary =>
    obtain ⟨_, _, _, hl, hr, hc, ⟨-, rfl⟩ | ⟨-, -, rfl⟩⟩ := typeIn_binary_ok ht
    · cases hi
    · simp only [Expr.eval, operandType?_eq hl hr hc, Primitive.settle_of_concrete hg]
  | assign => cases hp
  | call => rfl
  | cast => rfl

/-- An integer compared with an integer literal: the literal has the type of the integer. -/
theorem Expr.evalTo_comparison {left : Expr} {op : BinaryOp} {n : Int} {span span' : Span}
    (hp : left.pushes p = true) (ht : left.typeIn p = .ok t) (hi : t.isConcreteInteger = true)
    (hop : op.isComparison = true) {pushed : Primitive}
    (hcode : left.lower p none = .ok (code, pushed)) (s : Store V W) :
    (Expr.binary op left (.literal (.integer n) span) span').evalTo M p .bool s =
      left.eval M p none s >>= fun r =>
        Meaning.orTrap r.2 (M.operate op r.1.1 r.1.2 (M.constant r.1.1 (toString n))) >>= fun v =>
          .ok (v, r.2) := by
  have hg : t.isGeneric = false := by
    simp only [Primitive.isConcreteInteger, Bool.and_eq_true, Bool.not_eq_true'] at hi
    exact hi.2
  have hright : (Expr.literal (.integer n) span).typeIn p = .ok .number := rfl
  -- the literal takes the concrete type from its slot, which is what they have in common
  have hcommon : t.common? .number = some t := by cases t <;> first | rfl | cases hi
  have hslot : (Literal.integer n).inSlot (some t) = t := by cases t <;> first | rfl | cases hi
  have hconst : M.into t ((Expr.literal (.integer n) span).eval M p (some t) s) =
      .ok (M.constant t (toString n), s) := by
    simp [Expr.eval, hslot, Meaning.into, Meaning.bring, Literal.written]
  unfold Expr.evalTo
  rw [Expr.eval, operandType?_eq ht hright hcommon, Primitive.settle_of_concrete hg]
  dsimp only
  rw [hconst, ok_bind, eval_of_isConcreteInteger hp ht hi (some t) none]
  cases heval : left.eval M p none s with
  | error => rfl
  | ok r =>
    obtain ⟨⟨t', v⟩, s'⟩ := r
    obtain rfl : t' = t :=
      (eval_type hp hcode heval).trans (pushed_eq_of_concrete hp ht hg hcode)
    simp only [Meaning.into, Meaning.bring, ok_bind, Except.pure_eq_ok, if_true, hop]
    cases Meaning.orTrap s' (M.operate op t' v (M.constant t' (toString n))) <;> rfl

/-- The code of a condition goes on where the condition holds and skips where it does not. -/
theorem Expr.run_lowerCondition (hs : e.Sound p m.localType?) (hv : e.Valued p)
    (h : e.lowerCondition p = .ok code) (σ : List (Primitive × V)) (s : Store V W) :
    Machine.run M p m code ⟨σ, s, .running⟩ = e.evalTo M p .bool s >>= fun r =>
      .ok ⟨σ, r.2, if M.isTrue r.1 then .running else .toOtherwise 0⟩ := by
  rcases lowerCondition_ok h with ⟨c, hc, rfl⟩ |
    ⟨kind, left, n, type, c, t, hcmp, htype, hi, hc, rfl⟩
  · rw [Machine.run_append, (run_lower hs hv.toWhole).lowerTo hv.pushes hc]
    cases e.evalTo M p .bool s with
    | error => rfl
    | ok =>
      simp only [ok_bind]
      rw [Machine.run_singleton, step_running (command?_branch_none rfl)]
      rfl
  · obtain ⟨hkind, _, _, rfl⟩ := eq_of_comparison? hcmp
    obtain ⟨hvl, -⟩ := whole_binary_iff.1 hv.toWhole
    have hop : kind.operator.isComparison = true := by rcases hkind with rfl | rfl <;> rfl
    cases hs with
    | binary _ hleft =>
      rw [Machine.run_append, run_lower hleft hvl.toWhole none c t hc,
        evalTo_comparison hvl.pushes htype hi hop hc]
      cases left.eval M p none s with
      | error => rfl
      | ok r =>
        simp only [ok_bind]
        rw [Machine.run_singleton, step_running (command?_branch_some _ _), if_pos hvl.pushes]
        rcases hkind with rfl | rfl
        · simp only [Command.perform, Meaning.holds, Condition.operator]
          cases Meaning.orTrap r.2 (M.operate .equal r.1.1 r.1.2 (M.constant r.1.1 (toString n)))
            <;> rfl
        · simp only [Command.perform, Meaning.holds, Condition.operator]
          cases Meaning.orTrap r.2 (M.operate .notEqual r.1.1 r.1.2 (M.constant r.1.1 (toString n)))
            <;> rfl

/-! ## Statements -/

/-- The control of a machine that has done what ends so. -/
def Ending.control : Ending V → Control V
  | .fell => .running
  | .returned v => .returned v

/-- Whether code has the effect of an execution, from a control on, and leaves the stack alone. -/
def Machine.Does (M : Meaning V W) (p : Program) (m : Method) (code : Code)
    (c : Control V) (execution : Store V W → Except (Stop V W) (Ending V × Store V W)) : Prop :=
  ∀ σ s, Machine.run M p m code ⟨σ, s, c⟩ = execution s >>= fun r => .ok ⟨σ, r.2, r.1.control⟩

namespace Machine

theorem step_endBranch (σ : List (Primitive × V)) (s : Store V W) (ending : Ending V) :
    step M p m .endBranch ⟨σ, s, ending.control⟩ = .ok ⟨σ, s, ending.control⟩ := by
  cases ending <;> rfl

/-- The last part of a conditional is reached over its `otherwise` and closed by its end. -/
theorem Does.otherwise {code : Code}
    {execution : Store V W → Except (Stop V W) (Ending V × Store V W)}
    (h : Does M p m code .running execution) :
    Does M p m (.otherwise :: code ++ [Instruction.endBranch]) (.toOtherwise 0) execution := by
  intro σ s
  rw [cons_append, run_cons, step_skipping rfl rfl, ok_bind, run_append]
  have hcode : run M p m code ⟨σ, s, .running⟩ = _ := h σ s
  show run M p m code ⟨σ, s, .running⟩ >>= _ = _
  rw [hcode]
  cases execution s with
  | error => rfl
  | ok =>
    simp only [ok_bind]
    rw [run_singleton, step_endBranch]

/-- A conditional has the effect of the part that its condition chooses, if the one part is passed
over where the other is taken. -/
theorem does_conditional {cond : Expr} {test first rest : Code}
    {body alts : Store V W → Except (Stop V W) (Ending V × Store V W)}
    (htest : ∀ σ s, run M p m test ⟨σ, s, .running⟩ = cond.evalTo M p .bool s >>= fun r =>
      .ok ⟨σ, r.2, if M.isTrue r.1 then .running else .toOtherwise 0⟩)
    (hfirst : Does M p m first .running body) (hskip : Skips M p m first (.toOtherwise 0))
    (hrest : Does M p m (rest ++ [Instruction.endBranch]) (.toOtherwise 0) alts)
    (hpass : Skips M p m (rest ++ [Instruction.endBranch]) .running) :
    Does M p m (test ++ first ++ rest ++ [Instruction.endBranch]) .running fun s =>
      cond.evalTo M p .bool s >>= fun r =>
        if M.isTrue r.1 then body r.2 else alts r.2 := by
  intro σ s
  rw [append_assoc, append_assoc, run_append, htest]
  dsimp only
  cases cond.evalTo M p .bool s with
  | error => rfl
  | ok r =>
    simp only [ok_bind]
    rw [run_append]
    split
    · rw [hfirst]
      cases body r.2 with
      | error => rfl
      | ok r' =>
        simp only [ok_bind]
        obtain ⟨ending, s'⟩ := r'
        cases ending with
        | fell => exact hpass σ s'
        | returned v => exact run_returned _ σ s' v
    · rw [hskip, ok_bind, hrest]

end Machine

/-- After the first part of a conditional, the alternatives are passed over. -/
theorem Alternatives.skips_lower_running {returnType : Primitive} {a : Alternatives}
    (h : a.lower p returnType = .ok code) :
    Machine.Skips M p m (code ++ [.endBranch]) .running := by
  intro σ s
  rcases nest_lower a h with rfl | ⟨tail, rfl, htail⟩
  · rfl
  · -- the `otherwise` makes the running machine skip to the end
    have hskips : Machine.Skips M p m tail (.toEnd 0) := Nested.skips (htail []) rfl
    rw [Machine.run_append, run_cons, step_running command?_otherwise]
    simp only [Command.perform, ok_bind]
    rw [hskips σ s]
    rfl

mutual

/-- The code of a statement has the effect of the statement. -/
theorem Stmt.run_lower (hc : Concrete p m.localType?) :
    ∀ (s : Stmt) {code : Code}, s.Meets ((Demands.sound p m).both (.whole p)) →
      s.lower p m.returnType = .ok code → Machine.Does M p m code .running (s.exec M p m.returnType)
  | .expression e, code, ⟨hs, hw⟩, h => by
    intro σ s
    obtain ⟨c, pushed, hcode, rfl⟩ := Stmt.lower_expression_ok h
    have hrun := Expr.run_lower (M := M) hs hw none c pushed hcode σ s
    simp only [Stmt.exec]
    cases hp : e.pushes p with
    | false =>
      rw [if_pos (Expr.pushed_eq_void hp hcode), hrun, hp]
      cases e.eval M p none s <;> rfl
    | true =>
      have hleaks := Expr.leaks_of_voidFree p hw.voidFree
      rw [if_neg (Expr.Sound.pushed_ne_void hs hc hp hleaks hcode), Machine.run_append, hrun, hp]
      cases e.eval M p none s with
      | error => rfl
      | ok =>
        simp only [ok_bind, if_true]
        rw [Machine.run_singleton, Machine.step_running Instruction.command?_pop]
        rfl
  | .declare .., _, hs, _ => hs.elim
  | .ret none span, code, ⟨hs, _⟩, h => by
    intro σ s
    cases h
    rcases hs with ⟨-, hvoid⟩ | ⟨e, he, -⟩
    · rw [Machine.run_singleton, Machine.step_running Instruction.command?_ret]
      simp only [Command.perform, if_pos hvoid]
      rfl
    · cases he
  | .ret (some value) span, code, ⟨hs, hw⟩, h => by
    intro σ s
    obtain ⟨c, hcode, rfl⟩ := Stmt.lower_ret_ok h
    rcases hs with ⟨he, -⟩ | ⟨e, he, hvoid, hs⟩
    · cases he
    · cases he
      have hv := hw value rfl
      rw [Machine.run_append, (Expr.run_lower hs hv.toWhole).lowerTo hv.pushes hcode]
      simp only [Stmt.exec]
      cases value.evalTo M p m.returnType s with
      | error => rfl
      | ok =>
        simp only [ok_bind]
        rw [Machine.run_singleton, Machine.step_running Instruction.command?_ret]
        simp only [Command.perform, if_neg hvoid]
        rfl
  | .branch cond body alts span, code, ⟨⟨hcs, hcv⟩, hb, ha⟩, h => by
    obtain ⟨_, _, _, htest, hfirst, hrest, rfl⟩ := Stmt.lower_branch_ok h
    have hdoes := Machine.does_conditional (Expr.run_lowerCondition hcs hcv htest)
      (Stmt.run_lower hc body hb hfirst) (Nested.skips (Stmt.nest_lower body hfirst []) rfl)
      (Alternatives.run_lower hc alts ha hrest) (Alternatives.skips_lower_running hrest)
    intro σ s
    rw [hdoes σ s]
    simp only [Stmt.exec]
  | .block body span, code, hs, h => by
    simp only [Stmt.lower] at h
    intro σ s
    rw [Stmt.run_lowerAll hc body hs h σ s]
    simp only [Stmt.exec]
  | .assembly .., code, _, h => by
    cases h
    intro σ s
    rfl

theorem Alternatives.run_lower (hc : Concrete p m.localType?) : ∀ (a : Alternatives) {code : Code},
      a.Meets ((Demands.sound p m).both (.whole p)) → a.lower p m.returnType = .ok code →
      Machine.Does M p m (code ++ [.endBranch]) (.toOtherwise 0) (a.exec M p m.returnType)
  | .none, code, _, h => by
    cases h
    intro σ s
    rfl
  | .more none body next span, code, hb, h => by
    obtain ⟨first, hfirst, rfl⟩ := Alternatives.lower_none_ok h
    intro σ s
    rw [(Stmt.run_lower hc body hb hfirst).otherwise σ s]
    simp only [Alternatives.exec]
  | .more (some cond) body next span, code, ⟨⟨hcs, hcv⟩, hb, hn⟩, h => by
    obtain ⟨_, first, _, htest, hfirst, hrest, rfl⟩ := Alternatives.lower_some_ok h
    have hdoes := Machine.does_conditional (Expr.run_lowerCondition hcs hcv htest)
      (Stmt.run_lower hc body hb hfirst) (Nested.skips (Stmt.nest_lower body hfirst []) rfl)
      (Alternatives.run_lower hc next hn hrest) (Alternatives.skips_lower_running hrest)
    intro σ s
    rw [hdoes.otherwise σ s]
    simp only [Alternatives.exec]

theorem Stmt.run_lowerAll (hc : Concrete p m.localType?) : ∀ (body : List Stmt) {code : Code},
      Stmt.AllMeet ((Demands.sound p m).both (.whole p)) body →
      Stmt.lowerAll p m.returnType body = .ok code →
      Machine.Does M p m code .running (Stmt.execAll M p m.returnType body)
  | [], code, _, h => by
    cases h
    intro σ s
    rfl
  | first :: rest, code, ⟨hs, hrest⟩, h => by
    obtain ⟨_, _, hfirst, hmore, rfl⟩ := Stmt.lowerAll_cons_ok h
    intro σ s
    rw [Machine.run_append, Stmt.run_lower hc first hs hfirst σ s]
    simp only [Stmt.execAll]
    cases first.exec M p m.returnType s with
    | error => rfl
    | ok r =>
      simp only [ok_bind]
      obtain ⟨ending, s'⟩ := r
      cases ending with
      | fell => exact Stmt.run_lowerAll hc rest hrest hmore σ s'
      | returned v => exact Machine.run_returned _ σ s' v

end

/-! ## Nothing is stuck -/

/-- Whether an evaluation ends or traps, but is not stuck. -/
def Unstuck {α : Type} (x : Except (Stop V W) α) : Prop := x ≠ .error .stuck

theorem Unstuck.bind {β : Type} {x : Except (Stop V W) α} {f : α → Except (Stop V W) β}
    (hx : Unstuck x) (hf : ∀ a, Unstuck (f a)) : Unstuck (x >>= f) := by
  cases x with
  | error =>
    intro h
    exact hx (congrArg Except.error (Except.error.inj h))
  | ok a => exact hf a

theorem unstuck_ok (a : α) : Unstuck (.ok a : Except (Stop V W) α) := by
  intro h
  cases h

theorem unstuck_orTrap (s : Store V W) (x : Option α) : Unstuck (Meaning.orTrap s x) := by
  intro h
  cases x <;> cases h

theorem Unstuck.into {r : Except (Stop V W) ((Primitive × V) × Store V W)} (h : Unstuck r)
    (target : Primitive) : Unstuck (M.into target r) := by
  refine h.bind fun _ => Unstuck.bind ?_ fun v => unstuck_ok _
  unfold Meaning.bring
  split
  · exact unstuck_ok _
  · exact unstuck_orTrap _ _

theorem unstuck_evalArguments (h : ∀ a ∈ args, ∀ slot s, Unstuck (a.eval M p slot s)) :
    ∀ types s, Unstuck (Expr.evalArguments M p args types s) := by
  induction args with
  | nil =>
    intro types s
    simp only [Expr.evalArguments]
    exact unstuck_ok _
  | cons a _ ih =>
    intro types s
    cases types with
    | nil =>
      simp only [Expr.evalArguments]
      exact unstuck_ok _
    | cons type types =>
      simp only [Expr.evalArguments]
      refine ((h a (by simp) _ _).into type).bind fun r => ?_
      refine (ih (fun b hb => h b (mem_cons_of_mem _ hb)) types r.2).bind fun r' => ?_
      exact unstuck_ok _

theorem Expr.Sound.unstuck_eval {slots : Int → Option Primitive} (hs : e.Sound p slots) :
    ∀ slot s, Unstuck (e.eval M p slot s) := by
  induction hs with
  | literal =>
    intro slot s
    exact unstuck_ok _
  | name hu =>
    intro slot s
    simp only [Expr.eval, hu]
    exact unstuck_ok _
  | binary ht _ _ ihl ihr =>
    intro slot s
    obtain ⟨_, ht⟩ := ht
    obtain ⟨l, r, _, hl, hr, hc, -⟩ := typeIn_binary_ok ht
    simp only [Expr.eval, operandType?_eq hl hr hc]
    refine ((ihr _ _).into _).bind fun r => ((ihl _ _).into _).bind fun l => ?_
    exact (unstuck_orTrap _ _).bind fun _ => unstuck_ok _
  | assign hu _ _ ihv =>
    intro slot s
    simp only [Expr.eval, hu]
    exact ((ihv _ _).into _).bind fun r => unstuck_ok _
  | call hcallee _ _ ihargs =>
    intro slot s
    simp only [Expr.eval, hcallee]
    refine (unstuck_evalArguments ihargs _ _).bind fun r => Unstuck.bind ?_ fun r' => unstuck_ok _
    exact (unstuck_orTrap _ _).bind fun r' => unstuck_ok _
  | cast _ iho =>
    intro slot s
    simp only [Expr.eval]
    exact ((iho _ _).into _).bind fun r => unstuck_ok _

mutual

/-- The execution of a sound statement is never stuck. -/
theorem Stmt.unstuck_exec :
    ∀ s : Stmt, s.Meets (.sound p m) → ∀ st, Unstuck (s.exec M p m.returnType st)
  | .expression e, hs, st => by
    simp only [Stmt.exec]
    exact (Expr.Sound.unstuck_eval hs none st).bind fun r => unstuck_ok _
  | .declare .., hs, _ => hs.elim
  | .ret none span, _, st => by
    simp only [Stmt.exec]
    exact unstuck_ok _
  | .ret (some value) span, hs, st => by
    rcases hs with ⟨he, -⟩ | ⟨e, he, -, hs⟩
    · cases he
    · cases he
      simp only [Stmt.exec]
      exact ((hs.unstuck_eval _ st).into _).bind fun r => unstuck_ok _
  | .branch cond body alts span, ⟨hc, hb, ha⟩, st => by
    simp only [Stmt.exec]
    refine ((Expr.Sound.unstuck_eval hc _ st).into _).bind fun r => ?_
    split
    · exact Stmt.unstuck_exec body hb _
    · exact Alternatives.unstuck_exec alts ha _
  | .block body span, hs, st => by
    simp only [Stmt.exec]
    exact Stmt.unstuck_execAll body hs st
  | .assembly .., _, st => by
    simp only [Stmt.exec]
    exact unstuck_ok _

theorem Alternatives.unstuck_exec :
    ∀ a : Alternatives, a.Meets (.sound p m) → ∀ st, Unstuck (a.exec M p m.returnType st)
  | .none, _, st => by
    simp only [Alternatives.exec]
    exact unstuck_ok _
  | .more none body next span, hb, st => by
    simp only [Alternatives.exec]
    exact Stmt.unstuck_exec body hb st
  | .more (some cond) body next span, ⟨hc, hb, hn⟩, st => by
    simp only [Alternatives.exec]
    refine ((Expr.Sound.unstuck_eval hc _ st).into _).bind fun _ => ?_
    split
    · exact Stmt.unstuck_exec body hb _
    · exact Alternatives.unstuck_exec next hn _

theorem Stmt.unstuck_execAll : ∀ body : List Stmt, Stmt.AllMeet (.sound p m) body →
      ∀ st, Unstuck (Stmt.execAll M p m.returnType body st)
  | [], _, st => by
    simp only [Stmt.execAll]
    exact unstuck_ok _
  | first :: rest, ⟨hs, hrest⟩, st => by
    simp only [Stmt.execAll]
    refine (Stmt.unstuck_exec first hs st).bind fun _ => ?_
    split
    · exact Stmt.unstuck_execAll rest hrest _
    · exact unstuck_ok _

end

/-! ## Whole programs -/

/-- The code of every body of a value-clean program, run from an empty operand stack, has exactly
the effect of its checked statements, and that is never stuck: both end with the same slots, world,
calls and returned value or none, or both trap with the same store. -/
theorem evaluate_code_runs_statements (M : Meaning V W) (scripts : ScriptTable)
    (files : List SourceFile) (hclean : (resolved scripts files).program.ValueClean)
    {id : MethodId} {source : Method}
    (hsource : (checked scripts files).program.methodAt? id = some source)
    (hext : source.external = false) :
    ∃ target, (evaluate scripts files).program.methodAt? id = some target ∧ ∀ s : Store V W,
        Machine.run M (evaluate scripts files).program target target.code ⟨[], s, .running⟩ =
          (Stmt.execAll M (checked scripts files).program source.returnType source.statements s
            >>= fun r => .ok ⟨[], r.2, r.1.control⟩) ∧
        Stmt.execAll M (checked scripts files).program source.returnType source.statements s ≠
          .error .stuck := by
  obtain ⟨hsound, hconc, code, hcode, htarget⟩ := exists_code_of_checked hsource hext
  have hwhole : Stmt.AllMeet (.whole (checked scripts files).program) source.statements :=
    Evaluation.check_whole hclean hsource hext
  refine ⟨_, htarget, fun s => ⟨?_, Stmt.unstuck_execAll source.statements hsound s⟩⟩
  have hrun := Stmt.run_lowerAll (M := M) hconc source.statements
    (Stmt.AllMeet.both _ hsound hwhole) hcode [] s
  rw [← hrun]
  refine Machine.run_congr M (checked scripts files).outline_lower ?_ ?_ code _
  · rfl
  · rfl

/-- Integers of any size as values, with calls that answer the sum of their arguments. -/
def Sample.meaning : Meaning Int Unit where
  constant _ text := (Integer.readSigned? text.toList).getD 0
  convert _ target v := some (if target = .u8 then v % 256 else v)
  operate op _ l r :=
    match op with
    | .add => some (l + r)
    | .sub => some (l - r)
    | .mul => some (l * r)
    | .div => if r = 0 then none else some (l.tdiv r)
    | .rem => if r = 0 then none else some (l.tmod r)
    | .equal => some (if l = r then 1 else 0)
    | .notEqual => some (if l = r then 0 else 1)
  call _ args world := some (args.sum, world)
  isTrue v := v ≠ 0
  below _ l r := l < r

/-- The second method of the small program, run over integers. -/
theorem sample_code_runs_statements : (resolved Sample.scripts Sample.files).program.ValueClean ∧
      ∃ source target, (checked Sample.scripts Sample.files).program.methodAt? 1 = some source ∧
        source.external = false ∧
        (evaluate Sample.scripts Sample.files).program.methodAt? 1 = some target ∧
        ∀ s : Store Int Unit,
          Machine.run Sample.meaning (evaluate Sample.scripts Sample.files).program target
              target.code ⟨[], s, .running⟩ =
            (Stmt.execAll Sample.meaning (checked Sample.scripts Sample.files).program
              source.returnType source.statements s >>= fun r => .ok ⟨[], r.2, r.1.control⟩) ∧
          Stmt.execAll Sample.meaning (checked Sample.scripts Sample.files).program
            source.returnType source.statements s ≠ .error .stuck := by
  have hclean : (resolved Sample.scripts Sample.files).program.ValueClean := by decide +kernel
  have hmethod : ((checked Sample.scripts Sample.files).program.methodAt? 1).map (·.external) =
      some false := by decide +kernel
  obtain ⟨source, hsource, hext⟩ := Option.map_eq_some_iff.1 hmethod
  obtain ⟨target, htarget, hruns⟩ := evaluate_code_runs_statements Sample.meaning Sample.scripts
    Sample.files hclean hsource hext
  exact ⟨hclean, source, target, hsource, hext, htarget, hruns⟩

end ScriptCompiler
