import ScriptCompiler.Proofs.StructuredCode
import ScriptCompiler.Proofs.Words

/-!
# Integers

The interpretation of stack code over truth values and integers of at most 64 bits,
and the code that it gives a meaning to. Operators and conversions are those of
words at any width. A call goes to a function of numbers that is known by the
dotted name of the called method; the function may read and change a world, and its
result is cut to the type that the method returns.
-/

set_option autoImplicit false

namespace ScriptCompiler

open List Option

variable {W : Type}

namespace Primitive

/-- Whether the values are truth values or integers of at most 64 bits. -/
def isIntegral : Primitive → Bool
  | i8 | i16 | i32 | i64 | u8 | u16 | u32 | u64 | bool => true
  | _ => false

/-- Whether a method over such types may return the type. -/
def isIntegralResult (t : Primitive) : Bool := t == void || t.isIntegral

variable {t : Primitive}

theorem isIntegral_of_isIntegralResult (h : t.isIntegralResult = true) (hvoid : t ≠ .void) :
    t.isIntegral = true := by
  simpa [isIntegralResult, hvoid] using h

theorem isIntegral_bits (ht : t.isIntegral = true) : 0 < t.bits ∧ t.bits ≤ 64 := by
  revert ht
  cases t <;> decide

end Primitive

/-! ## The interpretation -/

/-- Functions of numbers, by name. -/
structure Functions (W : Type) where
  /-- The types of the arguments and of the result. -/
  signature? : String → Option (Types × Primitive)
  call : String → List Int → W → Int × W

/-- Truth values and integers of at most 64 bits. A constant of type `bool` may also be written as
a number. -/
def integers (F : Functions W) : Meaning Int W where
  constant type text :=
    if type = .bool ∧ text = "true" then 1 else (Integer.readSigned? text.toList).getD 0
  convert := words.convert
  operate := words.operate
  call target args world := do
    let r ← Reference.parse? target
    let (_, result) ← F.signature? r.flatName
    let (n, world) := F.call r.flatName args world
    return (result.lowBits n, world)
  isTrue := words.isTrue
  below := words.below

variable {cond : Condition} {args : List Int} {number : Option Int} {τ : Types}
  {result : Primitive} {target : String} (F : Functions W)

theorem integers_constant_repr (t : Primitive) (n : Int) :
    (integers F).constant t (toString n) = n := by
  have hread : Integer.readSigned? (toString n).toList = some n := Integer.readSigned?_repr n
  have htrue : toString n ≠ "true" := by
    intro h
    rw [h] at hread
    cases hread
  simp only [integers, htrue, and_false, if_false, hread, getD_some]

variable {t : Primitive} {m : Method} {σ : Types} {p : Program}

theorem integers_constant_eq {text : String} {n : Int} (hbool : t ≠ .bool)
    (h : Integer.readSigned? text.toList = some n) : (integers F).constant t text = n := by
  simp only [integers, hbool, false_and, if_false, h, getD_some]

/-- A call goes to the function of the name, and its result is cut to the declared type. -/
theorem integers_invoke {F : Functions W} {r : Reference} {parameters : Types}
    (hr : Reference.parse? target = some r)
    (hsignature : F.signature? r.flatName = some (parameters, result)) (args : List Int)
    (s : Store Int W) : (integers F).invoke target args s =
      .ok (result.lowBits (F.call r.flatName args s.world).1,
        { s with
          world := (F.call r.flatName args s.world).2
          calls := s.calls ++ [(target, args)] }) := by
  have hcall : (integers F).call target args s.world =
      some (result.lowBits (F.call r.flatName args s.world).1,
        (F.call r.flatName args s.world).2) := by
    simp only [integers, hr, hsignature, bind_eq_bind, bind_some]
    rfl
  rw [Meaning.invoke, hcall]
  rfl

/-- Whether a condition holds of a number, with the number that it compares with. -/
def Condition.test (cond : Condition) (bound n : Int) : Bool :=
  match cond with
  | .forced => Bool.true
  | .true => n != 0
  | .false | .zero => n == 0
  | .equal => n == bound
  | .unequal => n != bound
  | .greater => bound < n
  | .lesser => n < bound
  | .greaterEqual => bound ≤ n
  | .lesserEqual => n ≤ bound

theorem integers_holds (s : Store Int W) (h : cond.takesValue = false ∨ number.isSome = true)
    (x : Primitive × Int) :
    (integers F).holds s cond number x = .ok (cond.test (number.getD 0) x.2) := by
  have hequal : ∀ a b : Int, ((if a = b then (1 : Int) else 0) != 0) = (a == b) := by
    intro a b
    split <;> simp [*]
  have hunequal : ∀ a b : Int, ((if a = b then (0 : Int) else 1) != 0) = (a != b) := by
    intro a b
    split <;> simp [*]
  have hcompared : cond.takesValue = true → ∃ n, number = some n := by
    intro hvalue
    rw [hvalue] at h
    exact isSome_iff_exists.1 (h.resolve_left Bool.noConfusion)
  cases cond with
  | forced | true => rfl
  | false =>
    show Except.ok (!(x.2 != 0)) = Except.ok (x.2 == 0)
    rw [bne, Bool.not_not]
  | zero =>
    have hzero : (integers F).constant x.1 "0" = 0 := integers_constant_repr F x.1 0
    show Except.ok ((if x.2 = (integers F).constant x.1 "0" then (1 : Int) else 0) != 0) = _
    rw [hzero, hequal]
    rfl
  | equal =>
    obtain ⟨n, rfl⟩ := hcompared rfl
    show Except.ok ((if x.2 = (integers F).constant x.1 (toString n) then (1 : Int) else 0) != 0) = _
    rw [integers_constant_repr, hequal]
    rfl
  | unequal =>
    obtain ⟨n, rfl⟩ := hcompared rfl
    show Except.ok ((if x.2 = (integers F).constant x.1 (toString n) then (0 : Int) else 1) != 0) = _
    rw [integers_constant_repr, hunequal]
    rfl
  | greater | lesser =>
    obtain ⟨n, rfl⟩ := hcompared rfl
    simp only [Meaning.holds, integers_constant_repr]
    rfl
  | greaterEqual | lesserEqual =>
    obtain ⟨n, rfl⟩ := hcompared rfl
    simp only [Meaning.holds, integers_constant_repr]
    show Except.ok (!decide (_ < _)) = Except.ok (decide (_ ≤ _))
    rw [← decide_not]
    simp only [Int.not_lt, getD_some]

/-! ## Code over integers -/

/-- The method that the text of a reference leads to. -/
def Program.callee? (p : Program) (target : String) : Option Method :=
  ((Reference.parse? target).bind p.findMethod?).bind p.methodAt?

/-- Whether a text leads to a method, and the functions have the signature of the method under its
dotted name. -/
def Functions.Declares (F : Functions W) (p : Program) (target : String) : Prop :=
  ∃ r callee, Reference.parse? target = some r ∧ p.callee? target = some callee ∧
    F.signature? r.flatName = some (callee.parameterTypes, callee.returnType)

/-- Whether the functions have the signatures of all methods that code calls. -/
def Functions.DeclaresCalls (F : Functions W) (p : Program) (code : Code) : Prop :=
  ∀ i ∈ code, ∀ result target, i.command? = some (.call result target) → F.Declares p target

/-- Whether the operands of a command stay within integers: arithmetic is done on integer types,
constants lie in their type, a call names its callee with the type that it returns. Numbers are
written with 128 bits. -/
def Command.isIntegral (p : Program) : Command → Bool
  | .constant type text => type.isIntegral && type.reads text
  | .get index | .set index => Integer.isIndex index
  | .operate op type => type.isIntegral && (op.isComparison || type.isInteger)
  | .convert target => target.isIntegral
  | .call result target =>
    (p.callee? target).any fun callee =>
      callee.returnType == result && result.isIntegralResult &&
        callee.parameterTypes.all Primitive.isIntegral
  | .branch _ number => number.all (Integer.fits 128)
  | _ => true

/-- What a command does to types of integers. A branch takes its operand, and the number that it
compares with lies in the type of the operand. -/
def Command.integralStep (p : Program) (m : Method) (c : Command) (σ : Types) : Option Types :=
  if c.isIntegral p then
    match c, σ with
    | .branch .forced _, σ => some σ
    | .branch cond number, t :: σ =>
      if cond.takesValue = false ∨ number.any t.holds = true then some σ else none
    | c, σ => c.retype p m σ
  else none

theorem Command.retype_of_integralStep {c : Command} (hmark : c.isMark = false)
    (h : c.integralStep p m σ = some τ) : c.isIntegral p = true ∧ c.retype p m σ = some τ := by
  obtain ⟨hint, h⟩ := ite_none_right_eq_some.1 h
  refine ⟨hint, ?_⟩
  cases c <;> first | exact h | cases hmark

theorem Command.exists_of_retype_call (h : (Command.call result target).retype p m σ = some τ) :
    ∃ parameters rest, p.parametersOf? target = some parameters ∧ σ = parameters.reverse ++ rest ∧
      τ = if result = .void then rest else result :: rest := by
  rw [Command.retype] at h
  split at h
  · cases h
  · rename_i parameters hparams
    obtain ⟨⟨rest, rfl⟩, hsame⟩ := ite_none_right_eq_some.1 h
    refine ⟨parameters, rest, hparams, rfl, ?_⟩
    have hdrop : (parameters.reverse ++ rest).drop parameters.length = rest := by
      rw [← length_reverse, drop_left]
    rw [hdrop] at hsame
    exact (some.inj hsame).symm

/-- A branch on a condition finds its operand, and a number that it compares with in the type of the
operand. -/
theorem Command.exists_of_integralStep_branch {below : Types} (hforced : cond ≠ .forced)
    (h : (Command.branch cond number).integralStep p m σ = some below) :
    ∃ t, σ = t :: below ∧ (cond.takesValue = false ∨ number.any t.holds = true) := by
  obtain ⟨-, h⟩ := ite_none_right_eq_some.1 h
  cases σ with
  | nil => cases cond <;> first | exact absurd rfl hforced | cases h
  | cons t σ =>
    have hbelow : (if cond.takesValue = false ∨ number.any t.holds = true then some σ else none) =
        some below := by
      cases cond <;> first | exact absurd rfl hforced | exact h
    obtain ⟨hnumber, hsame⟩ := ite_none_right_eq_some.1 hbelow
    cases hsame
    exact ⟨t, rfl, hnumber⟩

/-- Whether a method works on truth values and integers of at most 64 bits, with well typed and
structured code. -/
structure Method.Integral (p : Program) (m : Method) : Prop where
  parameters : m.parameterTypes.all Primitive.isIntegral = true
  locals : m.locals.all Primitive.isIntegral = true
  result : m.returnType.isIntegralResult = true
  code : (leavesTypes? (Command.integralStep p m) m.code).isSome = true

theorem Method.Integral.slot (h : m.Integral p) {index : Int} (ht : m.localType? index = some t) :
    t.isIntegral = true := by
  unfold Method.localType? at ht
  split at ht
  · exact List.all_eq_true.1 h.parameters t (mem_of_getElem? ht)
  · exact List.all_eq_true.1 h.locals t (mem_of_getElem? ht)

/-- Whether a method can be called with numbers: one for each parameter, each a value of its type. -/
def Method.accepts (m : Method) (args : List Int) : Bool :=
  args.length == m.parameterTypes.length &&
    (m.parameterTypes.zip args).all fun x => x.1.holds x.2

theorem Method.length_of_accepts (m : Method) (h : m.accepts args = true) :
    args.length = m.parameterTypes.length :=
  beq_iff_eq.1 (Bool.and_eq_true_iff.1 h).1

theorem Method.exists_argument (h : m.accepts args = true) {k : Nat}
    (ht : m.parameterTypes[k]? = some t) : ∃ n, args[k]? = some n ∧ t.holds n = true := by
  have hall := (Bool.and_eq_true_iff.1 h).2
  obtain ⟨hlt, -⟩ := List.getElem?_eq_some_iff.1 ht
  rw [← m.length_of_accepts h] at hlt
  have hn := getElem?_eq_getElem hlt
  have hpair : (m.parameterTypes.zip args)[k]? = some (t, args[k]) :=
    getElem?_zip_eq_some.2 ⟨ht, hn⟩
  exact ⟨_, hn, List.all_eq_true.1 hall _ (mem_of_getElem? hpair)⟩

/-- The store in which a method starts: its parameters, zero in its locals, nothing called. -/
def Method.entry (args : List Int) (world : W) : Store Int W where
  locals index := if index < 0 then args[(-index - 1).toNat]?.getD 0 else 0
  world := world

/-! ## Traps -/

/-- Whether a run comes to an operator without a quotient: the divisor is zero, or the quotient is no
value of the type. -/
def Machine.LacksQuotient (F : Functions W) (p : Program) (m : Method) (code : Code)
    (k : Machine Int W) : Prop :=
  ∃ before i after op t x y σ s, code = before ++ i :: after ∧
    Machine.run (integers F) p m before k = .ok ⟨x :: y :: σ, s, .running⟩ ∧
    i.command? = some (.operate op t) ∧ (op = .div ∨ op = .rem) ∧
    (y.2 = 0 ∨ t.holds (x.2.tdiv y.2) = false)

section

variable {F : Functions W} {p : Program} {m : Method}

theorem integers_operate_eq_none_iff (F : Functions W) {op : BinaryOp} {a b : Int} :
    (integers F).operate op t a b = none ↔
      (op = .div ∨ op = .rem) ∧ (b = 0 ∨ t.holds (a.tdiv b) = false) := by
  cases op <;> simp [integers, words, Decidable.or_iff_not_imp_left]

variable {s' : Store Int W}

theorem integers_holds_ne_trapped (F : Functions W) (s : Store Int W) (cond : Condition)
    (number : Option Int) (x : Primitive × Int) :
    (integers F).holds s cond number x ≠ .error (.trapped s') := by
  by_cases hgiven : cond.takesValue = false ∨ number.isSome = true
  · rw [integers_holds F s hgiven]
    simp
  · obtain ⟨hvalue, hnumber⟩ := not_or.1 hgiven
    obtain rfl := not_isSome_iff_eq_none.1 hnumber
    cases cond <;> first | exact absurd rfl hvalue | simp [Meaning.holds]

/-- Only operators trap, if all calls lead to functions. -/
theorem Command.operate_of_trapped {c : Command} {σ : List (Primitive × Int)} {s : Store Int W}
    (hcall : ∀ result target, c = .call result target → F.Declares p target)
    (h : c.perform (integers F) p m σ s = .error (.trapped s')) :
    ∃ op t x y rest, c = .operate op t ∧ σ = x :: y :: rest ∧
      (integers F).operate op t x.2 y.2 = none := by
  cases c with
  | nop | constant | otherwise | endBranch => cases h
  | get =>
    simp only [Command.perform] at h
    split at h <;> cases h
  | set =>
    cases σ with
    | nil => cases h
    | cons =>
      simp only [Command.perform] at h
      split at h <;> cases h
  | operate op t =>
    rcases σ with _ | ⟨x, _ | ⟨y, rest⟩⟩
    · cases h
    · cases h
    · cases hn : (integers F).operate op t x.2 y.2 with
      | none => exact ⟨op, t, x, y, rest, rfl, rfl, hn⟩
      | some =>
        rw [Command.perform, hn] at h
        cases h
  | convert =>
    cases σ with
    | nil => cases h
    | cons =>
      rw [Command.perform, Meaning.bring] at h
      split at h <;> cases h
  | call result target =>
    obtain ⟨_, _, hr, -, hsignature⟩ := hcall result target rfl
    simp only [Command.perform, integers_invoke hr hsignature, ok_bind] at h
    split at h
    · cases h
    · split at h <;> cases h
  | branch cond number =>
    by_cases hforced : cond = .forced
    · subst hforced
      cases h
    · cases σ with
      | nil => cases cond <;> first | exact absurd rfl hforced | cases h
      | cons x =>
        rw [Command.perform] at h
        · cases htest : (integers F).holds s cond number x with
          | error =>
            rw [htest] at h
            cases h
            exact absurd htest (integers_holds_ne_trapped F s cond number x)
          | ok =>
            rw [htest] at h
            cases h
        · exact hforced
  | ret =>
    simp only [Command.perform] at h
    split at h
    · cases h
    · split at h <;> cases h
  | pop => cases σ <;> cases h

/-- A run traps exactly at an operator without a quotient. -/
theorem Machine.lacksQuotient_iff {code : Code} (hcalls : F.DeclaresCalls p code)
    (k : Machine Int W) : LacksQuotient F p m code k ↔
      ∃ s, Machine.run (integers F) p m code k = .error (.trapped s) := by
  constructor
  · rintro ⟨before, i, after, op, t, x, y, σ, s, rfl, hbefore, hi, hop, hquot⟩
    refine ⟨s, ?_⟩
    have hnone := (integers_operate_eq_none_iff F).2 ⟨hop, hquot⟩
    rw [run_append, hbefore, ok_bind, run_cons, step_running hi, Command.perform, hnone]
    rfl
  · rintro ⟨s, h⟩
    obtain ⟨before, i, after, ⟨σ, st, control⟩, rfl, hbefore, hi⟩ := exists_of_run_error h
    cases control with
    | toOtherwise | toEnd | returned => cases hi
    | running =>
      cases hc : i.command? with
      | none =>
        simp only [step, hc] at hi
        cases hi
      | some =>
        rw [step_running hc] at hi
        obtain ⟨op, t, x, y, rest, rfl, rfl, hnone⟩ := Command.operate_of_trapped (by
          rintro result target rfl
          exact hcalls i (by simp) result target hc) hi
        obtain ⟨hop, hquot⟩ := (integers_operate_eq_none_iff F).1 hnone
        exact ⟨before, i, after, op, t, x, y, rest, st, rfl, hbefore, hc, hop, hquot⟩

end

end ScriptCompiler
