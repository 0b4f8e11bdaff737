import ScriptCompiler.Proofs.Integers
import ScriptCompiler.Proofs.Wat.Emission
import ScriptCompiler.Proofs.Wat.Execution

/-!
# Valid bodies

A body is valid if every instruction finds operands of the types that it is made for, and what is
left at the end is the result. `return` and `unreachable` may be followed by anything; a conditional
takes an `i32`, and each of its parts leads from the empty stack to the empty stack. Code that obeys
its types on the operand stack always gets a valid body.
-/

set_option autoImplicit false

namespace ScriptCompiler.Wat

open List Option

/-! ## Rules -/

/-- The type of a function. -/
structure FunctionType where
  parameters : List ValueType
  result : Option ValueType
  deriving DecidableEq, Repr

/-- What a body can refer to. -/
structure Declarations where
  /-- Whether there is a function of this name and type. -/
  functions : String → FunctionType → Prop
  /-- The types of the locals, the parameters first. -/
  locals : List ValueType
  result : Option ValueType

/-- The type of an operation on values of one type, if the instruction set has it. -/
def NumericOp.type? (v : ValueType) : NumericOp → Option FunctionType
  | add | sub | mul => some ⟨[v, v], some v⟩
  | div => if v.isInteger then none else some ⟨[v, v], some v⟩
  | trunc => if v.isInteger then none else some ⟨[v], some v⟩
  | divInt _ | rem _ | and => if v.isInteger then some ⟨[v, v], some v⟩ else none
  | extend8 | extend16 => if v.isInteger then some ⟨[v], some v⟩ else none
  | eq | ne => some ⟨[v, v], some .i32⟩
  | eqz => if v.isInteger then some ⟨[v], some .i32⟩ else none
  | order _ => if v.isInteger then none else some ⟨[v, v], some .i32⟩
  | orderInt .. => if v.isInteger then some ⟨[v, v], some .i32⟩ else none

/-- Whether an instruction has a type. -/
inductive Op.HasType (D : Declarations) : Op → FunctionType → Prop where
  | nop : HasType D .nop ⟨[], none⟩
  | drop {v : ValueType} : HasType D .drop ⟨[v], none⟩
  | call {name : String} {type : FunctionType} (h : D.functions name type) :
      HasType D (.call name) type
  | localGet {k : Nat} {v : ValueType} (h : D.locals[k]? = some v) :
      HasType D (.localGet k) ⟨[], some v⟩
  | localSet {k : Nat} {v : ValueType} (h : D.locals[k]? = some v) :
      HasType D (.localSet k) ⟨[v], none⟩
  | const {v : ValueType} {n : Int} : HasType D (.const v n) ⟨[], some v⟩
  | constReal {v : ValueType} {x : Double} (h : v.isInteger = false) :
      HasType D (.constReal v x) ⟨[], some v⟩
  | numeric {v : ValueType} {op : NumericOp} {type : FunctionType} (h : op.type? v = some type) :
      HasType D (.numeric v op) type
  | extend {sign : Sign} : HasType D (.extend sign) ⟨[.i32], some .i64⟩
  | wrap : HasType D .wrap ⟨[.i64], some .i32⟩
  | convert {target source : ValueType} {sign : Sign} (htarget : target.isInteger = false)
      (hsource : source.isInteger = true) :
      HasType D (.convert target source sign) ⟨[source], some target⟩
  | truncate {target source : ValueType} {sign : Sign} (htarget : target.isInteger = true)
      (hsource : source.isInteger = false) :
      HasType D (.truncate target source sign) ⟨[source], some target⟩
  | promote : HasType D .promote ⟨[.f32], some .f64⟩
  | demote : HasType D .demote ⟨[.f64], some .f32⟩

/-- Whether an instruction leads from a stack to another one; the latest value is the first. -/
inductive Op.Valid (D : Declarations) : Op → List ValueType → List ValueType → Prop where
  | typed {op : Op} {type : FunctionType} (h : op.HasType D type) (below : List ValueType) :
      Valid D op (type.parameters.reverse ++ below) (type.result.toList ++ below)
  | ret (below after : List ValueType) : Valid D .ret (D.result.toList ++ below) after
  | unreachable (before after : List ValueType) : Valid D .unreachable before after

mutual

/-- Whether a line leads from a stack to another one. -/
inductive Line.Valid (D : Declarations) : Line Op → List ValueType → List ValueType → Prop where
  | op {op : Op} {before after : List ValueType} (h : op.Valid D before after) :
      Valid D (.op op) before after
  | ifThen {body : Body} {below : List ValueType} (hbody : Line.AllValid D body [] []) :
      Valid D (.ifThen body) (.i32 :: below) below
  | ifElse {body alt : Body} {below : List ValueType}
      (hbody : Line.AllValid D body [] []) (halt : Line.AllValid D alt [] []) :
      Valid D (.ifElse body alt) (.i32 :: below) below

/-- Whether lines lead from a stack to another one. -/
inductive Line.AllValid (D : Declarations) :
    Body → List ValueType → List ValueType → Prop where
  | nil {stack : List ValueType} : AllValid D [] stack stack
  | cons {line : Line Op} {rest : Body} {before between after : List ValueType}
      (hline : Line.Valid D line before between) (hrest : Line.AllValid D rest between after) :
      AllValid D (line :: rest) before after

end

/-- What the body of a function can refer to. -/
def Function.declarations (f : Function) (functions : String → FunctionType → Prop) :
    Declarations where
  functions
  locals := f.localTypes
  result := f.result

/-- Whether the body of a function is valid: it leads from the empty stack to the empty stack, and if
a result is due its end cannot be reached. -/
def Function.Valid (functions : String → FunctionType → Prop) (f : Function) : Prop :=
  if f.result.isSome then ∀ stack, Line.AllValid (f.declarations functions) f.body [] stack
  else Line.AllValid (f.declarations functions) f.body [] []

variable {D : Declarations} {σ τ : List ValueType}

theorem Line.AllValid.append {a b : Body} {υ : List ValueType}
    (ha : Line.AllValid D a σ τ) (hb : Line.AllValid D b τ υ) : Line.AllValid D (a ++ b) σ υ := by
  induction a generalizing σ with
  | nil =>
    cases ha
    exact hb
  | cons _ _ ih =>
    cases ha with
    | cons hline hrest => exact .cons hline (ih hrest)

theorem Line.AllValid.singleton {line : Line Op} (h : line.Valid D σ τ) :
    Line.AllValid D [line] σ τ :=
  .cons h .nil

/-! ## Straight instructions -/

/-- Whether instructions take values of the one types from the top of the stack and leave the others,
whatever is below. -/
def OpsValid (D : Declarations) (ops : List Op) (taken left : List ValueType) : Prop :=
  ∀ below, Line.AllValid D (ops.map .op) (taken ++ below) (left ++ below)

section

variable {a b : List Op} {x y z : List ValueType} {v : ValueType}

theorem OpsValid.refl (x : List ValueType) : OpsValid D [] x x := fun _ => .nil

theorem OpsValid.trans (ha : OpsValid D a x y) (hb : OpsValid D b y z) : OpsValid D (a ++ b) x z := by
  intro below
  rw [map_append]
  exact (ha below).append (hb below)

theorem OpsValid.frame (h : OpsValid D a x y) (more : List ValueType) :
    OpsValid D a (x ++ more) (y ++ more) := by
  intro below
  rw [append_assoc, append_assoc]
  exact h (more ++ below)

theorem Op.HasType.valid {op : Op} {type : FunctionType} (h : op.HasType D type) :
    OpsValid D [op] type.parameters.reverse type.result.toList :=
  fun below => .singleton (.op (.typed h below))

theorem OpsValid.unary {op : NumericOp} {w : ValueType} (h : op.type? v = some ⟨[v], some w⟩) :
    OpsValid D [.numeric v op] [v] [w] :=
  (Op.HasType.numeric h).valid

theorem OpsValid.binary {op : NumericOp} {w : ValueType} (h : op.type? v = some ⟨[v, v], some w⟩) :
    OpsValid D [.numeric v op] [v, v] [w] :=
  (Op.HasType.numeric h).valid

theorem OpsValid.pushed {op : Op} (h : op.HasType D ⟨[], some v⟩) (hb : OpsValid D b (v :: x) z) :
    OpsValid D (op :: b) x z :=
  (h.valid.frame x).trans hb

end

/-! ## Operators, conversions and conditions -/

section

variable {t : Primitive} {v : ValueType}

/-- Floats, and no other values, are represented by floats. -/
theorem isInteger_of_ofPrimitive? (hv : ValueType.ofPrimitive? t = some v) :
    v.isInteger = !t.isFloating := by
  revert hv
  cases t <;> rintro ⟨⟩ <;> rfl

theorem narrow_valid (hv : ValueType.ofPrimitive? t = some v) : OpsValid D (narrow t) [v] [v] := by
  cases t with
  | i8 | i16 =>
    cases hv
    exact .unary rfl
  | u8 | u16 =>
    cases hv
    exact .pushed .const (.binary rfl)
  | _ => exact .refl _

variable {op : BinaryOp} {ops : List Op}

section

variable (hv : ValueType.ofPrimitive? t = some v)
  (hreal : (t.isFloating && op.opcode == .rem) = false)
include hv hreal

/-- An operator that is not the remainder of floats has an instruction. -/
theorem operation_type? : (operation op.opcode t).1.type? v =
      some ⟨[v, v], some (.ofPrimitive (operation op.opcode t).2)⟩ := by
  have hinteger := isInteger_of_ofPrimitive? hv
  have hsame := ofPrimitive_eq hv
  cases op with
  | add | sub | mul =>
    rw [← hsame]
    rfl
  | div =>
    cases hfloat : t.isFloating <;>
      simp [operation, BinaryOp.opcode, NumericOp.type?, hfloat, hinteger, hsame]
  | rem =>
    have hfloat : t.isFloating = false := by simpa [BinaryOp.opcode] using hreal
    simp [operation, BinaryOp.opcode, NumericOp.type?, hfloat, hinteger, hsame]
  | equal | notEqual => rfl

theorem resultOps_valid :
    OpsValid D (resultOps op t v) [v, v] [.ofPrimitive (operation op.opcode t).2] := by
  have hnumeric := OpsValid.binary (D := D) (operation_type? hv hreal)
  by_cases hsame : (operation op.opcode t).2 = t
  · rw [resultOps, if_pos hsame]
    refine hnumeric.trans ?_
    rw [hsame, ofPrimitive_eq hv]
    exact narrow_valid hv
  · rw [resultOps, if_neg hsame]
    exact hnumeric

end

/-- The remainder of floats is put together from other instructions. -/
theorem realRemainder_valid {left right : Nat} (hv : v.isInteger = false)
    (hleft : D.locals[left]? = some v) (hright : D.locals[right]? = some v) :
    OpsValid D (realRemainder v left right) [] [v] := by
  have hdiv : OpsValid D [.numeric v .div] [v, v] [v] := .binary (by simp [NumericOp.type?, hv])
  have htrunc : OpsValid D [.numeric v .trunc] [v] [v] := .unary (by simp [NumericOp.type?, hv])
  have hmul : OpsValid D [.numeric v .mul] [v, v] [v] := .binary rfl
  have hsub : OpsValid D [.numeric v .sub] [v, v] [v] := .binary rfl
  exact .pushed (.localGet hleft) <| .pushed (.localGet hleft) <| .pushed (.localGet hright) <|
    (hdiv.frame [v]).trans <| (htrunc.frame [v]).trans <| .pushed (.localGet hright) <|
    (hmul.frame [v]).trans hsub

theorem operateOps_valid {op : BinaryOp} {first : Nat} (hv : ValueType.ofPrimitive? t = some v)
    (hfirst : isOrdered op.opcode = true →
      D.locals[first]? = some v ∧ D.locals[first + 1]? = some v) :
    OpsValid D (operateOps op t v first) [v, v] [.ofPrimitive (operation op.opcode t).2] := by
  unfold operateOps
  by_cases hord : isOrdered op.opcode = true
  · obtain ⟨hleft, hright⟩ := hfirst hord
    have hset : OpsValid D [.localSet first, .localSet (first + 1)] [v, v] [] :=
      ((Op.HasType.localSet hleft).valid.frame [v]).trans (Op.HasType.localSet hright).valid
    rw [if_pos hord]
    refine hset.trans ?_
    cases hreal : t.isFloating && op.opcode == .rem with
    | true =>
      obtain ⟨hfloat, hrem⟩ := Bool.and_eq_true_iff.1 hreal
      have hres : (operation op.opcode t).2 = t := by
        rw [beq_iff_eq.1 hrem]
        rfl
      rw [if_pos rfl, hres, ofPrimitive_eq hv]
      apply realRemainder_valid _ hleft hright
      rw [isInteger_of_ofPrimitive? hv, hfloat]
      rfl
    | false =>
      rw [if_neg Bool.false_ne_true]
      exact .pushed (.localGet hleft) <| .pushed (.localGet hright) <| resultOps_valid hv hreal
  · rw [if_neg hord]
    apply resultOps_valid hv
    cases op with
    | rem => exact absurd rfl hord
    | _ => exact Bool.and_false _

theorem between_valid (source target : Primitive) (v w : ValueType) :
    OpsValid D (between source target v w) [v] [w] := by
  cases v <;> cases w
  case i32.i32 | i64.i64 | f32.f32 | f64.f64 => exact .refl _
  case i32.i64 => exact Op.HasType.extend.valid
  case i64.i32 => exact Op.HasType.wrap.valid
  case f32.f64 => exact Op.HasType.promote.valid
  case f64.f32 => exact Op.HasType.demote.valid
  case i32.f32 | i32.f64 | i64.f32 | i64.f64 => exact (Op.HasType.convert rfl rfl).valid
  case f32.i32 | f32.i64 | f64.i32 | f64.i64 => exact (Op.HasType.truncate rfl rfl).valid

theorem conversion_valid {c : Context} {source target : Primitive}
    (h : conversion c source target = .ok ops) (htext : ¬(source = .str ∨ target = .str)) :
    OpsValid D ops [.ofPrimitive source] [.ofPrimitive target] := by
  unfold conversion at h
  by_cases hsame : source = target
  · rw [if_pos hsame] at h
    cases h
    rw [hsame]
    exact .refl _
  · rw [if_neg hsame, if_neg htext] at h
    cases hv : ValueType.ofPrimitive? source with
    | none =>
      simp only [hv] at h
      cases h
    | some v =>
      cases hw : ValueType.ofPrimitive? target with
      | none =>
        simp only [hv, hw] at h
        cases h
      | some w =>
        simp only [hv, hw] at h
        rw [ofPrimitive_eq hv, ofPrimitive_eq hw]
        by_cases hbool : target = .bool ∧ ¬source.isFloating
        · rw [if_pos hbool] at h
          cases h
          rw [hbool.1] at hw
          cases hw
          exact .pushed .const (.binary rfl)
        · rw [if_neg hbool] at h
          cases h
          exact (between_valid source target v w).trans (narrow_valid hw)

theorem comparison_type? (cond : Condition) (hv : ValueType.ofPrimitive? t = some v) :
    (comparison cond t).type? v = some ⟨[v, v], some .i32⟩ := by
  have hinteger := isInteger_of_ofPrimitive? hv
  cases hfloat : t.isFloating <;> cases cond <;>
    simp [comparison, NumericOp.type?, hfloat, hinteger]

theorem conditionOps_valid {i : Instruction} {cond : Condition} {number : Option Int}
    (hv : ValueType.ofPrimitive? t = some v) (h : conditionOps i cond number t v = .ok ops) :
    OpsValid D ops [v] [.i32] := by
  have hinteger := isInteger_of_ofPrimitive? hv
  have hcompared : cond ≠ .true → cond ≠ .false → cond ≠ .zero →
      OpsValid D ops [v] [.i32] := by
    intro _ _ hzero
    cases number with
    | none => cases cond <;> contradiction
    | some n =>
      have hops : ops = [.const v n, .numeric v (comparison cond t)] := by
        cases cond <;> first | contradiction | exact (Except.ok.inj h).symm
      rw [hops]
      exact .pushed .const (.binary (comparison_type? cond hv))
  have hzero : OpsValid D
      (if t.isFloating then [.const v 0, .numeric v .eq] else [.numeric v .eqz]) [v] [.i32] := by
    cases hfloat : t.isFloating with
    | true => exact .pushed .const (.binary rfl)
    | false => exact .unary (by simp [NumericOp.type?, hinteger, hfloat])
  cases cond with
  | true =>
    cases h
    by_cases hsame : v = .i32
    · rw [if_pos hsame, hsame]
      exact .refl _
    · rw [if_neg hsame]
      exact .pushed .const (.binary rfl)
  | false | zero =>
    cases h
    exact hzero
  | _ => exact hcompared nofun nofun nofun

end

/-! ## Commands -/

/-- Whether a command keeps to its types: no text is converted or loaded through a function, and a
call names the type that the method returns. -/
def keepsTypes (p : Program) (loadString : Option String) : Command → Types → Bool
  | .constant .str _, _ => loadString.isNone
  | .convert target, source :: _ => source != .str && target != .str
  | .call result target, _ => (p.callee? target).any fun callee => callee.returnType == result
  | _, _ => true

/-- What a command does to the types of a part, if it keeps to them. A branch takes an operand of any
type. -/
def typedStep (p : Program) (m : Method) (loadString : Option String) (command : Command)
    (σ : Types) : Option Types :=
  if keepsTypes p loadString command σ then
    match command, σ with
    | .branch .forced _, σ => some σ
    | .branch _ _, _ :: σ => some σ
    | command, σ => command.retype p m σ
  else none

/-- Whether a method has the type of a function. -/
def HasFunctionType (m : Method) (type : FunctionType) : Prop :=
  m.parameterTypes.map ValueType.ofPrimitive? = type.parameters.map some ∧
    m.result?.map ValueType.ofPrimitive? = type.result.map some

/-- Whether there is a function under the dotted name of the method that a text leads to, with the
type of the method. -/
def Declares (functions : String → FunctionType → Prop) (p : Program) (target : String) : Prop :=
  ∃ r callee type, Reference.parse? target = some r ∧ p.callee? target = some callee ∧
    HasFunctionType callee type ∧ functions r.flatName type

/-- Whether there is a function for every method that code calls. -/
def DeclaresCalls (functions : String → FunctionType → Prop) (p : Program) (code : Code) : Prop :=
  ∀ i ∈ code, ∀ result target, i.command? = some (.call result target) → Declares functions p target

/-- Whether the declarations of a function are those of a method with these scratch locals. -/
structure Provides (m : Method) (S : List (ValueType × Nat)) (D : Declarations) : Prop where
  slots : ∀ index t, m.localType? index = some t → D.locals[slotOf m index]? = some (.ofPrimitive t)
  scratch : Fits m D.locals S
  result : D.result = m.result?.map .ofPrimitive

section

variable {p : Program} {m : Method} {c : Context} {S : List (ValueType × Nat)} {command : Command}
  {σ τ ρ outer : Types} {ops : List Op}

theorem retype_of_typedStep {loadString : Option String} (hmark : command.isMark = false)
    (h : typedStep p m loadString command σ = some τ) :
    keepsTypes p loadString command σ = true ∧ command.retype p m σ = some τ := by
  obtain ⟨hkeeps, h⟩ := ite_none_right_eq_some.1 h
  refine ⟨hkeeps, ?_⟩
  cases command <;> first | exact h | cases hmark

theorem push_valid {op : Op} {t : Primitive} {v : ValueType} (hv : ValueType.ofPrimitive? t = some v)
    (h : op.HasType D ⟨[], some v⟩) (σ : Types) :
    Line.AllValid D ([op].map .op) (σ.map .ofPrimitive) ((t :: σ).map .ofPrimitive) := by
  obtain rfl := ofPrimitive_eq hv
  exact h.valid _

variable {types : Types}

/-- So are those of a call. -/
theorem Emits.valid_call {result : Primitive} {text : String}
    (h : Emits c S (.call result text) types ops ρ) (htypes : types = σ ++ outer)
    (hkeeps : keepsTypes c.program c.loadString (.call result text) σ = true)
    (hretype : (Command.call result text).retype c.program c.method σ = some τ) :
    ρ = τ ++ outer ∧ ∀ D : Declarations, Declares D.functions c.program text →
      Line.AllValid D (ops.map .op) (σ.map .ofPrimitive) (τ.map .ofPrimitive) := by
  cases h with
  | @call taken rest _ _ r callee hr hcallee htaken =>
    obtain ⟨parameters, below, hparams, rfl, rfl⟩ := Command.exists_of_retype_call hretype
    have hcalled : c.program.callee? text = some callee := by
      rw [Program.callee?, hr, bind_some, hcallee]
    have htyped : callee.parameterTypes = parameters := by
      rw [Program.parameterTypes_of_findMethod? hcallee, Program.parameters_of_parse? hparams hr]
    have hlen : taken.length = parameters.reverse.length := by
      rw [htaken, length_reverse, ← htyped, Method.parameterTypes, length_map]
    rw [append_assoc] at htypes
    obtain ⟨-, hrest⟩ := append_inj htypes hlen
    have hreturn : callee.returnType = result := by simpa [keepsTypes, hcalled] using hkeeps
    refine ⟨?_, ?_⟩
    · rw [hrest]
      split <;> rfl
    · intro D hcalls
      obtain ⟨_, _, _, hr', hcallee', ⟨htaken, hleft⟩, hfunction⟩ := hcalls
      obtain rfl := some.inj (hr.symm.trans hr')
      obtain rfl := some.inj (hcalled.symm.trans hcallee')
      have hcall := (Op.HasType.call hfunction).valid (below.map .ofPrimitive)
      rw [← map_ofPrimitive htaken, ← result_ofPrimitive hleft, htyped, Method.result?, hreturn] at hcall
      rw [map_append, map_reverse]
      by_cases hvoid : result = .void
      · rw [if_pos hvoid] at hcall ⊢
        exact hcall
      · rw [if_neg hvoid] at hcall ⊢
        exact hcall

/-- The instructions of a well typed command are valid. -/
theorem Emits.valid (h : Emits c S command types ops ρ) (htypes : types = σ ++ outer)
    (hmark : command.isMark = false)
    (hstep : typedStep c.program c.method c.loadString command σ = some τ) :
    ρ = τ ++ outer ∧ ∀ D : Declarations, Provides c.method S D →
      (∀ result target, command = .call result target → Declares D.functions c.program target) →
      Line.AllValid D (ops.map .op) (σ.map .ofPrimitive) (τ.map .ofPrimitive) := by
  obtain ⟨hkeeps, hretype⟩ := retype_of_typedStep hmark hstep
  cases h with
  | nop =>
    cases hretype
    exact ⟨htypes, fun D _ _ => Op.HasType.nop.valid _⟩
  | text =>
    cases hretype
    refine ⟨congrArg (_ :: ·) htypes, fun D _ _ => ?_⟩
    rw [isNone_iff_eq_none.1 hkeeps]
    exact @push_valid D _ .str .i64 rfl .const σ
  | truth =>
    cases hretype
    exact ⟨congrArg (_ :: ·) htypes, fun D _ _ => @push_valid D _ .bool .i32 rfl .const σ⟩
  | real ht hv =>
    cases hretype
    have hfloat := isInteger_of_ofPrimitive? hv
    rw [ht] at hfloat
    exact ⟨congrArg (_ :: ·) htypes, fun D _ _ => push_valid hv (.constReal hfloat) σ⟩
  | integer hv =>
    cases hretype
    exact ⟨congrArg (_ :: ·) htypes, fun D _ _ => push_valid hv .const σ⟩
  | get ht =>
    rw [Command.retype, ht] at hretype
    cases hretype
    exact ⟨congrArg (_ :: ·) htypes, fun D hD _ => (Op.HasType.localGet (hD.slots _ _ ht)).valid _⟩
  | set =>
    cases σ with
    | nil => cases hretype
    | cons =>
      obtain ⟨hu, hsame⟩ := ite_none_right_eq_some.1 hretype
      cases hsame
      exact ⟨(List.cons.inj htypes).2, fun D hD _ => (Op.HasType.localSet (hD.slots _ _ hu)).valid _⟩
  | @operate _ _ _ t v op first hv hfirst =>
    rcases σ with _ | ⟨_, _ | ⟨_, σ⟩⟩
    · cases hretype
    · cases hretype
    · obtain ⟨⟨rfl, rfl⟩, hsame⟩ := ite_none_right_eq_some.1 hretype
      cases hsame
      refine ⟨congrArg (_ :: ·) (List.cons.inj (List.cons.inj htypes).2).2, fun D hD _ => ?_⟩
      have hops := @operateOps_valid D _ _ op first hv fun hord =>
        (hD.scratch _ (hfirst hord)).2
      have hres := hops (σ.map .ofPrimitive)
      rw [operation_result] at hres
      rw [map_cons, map_cons, map_cons, ofPrimitive_eq hv]
      exact hres
  | @convert rest source target ops hconversion =>
    cases σ with
    | nil => cases hretype
    | cons _ σ =>
      obtain ⟨-, hsame⟩ := ite_none_left_eq_some.1 hretype
      cases hsame
      obtain ⟨rfl, hrest⟩ := List.cons.inj htypes
      refine ⟨congrArg (_ :: ·) hrest, fun D _ _ => ?_⟩
      have htext : ¬(source = .str ∨ target = .str) := by simpa [keepsTypes] using hkeeps
      exact conversion_valid hconversion htext (σ.map .ofPrimitive)
  | call hr hcallee htaken =>
    obtain ⟨hleft, hvalid⟩ := valid_call (S := S) (.call hr hcallee htaken) htypes hkeeps hretype
    exact ⟨hleft, fun D _ hcalls => hvalid D (hcalls _ _ rfl)⟩
  | leave hvoid =>
    have hsame : some σ = some τ := (if_pos hvoid).symm.trans hretype
    cases hsame
    refine ⟨htypes, fun D hD _ => .singleton (.op ?_)⟩
    have hres : D.result = none := by
      rw [hD.result, Method.result?, if_pos hvoid]
      rfl
    have hret := Op.Valid.ret (D := D) (σ.map .ofPrimitive) (σ.map .ofPrimitive)
    rwa [hres] at hret
  | ret hvoid =>
    have htyped := (if_neg hvoid).symm.trans hretype
    cases σ with
    | nil => cases htyped
    | cons =>
      obtain ⟨rfl, hsame⟩ := ite_none_right_eq_some.1 htyped
      cases hsame
      refine ⟨(List.cons.inj htypes).2, fun D hD _ => .singleton (.op ?_)⟩
      have hres : D.result = some (.ofPrimitive c.method.returnType) := by
        rw [hD.result, Method.result?, if_neg hvoid]
        rfl
      have hret := Op.Valid.ret (D := D) (τ.map .ofPrimitive) (τ.map .ofPrimitive)
      rwa [hres] at hret
  | pop =>
    cases σ with
    | nil => cases hretype
    | cons =>
      cases hretype
      exact ⟨(List.cons.inj htypes).2, fun D _ _ => Op.HasType.drop.valid _⟩
  | forced | tested | otherwise | endBranch => cases hmark

theorem Emits.valid_branch {cond : Condition} {number : Option Int} {below : Types}
    (h : Emits c S (.branch cond number) types ops ρ) (htypes : types = σ ++ outer)
    (hstep : typedStep c.program c.method c.loadString (.branch cond number) σ = some below) :
    ρ = below ++ outer ∧ ∀ D : Declarations,
      Line.AllValid D (ops.map .op) (σ.map .ofPrimitive) (.i32 :: below.map .ofPrimitive) := by
  cases h with
  | forced =>
    cases hstep
    exact ⟨htypes, fun D => Op.HasType.const.valid _⟩
  | @tested rest t v _ _ i ops hcond hv htest =>
    cases σ with
    | nil => cases cond <;> first | exact absurd rfl hcond | cases hstep
    | cons _ σ =>
      have hbelow : σ = below := by
        cases cond <;> first | exact absurd rfl hcond | exact some.inj hstep
      obtain ⟨rfl, hrest⟩ := List.cons.inj htypes
      refine ⟨hbelow ▸ hrest, fun D => ?_⟩
      have hops := conditionOps_valid (D := D) hv htest (σ.map .ofPrimitive)
      rw [map_cons, ofPrimitive_eq hv, ← hbelow]
      exact hops

end

/-! ## Code -/

/-- Whether code that leads from types to types has valid lines once it is compiled, whatever is noted
below. -/
def Validates (c : Context) (before : Types) (code : Code) (after : Types) : Prop :=
  ∀ (s s' : State) (outer : Types), s.types = before ++ outer →
    Numbered c.method s.scratch → steps c code s = .ok s' →
    ∃ lines S memory, s' = (s.storing memory).advance lines (after ++ outer) S ∧ s.scratch ⊆ S ∧
      Numbered c.method S ∧ ∀ D : Declarations, Provides c.method S D →
        DeclaresCalls D.functions c.program code →
        Line.AllValid D lines (before.map .ofPrimitive) (after.map .ofPrimitive)

section

variable {c : Context} {i o e : Instruction} {σ τ υ below : Types}
  {a b body alt : Code} {cond : Condition} {number : Option Int}

theorem Provides.mono {m : Method} {S R : List (ValueType × Nat)} (h : Provides m R D)
    (hsub : S ⊆ R) : Provides m S D :=
  ⟨h.slots, h.scratch.mono hsub, h.result⟩

theorem validates_nil (σ : Types) : Validates c σ [] σ := by
  intro s s' _ htypes hnumbered h
  obtain rfl : s = s' := Except.ok.inj h
  refine ⟨[], s.scratch, s.memory, ?_, List.Subset.refl _, hnumbered, fun D _ _ => .nil⟩
  rw [← htypes, s.storing_memory, ← s.eq_advance]

theorem Validates.append (ha : Validates c σ a τ) (hb : Validates c τ b υ) :
    Validates c σ (a ++ b) υ := by
  intro s s' outer htypes hnumbered h
  rw [steps_append] at h
  obtain ⟨r, hr, h⟩ := of_bind h
  obtain ⟨x, S, _, rfl, hsub, hS, hx⟩ := ha s r outer htypes hnumbered hr
  obtain ⟨y, R, memory', rfl, hsub', hR, hy⟩ := hb _ s' outer rfl hS h
  refine ⟨x ++ y, R, memory', by simp, List.Subset.trans hsub hsub', hR, ?_⟩
  intro D hD hcalls
  obtain ⟨hfirst, hsecond⟩ := forall_mem_append.1 hcalls
  exact (hx D (hD.mono hsub') hfirst).append (hy D hD hsecond)

theorem validates_command {command : Command} (hi : i.command? = some command)
    (hmark : command.isMark = false)
    (hstep : typedStep c.program c.method c.loadString command σ = some τ) :
    Validates c σ [i] τ := by
  intro _ _ _ htypes hnumbered h
  rw [steps_singleton] at h
  obtain ⟨_, ⟨hops, hsub, hS⟩, harrange⟩ := step_command hi hnumbered h
  rw [arrange_of_isMark hmark] at harrange
  cases harrange
  obtain ⟨rfl, hvalid⟩ := hops.valid htypes hmark hstep
  refine ⟨_, _, _, rfl, hsub, hS, ?_⟩
  intro D hD hcalls
  apply hvalid D hD
  rintro result target rfl
  exact hcalls i mem_cons_self result target hi

section

variable (hi : i.command? = some (.branch cond number))
include hi

section

variable
  (hstep : typedStep c.program c.method c.loadString (.branch cond number) σ = some below)
include hstep

/-- A branch opens a conditional behind instructions that leave its operand's truth as an `i32`. -/
theorem step_branch {s s' : State} {outer : Types} (htypes : s.types = σ ++ outer)
    (hnumbered : Numbered c.method s.scratch) (h : step c i s = .ok s') :
    ∃ (ops : List Op) (S : List (ValueType × Nat)) (memory : Memory),
      s' = ((s.storing memory).advance (ops.map .op) (below ++ outer) S).opened {} ∧
        s.scratch ⊆ S ∧ Numbered c.method S ∧ ∀ D : Declarations,
          Line.AllValid D (ops.map .op) (σ.map .ofPrimitive) (.i32 :: below.map .ofPrimitive) := by
  obtain ⟨_, ⟨hops, hsub, hS⟩, harrange⟩ := step_command hi hnumbered h
  cases harrange
  obtain ⟨rfl, hvalid⟩ := hops.valid_branch htypes hstep
  exact ⟨_, _, _, rfl, hsub, hS, hvalid⟩

theorem Validates.ifThen (hbody : Validates c [] body []) (he : e.command? = some .endBranch) :
    Validates c σ (i :: (body ++ [e])) below := by
  intro _ _ outer htypes hnumbered h
  rw [steps_cons] at h
  obtain ⟨_, hopen, h⟩ := of_bind h
  rw [steps_append] at h
  obtain ⟨filled, hfill, h⟩ := of_bind h
  rw [steps_singleton, step_endBranch he] at h
  obtain ⟨ops, S, _, rfl, hsub, hS, hops⟩ := step_branch hi hstep htypes hnumbered hopen
  obtain ⟨lines, R, memory', rfl, hsub', hR, hlines⟩ := hbody _ filled (below ++ outer) rfl hS hfill
  rw [State.storing_opened, State.advance_opened, endBranch_opened] at h
  cases h
  refine ⟨ops.map .op ++ [.ifThen lines], R, memory', ?_, List.Subset.trans hsub hsub', hR, ?_⟩
  · simp [OpenBranch.addAll, OpenBranch.close]
  · intro D hD hcalls
    obtain ⟨hinside, -⟩ := forall_mem_append.1 (forall_mem_cons.1 hcalls).2
    exact (hops D).append (.singleton (.ifThen (hlines D hD hinside)))

/-- A conditional is valid if both parts are. -/
theorem Validates.ifElse (hbody : Validates c [] body []) (ho : o.command? = some .otherwise)
    (halt : Validates c [] alt []) (he : e.command? = some .endBranch) :
    Validates c σ (i :: (body ++ o :: (alt ++ [e]))) below := by
  intro _ _ outer htypes hnumbered h
  rw [steps_cons] at h
  obtain ⟨opened, hopen, h⟩ := of_bind h
  rw [steps_append] at h
  obtain ⟨filled, hfill, h⟩ := of_bind h
  rw [steps_cons, step_otherwise ho] at h
  obtain ⟨_, hdivide, h⟩ := of_bind h
  rw [steps_append] at h
  obtain ⟨full, hfull, h⟩ := of_bind h
  rw [steps_singleton, step_endBranch he] at h
  obtain ⟨ops, S, _, rfl, hsub, hS, hops⟩ := step_branch hi hstep htypes hnumbered hopen
  obtain ⟨yes, R, _, rfl, hsub', hR, hyes⟩ := hbody _ filled (below ++ outer) rfl hS hfill
  rw [State.storing_opened, State.advance_opened] at hdivide
  change otherwise c (State.opened _ { body := yes }) = _ at hdivide
  rw [otherwise_opened] at hdivide
  cases hdivide
  obtain ⟨no, Q, memory'', rfl, hsub'', hQ, hno⟩ :=
    halt _ full (below ++ outer) rfl hR hfull
  rw [State.storing_opened, State.advance_opened, endBranch_opened] at h
  cases h
  refine ⟨ops.map .op ++ [.ifElse yes no], Q, memory'', ?_,
    List.Subset.trans (List.Subset.trans hsub hsub') hsub'', hQ, ?_⟩
  · simp [OpenBranch.addAll, OpenBranch.close]
  · intro D hD hcalls
    obtain ⟨hfirst, hmore⟩ := forall_mem_append.1 (forall_mem_cons.1 hcalls).2
    obtain ⟨hsecond, -⟩ := forall_mem_append.1 (forall_mem_cons.1 hmore).2
    exact (hops D).append (.singleton (.ifElse (hyes D (hD.mono hsub'') hfirst) (hno D hD hsecond)))

end

end

theorem Structured.validates {code : Code}
    (h : Structured (typedStep c.program c.method c.loadString) σ code τ) : Validates c σ code τ := by
  induction h with
  | nil => exact validates_nil _
  | @cons i command σ τ υ rest hi hmark hstep _ ih =>
    exact (validates_command hi hmark hstep).append ih
  | @ifThen i e cond number σ below υ body rest hi hstep _ he _ ihbody ihrest =>
    have hwhole := (Validates.ifThen hi hstep ihbody he).append ihrest
    simpa using hwhole
  | @ifElse i o e cond number σ below υ body alt rest hi hstep _ ho _ he _ ihbody
      ihalternative ihrest =>
    have hwhole := (Validates.ifElse hi hstep ihbody ho ihalternative he).append ihrest
    simpa using hwhole

end

/-! ## Functions -/

section

variable {p : Program} {m : Method} {loadString : Option String} {memory memory' : Memory}
  {f : Function} {s : State} {functions : String → FunctionType → Prop}

theorem Compiled.provides (h : Compiled p loadString m memory f s) (hs : Numbered m s.scratch) :
    Provides m s.scratch (f.declarations functions) where
  slots _ _ ht := h.getElem?_localTypes ht
  scratch := h.fits hs
  result := (result_ofPrimitive h.result).symm

theorem Line.AllValid.exists_append {a b : Body} {υ : List ValueType}
    (h : Line.AllValid D (a ++ b) σ υ) : ∃ τ, Line.AllValid D a σ τ ∧ Line.AllValid D b τ υ := by
  induction a generalizing σ with
  | nil => exact ⟨σ, .nil, h⟩
  | cons _ _ ih =>
    cases h with
    | cons hline hrest =>
      obtain ⟨τ, ha, hb⟩ := ih hrest
      exact ⟨τ, .cons hline ha, hb⟩

/-- The end of a closed body cannot be reached if a result is due. -/
theorem closeBody_valid {lines : Body} {v : ValueType} (h : Line.AllValid D lines [] [])
    (stack : List ValueType) : Line.AllValid D (closeBody (some v) lines) [] stack := by
  unfold closeBody
  cases hlast : lines.getLast?.any (Line.isOp .ret) with
  | false => exact h.append (.singleton (.op (.unreachable [] stack)))
  | true =>
    obtain ⟨_, rfl⟩ := exists_of_getLast?_ret hlast
    obtain ⟨τ, hfront, hret⟩ := h.exists_append
    refine hfront.append ?_
    cases hret with
    | cons hline =>
      cases hline with
      | op hop =>
        cases hop with
        | typed htype => cases htype
        | ret below => exact .singleton (.op (.ret below stack))

/-- Code that keeps to its types gets a valid body. The function has the type of the method, and
behind its locals only scratch locals. -/
theorem typed_code_has_valid_body (functions : String → FunctionType → Prop)
    (hcode : leavesTypes? (typedStep p m loadString) m.code = some [])
    (hcalls : DeclaresCalls functions p m.code)
    (hf : compileFunction p loadString m memory = .ok (f, memory')) :
    HasFunctionType m ⟨f.parameters.map Prod.snd, f.result⟩ ∧
      (∃ locals scratch, m.locals.map ValueType.ofPrimitive? = locals.map some ∧
        f.locals = locals ++ scratch) ∧ f.Valid functions := by
  obtain ⟨s, hcomp, -⟩ := compileFunction_ok hf
  obtain ⟨locals, hlocals, hscratch⟩ := hcomp.locals
  refine ⟨⟨hcomp.parameters, hcomp.result⟩, ⟨locals, _, hlocals, hscratch⟩, ?_⟩
  have hvalidates := @Structured.validates ⟨p, m, (p.referenceOf m).text, loadString⟩ [] [] m.code
    (structured_of_leavesTypes? hcode)
  obtain ⟨_, S, memory, rfl, -, hS, hlines⟩ :=
    hvalidates _ s [] rfl (by simp [Numbered]) hcomp.code
  have hbody := hlines _ (hcomp.provides hS) hcalls
  rw [Function.Valid, hcomp.body]
  cases hres : f.result with
  | none => exact hbody
  | some => exact closeBody_valid hbody

end

namespace Sample

/-- A method that is called with a float and a character. -/
def scale : Method where
  id := 0
  owner := 0
  script := 0
  name := ⟨["Scale"]⟩
  returnType := .f32
  parameters := [⟨"x", .f64⟩, ⟨"c", .char⟩]
  external := true
  span := ⟨1, 1, 3⟩

/-- A method over floats, text, pointers and characters, with a value on the stack below two nested
conditionals. -/
def mixed : Method where
  id := 1
  owner := 0
  script := 0
  name := ⟨["Mixed"]⟩
  returnType := .f64
  parameters := [⟨"a", .f64⟩, ⟨"b", .ptr⟩]
  external := false
  span := ⟨2, 1, 4⟩
  locals := [.str, .u8]
  code :=
    [.loadConst .str "text", .setLocal 0, .getLocal (-1), .getLocal (-2), .branch .zero none,
      .loadConst .u8 "200", .loadConst .u8 "100", .binary .div .u8, .setLocal 1, .otherwise,
      .loadConst .f32 "1.5", .branch .lesser (some 2), .nop, .endBranch, .endBranch,
      .loadConst .f64 "2.5", .binary .rem .f64, .loadConst .char "65",
      .call .f32 ⟨["App"], ["Scale"], [.f64, .char]⟩, .convert .f64, .ret]

/-- A namespace with these methods. -/
def mixedProgram : Program where
  namespaces := [{ id := 0, name := .explicit ⟨["App"]⟩, script := 0, methods := [0, 1] }]
  methods := [scale, mixed]

/-- The one function that is called. -/
def scaleOnly (name : String) (type : FunctionType) : Prop :=
  name = "App.Scale?f64_char" ∧ type = ⟨[.f64, .i32], some .f32⟩

end Sample

/-- Operands of two types go through scratch locals, and floats, text and pointers are compared,
converted and passed on. -/
theorem sample_body_valid :
    leavesTypes? (typedStep Sample.mixedProgram Sample.mixed none) Sample.mixed.code = some [] ∧
    DeclaresCalls Sample.scaleOnly Sample.mixedProgram Sample.mixed.code ∧
    ∃ f memory, compileFunction Sample.mixedProgram none Sample.mixed {} = .ok (f, memory) ∧
      f.localTypes = [.f64, .i64, .i64, .i32, .i32, .i32, .f64, .f64] ∧ f.result = some .f64 ∧
      ∀ stack, Line.AllValid (f.declarations Sample.scaleOnly) f.body [] stack := by
  have hcode : leavesTypes? (typedStep Sample.mixedProgram Sample.mixed none) Sample.mixed.code =
      some [] := by decide +kernel
  have hcalls : DeclaresCalls Sample.scaleOnly Sample.mixedProgram Sample.mixed.code := by
    have htarget : ∀ i ∈ Sample.mixed.code, (i.command?.any fun c => match c with
        | .call _ target => target == "App:Scale?f64_char"
        | _ => true) = true := by decide +kernel
    intro i hi result target hc
    have hsame := htarget i hi
    rw [hc, Option.any_some, beq_iff_eq] at hsame
    subst hsame
    exact ⟨⟨["App"], ["Scale"], [.f64, .char]⟩, Sample.scale, ⟨[.f64, .i32], some .f32⟩,
      by decide +kernel, by rfl, ⟨by decide, by decide⟩, by decide +kernel, rfl⟩
  have hcomp : (compileFunction Sample.mixedProgram none Sample.mixed {}).toOption.map
      (fun r => (r.1.localTypes, r.1.result)) =
      some ([.f64, .i64, .i64, .i32, .i32, .i32, .f64, .f64], some .f64) := by decide +kernel
  cases hf : compileFunction Sample.mixedProgram none Sample.mixed {} with
  | error =>
    rw [hf] at hcomp
    cases hcomp
  | ok r =>
    obtain ⟨f, memory⟩ := r
    rw [hf] at hcomp
    obtain ⟨hlocals, hres⟩ := Prod.mk.inj (Option.some.inj hcomp)
    obtain ⟨-, -, hvalid⟩ := typed_code_has_valid_body Sample.scaleOnly hcode hcalls hf
    refine ⟨hcode, hcalls, f, memory, rfl, hlocals, hres, ?_⟩
    rw [Function.Valid, hres] at hvalid
    exact hvalid

end ScriptCompiler.Wat
