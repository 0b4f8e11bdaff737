import ScriptCompiler.Proofs.Lowering

/-!
# Types on the operand stack

The types of the operands can be told from the code alone: `retype` says what an instruction needs
on the stack and what it leaves there. It is strict: types are those of slots, operators, parameters
and results, and nothing but its operand may be on the stack where a conditional opens, divides or
closes. The code of a value-clean program replays over types from the empty stack to the empty
stack.
-/

set_option autoImplicit false

namespace ScriptCompiler

open List Option Instruction

variable {p : Program} {m : Method}

/-- Whether the condition of a branch can be tested on a value of a type. -/
def Condition.accepts : Condition → Primitive → Bool
  | .forced, _ => Bool.false
  | .true, t | .false, t => t == .bool
  | _, t => t.isConcreteInteger

/-- The types on the stack after a command, if it finds what it needs there. -/
def Command.retype (p : Program) (m : Method) : Command → Types → Option Types
  | .nop, σ => some σ
  | .constant type _, σ => some (type :: σ)
  | .get index, σ => (m.localType? index).map fun type => type :: σ
  | .set index, t :: σ => if m.localType? index = some t then some σ else none
  | .operate op type, l :: r :: σ =>
    if l = type ∧ r = type then some ((if op.isComparison then .bool else type) :: σ) else none
  | .convert target, _ :: σ => if target = .void then none else some (target :: σ)
  | .call result target, σ =>
    match p.parametersOf? target with
    | none => none
    | some params =>
      -- the last argument is on top
      if params.reverse <+: σ then
        let rest := σ.drop params.length
        some (if result = .void then rest else result :: rest)
      else none
  | .branch .forced _, [] => some []
  | .branch condition _, [t] => if condition.accepts t then some [] else none
  | .otherwise, [] => some []
  | .endBranch, [] => some []
  | .ret, σ =>
    if m.returnType = .void then some σ
    else
      match σ with
      | t :: σ => if t = m.returnType then some σ else none
      | [] => none
  | .pop, _ :: σ => some σ
  | _, _ => none

/-- The types on the stack after code, if every instruction finds what it needs there. -/
def retype (p : Program) (m : Method) : Code → Types → Option Types :=
  replay (Command.retype p m)

variable {σ τ : Types} {i : Instruction}

theorem retype_singleton {c : Command} (h : i.command? = some c) (σ : Types) :
    retype p m [i] σ = c.retype p m σ :=
  replay_singleton h σ

theorem exists_of_retype_cons {c : Command} {rest : Code} (hc : i.command? = some c)
    (h : retype p m (i :: rest) σ = some τ) :
    ∃ υ, c.retype p m σ = some υ ∧ retype p m rest υ = some τ := by
  rw [retype, replay, hc] at h
  exact bind_eq_some_iff.1 h

/-- Code put together from two pieces replays if the pieces do. -/
theorem retype_append_of {a b : Code} {υ : Types}
    (ha : retype p m a σ = some τ) (hb : retype p m b τ = some υ) :
    retype p m (a ++ b) σ = some υ := by
  rw [retype, replay_append]
  exact bind_eq_some_iff.2 ⟨τ, ha, hb⟩

/-! ## Expressions -/

/-- Whether the code of an expression leaves the type that lowering reports, if the expression is
one that leaves a value, and nothing otherwise. -/
def Expr.Retypes (p : Program) (m : Method) (e : Expr) : Prop :=
  ∀ slot code pushed, e.lower p slot = .ok (code, pushed) → ∀ σ,
    retype p m code σ = some (if e.pushes p then pushed :: σ else σ)

variable {e : Expr} {code : Code}

theorem Expr.Retypes.lowerTo (he : e.Retypes p m) (hp : e.pushes p = true) {target : Primitive}
    (ht : target ≠ .void) (h : e.lowerTo p target = .ok code) (σ : Types) :
    retype p m code σ = some (target :: σ) := by
  obtain ⟨c, t, hc, rfl⟩ := lowerTo_ok h
  have hvalue := he _ c t hc σ
  rw [hp, if_pos rfl] at hvalue
  refine retype_append_of hvalue ?_
  unfold convertTo
  split
  · rename_i hsame
    rw [hsame]
    rfl
  · rw [retype_singleton (command?_convert target)]
    simp only [Command.retype, if_neg ht]

theorem Expr.retype_lowerArguments {args : List Expr}
    (hargs : ∀ a ∈ args, a.Retypes p m ∧ a.pushes p = true) :
    ∀ {types : Types} {code : Code}, args.length = types.length →
      (∀ t ∈ types, t ≠ .void) → Expr.lowerArguments p args types = .ok code →
      ∀ σ, retype p m code σ = some (types.reverse ++ σ) := by
  induction args with
  | nil =>
    intro types code hlen _ h σ
    cases types with
    | nil =>
      cases h
      rfl
    | cons => cases hlen
  | cons a _ ih =>
    intro types code hlen hvoid h σ
    cases types with
    | nil => cases hlen
    | cons type =>
      obtain ⟨_, _, hfirst, hmore, rfl⟩ := lowerArguments_cons_ok h
      obtain ⟨ha, hp⟩ := hargs a (by simp)
      have hone := ha.lowerTo hp (hvoid type (by simp)) hfirst σ
      have hrest := ih (fun b hb => hargs b (mem_cons_of_mem _ hb)) (by simpa using hlen)
        (fun t ht => hvoid t (mem_cons_of_mem _ ht)) hmore (type :: σ)
      rw [retype_append_of hone hrest]
      simp

/-- The code of a whole expression replays over types. -/
theorem Expr.retype_lower (hc : Concrete p m.localType?) (hs : e.Sound p m.localType?)
    (hw : e.Whole p) : e.Retypes p m := by
  induction hs with
  | @literal value span =>
    intro slot code pushed h σ
    cases h
    rw [retype_singleton (command?_loadConst _ _)]
    rfl
  | @name use s hu hg =>
    intro slot code pushed h σ
    simp only [Expr.lower, NameUse.found, hu] at h
    cases h
    have htype : m.localType? s.index = some s.type := hg
    rw [retype_singleton (command?_getLocal _)]
    simp only [Command.retype, htype, map_some]
    rfl
  | @binary op left right span _ hsl hsr ihl ihr =>
    intro slot code pushed h σ
    obtain ⟨hwl, hwr⟩ := whole_binary_iff.1 hw
    obtain ⟨_, _, common, _, _, hl, hr, hcommon, hright, hleft, rfl, rfl⟩ :=
      lower_binary_ok h
    have hvoid : common.settle slot ≠ .void :=
      Expr.Sound.settle_ne_void hsl hsr hc hwl hwr hl hr hcommon
    have h₁ := (ihr hwr.toWhole).lowerTo hwr.pushes hvoid hright σ
    have h₂ := (ihl hwl.toWhole).lowerTo hwl.pushes hvoid hleft (common.settle slot :: σ)
    refine retype_append_of (retype_append_of h₁ h₂) ?_
    rw [retype_singleton (command?_binary _ _)]
    simp [Command.retype, Expr.pushes]
  | @assign target s value span hu hg _ ihv =>
    intro slot code pushed h σ
    have hwv := whole_assign_iff.1 hw
    obtain ⟨_, _, hu', hvalue, rfl, -⟩ := lower_assign_ok h
    rw [hu] at hu'
    cases hu'
    have htype : m.localType? s.index = some s.type := hg
    have hvoid := Primitive.ne_void_of_isConcreteValue (hc.slot _ _ htype)
    refine retype_append_of ((ihv hwv.toWhole).lowerTo hwv.pushes hvoid hvalue σ) ?_
    rw [retype_singleton (command?_setLocal _)]
    simp only [Command.retype, htype, if_true]
    rfl
  | @call target args method span callee hcallee hlen _ ihargs =>
    intro slot code pushed h σ
    have hwa := whole_call_iff.1 hw
    obtain ⟨_, _, hcallee', harguments, rfl, rfl⟩ := lower_call_ok h
    rw [hcallee] at hcallee'
    cases hcallee'
    have hmem := Program.mem_of_bind_methodAt? hcallee
    have hvoid : ∀ t ∈ callee.parameterTypes, t ≠ .void := fun t ht =>
      Primitive.ne_void_of_isConcreteValue (hc.parameter callee hmem t ht)
    have hpushed := retype_lowerArguments
      (fun a ha => ⟨ihargs a ha (hwa a ha).toWhole, (hwa a ha).pushes⟩) hlen hvoid harguments σ
    have hdrop : (callee.parameterTypes.reverse ++ σ).drop callee.parameterTypes.length = σ := by
      rw [← length_reverse, drop_left]
    refine retype_append_of hpushed ?_
    rw [retype_singleton (command?_call _ _)]
    simp only [Command.retype, Program.parametersOf?_of_mem hmem, if_pos (prefix_append _ _),
      hdrop, Expr.pushes, hcallee, any_some]
    by_cases hres : callee.returnType = .void <;> simp [hres]
  | @cast operand type span _ iho =>
    intro slot code pushed h σ
    obtain ⟨hwo, ht⟩ := whole_cast_iff.1 hw
    obtain ⟨hoperand, rfl⟩ := lower_cast_ok h
    rw [(iho hwo.toWhole).lowerTo hwo.pushes ht hoperand]
    simp [Expr.pushes, ht]

/-! ## Bodies -/

/-- The code of a condition consumes what it pushes: a truth value, or a concrete integer. -/
theorem Expr.retype_lowerCondition (hc : Concrete p m.localType?) (hs : e.Sound p m.localType?)
    (hv : e.Valued p) (h : e.lowerCondition p = .ok code) : retype p m code [] = some [] := by
  rcases lowerCondition_ok h with ⟨c, hcode, rfl⟩ |
    ⟨kind, left, n, type, c, t, hcmp, htype, hi, hcode, rfl⟩
  · have hvalue := (retype_lower hc hs hv.toWhole).lowerTo hv.pushes
      Primitive.noConfusion hcode []
    refine retype_append_of hvalue ?_
    rw [retype_singleton (command?_branch_none rfl)]
    rfl
  · obtain ⟨hkind, _, _, rfl⟩ := eq_of_comparison? hcmp
    obtain ⟨hvl, -⟩ := whole_binary_iff.1 hv.toWhole
    have hg : type.isGeneric = false := by
      simp only [Primitive.isConcreteInteger, Bool.and_eq_true, Bool.not_eq_true'] at hi
      exact hi.2
    have hpushed : t = type := pushed_eq_of_concrete hvl.pushes htype hg hcode
    cases hs with
    | binary _ hleft =>
      have hvalue := retype_lower hc hleft hvl.toWhole none c t hcode []
      rw [hvl.pushes, if_pos rfl] at hvalue
      refine retype_append_of hvalue ?_
      rw [retype_singleton (command?_branch_some _ _), hpushed]
      rcases hkind with rfl | rfl <;> simp [Command.retype, Condition.accepts, hi]

/-- The pieces of a sound and whole body each lead from the empty stack to the empty stack. -/
theorem closed_retype (hc : Concrete p m.localType?) :
    Closed p m.returnType ((Demands.sound p m).both (.whole p))
      (fun code => retype p m code [] = some []) where
  nil := rfl
  append a b ha hb := retype_append_of ha hb
  effect e code he h := by
    obtain ⟨hs, hw⟩ := he
    obtain ⟨c, pushed, hcode, rfl⟩ := Stmt.lower_expression_ok h
    have hvalue := Expr.retype_lower hc hs hw none c pushed hcode []
    cases hp : e.pushes p with
    | false =>
      rw [if_pos (Expr.pushed_eq_void hp hcode), hvalue, hp]
      rfl
    | true =>
      rw [hp, if_pos rfl] at hvalue
      rw [if_neg (Expr.Sound.pushed_ne_void hs hc hp (Expr.leaks_of_voidFree p hw.voidFree) hcode)]
      refine retype_append_of hvalue ?_
      rw [retype_singleton command?_pop]
      rfl
  condition e code he h := Expr.retype_lowerCondition hc he.1 he.2 h
  result v span code hv h := by
    rcases hv with ⟨⟨rfl, hvoid⟩ | ⟨e, rfl, hvoid, hs⟩, hw⟩
    · cases h
      rw [retype_singleton command?_ret]
      simp only [Command.retype, if_pos hvoid]
    · obtain ⟨c, hcode, rfl⟩ := Stmt.lower_ret_ok h
      have hv := hw e rfl
      refine retype_append_of
        ((Expr.retype_lower hc hs hv.toWhole).lowerTo hv.pushes hvoid hcode []) ?_
      rw [retype_singleton command?_ret]
      simp only [Command.retype, if_neg hvoid, if_true]
  otherwise := rfl
  endBranch := rfl

/-! ## Statements in their places -/

/-- Lowered code, or none where lowering fails. -/
def codeOf : Evaluating Code → Code
  | .ok code => code
  | .error _ => []

mutual

/-- The statements in a statement, each with the code ahead of it. -/
def Stmt.places (p : Program) (returnType : Primitive) (ahead : Code) : Stmt → List (Code × Stmt)
  | .branch condition body alts span =>
    let test := ahead ++ codeOf (condition.lowerCondition p)
    (ahead, .branch condition body alts span) :: body.places p returnType test
      ++ alts.places p returnType (test ++ codeOf (body.lower p returnType))
  | .block body span => (ahead, .block body span) :: Stmt.placesAll p returnType ahead body
  | s => [(ahead, s)]

/-- The statements in alternatives; those behind one without a condition have no code. -/
def Alternatives.places (p : Program) (returnType : Primitive) (ahead : Code) :
    Alternatives → List (Code × Stmt)
  | .none => []
  | .more (some condition) body next _ =>
    let test := ahead ++ [.otherwise] ++ codeOf (condition.lowerCondition p)
    body.places p returnType test
      ++ next.places p returnType (test ++ codeOf (body.lower p returnType))
  | .more none body _ _ => body.places p returnType (ahead ++ [.otherwise])

/-- The statements in a list of statements. -/
def Stmt.placesAll (p : Program) (returnType : Primitive) (ahead : Code) :
    List Stmt → List (Code × Stmt)
  | [] => []
  | s :: rest => s.places p returnType ahead
      ++ Stmt.placesAll p returnType (ahead ++ codeOf (s.lower p returnType)) rest

end

/-- Whether a statement in its place in code has code of its own there, before and after which the
stack is empty. -/
def Level (p : Program) (m : Method) (code : Code) (place : Code × Stmt) : Prop :=
  retype p m place.1 [] = some [] ∧ ∃ own, place.2.lower p m.returnType = .ok own ∧
    retype p m (place.1 ++ own) [] = some [] ∧ place.1 ++ own <+: code

theorem Level.mono {code' : Code} {place : Code × Stmt}
    (h : Level p m code place) (hcode : code <+: code') : Level p m code' place := by
  obtain ⟨hbefore, own, hown, hafter, hwithin⟩ := h
  exact ⟨hbefore, own, hown, hafter, hwithin.trans hcode⟩

theorem Stmt.level_self (hc : Concrete p m.localType?) {ahead : Code} {s : Stmt}
    (hs : s.Meets ((Demands.sound p m).both (.whole p))) (h : s.lower p m.returnType = .ok code)
    (hahead : retype p m ahead [] = some []) :
    ∀ place ∈ [(ahead, s)], Level p m (ahead ++ code) place := by
  intro place hplace
  obtain rfl := mem_singleton.1 hplace
  have hcode := lower_closed (closed_retype hc) s code hs h
  exact ⟨hahead, code, h, retype_append_of hahead hcode, prefix_rfl⟩

mutual

/-- The stack is empty around each statement. -/
theorem Stmt.level_places (hc : Concrete p m.localType?) : ∀ (s : Stmt) {ahead code : Code},
      s.Meets ((Demands.sound p m).both (.whole p)) → s.lower p m.returnType = .ok code →
      retype p m ahead [] = some [] →
      ∀ place ∈ s.places p m.returnType ahead, Level p m (ahead ++ code) place
  | .branch condition body alts span, ahead, code, hs, h, hahead => by
    have hself := Stmt.level_self hc hs h hahead _ mem_cons_self
    obtain ⟨hcond, hb, ha⟩ := hs
    obtain ⟨test, first, rest, htest, hfirst, hrest, rfl⟩ := Stmt.lower_branch_ok h
    have h₁ := retype_append_of hahead ((closed_retype hc).condition condition test hcond htest)
    have h₂ := retype_append_of h₁ (Stmt.lower_closed (closed_retype hc) body first hb hfirst)
    intro place hplace
    simp only [Stmt.places, htest, hfirst, codeOf, cons_append, mem_cons, mem_append] at hplace
    rcases hplace with rfl | hplace | hplace
    · exact hself
    · exact (Stmt.level_places hc body hb hfirst h₁ place hplace).mono
        ⟨rest ++ [.endBranch], by simp⟩
    · exact (Alternatives.level_places hc alts ha hrest h₂ place hplace).mono
        ⟨[.endBranch], by simp⟩
  | .block body span, ahead, code, hs, h, hahead => by
    have hself := Stmt.level_self hc hs h hahead _ mem_cons_self
    simp only [Stmt.lower] at h
    intro place hplace
    simp only [Stmt.places, mem_cons] at hplace
    rcases hplace with rfl | hplace
    · exact hself
    · exact Stmt.level_placesAll hc body hs h hahead place hplace
  | .expression .., _, _, hs, h, hahead => Stmt.level_self hc hs h hahead
  | .ret .., _, _, hs, h, hahead => Stmt.level_self hc hs h hahead
  | .assembly .., _, _, hs, h, hahead => Stmt.level_self hc hs h hahead
  | .declare .., _, _, hs, _, _ => hs.elim

theorem Alternatives.level_places (hc : Concrete p m.localType?) :
    ∀ (a : Alternatives) {ahead code : Code},
      a.Meets ((Demands.sound p m).both (.whole p)) → a.lower p m.returnType = .ok code →
      retype p m ahead [] = some [] →
      ∀ place ∈ a.places p m.returnType ahead, Level p m (ahead ++ code) place
  | .none, _, _, _, _, _ => by
    intro place hplace
    cases hplace
  | .more none body next span, ahead, code, hb, h, hahead => by
    obtain ⟨first, hfirst, rfl⟩ := Alternatives.lower_none_ok h
    have h₁ : retype p m (ahead ++ [.otherwise]) [] = some [] := retype_append_of hahead rfl
    intro place hplace
    have hlevel := Stmt.level_places hc body hb hfirst h₁ place hplace
    rwa [append_assoc] at hlevel
  | .more (some condition) body next span, ahead, code, ⟨hcond, hb, hn⟩, h, hahead => by
    obtain ⟨test, first, rest, htest, hfirst, hrest, rfl⟩ := Alternatives.lower_some_ok h
    have h₀ : retype p m (ahead ++ [.otherwise]) [] = some [] := retype_append_of hahead rfl
    have h₁ := retype_append_of h₀
      ((closed_retype hc).condition condition test hcond htest)
    have h₂ := retype_append_of h₁ (Stmt.lower_closed (closed_retype hc) body first hb hfirst)
    intro place hplace
    simp only [Alternatives.places, htest, hfirst, codeOf, mem_append] at hplace
    rcases hplace with hplace | hplace
    · exact (Stmt.level_places hc body hb hfirst h₁ place hplace).mono
        ⟨rest ++ [.endBranch], by simp⟩
    · exact (Alternatives.level_places hc next hn hrest h₂ place hplace).mono
        ⟨[.endBranch], by simp⟩

theorem Stmt.level_placesAll (hc : Concrete p m.localType?) :
    ∀ (body : List Stmt) {ahead code : Code},
      Stmt.AllMeet ((Demands.sound p m).both (.whole p)) body →
      Stmt.lowerAll p m.returnType body = .ok code → retype p m ahead [] = some [] →
      ∀ place ∈ Stmt.placesAll p m.returnType ahead body, Level p m (ahead ++ code) place
  | [], _, _, _, _, _ => by
    intro place hplace
    cases hplace
  | s :: rest, ahead, code, ⟨hs, hrest⟩, h, hahead => by
    obtain ⟨first, more, hfirst, hmore, rfl⟩ := Stmt.lowerAll_cons_ok h
    have h₁ := retype_append_of hahead (Stmt.lower_closed (closed_retype hc) s first hs hfirst)
    intro place hplace
    simp only [Stmt.placesAll, hfirst, codeOf, mem_append] at hplace
    rcases hplace with hplace | hplace
    · exact (Stmt.level_places hc s hs hfirst hahead place hplace).mono ⟨more, by simp⟩
    · have hlevel := Stmt.level_placesAll hc rest hrest hmore h₁ place hplace
      rwa [append_assoc] at hlevel

end

/-! ## Whole programs -/

theorem retype_congr {q : Program} {n : Method} (hp : p.outline = q.outline)
    (hslots : m.localType? = n.localType?) (hret : m.returnType = n.returnType)
    (code : Code) (σ : Types) : retype p m code σ = retype q n code σ := by
  have hstep : Command.retype p m = Command.retype q n := by
    funext c τ
    unfold Command.retype
    rw [hslots, hret, Program.parametersOf?_congr hp]
  rw [retype, retype, hstep]

/-- The code of every body of a value-clean program replays over types from the empty stack to the
empty stack, and the stack is empty before and after each of its statements. -/
theorem evaluate_code_retypes (scripts : ScriptTable) (files : List SourceFile)
    (hclean : (resolved scripts files).program.ValueClean) {id : MethodId} {source : Method}
    (hsource : (checked scripts files).program.methodAt? id = some source)
    (hext : source.external = false) :
    ∃ target, (evaluate scripts files).program.methodAt? id = some target ∧
      retype (evaluate scripts files).program target target.code [] = some [] ∧
      ∀ place ∈ Stmt.placesAll (checked scripts files).program source.returnType []
          source.statements, retype (evaluate scripts files).program target place.1 [] = some [] ∧
        ∃ code, place.2.lower (checked scripts files).program source.returnType = .ok code ∧
          retype (evaluate scripts files).program target (place.1 ++ code) [] = some [] ∧
          place.1 ++ code <+: target.code := by
  obtain ⟨hsound, hconc, code, hcode, htarget⟩ := exists_code_of_checked hsource hext
  have hwhole : Stmt.AllMeet (.whole (checked scripts files).program) source.statements :=
    Evaluation.check_whole hclean hsource hext
  have hmeets := Stmt.AllMeet.both _ hsound hwhole
  have hlevel := @Stmt.level_placesAll _ _ hconc source.statements [] code hmeets hcode rfl
  have hall := Stmt.lowerAll_closed (closed_retype hconc) source.statements code hmeets hcode
  refine ⟨_, htarget, ?_⟩
  have hsame : ∀ c σ, retype (evaluate scripts files).program
      { source with statements := [], code, compiled := true } c σ =
        retype (checked scripts files).program source c σ := by
    intro c σ
    refine retype_congr (checked scripts files).outline_lower ?_ ?_ c σ
    · rfl
    · rfl
  simp only [hsame]
  exact ⟨hall, hlevel⟩

/-- The code of the second method of the small program replays over types. -/
theorem sample_code_retypes : (resolved Sample.scripts Sample.files).program.ValueClean ∧
      ∃ source target, (checked Sample.scripts Sample.files).program.methodAt? 1 = some source ∧
        source.external = false ∧
        (evaluate Sample.scripts Sample.files).program.methodAt? 1 = some target ∧
        retype (evaluate Sample.scripts Sample.files).program target target.code [] = some [] := by
  have hclean : (resolved Sample.scripts Sample.files).program.ValueClean := by decide +kernel
  have hmethod : ((checked Sample.scripts Sample.files).program.methodAt? 1).map (·.external) =
      some false := by decide +kernel
  obtain ⟨source, hsource, hext⟩ := Option.map_eq_some_iff.1 hmethod
  obtain ⟨target, htarget, hretypes, -⟩ := evaluate_code_retypes Sample.scripts Sample.files hclean
    hsource hext
  exact ⟨hclean, source, target, hsource, hext, htarget, hretypes⟩

end ScriptCompiler
