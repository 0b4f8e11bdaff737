import ScriptCompiler.Evaluation.Pipeline
import ScriptCompiler.Proofs.Results
import ScriptCompiler.Proofs.Trees

/-!
# What the passes leave alone

After declaration the passes only work on the bodies of methods: statements, slots
and code. The outline of a program is the program without these. The type of an
expression, the callee of a call and the reference of a method depend on the
outline alone, so they are the same in the programs before and after a pass.
-/

set_option autoImplicit false

namespace ScriptCompiler

open List Option

/-- A method without its body. -/
def Method.outline (m : Method) : Method :=
  { m with statements := [], locals := [], code := [], compiled := false }

/-- A program whose methods have no bodies. -/
def Program.outline (p : Program) : Program :=
  { p with methods := p.methods.map Method.outline }

@[simp] theorem Method.outline_returnType (m : Method) : m.outline.returnType = m.returnType := rfl

@[simp] theorem Method.outline_parameterTypes (m : Method) :
    m.outline.parameterTypes = m.parameterTypes := rfl

/-- A change to one member keeps what is read of all members if it keeps what is read of this one. -/
theorem map_modify_of_eq {α β : Type} {f : α → α} {g : α → β} (hf : ∀ a, g (f a) = g a)
    (l : List α) (i : Nat) : (l.modify i f).map g = l.map g := by
  apply ext_getElem?
  intro _
  simp only [getElem?_map, getElem?_modify, Option.map_eq_map, Option.map_map]
  congr 1
  funext a
  dsimp only [Function.comp]
  split
  · exact hf a
  · rfl

namespace Program

variable {p q : Program}

@[simp] theorem methodAt?_outline (p : Program) (id : MethodId) :
    p.outline.methodAt? id = (p.methodAt? id).map Method.outline := by
  unfold methodAt? outline
  rw [getElem?_map]

/-- A change that leaves the outline of every method leaves that of the program. -/
theorem outline_updateMethod (p : Program) (id : MethodId) {f : Method → Method}
    (hf : ∀ m, (f m).outline = m.outline) : (p.updateMethod id f).outline = p.outline := by
  unfold updateMethod outline
  dsimp only
  rw [map_modify_of_eq hf]

/-- The method that a call was bound to, up to its body. -/
theorem bind_methodAt?_outline (p : Program) (method : Option MethodId) :
    method.bind p.outline.methodAt? = (method.bind p.methodAt?).map Method.outline := by
  cases method with
  | none => rfl
  | some => simp

theorem referenceOf_outline (p : Program) (m : Method) :
    p.outline.referenceOf m.outline = p.referenceOf m := rfl

/-- Programs with the same outline have the same callee for a call, up to its body. -/
theorem exists_callee_of_outline_eq (h : p.outline = q.outline) {method : Option MethodId}
    {callee : Method} (hc : method.bind p.methodAt? = some callee) :
    ∃ callee', method.bind q.methodAt? = some callee' ∧ callee'.outline = callee.outline := by
  have key : (method.bind q.methodAt?).map Method.outline = some callee.outline := by
    rw [← bind_methodAt?_outline, ← h, bind_methodAt?_outline, hc]
    rfl
  obtain ⟨callee', hc', ho⟩ := map_eq_some_iff.1 key
  exact ⟨callee', hc', ho⟩

end Program

theorem Expr.typeIn_outline (p : Program) (e : Expr) : e.typeIn p.outline = e.typeIn p := by
  induction e with
  | literal => rfl
  | name => rfl
  | binary _ _ _ _ hl hr => simp only [Expr.typeIn, hl, hr]
  | assign => rfl
  | call _ _ method =>
    simp only [Expr.typeIn, Program.callee, Program.bind_methodAt?_outline]
    cases method.bind p.methodAt? <;> rfl
  | cast => rfl

theorem Expr.typeIn_congr {p q : Program} (h : p.outline = q.outline) (e : Expr) :
    e.typeIn p = e.typeIn q := by
  rw [← e.typeIn_outline p, h, e.typeIn_outline q]

/-! ## The passes -/

theorem Program.outline_map (p : Program) (f : Method → Method)
    (h : ∀ m, (f m).outline = m.outline) :
    ({ p with methods := p.methods.map f } : Program).outline = p.outline := by
  unfold Program.outline
  simp only [List.map_map]
  congr 1
  apply map_congr_left
  intro m _
  exact h m

theorem Method.exists_of_map_bodies {x : Option Method} {f : Method → Method} {m : Method}
    (h : (x.map fun m => if m.external then m else f m) = some m) (hext : m.external = false) :
    ∃ m₀, x = some m₀ ∧ m₀.external = false ∧ m = f m₀ := by
  obtain ⟨m₀, h₀, hm⟩ := map_eq_some_iff.1 h
  cases he : m₀.external with
  | true =>
    rw [he, if_pos rfl] at hm
    rw [← hm, he] at hext
    cases hext
  | false =>
    rw [he] at hm
    exact ⟨m₀, h₀, he, hm.symm⟩

namespace Evaluation

variable (s : Evaluation) (id : MethodId)

theorem methodAt?_resolve : s.resolve.program.methodAt? id = (s.program.methodAt? id).map fun m =>
      if m.external then m else (m.resolve s.program).1 := by
  simp only [resolve, Program.methodAt?, List.map_map, getElem?_map]
  congr 1
  funext m
  cases hm : m.external <;> simp [hm]

theorem methodAt?_check : s.check.program.methodAt? id = (s.program.methodAt? id).map fun m =>
      if m.external then m else (m.check s.program).1 := by
  simp only [check, Program.methodAt?, List.map_map, getElem?_map]
  congr 1
  funext m
  cases hm : m.external <;> simp [hm]

theorem methodAt?_lower : s.lower.program.methodAt? id = (s.program.methodAt? id).map fun m =>
      if m.external then m else (m.lower s.program).1 := by
  simp only [lower, Program.methodAt?, List.map_map, getElem?_map]
  congr 1
  funext m
  cases hm : m.external <;> simp [hm]

theorem outline_resolve : s.resolve.program.outline = s.program.outline := by
  unfold resolve
  simp only [List.map_map]
  apply Program.outline_map
  intro _
  simp only [Function.comp]
  split <;> rfl

theorem outline_check : s.check.program.outline = s.program.outline := by
  unfold check
  simp only [List.map_map]
  apply Program.outline_map
  intro _
  simp only [Function.comp]
  split <;> rfl

theorem outline_lower : s.lower.program.outline = s.program.outline := by
  unfold lower
  simp only [List.map_map]
  apply Program.outline_map
  intro _
  simp only [Function.comp]
  split <;> rfl

end Evaluation

end ScriptCompiler
