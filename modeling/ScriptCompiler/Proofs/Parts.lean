import Mathlib.Data.List.Flatten
import Mathlib.Data.List.Forall2
import ScriptCompiler.Proofs.Trees

/-!
# The parts of a statement

A statement read from first to last is a list of parts: its expressions, and the marks between which
conditionals and blocks stand. What is asked of statements is asked of their parts, so that a pass
is described by what it does to one part (`Rewrites`): statements that fail are left out with all
their parts, each with an error, and the parts that are left are rewritten one by one.
-/

set_option autoImplicit false

namespace ScriptCompiler

open List

/-- A part of a statement without expressions. -/
inductive Mark where
  | assembly (text : String) (span : Span)
  /-- The beginning of a block. -/
  | opening (span : Span)
  /-- The end of a block. -/
  | closing
  /-- The end of a conditional or of an alternative. -/
  | ending

/-- A part of a statement. -/
inductive Part where
  | effect (e : Expr)
  | declaration (name : String) (type : Primitive) (initial : Option Expr) (span : Span)
  | result (value : Option Expr) (span : Span)
  /-- The condition of a conditional, ahead of its bodies. -/
  | condition (e : Expr) (span : Span)
  /-- The condition of an alternative, if it has one, ahead of its body. -/
  | alternative (condition : Option Expr) (span : Span)
  | mark (m : Mark)

/-- The expressions of a part. -/
def Part.expressions : Part → List Expr
  | .effect e | .condition e _ => [e]
  | .declaration _ _ value _ | .result value _ | .alternative value _ => value.toList
  | .mark _ => []

mutual

/-- The parts of a statement, each with whether it can be reached. -/
def Stmt.parts : Stmt → List (Bool × Part)
  | .expression e => [(true, .effect e)]
  | .declare name type initial span => [(true, .declaration name type initial span)]
  | .ret value span => [(true, .result value span)]
  | .branch condition body alts span =>
    (true, .condition condition span) ::
      (body.parts ++ (alts.parts ++ [(true, .mark .ending)]))
  | .block body span =>
    (true, .mark (.opening span)) :: (Stmt.allParts body ++ [(true, .mark .closing)])
  | .assembly text span => [(true, .mark (.assembly text span))]

/-- The parts of alternatives; what follows one without a condition cannot be reached. -/
def Alternatives.parts : Alternatives → List (Bool × Part)
  | .none => []
  | .more condition body next span => (true, .alternative condition span) ::
    (body.parts ++ (next.parts.map (fun x => (x.1 && condition.isSome, x.2)) ++
      [(condition.isSome, .mark .ending)]))

/-- The parts of statements. -/
def Stmt.allParts : List Stmt → List (Bool × Part)
  | [] => []
  | s :: rest => s.parts ++ Stmt.allParts rest

end

/-! ## Statements from their parts -/

mutual

/-- Where a statement ends can be told from its parts, and so can the statement itself. -/
theorem Stmt.parts_inj : ∀ (s t : Stmt) (u v : List Part),
    s.parts.map (·.2) ++ u = t.parts.map (·.2) ++ v → s = t ∧ u = v
  | .expression _, t, u, v, h | .declare .., t, u, v, h | .ret .., t, u, v, h
  | .assembly .., t, u, v, h => by cases t <;> simp_all [Stmt.parts]
  | .branch _ body alts _, t, u, v, h => by
    cases t with
    | branch _ body' alts' =>
      simp only [Stmt.parts, map_cons, map_append, map_nil, cons_append,
        append_assoc, nil_append, List.cons.injEq, Part.condition.injEq] at h
      obtain ⟨⟨rfl, rfl⟩, h⟩ := h
      obtain ⟨rfl, hrest⟩ := Stmt.parts_inj body body' _ _ h
      obtain ⟨rfl, rfl⟩ := Alternatives.parts_inj alts alts' _ _ hrest
      exact ⟨rfl, rfl⟩
    | _ => simp [Stmt.parts] at h
  | .block body _, t, u, v, h => by
    cases t with
    | block body' =>
      simp only [Stmt.parts, map_cons, map_append, map_nil, cons_append,
        append_assoc, nil_append, List.cons.injEq, Part.mark.injEq,
        Mark.opening.injEq] at h
      obtain ⟨rfl, h⟩ := h
      obtain ⟨rfl, rfl⟩ := Stmt.allParts_inj body body' _ _ h
      exact ⟨rfl, rfl⟩
    | _ => simp [Stmt.parts] at h

theorem Alternatives.parts_inj : ∀ (a b : Alternatives) (u v : List Part),
    a.parts.map (·.2) ++ .mark .ending :: u = b.parts.map (·.2) ++ .mark .ending :: v →
      a = b ∧ u = v
  | .none, b, u, v, h => by cases b <;> simp_all [Alternatives.parts]
  | .more _ body next _, b, u, v, h => by
    cases b with
    | none => simp [Alternatives.parts] at h
    | more _ body' next' =>
      simp only [Alternatives.parts, map_cons, map_append, List.map_map, map_nil,
        Function.comp_def, cons_append, append_assoc, nil_append, List.cons.injEq,
        Part.alternative.injEq] at h
      obtain ⟨⟨rfl, rfl⟩, h⟩ := h
      obtain ⟨rfl, hrest⟩ := Stmt.parts_inj body body' _ _ h
      obtain ⟨rfl, hends⟩ := Alternatives.parts_inj next next' _ _ hrest
      exact ⟨rfl, tail_eq_of_cons_eq hends⟩

theorem Stmt.allParts_inj : ∀ (body body' : List Stmt) (u v : List Part),
    (Stmt.allParts body).map (·.2) ++ .mark .closing :: u =
      (Stmt.allParts body').map (·.2) ++ .mark .closing :: v → body = body' ∧ u = v
  | [], body', u, v, h => by
    cases body' with
    | nil => simp_all [Stmt.allParts]
    | cons s => cases s <;> simp [Stmt.allParts, Stmt.parts] at h
  | s :: rest, body', u, v, h => by
    cases body' with
    | nil => cases s <;> simp [Stmt.allParts, Stmt.parts] at h
    | cons s' rest' =>
      simp only [Stmt.allParts, map_append, append_assoc] at h
      obtain ⟨rfl, hrest⟩ := Stmt.parts_inj s s' _ _ h
      obtain ⟨rfl, rfl⟩ := Stmt.allParts_inj rest rest' _ _ hrest
      exact ⟨rfl, rfl⟩

end

/-! ## Demands -/

/-- Whether a part meets the demands on its expressions; a declaration meets none. -/
def Demands.Holds (d : Demands) : Part → Prop
  | .effect e => d.effect e
  | .declaration .. => False
  | .result value _ => d.result value
  | .condition e _ => d.condition e
  | .alternative condition _ => ∀ e ∈ condition, d.condition e
  | .mark _ => True

mutual

theorem Stmt.demands_iff (d : Demands) : ∀ s : Stmt,
    (s.Meets d ↔ ∀ x ∈ s.parts, x.1 = true → d.Holds x.2) ∧
      (s.Throughout d ↔ ∀ x ∈ s.parts, d.Holds x.2)
  | .expression e | .declare .. | .ret value span | .assembly .. => by
    simp [Stmt.Meets, Stmt.Throughout, Stmt.parts, Demands.Holds]
  | .branch condition body alts span => by
    simp only [Stmt.Meets, Stmt.Throughout, Stmt.parts, Stmt.demands_iff d body,
      Alternatives.demands_iff d alts, forall_mem_cons, forall_mem_append]
    simp [Demands.Holds]
  | .block body span => by
    simp only [Stmt.Meets, Stmt.Throughout, Stmt.parts, Stmt.allDemands_iff d body,
      forall_mem_cons, forall_mem_append]
    simp [Demands.Holds]

theorem Alternatives.demands_iff (d : Demands) : ∀ a : Alternatives,
    (a.Meets d ↔ ∀ x ∈ a.parts, x.1 = true → d.Holds x.2) ∧
      (a.Throughout d ↔ ∀ x ∈ a.parts, d.Holds x.2)
  | .none => by simp [Alternatives.Meets, Alternatives.Throughout, Alternatives.parts]
  | .more none body next span | .more (some condition) body next span => by
    simp only [Alternatives.Meets, Alternatives.Throughout, Alternatives.parts,
      Stmt.demands_iff d body, Alternatives.demands_iff d next, forall_mem_cons, forall_mem_append,
      forall_mem_map]
    simp [Demands.Holds]

theorem Stmt.allDemands_iff (d : Demands) : ∀ body : List Stmt,
    (Stmt.AllMeet d body ↔ ∀ x ∈ Stmt.allParts body, x.1 = true → d.Holds x.2) ∧
      (Stmt.AllThroughout d body ↔ ∀ x ∈ Stmt.allParts body, d.Holds x.2)
  | [] => by simp [Stmt.AllMeet, Stmt.AllThroughout, Stmt.allParts]
  | s :: rest => by
    simp only [Stmt.AllMeet, Stmt.AllThroughout, Stmt.allParts, Stmt.demands_iff d s,
      Stmt.allDemands_iff d rest, forall_mem_append, and_self]

end

theorem Stmt.allMeet_iff_parts (d : Demands) (body : List Stmt) :
    Stmt.AllMeet d body ↔ ∀ x ∈ Stmt.allParts body, x.1 = true → d.Holds x.2 :=
  (Stmt.allDemands_iff d body).1

instance (d : Demands) [DecidablePred d.effect] [DecidablePred d.condition]
    [DecidablePred d.result] : DecidablePred d.Holds := fun x => by
  cases x <;> dsimp only [Demands.Holds] <;> infer_instance

instance (d : Demands) [DecidablePred d.Holds] (body : List Stmt) : Decidable (Stmt.AllMeet d body) :=
  decidable_of_iff _ (Stmt.allMeet_iff_parts d body).symm

theorem Stmt.allThroughout_iff (d : Demands) (body : List Stmt) :
    Stmt.AllThroughout d body ↔ ∀ x ∈ Stmt.allParts body, d.Holds x.2 :=
  (Stmt.allDemands_iff d body).2

theorem Demands.Implies.holds {d d' : Demands} (h : d.Implies d') :
    ∀ x : Part, d.Holds x → d'.Holds x
  | .effect e, hx => h.effect e hx
  | .result value _, hx => h.result value hx
  | .condition e _, hx => h.condition e hx
  | .alternative _ _, hx => fun e he => h.condition e (hx e he)
  | .mark _, _ => trivial

theorem Demands.holds_both {d d' : Demands} {x : Part} :
    (d.both d').Holds x ↔ d.Holds x ∧ d'.Holds x := by
  cases x <;> simp [Demands.Holds, Demands.both, forall_and]

section

variable {d d' : Demands}

theorem Stmt.AllMeet.mono (h : d.Implies d') (body : List Stmt) (hbody : Stmt.AllMeet d body) :
    Stmt.AllMeet d' body := by
  rw [allMeet_iff_parts] at hbody ⊢
  exact fun x hx hreached => h.holds x.2 (hbody x hx hreached)

variable (body : List Stmt)

theorem Stmt.AllMeet.both (hbody : Stmt.AllMeet d body) (hbody' : Stmt.AllMeet d' body) :
    Stmt.AllMeet (d.both d') body := by
  rw [allMeet_iff_parts] at hbody hbody' ⊢
  exact fun x hx hreached => Demands.holds_both.2 ⟨hbody x hx hreached, hbody' x hx hreached⟩

theorem Stmt.AllThroughout.mono (h : d.Implies d') (body : List Stmt)
    (hbody : Stmt.AllThroughout d body) : Stmt.AllThroughout d' body := by
  rw [allThroughout_iff] at hbody ⊢
  exact fun x hx => h.holds x.2 (hbody x hx)

theorem Stmt.AllThroughout.meets (hbody : Stmt.AllThroughout d body) : Stmt.AllMeet d body := by
  rw [allThroughout_iff] at hbody
  exact (allMeet_iff_parts d body).2 fun x hx _ => hbody x hx

end

/-! ## Passes -/

/-- Whether a pass that does `w` to the parts of statements leaves the parts `ys` of the parts `xs`:
those that it keeps are rewritten one by one, and it keeps all of them if it has no error. -/
def Rewrites (w : Part → Part → Prop) (errors : List EvaluationError) (xs ys : List (Bool × Part)) :
    Prop :=
  ∃ kept, kept.Sublist xs ∧ List.Forall₂ (fun x y => x.1 = y.1 ∧ w x.2 y.2) kept ys ∧
    (errors = [] ↔ kept.length = xs.length)

theorem exists_of_mem_of_forall₂ {α β : Type} {R : α → β → Prop} {xs : List α} {ys : List β} {y : β}
    (h : List.Forall₂ R xs ys) (hy : y ∈ ys) : ∃ x ∈ xs, R x y := by
  induction h with
  | nil => cases hy
  | cons hfirst _ ih =>
    rcases mem_cons.1 hy with rfl | hy
    · exact ⟨_, mem_cons_self, hfirst⟩
    · obtain ⟨x, hx, hxy⟩ := ih hy
      exact ⟨x, mem_cons_of_mem _ hx, hxy⟩

namespace Rewrites

variable {w : Part → Part → Prop} {errors errors' : List EvaluationError}
  {xs xs' ys ys' : List (Bool × Part)}

theorem nil : Rewrites w [] [] [] := ⟨[], .slnil, .nil, by simp⟩

theorem one {x y : Part} {b : Bool} (h : w x y) : Rewrites w [] [(b, x)] [(b, y)] :=
  ⟨[(b, x)], .refl _, .cons ⟨rfl, h⟩ .nil, by simp⟩

theorem lost (hxs : xs ≠ []) (herrors : errors ≠ []) : Rewrites w errors xs [] :=
  ⟨[], nil_sublist _, .nil, by simp [herrors, eq_comm, hxs]⟩

section

variable (h : Rewrites w errors xs ys)
include h

theorem append (h' : Rewrites w errors' xs' ys') :
    Rewrites w (errors ++ errors') (xs ++ xs') (ys ++ ys') := by
  obtain ⟨kept, hkept, hrel, hall⟩ := h
  obtain ⟨kept', hkept', hrel', hall'⟩ := h'
  refine ⟨kept ++ kept', hkept.append hkept', rel_append hrel hrel', ?_⟩
  have hle := hkept.length_le
  have hle' := hkept'.length_le
  rw [append_eq_nil_iff, hall, hall', length_append, length_append]
  omega

theorem behind {x y : Part} {b : Bool} (hxy : w x y) :
    Rewrites w errors (xs ++ [(b, x)]) (ys ++ [(b, y)]) := by
  have hall := h.append (.one (b := b) hxy)
  rwa [append_nil] at hall

theorem map_reached (b : Bool) :
    Rewrites w errors (xs.map fun x => (x.1 && b, x.2)) (ys.map fun x => (x.1 && b, x.2)) := by
  obtain ⟨kept, hkept, hrel, hall⟩ := h
  refine ⟨kept.map _, hkept.map _, ?_, by simpa using hall⟩
  rw [forall₂_map_left_iff, forall₂_map_right_iff]
  exact hrel.imp fun x _ hxy => ⟨by rw [hxy.1], hxy.2⟩

theorem exists_of_mem {y : Bool × Part} (hy : y ∈ ys) : ∃ x ∈ xs, x.1 = y.1 ∧ w x.2 y.2 := by
  obtain ⟨_, hkept, hrel, -⟩ := h
  obtain ⟨x, hx, hxy⟩ := exists_of_mem_of_forall₂ hrel hy
  exact ⟨x, hkept.subset hx, hxy⟩

/-- What is collected from the parts that are left was there if rewriting keeps it. -/
theorem flatMap_sublist {α : Type} {f : Bool × Part → List α}
    (hf : ∀ x y : Bool × Part, x.1 = y.1 → w x.2 y.2 → f x = f y) :
    List.Sublist (ys.flatMap f) (xs.flatMap f) := by
  obtain ⟨kept, hkept, hrel, -⟩ := h
  have hsame : kept.flatMap f = ys.flatMap f := by
    clear hkept
    induction hrel with
    | nil => rfl
    | cons hxy _ ih => rw [flatMap_cons, flatMap_cons, hf _ _ hxy.1 hxy.2, ih]
  rw [← hsame]
  exact hkept.flatMap f

end

end Rewrites

end ScriptCompiler
