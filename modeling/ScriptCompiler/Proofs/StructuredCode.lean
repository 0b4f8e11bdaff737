import ScriptCompiler.Proofs.Nesting
import ScriptCompiler.Proofs.StackTypes

/-!
# Structured code

Conditionals may stand inside an expression: what is on the stack when one opens lies below its
parts, which start and end with nothing of their own. What a command does to the types of a part is
a parameter (`step`). Code that passes is `Structured`: instructions in sequence, and conditionals
with one part or two. Results about such code go by induction along this shape.
-/

set_option autoImplicit false

namespace ScriptCompiler

open List Option

/-- The types in the part of a conditional that is gone through, the latest first. For each open
conditional, the innermost first, the types below it and whether its `otherwise` has been passed. -/
structure TypeScope where
  types : Types
  outer : List (Types × Bool) := []
  deriving DecidableEq, Repr

variable {step : Command → Types → Option Types}

/-- What becomes of a scope by a command, if `step` says what the command does to the types. For a
branch this is what lies below its operand. -/
def Command.scoped (step : Command → Types → Option Types) : Command → TypeScope → Option TypeScope
  | .branch cond number, ⟨σ, outer⟩ =>
    (step (.branch cond number) σ).map fun below => ⟨[], (below, false) :: outer⟩
  | .otherwise, ⟨[], (below, false) :: outer⟩ => some ⟨[], (below, true) :: outer⟩
  | .otherwise, _ => none
  | .endBranch, ⟨[], (below, _) :: outer⟩ => some ⟨below, outer⟩
  | .endBranch, _ => none
  | c, ⟨σ, outer⟩ => (step c σ).map fun τ => ⟨τ, outer⟩

/-- The types that code leaves, if it is well typed and every conditional is closed. -/
def leavesTypes? (step : Command → Types → Option Types) (code : Code) : Option Types :=
  match replay (Command.scoped step) code ⟨[], []⟩ with
  | some ⟨τ, []⟩ => some τ
  | _ => none

/-- Code that leads from types to types, with its conditionals. -/
inductive Structured (step : Command → Types → Option Types) :
    Types → Code → Types → Prop where
  | nil {σ : Types} : Structured step σ [] σ
  | cons {i : Instruction} {c : Command} {σ τ υ : Types} {rest : Code}
      (hc : i.command? = some c) (hmark : c.isMark = false) (hstep : step c σ = some τ)
      (hrest : Structured step τ rest υ) : Structured step σ (i :: rest) υ
  | ifThen {i e : Instruction} {cond : Condition} {number : Option Int}
      {σ below υ : Types} {body rest : Code}
      (hi : i.command? = some (.branch cond number))
      (hstep : step (.branch cond number) σ = some below) (hbody : Structured step [] body [])
      (he : e.command? = some .endBranch) (hrest : Structured step below rest υ) :
      Structured step σ (i :: body ++ e :: rest) υ
  | ifElse {i o e : Instruction} {cond : Condition} {number : Option Int}
      {σ below υ : Types} {body alt rest : Code}
      (hi : i.command? = some (.branch cond number))
      (hstep : step (.branch cond number) σ = some below) (hbody : Structured step [] body [])
      (ho : o.command? = some .otherwise) (halt : Structured step [] alt [])
      (he : e.command? = some .endBranch) (hrest : Structured step below rest υ) :
      Structured step σ (i :: body ++ o :: alt ++ e :: rest) υ

/-! ## Code that passes is structured -/

theorem exists_of_replay_cons {σ : Type} {f : Command → σ → Option σ} {i : Instruction}
    {rest : Code} {s t : σ} (h : replay f (i :: rest) s = some t) :
    ∃ c u, i.command? = some c ∧ f c s = some u ∧ replay f rest u = some t := by
  obtain ⟨c, hc, h⟩ := bind_eq_some_iff.1 h
  obtain ⟨u, hu, h⟩ := bind_eq_some_iff.1 h
  exact ⟨c, u, hc, hu, h⟩

theorem Command.scoped_of_isMark {c : Command} (h : c.isMark = false) (σ : Types)
    (outer : List (Types × Bool)) :
    c.scoped step ⟨σ, outer⟩ = (step c σ).map fun τ => ⟨τ, outer⟩ := by
  cases c <;> first | rfl | cases h

/-- Where a stretch of structured code ends: at the end of the code if no conditional is open, and
otherwise at the instruction that divides or closes the innermost one. -/
def TypeScope.Stops (step : Command → Types → Option Types) (τ : Types)
    (outer : List (Types × Bool)) (reached : Types) (rest : Code) : Prop :=
  match outer with
  | [] => rest = [] ∧ reached = τ
  | (below, divided) :: outer =>
    reached = [] ∧ ∃ i more, rest = i :: more ∧
      ((i.command? = some .endBranch ∧
          replay (Command.scoped step) more ⟨below, outer⟩ = some ⟨τ, []⟩) ∨
        (divided = false ∧ i.command? = some .otherwise ∧
          replay (Command.scoped step) more ⟨[], (below, true) :: outer⟩ = some ⟨τ, []⟩))

variable {τ σ : Types} {code : Code}

/-- Code that passes from a scope on begins with structured code, as far as the innermost
conditional goes. -/
theorem exists_structured (size : Nat) : ∀ (code : Code) (σ : Types) (outer : List (Types × Bool)),
      code.length ≤ size → replay (Command.scoped step) code ⟨σ, outer⟩ = some ⟨τ, []⟩ →
      ∃ part rest reached, code = part ++ rest ∧ Structured step σ part reached ∧
        TypeScope.Stops step τ outer reached rest := by
  -- a conditional is taken off the front together with what follows it, so the lengths go down
  induction size with
  | zero =>
    intro code σ outer hsize h
    obtain rfl := length_eq_zero_iff.1 (Nat.le_zero.1 hsize)
    cases h
    exact ⟨[], [], _, rfl, .nil, rfl, rfl⟩
  | succ _ ih =>
    intro code σ outer hsize h
    cases code with
    | nil =>
      cases h
      exact ⟨[], [], _, rfl, .nil, rfl, rfl⟩
    | cons i code =>
      obtain ⟨c, _, hc, hs, h⟩ := exists_of_replay_cons h
      rw [length_cons] at hsize
      by_cases hmark : c.isMark = true
      · cases c with
        | branch =>
          obtain ⟨below, hbelow, rfl⟩ := map_eq_some_iff.1 hs
          obtain ⟨body, more, reached, rfl, hbody, rfl, e, more', rfl, hend⟩ :=
            ih code [] ((below, false) :: outer) (by omega) h
          rw [length_append, length_cons] at hsize
          rcases hend with ⟨he, h⟩ | ⟨-, ho, h⟩
          · obtain ⟨part, rest, reached, rfl, hpart, hstops⟩ := ih more' below outer (by omega) h
            refine ⟨i :: body ++ e :: part, rest, reached, ?_, ?_, hstops⟩
            · simp
            · exact .ifThen hc hbelow hbody he hpart
          · obtain ⟨alt, more, reached, rfl, halt, rfl, e', more', rfl, hend⟩ :=
              ih more' [] ((below, true) :: outer) (by omega) h
            rw [length_append, length_cons] at hsize
            rcases hend with ⟨he, h⟩ | ⟨hdivided, -, -⟩
            · obtain ⟨part, rest, reached, rfl, hpart, hstops⟩ := ih more' below outer (by omega) h
              refine ⟨i :: body ++ e :: alt ++ e' :: part, rest, reached, ?_, ?_, hstops⟩
              · simp
              · exact .ifElse hc hbelow hbody ho halt he hpart
            · cases hdivided
        | otherwise =>
          match σ, outer, hs with
          | [], (below, false) :: outer, hs =>
            cases hs
            exact ⟨[], i :: code, [], rfl, .nil, rfl, i, code, rfl, .inr ⟨rfl, hc, h⟩⟩
        | endBranch =>
          match σ, outer, hs with
          | [], (below, divided) :: outer, hs =>
            cases hs
            exact ⟨[], i :: code, [], rfl, .nil, rfl, i, code, rfl, .inl ⟨hc, h⟩⟩
        | _ => cases hmark
      · have hmark : c.isMark = false := Bool.eq_false_iff.2 hmark
        rw [Command.scoped_of_isMark hmark] at hs
        obtain ⟨υ, hυ, rfl⟩ := map_eq_some_iff.1 hs
        obtain ⟨part, rest, reached, rfl, hpart, hstops⟩ := ih code υ outer (by omega) h
        exact ⟨i :: part, rest, reached, rfl, .cons hc hmark hυ hpart, hstops⟩

theorem structured_of_leavesTypes? (h : leavesTypes? step code = some τ) :
    Structured step [] code τ := by
  have hreplay : replay (Command.scoped step) code ⟨[], []⟩ = some ⟨τ, []⟩ := by
    unfold leavesTypes? at h
    split at h
    · rename_i hreplay
      cases h
      exact hreplay
    · cases h
  obtain ⟨part, rest, reached, rfl, hpart, rfl, rfl⟩ :=
    exists_structured _ code [] [] (Nat.le_refl _) hreplay
  rw [append_nil]
  exact hpart

/-! ## Skipped code -/

/-- Structured code keeps the marks of the conditionals that are open around it. -/
theorem Structured.nest (h : Structured step σ code τ) (marks : List Bool) :
    ScriptCompiler.nest code marks = some marks := by
  have hopen : ∀ {i : Instruction} {cond number}, i.command? = some (.branch cond number) →
      ∀ marks, i.opcode.nest marks = some (false :: marks) := fun hi marks => by
    rw [Instruction.opcode_of_command? hi]
    rfl
  have hclose : ∀ {e : Instruction} {divided}, e.command? = some .endBranch →
      ∀ marks, e.opcode.nest (divided :: marks) = some marks := fun he marks => by
    rw [Instruction.opcode_of_command? he]
    rfl
  induction h generalizing marks with
  | nil => rfl
  | @cons i _ _ _ _ _ hc hmark _ _ ih => rw [nest_cons, i.nest_of_isMark hc hmark, bind_some, ih]
  | ifThen hi _ _ he _ ihbody ihrest =>
    rw [cons_append, nest_cons, hopen hi, bind_some, nest_append_of (ihbody _),
      nest_cons, hclose he, bind_some, ihrest]
  | @ifElse i o e _ _ _ _ _ body alt rest hi _ _ ho _ he _ ihbody ihalternative ihrest =>
    have hdivide : o.opcode.nest (false :: marks) = some (true :: marks) := by
      rw [o.opcode_of_command? ho]
      rfl
    simp only [cons_append, append_assoc]
    rw [nest_cons, hopen hi, bind_some, nest_append_of (ihbody _), nest_cons, hdivide,
      bind_some, nest_append_of (ihalternative _), nest_cons, hclose he, bind_some,
      ihrest]

end ScriptCompiler
