import ScriptCompiler.Evaluation.Checked

/-!
# Results that may be errors

Sequencing of steps that may fail, read backwards: a sequence that succeeds went
through the success of each of its steps. `Except` stops at the first error, and
`Checked` keeps what was reported on the way.
-/

set_option autoImplicit false

namespace ScriptCompiler

variable {ε α β : Type}

instance Except.decidableEq [DecidableEq ε] [DecidableEq α] : DecidableEq (Except ε α)
  | .ok a, .ok b => decidable_of_iff (a = b) (by simp)
  | .error e, .error e' => decidable_of_iff (e = e') (by simp)
  | .ok _, .error _ => isFalse (by simp)
  | .error _, .ok _ => isFalse (by simp)

variable {x : Except ε α} {f : α → Except ε β}

theorem Except.bind_eq_ok_iff {b : β} : (x >>= f) = .ok b ↔ ∃ a, x = .ok a ∧ f a = .ok b := by
  cases x with
  | error => simp [bind, Except.bind]
  | ok => simp [bind, Except.bind]

theorem of_bind {b : β} (h : (x >>= f) = .ok b) : ∃ a, x = .ok a ∧ f a = .ok b :=
  Except.bind_eq_ok_iff.1 h

theorem of_bind₂ {γ : Type} {g : α → β → Except ε γ} {c : γ}
    (h : (x >>= fun a => f a >>= g a) = .ok c) : ∃ a b, x = .ok a ∧ f a = .ok b ∧ g a b = .ok c := by
  obtain ⟨a, ha, h⟩ := of_bind h
  obtain ⟨b, hb, h⟩ := of_bind h
  exact ⟨a, b, ha, hb, h⟩

theorem Except.bind_eq_error_iff {e : ε} :
    (x >>= f) = .error e ↔ x = .error e ∨ ∃ a, x = .ok a ∧ f a = .error e := by
  cases x with
  | error => simp [bind, Except.bind]
  | ok => simp [bind, Except.bind]

theorem Except.map_eq_ok_iff {f : α → β} {b : β} : x.map f = .ok b ↔ ∃ a, x = .ok a ∧ f a = b := by
  cases x with
  | error => simp [Except.map]
  | ok => simp [Except.map]

@[simp] theorem ok_bind (a : α) (f : α → Except ε β) : (Except.ok a >>= f) = f a := rfl

@[simp] theorem Except.error_bind (e : ε) (f : α → Except ε β) :
    (Except.error e >>= f) = .error e := rfl

@[simp] theorem Except.pure_eq_ok (a : α) : (pure a : Except ε α) = .ok a := rfl

theorem Except.bind_ok (x : Except ε α) : (x >>= Except.ok) = x := by cases x <;> rfl

theorem Except.bind_map {γ : Type} (x : Except ε α) (f : α → β) (g : β → Except ε γ) :
    (x.map f >>= g) = x >>= fun a => g (f a) := by
  cases x <;> rfl

theorem Except.map_bind {γ : Type} (x : Except ε α) (g : α → Except ε β) (f : β → γ) :
    (x >>= g).map f = x >>= fun a => (g a).map f := by
  cases x <;> rfl

namespace Checked

@[simp] theorem outcome_pure (a : α) : (pure a : Checked α).outcome = .ok a := rfl

@[simp] theorem errors_pure (a : α) : (pure a : Checked α).errors = [] := rfl

@[simp] theorem outcome_lift (x : Evaluating α) : (lift x).outcome = x := rfl

variable {f : α → Checked β} (x : Checked α)

@[simp] theorem outcome_bind (f : α → Checked β) :
    (x >>= f).outcome = x.outcome >>= fun a => (f a).outcome := by
  show (Checked.bind x f).outcome = _
  unfold Checked.bind
  cases x.outcome <;> rfl

theorem bind_ok {x : Checked α} {b : β} (h : (x >>= f).outcome = .ok b) :
    ∃ a, x.outcome = .ok a ∧ (f a).outcome = .ok b ∧ (x >>= f).errors = x.errors ++ (f a).errors := by
  obtain ⟨a, ha, hb⟩ := of_bind ((outcome_bind x f).symm.trans h)
  refine ⟨a, ha, hb, ?_⟩
  show (Checked.bind x f).errors = _
  simp only [Checked.bind, ha]

/-- Whether nothing is reported as an error. -/
def Quiet (x : Checked α) : Prop := x.errors = []

theorem Quiet.lift (x : Evaluating α) : (Checked.lift x).Quiet := rfl

theorem Quiet.bind {x : Checked α} (hx : x.Quiet) (hf : ∀ a, (f a).Quiet) : (x >>= f).Quiet := by
  show (Checked.bind x f).errors = []
  unfold Checked.bind
  cases x.outcome with
  | error => exact hx
  | ok a => exact List.append_eq_nil_iff.2 ⟨hx, hf a⟩

@[simp] theorem pure_bind (a : α) (f : α → Checked β) : (pure a >>= f) = f a := rfl

theorem lift_ok_bind (a : α) (f : α → Checked β) : (lift (.ok a) >>= f) = f a := rfl

/-- A result changed by a function; what was reported stays. -/
def map (f : α → β) (x : Checked α) : Checked β := ⟨x.outcome.map f, x.errors, x.warnings⟩

theorem map_pure (f : α → β) (a : α) : (pure a : Checked α).map f = pure (f a) := rfl

theorem bind_map {γ : Type} (f : α → β) (g : β → Checked γ) :
    (x.map f >>= g) = x >>= fun a => g (f a) := by
  show Checked.bind (x.map f) g = Checked.bind x _
  unfold Checked.bind map
  cases x.outcome <;> rfl

theorem map_bind {γ : Type} (g : α → Checked β) (f : β → γ) :
    (x >>= g).map f = x >>= fun a => (g a).map f := by
  show (Checked.bind x g).map f = Checked.bind x _
  unfold Checked.bind map
  cases x.outcome <;> rfl

theorem recover_map (f : α → β) : (x.map f).recover = x.recover.map (Option.map f) := by
  unfold recover map
  cases x.outcome <;> rfl

@[simp] theorem recover_pure (a : α) : (pure a : Checked α).recover = pure (some a) := rfl

theorem outcome_recover : x.recover.outcome = .ok x.outcome.toOption := by
  unfold recover
  cases x.outcome <;> rfl

end Checked

/-- What is found by its key stands in the table under it. -/
theorem mem_of_find?_key [BEq α] [LawfulBEq α] {table : List (α × β)} {key : α} {e : α × β}
    (h : (table.find? fun e => e.1 == key) = some e) : (key, e.2) ∈ table := by
  have hkey : e.1 = key := by simpa using List.find?_some h
  rw [← hkey]
  exact List.mem_of_find?_eq_some h

end ScriptCompiler
