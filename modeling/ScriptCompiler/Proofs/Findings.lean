import ScriptCompiler.Proofs.Signatures

/-!
# Findings

What is found in one method is reported on the script of the method. A script ends
up with the findings on it, in their order, and the number of errors of a script table
grows by the number of errors found.
-/

set_option autoImplicit false

namespace ScriptCompiler

open List

/-- What was found in one method. -/
structure Findings where
  script : ScriptId
  errors : List EvaluationError := []
  warnings : List EvaluationError := []

/-- A script with more errors and warnings. -/
def Script.noting (s : Script) (errors warnings : List EvaluationError) : Script :=
  { s with
    errors := s.errors ++ errors.map .evaluation
    warnings := s.warnings ++ warnings.map .evaluation }

theorem Script.noting_nil (s : Script) : s.noting [] [] = s := by simp [Script.noting]

theorem Script.noting_noting (s : Script) (errors warnings errors' warnings' : List EvaluationError) :
    (s.noting errors warnings).noting errors' warnings' =
      s.noting (errors ++ errors') (warnings ++ warnings') := by
  simp [Script.noting]

namespace ScriptTable

/-- Reports findings on their script. -/
def record (t : ScriptTable) (f : Findings) : ScriptTable :=
  (t.addErrors f.script f.errors).addWarnings f.script f.warnings

/-! ## Scripts after reports -/

theorem get?_foldl_modify {α : Type} (change : α → Script → Script) (items : List α)
    (t : ScriptTable) (id k : ScriptId) :
    (items.foldl (fun t a => ⟨t.scripts.modify id (change a)⟩) t).get? k =
      (t.get? k).map fun s => if id = k then items.foldl (fun s a => change a s) s else s := by
  induction items generalizing t with
  | nil => simp
  | cons _ _ ih =>
    rw [foldl_cons, ih]
    simp only [get?, getElem?_modify, Option.map_eq_map, Option.map_map, foldl_cons]
    congr 1
    funext s
    by_cases h : id = k
    · simp [h]
    · simp [h]

theorem foldl_notes (found : List EvaluationError) (s : Script) :
    found.foldl (fun s e => { s with errors := s.errors ++ [.evaluation e] }) s =
        s.noting found [] ∧
      found.foldl (fun s e => { s with warnings := s.warnings ++ [.evaluation e] }) s =
        s.noting [] found := by
  induction found generalizing s with
  | nil => exact ⟨s.noting_nil.symm, s.noting_nil.symm⟩
  | cons _ _ ih =>
    rw [foldl_cons, (ih _).1, foldl_cons, (ih _).2]
    simp [Script.noting]

/-- Findings are noted on their script, and nowhere else. -/
theorem get?_record (t : ScriptTable) (f : Findings) (k : ScriptId) : (t.record f).get? k =
      (t.get? k).map fun s => if f.script = k then s.noting f.errors f.warnings else s := by
  unfold record addWarnings addErrors addWarning addError
  rw [get?_foldl_modify, get?_foldl_modify, Option.map_map]
  congr 1
  funext s
  by_cases h : f.script = k
  · simp [h, foldl_notes, Script.noting_noting]
  · simp [h]

theorem get?_foldl_record (found : List Findings) (t : ScriptTable) (k : ScriptId) :
    (found.foldl record t).get? k = (t.get? k).map fun s =>
      s.noting ((found.filter (·.script = k)).flatMap (·.errors))
        ((found.filter (·.script = k)).flatMap (·.warnings)) := by
  induction found generalizing t with
  | nil => simp [Script.noting_nil]
  | cons f _ ih =>
    rw [foldl_cons, ih, get?_record, Option.map_map]
    congr 1
    funext s
    by_cases h : f.script = k
    · simp [h, Script.noting_noting]
    · simp [h]

theorem foldl_record_of_silent {found : List Findings}
    (h : ∀ f ∈ found, f.errors = [] ∧ f.warnings = []) (t : ScriptTable) :
    found.foldl record t = t := by
  induction found generalizing t with
  | nil => rfl
  | cons f _ ih =>
    obtain ⟨herrors, hwarnings⟩ := h f (by simp)
    have hstep : t.record f = t := by
      rw [record, herrors, hwarnings]
      rfl
    rw [foldl_cons, hstep]
    exact ih (fun g hg => h g (mem_cons_of_mem _ hg)) t

/-! ## Counting errors -/

theorem errorCount_addError {t : ScriptTable} {id : ScriptId} (h : id < t.scripts.length)
    (d : Diagnostic) : (t.addError id d).errorCount = t.errorCount + 1 := by
  obtain ⟨scripts⟩ := t
  unfold addError errorCount
  dsimp only at h ⊢
  induction scripts generalizing id with
  | nil => cases h
  | cons _ _ ih =>
    cases id with
    | zero =>
      simp only [modify_zero_cons, map_cons, sum_cons, length_append, length_singleton]
      omega
    | succ =>
      have hrest := ih (Nat.lt_of_succ_lt_succ h)
      simp only [modify_succ_cons, map_cons, sum_cons]
      omega

theorem errorCount_addWarning (t : ScriptTable) (id : ScriptId) (d : Diagnostic) :
    (t.addWarning id d).errorCount = t.errorCount := by
  unfold addWarning errorCount
  congr 1
  exact map_modify_of_eq (fun _ => by rfl) t.scripts id

theorem errorCount_record {t : ScriptTable} {f : Findings} (h : f.script < t.scripts.length) :
    (t.record f).errorCount = t.errorCount + f.errors.length ∧
      (t.record f).scripts.length = t.scripts.length := by
  have herrors : (t.addErrors f.script f.errors).errorCount = t.errorCount + f.errors.length ∧
      (t.addErrors f.script f.errors).scripts.length = t.scripts.length := by
    unfold addErrors
    induction f.errors generalizing t with
    | nil => exact ⟨rfl, rfl⟩
    | cons e _ ih =>
      have hlen : (t.addError f.script (.evaluation e)).scripts.length = t.scripts.length := by
        simp [addError]
      obtain ⟨hcount, hsame⟩ := ih (hlen.symm ▸ h)
      rw [foldl_cons, hcount, hsame, errorCount_addError h, length_cons]
      exact ⟨by omega, hlen⟩
  rw [← herrors.1, ← herrors.2]
  unfold record addWarnings
  refine List.foldlRecOn (motive := fun t' : ScriptTable =>
    t'.errorCount = (t.addErrors f.script f.errors).errorCount ∧
      t'.scripts.length = (t.addErrors f.script f.errors).scripts.length) f.warnings _ ⟨rfl, rfl⟩ ?_
  rintro t' ⟨hcount, hlen⟩ e -
  rw [errorCount_addWarning]
  exact ⟨hcount, by rw [← hlen]; simp [addWarning]⟩

theorem errorCount_foldl_record {found : List Findings} {t : ScriptTable}
    (h : ∀ f ∈ found, f.script < t.scripts.length) :
    (found.foldl record t).errorCount = t.errorCount + (found.flatMap Findings.errors).length ∧
      (found.foldl record t).scripts.length = t.scripts.length := by
  induction found generalizing t with
  | nil => exact ⟨rfl, rfl⟩
  | cons f _ ih =>
    obtain ⟨hcount, hlen⟩ := errorCount_record (h f (by simp))
    obtain ⟨hrest, hsame⟩ := ih (t := t.record f) fun g hg => by
      rw [hlen]
      exact h g (mem_cons_of_mem _ hg)
    rw [foldl_cons, flatMap_cons, length_append, ← Nat.add_assoc, ← hcount, ← hlen]
    exact ⟨hrest, hsame⟩

end ScriptTable

end ScriptCompiler
