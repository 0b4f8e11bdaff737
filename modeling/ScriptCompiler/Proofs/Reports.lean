import ScriptCompiler.Proofs.Lowering

/-!
# What the passes report

A pass goes through the methods in order and reports what it found in a body on the
script of the method, so the script table after a pass is the one before it with the
findings of all methods recorded.

Lowering finds nothing: whatever resolution and checking leave in a body is lowered.
-/

set_option autoImplicit false

namespace ScriptCompiler

open List

/-! ## The passes -/

/-- What resolution finds in a method. -/
def Method.resolveFindings (p : Program) (m : Method) : Findings where
  script := m.script
  errors := if m.external then [] else (m.resolve p).2

/-- What checking finds in a method. -/
def Method.checkFindings (p : Program) (m : Method) : Findings where
  script := m.script
  errors := if m.external then [] else (m.check p).2.1
  warnings := if m.external then [] else (m.check p).2.2

/-- What lowering finds in a method. -/
def Method.lowerFindings (p : Program) (m : Method) : Findings where
  script := m.script
  errors := if m.external then [] else (m.lower p).2

namespace Evaluation

variable (s : Evaluation)

theorem scripts_resolve : s.resolve.scripts =
      (s.program.methods.map (Method.resolveFindings s.program)).foldl ScriptTable.record
        s.scripts := by
  unfold resolve
  dsimp only
  rw [foldl_map, foldl_map]
  congr 1
  funext t m
  unfold Method.resolveFindings ScriptTable.record
  cases hm : m.external with
  | true => simp [ScriptTable.addWarnings]
  | false => simp [ScriptTable.addWarnings, Method.resolve]

theorem scripts_check : s.check.scripts =
      (s.program.methods.map (Method.checkFindings s.program)).foldl ScriptTable.record
        s.scripts := by
  unfold check
  dsimp only
  rw [foldl_map, foldl_map]
  congr 1
  funext t m
  unfold Method.checkFindings ScriptTable.record
  cases hm : m.external with
  | true => simp
  | false => simp [Method.check]

theorem scripts_lower : s.lower.scripts =
      (s.program.methods.map (Method.lowerFindings s.program)).foldl ScriptTable.record
        s.scripts := by
  unfold lower
  dsimp only
  rw [foldl_map, foldl_map]
  congr 1
  funext t m
  unfold Method.lowerFindings ScriptTable.record
  cases hm : m.external with
  | true => simp [ScriptTable.addWarnings]
  | false => simp [ScriptTable.addWarnings, Method.lower]

/-- Whether the second evaluation is the first one after a sweep over the methods, which works on
every one that is not external and records what it finds. -/
structure Sweep (work : Program → Method → Method) (find : Program → Method → Findings)
    (s s' : Evaluation) : Prop where
  methodAt? : ∀ id, s'.program.methodAt? id = (s.program.methodAt? id).map fun m =>
    if m.external then m else work s.program m
  outline : s'.program.outline = s.program.outline
  scripts : s'.scripts = (s.program.methods.map (find s.program)).foldl ScriptTable.record s.scripts

theorem sweep_resolve : Sweep (fun p m => (m.resolve p).1) Method.resolveFindings s s.resolve :=
  ⟨methodAt?_resolve s, outline_resolve s, scripts_resolve s⟩

theorem sweep_check : Sweep (fun p m => (m.check p).1) Method.checkFindings s s.check :=
  ⟨methodAt?_check s, outline_check s, scripts_check s⟩

theorem sweep_lower : Sweep (fun p m => (m.lower p).1) Method.lowerFindings s s.lower :=
  ⟨methodAt?_lower s, outline_lower s, scripts_lower s⟩

theorem Sweep.errorCount {work : Program → Method → Method} {find : Program → Method → Findings}
    {s s' : Evaluation} (h : Sweep work find s s')
    (hscript : ∀ m ∈ s.program.methods, (find s.program m).script < s.scripts.scripts.length) :
    s'.scripts.errorCount = s.scripts.errorCount +
        (s.program.methods.flatMap fun m => (find s.program m).errors).length ∧
      s'.scripts.scripts.length = s.scripts.scripts.length := by
  rw [h.scripts, ← flatMap_map]
  exact ScriptTable.errorCount_foldl_record (List.forall_mem_map.2 hscript)

end Evaluation

/-! ## Lowering -/

variable {files : List SourceFile} {scripts : ScriptTable}

/-- Every statement that checking leaves in a body is lowered. -/
theorem exists_lower_of_checked {id : MethodId} {m : Method}
    (h : (checked scripts files).program.methodAt? id = some m) (hext : m.external = false)
    {s : Stmt} (hs : s ∈ m.statements) :
    ∃ code, s.lower (checked scripts files).program m.returnType = .ok code := by
  obtain ⟨hsound, -⟩ := exists_code_of_checked h hext
  exact Stmt.exists_lower s ((Stmt.allMeet_iff _ _).1 hsound s hs)

theorem lowerFindings_checked {m : Method} (h : m ∈ (checked scripts files).program.methods) :
    (m.lowerFindings (checked scripts files).program).errors = [] := by
  unfold Method.lowerFindings
  dsimp only
  split
  · rfl
  · rename_i hext
    rw [Bool.not_eq_true] at hext
    obtain ⟨id, hid⟩ := getElem?_of_mem h
    rw [Method.lower_eq]
    refine filterMap_eq_nil_iff.2 fun s hs => ?_
    obtain ⟨code, hcode⟩ := exists_lower_of_checked hid hext hs
    rw [hcode]

theorem scripts_evaluate (scripts : ScriptTable) (files : List SourceFile) :
    (evaluate scripts files).scripts = (checked scripts files).scripts := by
  rw [evaluate_eq_lower, Evaluation.scripts_lower]
  apply ScriptTable.foldl_record_of_silent
  intro _ hf
  obtain ⟨_, hm, rfl⟩ := List.mem_map.1 hf
  exact ⟨lowerFindings_checked hm, rfl⟩

/-- Lowering succeeds on every statement that resolution and checking accept, and reports nothing. -/
theorem lowering_reports_nothing (scripts : ScriptTable) (files : List SourceFile) :
    (∀ id m, (checked scripts files).program.methodAt? id = some m → m.external = false →
      ∀ s ∈ m.statements, ∃ code, s.lower (checked scripts files).program m.returnType = .ok code) ∧
      (evaluate scripts files).scripts = (checked scripts files).scripts ∧
      (evaluate scripts files).scripts.errorCount = (checked scripts files).scripts.errorCount := by
  refine ⟨?_, scripts_evaluate scripts files, ?_⟩
  · intro id m h hext s hs
    exact exists_lower_of_checked h hext hs
  · rw [scripts_evaluate]

namespace Sample

/-- `void Main()` calls a method that nobody declares, declares `u8 x = "text"` and assigns `300` to
`x`. -/
def faulty : MethodDecl :=
  ⟨.void, ⟨["Main"]⟩, [],
    [.expression (call "Missing" []),
      .declare "x" .u8 (some (.literal (.text "text") .unknown)) .unknown,
      .expression (assign "x" (number 300))], .unknown⟩

def faultyFiles : List SourceFile := [⟨0, [.group ⟨["App"]⟩ [.method faulty] .unknown]⟩]

end Sample

/-- Of three statements resolution refuses the first one and checking the second one; the third one
is lowered, and no third error is reported. -/
theorem faulty_lowering_reports_nothing :
    (checked Sample.scripts Sample.faultyFiles).scripts.errorCount = 2 ∧
      (evaluate Sample.scripts Sample.faultyFiles).scripts.errorCount = 2 ∧
      ∃ m s, (checked Sample.scripts Sample.faultyFiles).program.methodAt? 0 = some m ∧
        m.external = false ∧ m.statements = [s] ∧
        ∃ code, s.lower (checked Sample.scripts Sample.faultyFiles).program m.returnType =
          .ok code := by
  obtain ⟨hlower, -, hcount⟩ := lowering_reports_nothing Sample.scripts Sample.faultyFiles
  have hchecked : (checked Sample.scripts Sample.faultyFiles).scripts.errorCount = 2 := by
    decide +kernel
  have hmethod : ((checked Sample.scripts Sample.faultyFiles).program.methodAt? 0).map
      (fun m => (m.external, m.statements.length)) = some (false, 1) := by
    decide +kernel
  obtain ⟨m, hm, hshape⟩ := Option.map_eq_some_iff.1 hmethod
  have hext : m.external = false := congrArg Prod.fst hshape
  obtain ⟨s, hs⟩ := List.length_eq_one_iff.1 (congrArg Prod.snd hshape)
  have hsome := hlower 0 m hm hext s (by rw [hs]; exact List.mem_singleton_self s)
  exact ⟨hchecked, hcount.trans hchecked, m, s, hm, hext, hs, hsome⟩

end ScriptCompiler
