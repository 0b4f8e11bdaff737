import ScriptCompiler.Build
import ScriptCompiler.Proofs.QueueOrder

/-!
# The history of a build

Whatever a build evaluated or emitted before, a target is emitted as by a new build with the same
scripts and trees, and the same diagnostics are left (`Build.emit_independent_of_history`). An
evaluation reads of the script table which scripts are headers, so a script that is added later
changes nothing; and what it writes there is dropped before the next evaluation.
-/

set_option autoImplicit false

namespace ScriptCompiler

open List

/-! ## What an evaluation finds -/

namespace Evaluation

variable {t s : Evaluation}

/-- The declared program depends on the program before, not on the table. -/
theorem program_declareMethod_congr (h : s.program = t.program) (external : Bool)
    (owner : NamespaceId) (m : MethodDecl) :
    (s.declareMethod external owner m).program = (t.declareMethod external owner m).program := by
  unfold declareMethod
  rw [h]
  dsimp only
  cases parameterFault? m.parameters with
  | some => exact h
  | none =>
    dsimp only
    split
    · exact h
    · split <;> rfl

theorem program_declareItem_congr (h : s.program = t.program) (script : ScriptId) (external : Bool)
    (item : Item) : (declareItem script external s item).program =
      (declareItem script external t item).program := by
  cases item with
  | group =>
    unfold declareItem
    rw [h]
    refine foldl_rel (r := fun s t : Evaluation => s.program = t.program) rfl ?_
    intro member _ s t hst
    cases member with
    | method m => exact program_declareMethod_congr hst external _ m
    | field =>
      unfold declareMember
      rw [hst]
  | method m =>
    unfold declareItem
    rw [h]
    exact program_declareMethod_congr (s := ⟨_, s.scripts⟩) (t := ⟨_, t.scripts⟩) rfl external _ m
  | statement => exact h

/-- The declared program depends on which of the scripts are headers, and on nothing else of the
table. -/
theorem program_declare_congr {scripts scripts' : ScriptTable} {files : List SourceFile}
    (h : ∀ f ∈ files, scripts.isHeader f.script = scripts'.isHeader f.script) :
    (declared scripts files).program = (declared scripts' files).program := by
  induction files using List.reverseRecOn with
  | nil => rfl
  | append_singleton files file ih =>
    have hbefore := ih fun f hf => h f (mem_append_left _ hf)
    have hfile := h file (by simp)
    have hheader : ∀ scripts : ScriptTable,
        (declared scripts files).scripts.isHeader file.script = scripts.isHeader file.script := by
      intro scripts
      rw [(declare_tracks scripts files).scripts, isHeader_foldl_record]
    unfold declared declare at hbefore hheader ⊢
    rw [foldl_append, foldl_append, foldl_cons, foldl_cons, foldl_nil,
      foldl_nil, declareFile, declareFile, hheader, hheader, hfile]
    refine foldl_rel (r := fun s t : Evaluation => s.program = t.program) hbefore ?_
    intro item _ s t hst
    exact program_declareItem_congr hst file.script _ item

theorem program_resolve_congr (h : s.program = t.program) :
    s.resolve.program = t.resolve.program := by
  unfold resolve
  rw [h]

theorem program_check_congr (h : s.program = t.program) : s.check.program = t.check.program := by
  unfold check
  rw [h]

theorem program_lower_congr (h : s.program = t.program) : s.lower.program = t.lower.program := by
  unfold lower
  rw [h]

end Evaluation

variable {files : List SourceFile} {scripts : ScriptTable} {scripts' : ScriptTable}

/-- An evaluated program depends on which of the scripts are headers, and on nothing else of the
table; neither do the programs on the way. -/
theorem program_evaluate_congr
    (h : ∀ f ∈ files, scripts.isHeader f.script = scripts'.isHeader f.script) :
    (resolved scripts files).program = (resolved scripts' files).program ∧
      (evaluate scripts files).program = (evaluate scripts' files).program := by
  have hresolved : (resolved scripts files).program = (resolved scripts' files).program :=
    Evaluation.program_resolve_congr (Evaluation.program_declare_congr h)
  exact ⟨hresolved, Evaluation.program_lower_congr (Evaluation.program_check_congr hresolved)⟩

/-- All that an evaluation finds, in the order of its reports. -/
def findingsOf (scripts : ScriptTable) (files : List SourceFile) : List Findings :=
  (registry (placesOf files) (entriesOf files)).refused ++
    (declared scripts files).program.methods.map
      (Method.resolveFindings (declared scripts files).program) ++
    (resolved scripts files).program.methods.map
      (Method.checkFindings (resolved scripts files).program)

theorem scripts_evaluate_eq_foldl (scripts : ScriptTable) (files : List SourceFile) :
    (evaluate scripts files).scripts = (findingsOf scripts files).foldl ScriptTable.record scripts := by
  unfold findingsOf
  rw [foldl_append, foldl_append, ← (Evaluation.declare_tracks scripts files).scripts,
    ← Evaluation.scripts_resolve, ← resolved, ← Evaluation.scripts_check, ← checked]
  exact scripts_evaluate scripts files

theorem findingsOf_congr (h : ∀ f ∈ files, scripts.isHeader f.script = scripts'.isHeader f.script) :
    findingsOf scripts files = findingsOf scripts' files := by
  unfold findingsOf
  rw [Evaluation.program_declare_congr h, (program_evaluate_congr h).1]

/-- What is found in the trees of scripts of the table concerns scripts of the table. -/
theorem script_lt_of_mem_findingsOf (h : ∀ f ∈ files, f.script < scripts.scripts.length) :
    ∀ f ∈ findingsOf scripts files, f.script < scripts.scripts.length := by
  obtain ⟨hentry, hdeclared, hresolved⟩ := script_lt_of_declared h
  intro f hf
  rcases mem_append.1 hf with hf | hchecking
  · rcases mem_append.1 hf with hrefused | hresolution
    · obtain ⟨-, e, he, hscript⟩ := exists_of_mem_refused hrefused
      rw [hscript]
      exact hentry e he
    · obtain ⟨m, hm, rfl⟩ := List.mem_map.1 hresolution
      exact hdeclared m hm
  · obtain ⟨m, hm, rfl⟩ := List.mem_map.1 hchecking
    exact hresolved m hm

/-! ## Tables -/

namespace ScriptTable

theorem ext_get? {t t' : ScriptTable} (h : ∀ k, t.get? k = t'.get? k) : t = t' := by
  obtain ⟨_⟩ := t
  obtain ⟨_⟩ := t'
  exact congrArg ScriptTable.mk (ext_getElem? h)

variable (t : ScriptTable)

theorem length_record (f : Findings) : (t.record f).scripts.length = t.scripts.length := by
  have herrors : (t.addErrors f.script f.errors).scripts.length = t.scripts.length := by
    refine List.foldlRecOn (motive := fun t' : ScriptTable =>
      t'.scripts.length = t.scripts.length) f.errors _ rfl ?_
    intro t' hlen e _
    exact (length_modify ..).trans hlen
  refine List.foldlRecOn (motive := fun t' : ScriptTable =>
    t'.scripts.length = t.scripts.length) f.warnings _ herrors ?_
  intro t' hlen e _
  exact (length_modify ..).trans hlen

variable (path : String) (kind : ScriptKind)

theorem length_add : (t.add path kind).1.scripts.length = t.scripts.length + 1 :=
  length_append

theorem get?_add (k : ScriptId) : (t.add path kind).1.get? k =
      if k = t.scripts.length then some { id := k, path := path, kind := kind } else t.get? k := by
  unfold add get?
  dsimp only
  rcases Nat.lt_trichotomy k t.scripts.length with hlt | rfl | hgt
  · rw [if_neg (Nat.ne_of_lt hlt), getElem?_append_left hlt]
  · rw [if_pos rfl, getElem?_concat_length]
  · rw [if_neg (Nat.ne_of_gt hgt), getElem?_eq_none (by rw [length_append]; exact hgt),
      getElem?_eq_none (Nat.le_of_lt hgt)]

theorem record_add {t : ScriptTable} {f : Findings} (h : f.script < t.scripts.length)
    (path : String) (kind : ScriptKind) :
    (t.add path kind).1.record f = ((t.record f).add path kind).1 := by
  apply ext_get?
  intro k
  rw [get?_record, get?_add, get?_add, get?_record, length_record]
  by_cases hk : k = t.scripts.length
  · rw [if_pos hk, if_pos hk, Option.map_some, if_neg (hk ▸ Nat.ne_of_lt h)]
  · rw [if_neg hk, if_neg hk]

theorem foldl_record_add {found : List Findings} {t : ScriptTable}
    (h : ∀ f ∈ found, f.script < t.scripts.length) (path : String) (kind : ScriptKind) :
    found.foldl record (t.add path kind).1 = ((found.foldl record t).add path kind).1 := by
  induction found generalizing t with
  | nil => rfl
  | cons _ _ ih =>
    obtain ⟨hf, hrest⟩ := forall_mem_cons.1 h
    rw [foldl_cons, foldl_cons, record_add hf]
    apply ih
    rw [length_record]
    exact hrest

theorem get?_clearEvaluation (k : ScriptId) : t.clearEvaluation.get? k = (t.get? k).map fun s =>
      { s with
        errors := s.errors.filter Diagnostic.isReading
        warnings := s.warnings.filter Diagnostic.isReading } :=
  getElem?_map ..

theorem clearEvaluation_foldl_record (found : List Findings) (t : ScriptTable) :
    (found.foldl record t).clearEvaluation = t.clearEvaluation := by
  apply ext_get?
  intro _
  rw [get?_clearEvaluation, get?_clearEvaluation, get?_foldl_record, Option.map_map]
  congr 1
  funext s
  have hdropped : ∀ errors : List EvaluationError,
      (errors.map Diagnostic.evaluation).filter Diagnostic.isReading = [] := by
    intro errors
    rw [filter_eq_nil_iff, List.forall_mem_map]
    exact fun _ _ => nofun
  simp only [Function.comp, Script.noting, filter_append, hdropped, append_nil]

theorem clearEvaluation_add :
    (t.add path kind).1.clearEvaluation = (t.clearEvaluation.add path kind).1 := by
  simp only [add, clearEvaluation, map_append, map_cons, map_nil, length_map, filter_nil]

theorem hasErrors_iff : t.hasErrors = true ↔ 0 < t.errorCount := by
  obtain ⟨scripts⟩ := t
  unfold hasErrors errorCount
  induction scripts with
  | nil => simp
  | cons s _ ih =>
    have hs : s.hasErrors = true ↔ 0 < s.errors.length := by simp [Script.hasErrors, length_pos_iff]
    dsimp only at ih ⊢
    rw [any_cons, map_cons, sum_cons, Bool.or_eq_true, hs, ih]
    omega

end ScriptTable

/-- A script that is added after the trees were written changes nothing about them. -/
theorem evaluate_add (h : ∀ f ∈ files, f.script < scripts.scripts.length) (path : String)
    (kind : ScriptKind) : evaluate (scripts.add path kind).1 files =
      { program := (evaluate scripts files).program
        scripts := ((evaluate scripts files).scripts.add path kind).1 } := by
  have hheader : ∀ f ∈ files,
      (scripts.add path kind).1.isHeader f.script = scripts.isHeader f.script := by
    intro f hf
    unfold ScriptTable.isHeader
    rw [ScriptTable.get?_add, if_neg (Nat.ne_of_lt (h f hf))]
  have hscripts : (evaluate (scripts.add path kind).1 files).scripts =
      ((evaluate scripts files).scripts.add path kind).1 := by
    rw [scripts_evaluate_eq_foldl, scripts_evaluate_eq_foldl, findingsOf_congr hheader]
    exact ScriptTable.foldl_record_add (script_lt_of_mem_findingsOf h) path kind
  rw [← (program_evaluate_congr hheader).2, ← hscripts]

/-! ## Calls -/

namespace Build

/-- What can be asked of a build. -/
inductive Call where
  | addScript (path : String) (kind : ScriptKind)
  | addFile (file : SourceFile)
  | evaluate
  | emit (target : Target)

namespace Call

/-- Whether the call adds something to the build. -/
def adds : Call → Bool
  | addScript .. | addFile _ => true
  | evaluate | emit _ => false

/-- Whether each tree is one of a script that was added before it; `count` scripts were added before
the calls. -/
def Ordered (count : Nat) : List Call → Prop
  | [] => True
  | addScript .. :: rest => Ordered (count + 1) rest
  | addFile file :: rest => file.script < count ∧ Ordered count rest
  | evaluate :: rest | emit _ :: rest => Ordered count rest

end Call

/-- The build after a call. -/
def after (b : Build) : Call → Build
  | .addScript path kind => (b.addScript path kind).1
  | .addFile file => b.addFile file
  | .evaluate => b.evaluate.1
  | .emit target => (b.emit target).1

/-- The build after some calls to an empty one. -/
def run (calls : List Call) : Build := calls.foldl after .empty

theorem evaluate_of_some {b : Build} {p : Program} (h : b.program = some p) : b.evaluate = (b, p) := by
  unfold evaluate
  rw [h]

/-- Whether a build follows one that was never evaluated: it has the same scripts and trees, and if
it has a program, then program and diagnostics are those of an evaluation of the other one. -/
structure Follows (b fresh : Build) : Prop where
  unevaluated : fresh.program = none
  cleared : fresh.scripts.clearEvaluation = fresh.scripts
  registered : ∀ f ∈ fresh.files, f.script < fresh.scripts.scripts.length
  files : b.files = fresh.files
  scripts : b.scripts.clearEvaluation = fresh.scripts
  current : ∀ p, b.program = some p →
    ScriptCompiler.evaluate fresh.scripts fresh.files = { program := p, scripts := b.scripts }

namespace Follows

variable {b fresh : Build}

theorem empty : Follows .empty .empty :=
  ⟨rfl, rfl, forall_mem_nil _, rfl, rfl, nofun⟩

section

variable (h : Follows b fresh)
include h

theorem addScript (path : String) (kind : ScriptKind) :
    Follows (b.addScript path kind).1 (fresh.addScript path kind).1 := by
  refine ⟨h.unevaluated, ?_, ?_, h.files, ?_, ?_⟩
  · exact (ScriptTable.clearEvaluation_add ..).trans (by rw [h.cleared]; rfl)
  · intro f hf
    exact Nat.lt_of_lt_of_eq (Nat.lt_succ_of_lt (h.registered f hf))
      (ScriptTable.length_add ..).symm
  · exact (ScriptTable.clearEvaluation_add ..).trans (by rw [h.scripts]; rfl)
  · intro p hp
    have hcurrent := h.current p hp
    have hadded := evaluate_add h.registered path kind
    rw [hcurrent] at hadded
    exact hadded

theorem addFile {file : SourceFile} (hfile : file.script < fresh.scripts.scripts.length) :
    Follows (b.addFile file) (fresh.addFile file) := by
  refine ⟨rfl, h.cleared, ?_, ?_, h.scripts, nofun⟩
  · exact forall_mem_append.2 ⟨h.registered, forall_mem_singleton.2 hfile⟩
  · exact congrArg (· ++ [file]) h.files

/-- Evaluating either build gives one program and one table. -/
theorem evaluate_eq : b.evaluate = ({ b with
      scripts := (ScriptCompiler.evaluate fresh.scripts fresh.files).scripts
      program := some (ScriptCompiler.evaluate fresh.scripts fresh.files).program },
      (ScriptCompiler.evaluate fresh.scripts fresh.files).program) := by
  cases hp : b.program with
  | none =>
    unfold Build.evaluate
    rw [hp]
    dsimp only
    rw [h.scripts, h.files]
  | some p => rw [evaluate_of_some hp, h.current p hp, ← hp]

theorem evaluate : Follows b.evaluate.1 fresh := by
  rw [h.evaluate_eq]
  refine ⟨h.unevaluated, h.cleared, h.registered, h.files, ?_, ?_⟩
  · dsimp only
    rw [scripts_evaluate_eq_foldl, ScriptTable.clearEvaluation_foldl_record, h.cleared]
  · rintro p ⟨⟩
    rfl

theorem refl : Follows fresh fresh := by
  refine ⟨h.unevaluated, h.cleared, h.registered, rfl, h.cleared, ?_⟩
  intro _ hp
  rw [h.unevaluated] at hp
  cases hp

theorem emit_eq (target : Target) : (b.emit target).2 = (fresh.emit target).2 ∧
      (b.emit target).1.scripts = (fresh.emit target).1.scripts := by
  unfold Build.emit
  rw [h.evaluate_eq, h.refl.evaluate_eq]
  exact ⟨rfl, rfl⟩

/-- Calls to one build, and those that add something to the other one. -/
theorem calls {calls : List Call} (hcalls : Call.Ordered fresh.scripts.scripts.length calls) :
    Follows (calls.foldl Build.after b) ((calls.filter Call.adds).foldl Build.after fresh) := by
  induction calls generalizing b fresh with
  | nil => exact h
  | cons c _ ih =>
    cases c with
    | addScript path kind =>
      have hlen := ScriptTable.length_add fresh.scripts path kind
      exact ih (h.addScript path kind) (hlen.symm ▸ hcalls)
    | addFile => exact ih (h.addFile hcalls.1) hcalls.2
    | evaluate => exact ih h.evaluate hcalls
    | emit => exact ih h.evaluate hcalls

end

end Follows

/-! ## Answers -/

variable (b : Build)

/-- Errors stop a target, and their number is what is answered. -/
theorem emit_eq_hasErrors_iff (target : Target) (n : Nat) :
    (b.emit target).2 = .error (.hasErrors n) ↔ 0 < n ∧ b.evaluate.1.scripts.errorCount = n := by
  unfold emit
  dsimp only
  by_cases herrors : b.evaluate.1.scripts.hasErrors = true
  · rw [if_pos herrors, Except.error.injEq, BuildFailure.hasErrors.injEq]
    have hpos := b.evaluate.1.scripts.hasErrors_iff.1 herrors
    constructor
    · rintro rfl
      exact ⟨hpos, rfl⟩
    · exact And.right
  · have hzero := mt b.evaluate.1.scripts.hasErrors_iff.2 herrors
    rw [if_neg herrors]
    refine iff_of_false ?_ fun h => hzero (h.2 ▸ h.1)
    cases target.emit b.evaluate.2 b.evaluate.1.scripts <;> exact nofun

theorem after_of_not_adds {c : Call} (hc : c.adds = false) : b.after c = b.evaluate.1 := by
  cases c with
  | addScript => cases hc
  | addFile => cases hc
  | evaluate => rfl
  | emit => rfl

theorem evaluate_evaluate : b.evaluate.1.evaluate.1 = b.evaluate.1 := by
  have hkept : b.evaluate.1.program = some b.evaluate.2 := by
    cases hp : b.program with
    | none =>
      unfold evaluate
      rw [hp]
    | some =>
      rw [evaluate_of_some hp]
      exact hp
  rw [evaluate_of_some hkept]

theorem foldl_after_evaluate {calls : List Call} (h : ∀ c ∈ calls, c.adds = false) :
    calls.foldl after b.evaluate.1 = b.evaluate.1 := by
  induction calls with
  | nil => rfl
  | cons _ _ ih =>
    obtain ⟨hc, hrest⟩ := forall_mem_cons.1 h
    rw [foldl_cons, after_of_not_adds _ hc, evaluate_evaluate]
    exact ih hrest

/-- After any calls, a target is emitted as by a new build with the same scripts and trees, and the
same errors and warnings are left on each script; the number of errors decides whether the target is
refused. Evaluating the build or emitting targets any number of times leaves the diagnostics as they
are. -/
theorem emit_independent_of_history (calls : List Call) (h : Call.Ordered 0 calls)
    (target : Target) :
    ((run calls).emit target).2 = ((run (calls.filter Call.adds)).emit target).2 ∧
      ((run calls).emit target).1.scripts = ((run (calls.filter Call.adds)).emit target).1.scripts ∧
      (∀ n, ((run calls).emit target).2 = .error (.hasErrors n) ↔
        0 < n ∧ (run (calls.filter Call.adds)).evaluate.1.scripts.errorCount = n) ∧
      ∀ (first : Call) (more : List Call), first.adds = false → (∀ c ∈ more, c.adds = false) →
        (more.foldl after ((run calls).after first)).scripts =
          ((run calls).emit target).1.scripts := by
  have hfollows : Follows (run calls) (run (calls.filter Call.adds)) := Follows.empty.calls h
  obtain ⟨hanswer, htable⟩ := hfollows.emit_eq target
  refine ⟨hanswer, htable, ?_, ?_⟩
  · intro n
    rw [hanswer]
    exact emit_eq_hasErrors_iff _ target n
  · intro first more hfirst hmore
    rw [after_of_not_adds _ hfirst, foldl_after_evaluate _ hmore]
    rfl

end Build

namespace Sample

/-- `Main` calls `Lib.F`, which is evaluated and reported; then a library with `F` is added, and the
build is evaluated and emitted. -/
def repaired : List Build.Call :=
  [.addScript "main.ql" .source, .addFile ⟨0, [application [] [libraryCall "F" (.integer 1)]]⟩,
    .evaluate, .emit (.module {}), .addScript "lib.ql" .source, .emit (.assembly {}),
    .addFile (library 1 "F" .i32), .evaluate, .emit (.assembly {})]

end Sample

/-- One error is reported until the library is added, and none is left of it afterwards. -/
theorem repaired_emitted_as_new : Build.Call.Ordered 0 Sample.repaired ∧
      ((Build.run (Sample.repaired.take 6)).emit (.module {})).2 = .error (.hasErrors 1) ∧
      ((Build.run Sample.repaired).emit (.module {})).2 =
        ((Build.run (Sample.repaired.filter Build.Call.adds)).emit (.module {})).2 ∧
      ((Build.run Sample.repaired).emit (.module {})).1.scripts.errorCount = 0 := by
  have hord : Build.Call.Ordered 0 Sample.repaired := by
    simp [Sample.repaired, Build.Call.Ordered, Sample.library]
  have hearly : Build.Call.Ordered 0 (Sample.repaired.take 6) := by
    simp [Sample.repaired, Build.Call.Ordered]
  obtain ⟨-, -, hcount, -⟩ :=
    Build.emit_independent_of_history (Sample.repaired.take 6) hearly (.module {})
  obtain ⟨hanswer, htable, -, -⟩ :=
    Build.emit_independent_of_history Sample.repaired hord (.module {})
  refine ⟨hord, (hcount 1).2 ⟨Nat.one_pos, by decide +kernel⟩, hanswer, ?_⟩
  rw [htable]
  decide +kernel

end ScriptCompiler
