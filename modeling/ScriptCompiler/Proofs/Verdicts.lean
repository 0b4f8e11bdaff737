import ScriptCompiler.Proofs.QueueOrder

/-!
# Verdicts on declarations

A declared method is registered if its parameters can stand and no method before it is registered
under its reference; every other declaration is refused with one error on its script. What is
registered has its own folded body, or none if a header declares it
(`Evaluation.declaration_accounts`).
-/

set_option autoImplicit false

namespace ScriptCompiler

open List

/-- Whether the parameters of a method can stand: each has a type with values of its own, and no two
have one name. -/
def MethodDecl.Sound (m : MethodDecl) : Prop :=
  (∀ q ∈ m.parameters, q.type ≠ .void ∧ q.type.isGeneric = false) ∧
    (m.parameters.map (·.name)).Nodup

namespace Evaluation

theorem repeatedParameter?_eq_none_iff {seen : List String} {params : List ParameterDecl} :
    repeatedParameter? seen params = none ↔
      (∀ q ∈ params, q.name ∉ seen) ∧ (params.map (·.name)).Nodup := by
  induction params generalizing seen with
  | nil => simp [repeatedParameter?]
  | cons q rest ih =>
    rw [repeatedParameter?, contains_eq_mem, forall_mem_cons, map_cons, nodup_cons]
    by_cases hseen : q.name ∈ seen
    · simp [hseen]
    · have hnames : (∀ r ∈ rest, r.name ∉ q.name :: seen) ↔
          q.name ∉ rest.map (·.name) ∧ ∀ r ∈ rest, r.name ∉ seen := by
        grind
      simp only [hseen, decide_false, Bool.false_eq_true, if_false, ih, hnames]
      tauto

/-- Parameters have no fault exactly if they can stand. -/
theorem parameterFault?_eq_none_iff {m : MethodDecl} :
    parameterFault? m.parameters = none ↔ m.Sound := by
  unfold parameterFault? MethodDecl.Sound
  cases hfind : m.parameters.find? fun q => q.type == .void || q.type.isGeneric with
  | some bad =>
    have hbad := find?_some hfind
    refine iff_of_false nofun fun hsound => ?_
    obtain ⟨hvoid, hgeneric⟩ := hsound.1 bad (mem_of_find?_eq_some hfind)
    simp [hvoid, hgeneric] at hbad
  | none =>
    have htypes := List.find?_eq_none.1 hfind
    rw [Option.map_eq_none_iff, repeatedParameter?_eq_none_iff]
    simp only [not_mem_nil, not_false_eq_true, implies_true, true_and]
    refine (and_iff_right fun q hq => ?_).symm
    simpa using htypes q hq

end Evaluation

/-- A declared method with what was found against it. -/
structure Verdict where
  entry : Entry
  error? : Option EvaluationError

namespace Verdict

/-- The entries without an error. -/
def registered (log : List Verdict) : List Entry :=
  (log.filter (·.error?.isNone)).map (·.entry)

/-- The errors on one script. -/
def errorsOn (log : List Verdict) (script : ScriptId) : List EvaluationError :=
  (log.filter (·.entry.place.script = script)).filterMap (·.error?)

/-- Whether verdicts are given on all entries in their order: those are registered whose parameters
can stand and whose reference none has that was registered before. -/
structure Decides (places : List Place) (entries : List Entry) (log : List Verdict) : Prop where
  entries : log.map (·.entry) = entries
  decided : ∀ i v, log[i]? = some v →
    (v.error? = none ↔ v.entry.decl.Sound ∧
      ∀ e ∈ registered (log.take i), e.reference places ≠ v.entry.reference places)

/-- What an error is reported as. -/
def findings? (v : Verdict) : Option Findings :=
  v.error?.map fun e => ⟨v.entry.place.script, [e], []⟩

/-- Every run of declarations has a log. -/
theorem exists_log (places : List Place) (entries : List Entry) :
    ∃ log, Decides places entries log ∧ registered log = (registry places entries).kept ∧
      log.filterMap findings? = (registry places entries).refused := by
  induction entries using List.reverseRecOn with
  | nil =>
    refine ⟨[], ⟨rfl, ?_⟩, rfl, rfl⟩
    intro i v hv
    cases hv
  | append_singleton entries e ih =>
    obtain ⟨log, hdecides, hkept, hrefused⟩ := ih
    let last : Verdict := ⟨e, e.fault? places (registry places entries).kept⟩
    have hmore : registered (log ++ [last]) = (registry places (entries ++ [e])).kept ∧
        (log ++ [last]).filterMap findings? = (registry places (entries ++ [e])).refused := by
      rw [registry_concat, Registry.add, registered, filter_append, map_append,
        filterMap_append, hrefused, ← registered, hkept]
      cases hfault : e.fault? places (registry places entries).kept with
      | none => simp [last, hfault, findings?]
      | some => simp [last, hfault, findings?]
    refine ⟨log ++ [last], ⟨?_, ?_⟩, hmore⟩
    · rw [map_append, hdecides.entries]
      rfl
    · intro i v hv
      rcases Program.getElem?_concat_cases hv with hold | ⟨rfl, rfl⟩
      · have hle := Nat.le_of_lt (List.getElem?_eq_some_iff.1 hold).1
        rw [take_append_of_le_length hle]
        exact hdecides.decided i v hold
      · rw [take_left, hkept]
        have hiff := @Entry.fault?_eq_none_iff places (registry places entries).kept e
        rw [Evaluation.parameterFault?_eq_none_iff, List.mem_map, not_exists] at hiff
        simpa only [not_and] using hiff

/-- What is reported on a script is the errors on it, and in all one for each verdict with an
error. -/
theorem findings_report (log : List Verdict) (script : ScriptId) :
    ((log.filterMap findings?).filter (·.script = script)).flatMap (·.errors) = errorsOn log script ∧
      ((log.filterMap findings?).filter (·.script = script)).flatMap (·.warnings) = [] ∧
      ((log.filterMap findings?).flatMap Findings.errors).length =
        (log.filter (·.error?.isSome)).length := by
  unfold errorsOn
  induction log with
  | nil => exact ⟨rfl, rfl, rfl⟩
  | cons v _ ih =>
    obtain ⟨e, error?⟩ := v
    cases error? with
    | none =>
      rw [filterMap_cons_none (f := findings?) rfl]
      by_cases hscript : e.place.script = script
      · simpa [hscript] using ih
      · simpa [hscript] using ih
    | some =>
      rw [filterMap_cons_some (f := findings?) rfl]
      by_cases hscript : e.place.script = script
      · simpa [hscript, Nat.add_comm] using ih
      · simpa [hscript, Nat.add_comm] using ih

end Verdict

/-- Declaration gives a verdict on every method that the scripts declare. The methods of the program
are those that are registered, in their order and each with its own body, and the scripts get the
errors of the others, one for each. Every entry has its place in the program: a namespace of its
script, under whose path it is registered or refused. -/
theorem Evaluation.declaration_accounts (scripts : ScriptTable) (files : List SourceFile)
    (hreg : ∀ f ∈ files, f.script < scripts.scripts.length) :
    ∃ log : List Verdict, Verdict.Decides (placesOf files) (entriesOf files) log ∧
      (({ scripts } : Evaluation).declare files).program.methods =
        (Verdict.registered log).mapIdx (Entry.method (placesOf files) scripts.isHeader) ∧
      (∀ k, (({ scripts } : Evaluation).declare files).scripts.get? k =
        (scripts.get? k).map fun s => s.noting (Verdict.errorsOn log k) []) ∧
      (({ scripts } : Evaluation).declare files).scripts.errorCount =
        scripts.errorCount + (log.filter (·.error?.isSome)).length ∧
      ∀ e ∈ entriesOf files, ∃ ns : Namespace,
        (({ scripts } : Evaluation).declare files).program.namespaceAt?
            ((placesOf files).idxOf e.place) = some ns ∧
          ns.name = e.place.name (placesOf files) ∧ ns.script = e.place.script := by
  obtain ⟨log, hdecides, hkept, hrefused⟩ := Verdict.exists_log (placesOf files) (entriesOf files)
  have htracks := declare_tracks scripts files
  refine ⟨log, hdecides, ?_, ?_, ?_, ?_⟩
  · rw [htracks.methods, hkept]
  · intro k
    obtain ⟨herrors, hwarnings, -⟩ := Verdict.findings_report log k
    rw [htracks.scripts, ← hrefused, ScriptTable.get?_foldl_record, herrors, hwarnings]
  · have hscripts : ∀ f ∈ (registry (placesOf files) (entriesOf files)).refused,
        f.script < scripts.scripts.length := by
      intro f hf
      obtain ⟨-, e, he, hscript⟩ := exists_of_mem_refused hf
      rw [hscript]
      exact (script_lt_of_declared hreg).1 e he
    rw [htracks.scripts, (ScriptTable.errorCount_foldl_record hscripts).1, ← hrefused,
      (Verdict.findings_report log 0).2.2]
  · intro e he
    obtain ⟨ns, hns, hname, hscript, -⟩ :=
      htracks.namespaceAt? (getElem?_idxOf_place (htracks.placed e he))
    exact ⟨ns, hns, hname, hscript⟩

namespace Sample

/-- A header script and a source script. -/
def headerAndSource : ScriptTable :=
  ⟨[⟨0, "lib.qh", .header "", [], []⟩, ⟨1, "main.ql", .source, [], []⟩]⟩

/-- `void name` with parameters of type `i32`. -/
def procedure (name : String) (params : List String) : Member :=
  .method ⟨.void, ⟨[name]⟩, params.map (⟨·, .i32, .unknown⟩), [.ret none .unknown], .unknown⟩

/-- Both scripts declare `Lib.F`, and the second one declares `Lib.G` twice, first with a parameter
name that is repeated. -/
def contestedFiles : List SourceFile :=
  [⟨0, [.group ⟨["Lib"]⟩ [procedure "F" ["a"]] .unknown]⟩,
    ⟨1, [.group ⟨["Lib"]⟩ [procedure "F" ["b"], procedure "G" ["a", "a"], procedure "G" ["a", "b"]]
      .unknown]⟩]

end Sample

/-- Of four declarations two are registered, the one of the header without a body, and two are refused
with an error on the second script. -/
theorem contested_declarations_accounted : ∃ log : List Verdict,
      Verdict.Decides (placesOf Sample.contestedFiles) (entriesOf Sample.contestedFiles) log ∧
      (Verdict.registered log).length = 2 ∧ (log.filter (·.error?.isSome)).length = 2 ∧
      (Verdict.errorsOn log 1).length = 2 ∧
      (({ scripts := Sample.headerAndSource } : Evaluation).declare
        Sample.contestedFiles).program.methods.map (·.statements.length) = [0, 1] := by
  obtain ⟨log, hdecides, hmethods, hscripts, hcount, -⟩ := Evaluation.declaration_accounts
    Sample.headerAndSource Sample.contestedFiles (by decide)
  have hbodies : (({ scripts := Sample.headerAndSource } : Evaluation).declare
      Sample.contestedFiles).program.methods.map (·.statements.length) = [0, 1] := by
    decide +kernel
  have herrors : (({ scripts := Sample.headerAndSource } : Evaluation).declare
      Sample.contestedFiles).scripts.errorCount = 2 := by
    decide +kernel
  have hsecond : ((({ scripts := Sample.headerAndSource } : Evaluation).declare
      Sample.contestedFiles).scripts.get? 1).map (·.errors.length) = some 2 := by
    decide +kernel
  have hlen := congrArg List.length hbodies
  rw [List.length_map, hmethods, List.length_mapIdx] at hlen
  rw [herrors] at hcount
  rw [hscripts 1] at hsecond
  have hon : (Verdict.errorsOn log 1).length = 2 := by
    simpa [Sample.headerAndSource, ScriptTable.get?, Script.noting] using hsecond
  exact ⟨log, hdecides, hlen, by simpa [Sample.headerAndSource, ScriptTable.errorCount] using
    hcount.symm, hon, hbodies⟩

end ScriptCompiler
