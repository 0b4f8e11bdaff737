import ScriptCompiler.Proofs.Renaming
import ScriptCompiler.Proofs.Reports

/-!
# Separate compilation

The body of a method is compiled against the signatures of the other methods, never against their
bodies. Two evaluations of scripts that differ in the bodies of some methods only are compared pass
by pass: every pass keeps the face of the programs, the other methods and the reports on scripts
without one of these methods (`Evaluation.Agree`).
-/

set_option autoImplicit false

namespace ScriptCompiler

open List Option Program

/-! ## Scripts without bodies -/

/-- A declared method without its body. -/
def MethodDecl.outline (m : MethodDecl) : MethodDecl := { m with body := [] }

/-- A member without bodies. -/
def Member.outline : Member → Member
  | .method m => .method m.outline
  | .field name type span => .field name type span

/-- An item without the bodies of its methods. -/
def Item.outline : Item → Item
  | .group name members span => .group name (members.map Member.outline) span
  | .method m => .method m.outline
  | .statement s => .statement s

/-- A script without the bodies of its methods. -/
def SourceFile.outline (f : SourceFile) : SourceFile := { f with items := f.items.map Item.outline }

/-- An entry without its body. -/
def Entry.outline (e : Entry) : Entry := { e with decl := e.decl.outline }

theorem Entry.eq_of_outline_eq {e e' : Entry} (h : e.outline = e'.outline)
    (hbody : e.decl.body = e'.decl.body) : e = e' := by
  have hdecl : ∀ m m' : MethodDecl, m.outline = m'.outline → m.body = m'.body → m = m' := by
    rintro ⟨returnType, name, params, body, span⟩ ⟨returnType', name', params', body', span'⟩
    simp only [MethodDecl.outline, MethodDecl.mk.injEq]
    rintro ⟨rfl, rfl, rfl, -, rfl⟩ rfl
    exact ⟨rfl, rfl, rfl, rfl, rfl⟩
  obtain ⟨_, decl⟩ := e
  obtain ⟨_, decl'⟩ := e'
  simp only [Entry.outline, Entry.mk.injEq] at h ⊢
  exact ⟨h.1, hdecl decl decl' h.2 hbody⟩

theorem Item.places_outline (script : ScriptId) (item : Item) :
    item.outline.places script = item.places script := by
  cases item <;> rfl

theorem Item.entries_outline (script : ScriptId) (item : Item) :
    item.outline.entries script = (item.entries script).map Entry.outline := by
  cases item with
  | group _ members =>
    have hmembers : (members.map Member.outline).filterMap Member.method? =
        (members.filterMap Member.method?).map MethodDecl.outline := by
      rw [filterMap_map, map_filterMap]
      congr 1
      funext member
      cases member <;> rfl
    simp only [Item.outline, Item.entries, hmembers, List.map_map]
    rfl
  | method => rfl
  | statement => rfl

variable (files : List SourceFile)

theorem placesOf_outline : placesOf (files.map SourceFile.outline) = placesOf files := by
  unfold placesOf
  congr 1
  rw [flatMap_map]
  congr 1
  funext f
  simp only [SourceFile.places, SourceFile.outline, flatMap_map, Item.places_outline]

theorem entriesOf_outline :
    entriesOf (files.map SourceFile.outline) = (entriesOf files).map Entry.outline := by
  unfold entriesOf
  rw [flatMap_map, map_flatMap]
  congr 1
  funext f
  simp only [SourceFile.entries, SourceFile.outline, flatMap_map, map_flatMap, Item.entries_outline]

/-- Which entries are kept, and what is reported about the others, does not depend on bodies. -/
theorem registry_outline (places : List Place) (entries : List Entry) :
    registry places (entries.map Entry.outline) =
      { kept := (registry places entries).kept.map Entry.outline
        refused := (registry places entries).refused } := by
  induction entries using List.reverseRecOn with
  | nil => rfl
  | append_singleton entries e ih =>
    have href : Entry.reference places ∘ Entry.outline = Entry.reference places := rfl
    have hfault : e.outline.fault? places ((registry places entries).kept.map Entry.outline) =
        e.fault? places (registry places entries).kept := by
      unfold Entry.fault?
      rw [List.map_map, href]
      rfl
    rw [map_append, map_cons, map_nil, registry_concat, registry_concat, ih,
      Registry.add, Registry.add]
    dsimp only
    rw [hfault]
    cases e.fault? places (registry places entries).kept with
    | none => simp
    | some => rfl

/-! ## The face of a program -/

/-- What bodies see of a program: its namespaces, and its methods without their bodies. -/
def Program.face (p : Program) : List Namespace × List Method :=
  (p.namespaces.map Namespace.heading, p.methods.map Method.outline)

theorem Program.face_outline (p : Program) : p.outline.face = p.face := by
  unfold Program.face Program.outline
  rw [List.map_map]
  rfl

section

variable {p q : Program}

section

variable (h : p.face = q.face)
include h

theorem Program.methodAt?_face (id : MethodId) :
    (q.methodAt? id).map Method.outline = (p.methodAt? id).map Method.outline := by
  have hid := congrArg (fun f : List Namespace × List Method => f.2[id]?) h
  simpa only [Program.face, getElem?_map, Program.methodAt?] using hid.symm

theorem Program.namespaceAt?_face (id : NamespaceId) :
    (q.namespaceAt? id).map Namespace.heading = (p.namespaceAt? id).map Namespace.heading := by
  have hid := congrArg (fun f : List Namespace × List Method => f.1[id]?) h
  simpa only [Program.face, getElem?_map, Program.namespaceAt?] using hid.symm

theorem Program.map_methodAt?_face {α : Type} (f : Method → α) (hf : ∀ m, f m.outline = f m)
    (id : MethodId) : (q.methodAt? id).map f = (p.methodAt? id).map f := by
  have hid := congrArg (Option.map f) (methodAt?_face h id)
  have hcomp : f ∘ Method.outline = f := funext hf
  rwa [Option.map_map, Option.map_map, hcomp] at hid

theorem Program.pathOf_face (id : NamespaceId) : q.pathOf id = p.pathOf id := by
  have hid := congrArg (Option.map fun ns : Namespace => ns.name.segments)
    (namespaceAt?_face h id)
  rw [Option.map_map, Option.map_map] at hid
  unfold Program.pathOf
  exact congrArg (fun path : Option (List String) => path.getD []) hid

theorem Program.renames_face : p.Renames id q := fun id =>
  map_methodAt?_face h Method.interface (fun _ => rfl) id

theorem Program.refers_face : p.Refers id q := by
  intro id
  have hpath : q.referenceOf = p.referenceOf := by
    funext m
    simp only [Program.referenceOf, pathOf_face h]
  rw [hpath]
  exact map_methodAt?_face h p.referenceOf (fun _ => rfl) id

theorem Program.methodsNamed_face (owner : NamespaceId) (name : DottedName) :
    q.methodsNamed owner name = p.methodsNamed owner name := by
  have hmethods := congrArg (Option.map Namespace.methods) (namespaceAt?_face h owner)
  rw [Option.map_map, Option.map_map] at hmethods
  have hlist : ((q.namespaceAt? owner).map (·.methods)).getD [] =
      ((p.namespaceAt? owner).map (·.methods)).getD [] :=
    congrArg (fun ids : Option (List MethodId) => ids.getD []) hmethods
  have hnamed : ∀ id, ((q.methodAt? id).any fun m => m.name == name) =
      (p.methodAt? id).any fun m => m.name == name := by
    intro id
    have hid := map_methodAt?_face h (fun m => m.name == name) (fun _ => rfl) id
    cases hq : q.methodAt? id <;> cases hp : p.methodAt? id <;> simp_all
  unfold Program.methodsNamed
  rw [hlist]
  simp only [hnamed]

/-- Calls find the same candidates in programs of one face. -/
theorem Program.findOverloads_face (name : DottedName) (enclosing : NamespaceId) :
    q.findOverloads name enclosing = p.findOverloads name enclosing := by
  have hqualified : q.qualifiedIn name = p.qualifiedIn name := by
    funext ns
    simp only [Program.qualifiedIn, methodsNamed_face h]
  have hanswer : q.answer? name = p.answer? name := by
    funext ns
    rw [Program.answer?, hqualified, Program.answer?]
  have hfar : ∀ namespaces : List Namespace, namespaces.findSome? (p.answer? name) =
      (namespaces.map Namespace.heading).findSome? (p.answer? name) := by
    intro namespaces
    rw [findSome?_map]
    rfl
  have hspaces : p.namespaces.map Namespace.heading = q.namespaces.map Namespace.heading :=
    congrArg Prod.fst h
  rw [findOverloads_eq, findOverloads_eq, methodsNamed_face h, hanswer,
    hfar q.namespaces, hfar p.namespaces, hspaces]

end

end

/-! ## Two evaluations side by side -/

/-- Whether two methods are compiled alike: they are twins with the same statements and code. -/
structure Method.Matches (m m' : Method) : Prop extends m.Twins m' where
  statements : m'.statements = m.statements
  code : m'.code = m.code

namespace Evaluation

/-- Whether two evaluations agree but for the bodies of some methods. -/
structure Agree (changed : MethodId → Prop) (s t : Evaluation) : Prop where
  face : s.program.face = t.program.face
  same : ∀ id m m', ¬ changed id → s.program.methodAt? id = some m →
    t.program.methodAt? id = some m' → m.Matches m'
  reports : ∀ k, (∀ id m, changed id → s.program.methodAt? id = some m → m.script ≠ k) →
    s.scripts.get? k = t.scripts.get? k

end Evaluation

/-- Findings of two runs, with the same ones on a script, leave the same on the script. -/
theorem filter_findings_congr {k : ScriptId} {found found' : List Findings}
    (hscript : found.map (·.script) = found'.map (·.script))
    (h : ∀ (i : Nat) (f f' : Findings), found[i]? = some f → found'[i]? = some f' → f.script = k → f = f') :
    found.filter (·.script = k) = found'.filter (·.script = k) := by
  induction found generalizing found' with
  | nil =>
    rw [map_nil, eq_comm, map_eq_nil_iff] at hscript
    rw [hscript]
  | cons f _ ih =>
    cases found' with
    | nil => cases hscript
    | cons f' =>
      rw [map_cons, map_cons, List.cons.injEq] at hscript
      have hrest := ih hscript.2 fun i => h (i + 1)
      by_cases hk : f.script = k
      · have hsame : f = f' := h 0 f f' rfl rfl hk
        rw [filter_cons, filter_cons, ← hsame, hrest]
      · have hk' : ¬ f'.script = k := by
          rw [← hscript.1]
          exact hk
        rw [filter_cons_of_neg (by simpa using hk), filter_cons_of_neg (by simpa using hk'), hrest]

namespace Evaluation

section

variable {changed : MethodId → Prop} {s t s' t' : Evaluation}

/-- Evaluations that agree still do after a sweep that works alike on matching methods. -/
theorem Agree.sweep {work : Program → Method → Method} {find : Program → Method → Findings}
    (h : Agree changed s t) (hs : Sweep work find s s') (ht : Sweep work find t t')
    (hfind : ∀ p m, (find p m).script = m.script)
    (hwork : ∀ m m' : Method, m.Matches m' → m'.outline = m.outline →
      (work s.program m).Matches (work t.program m') ∧
        find s.program m = find t.program m') : Agree changed s' t' := by
  have hout : ∀ id m m', s.program.methodAt? id = some m → t.program.methodAt? id = some m' →
      m'.outline = m.outline := by
    intro id m m' hm hm'
    have hid := methodAt?_face h.face id
    rw [hm, hm', map_some, map_some] at hid
    exact some.inj hid
  have hface : s'.program.face = s.program.face := by rw [← face_outline, hs.outline, face_outline]
  have hface' : t'.program.face = t.program.face := by rw [← face_outline, ht.outline, face_outline]
  refine ⟨by rw [hface, hface', h.face], ?_, ?_⟩
  · intro id m₁ _ hid hm₁ hm₁'
    rw [hs.methodAt?] at hm₁
    rw [ht.methodAt?] at hm₁'
    obtain ⟨m, hm, rfl⟩ := map_eq_some_iff.1 hm₁
    obtain ⟨m', hm', rfl⟩ := map_eq_some_iff.1 hm₁'
    have hmatches := h.same id m m' hid hm hm'
    rw [hmatches.external]
    split
    · exact hmatches
    · exact (hwork m m' hmatches (hout id m m' hm hm')).1
  · intro k hk
    have hown : ∀ id m, changed id → s.program.methodAt? id = some m → m.script ≠ k := by
      intro id m hid hm
      have hscript := map_methodAt?_face hface Method.script (fun _ => rfl) id
      rw [hm, map_some] at hscript
      obtain ⟨m₁, hm₁, hsame⟩ := map_eq_some_iff.1 hscript.symm
      rw [← hsame]
      exact hk id m₁ hid hm₁
    have hfound : (s.program.methods.map (find s.program)).filter (·.script = k) =
        (t.program.methods.map (find t.program)).filter (·.script = k) := by
      apply filter_findings_congr
      · have hscripts := congrArg (fun f : List Namespace × List Method => f.2.map Method.script) h.face
        simp only [Program.face, List.map_map, Function.comp_def] at hscripts
        simp only [List.map_map, Function.comp_def, hfind]
        exact hscripts
      · intro id f _ hf hf' hscript
        rw [getElem?_map] at hf hf'
        obtain ⟨m, hm, rfl⟩ := map_eq_some_iff.1 hf
        obtain ⟨m', hm', rfl⟩ := map_eq_some_iff.1 hf'
        rw [hfind] at hscript
        have hid : ¬ changed id := fun hid => hown id m hid hm hscript
        exact (hwork m m' (h.same id m m' hid hm hm') (hout id m m' hm hm')).2
    rw [hs.scripts, ht.scripts, ScriptTable.get?_foldl_record, ScriptTable.get?_foldl_record,
      h.reports k hown, hfound]

theorem Agree.resolve (h : Agree changed s t) : Agree changed s.resolve t.resolve := by
  refine h.sweep (sweep_resolve s) (sweep_resolve t) (fun _ _ => rfl) ?_
  intro m m' hmatches hout
  have howner : m'.owner = m.owner := (Method.eq_of_outline_eq hout).1
  obtain ⟨htwins, hstmts, herrors⟩ := hmatches.toTwins.resolve (renames_face h.face)
    hmatches.statements fun n _ => by
      rw [Site.Finds, List.map_id, howner]
      exact findOverloads_face h.face n m.owner
  rw [Stmt.renameAll_id] at hstmts
  refine ⟨⟨htwins, hstmts, hmatches.code⟩, ?_⟩
  unfold Method.resolveFindings
  rw [hmatches.script, hmatches.external, herrors]

theorem Agree.check (h : Agree changed s t) : Agree changed s.check t.check := by
  refine h.sweep (sweep_check s) (sweep_check t) (fun _ _ => rfl) ?_
  intro _ _ hmatches _
  obtain ⟨htwins, hstmts, hreports⟩ := hmatches.toTwins.check (renames_face h.face) <| by
    rw [Stmt.renameAll_id]
    exact hmatches.statements
  rw [Stmt.renameAll_id] at hstmts
  refine ⟨⟨htwins, hstmts, hmatches.code⟩, ?_⟩
  unfold Method.checkFindings
  rw [hmatches.script, hmatches.external, hreports]

theorem Agree.lower (h : Agree changed s t) : Agree changed s.lower t.lower := by
  refine h.sweep (sweep_lower s) (sweep_lower t) (fun _ _ => rfl) ?_
  intro _ _ hmatches _
  obtain ⟨htwins, hcode, herrors⟩ := hmatches.toTwins.lower (renames_face h.face)
    (refers_face h.face) <| by
      rw [Stmt.renameAll_id]
      exact hmatches.statements
  refine ⟨⟨htwins, rfl, hcode⟩, ?_⟩
  unfold Method.lowerFindings
  rw [hmatches.script, hmatches.external, herrors]

end

/-! ## Declared programs -/

theorem members_outline (kept : List Entry) (pl : Place) :
    pl.members (kept.map Entry.outline) = pl.members kept := by
  unfold Place.members positions
  rw [zipIdx_map, List.filter_map, List.map_map]
  rfl

theorem method_outline (places : List Place) (external : ScriptId → Bool) (kept : List Entry) :
    ((kept.map Entry.outline).mapIdx (Entry.method places external)).map Method.outline =
      (kept.mapIdx (Entry.method places external)).map Method.outline := by
  apply ext_getElem?
  intro _
  simp only [getElem?_map, getElem?_mapIdx, Option.map_map]
  rfl

/-- Scripts that differ in some bodies only are declared with one face and the same reports. -/
theorem agree_declare (scripts : ScriptTable) {files files' : List SourceFile}
    {changed : MethodId → Prop}
    (hout : files.map SourceFile.outline = files'.map SourceFile.outline)
    (hbodies : ∀ id e e', ¬ changed id → (standing files)[id]? = some e →
      (standing files')[id]? = some e' → e.decl.body = e'.decl.body) :
    Agree changed (declared scripts files)
      (declared scripts files') := by
  have hplaces : placesOf files' = placesOf files := by
    rw [← placesOf_outline files, hout, placesOf_outline]
  have hregistry : registry (placesOf files) ((entriesOf files).map Entry.outline) =
      registry (placesOf files) ((entriesOf files').map Entry.outline) := by
    rw [← entriesOf_outline, hout, entriesOf_outline]
  rw [registry_outline, registry_outline, Registry.mk.injEq] at hregistry
  obtain ⟨hkept, hrefused⟩ := hregistry
  have htracks := declare_tracks scripts files
  have htracks' := declare_tracks scripts files'
  rw [hplaces] at htracks'
  refine ⟨?_, ?_, ?_⟩
  · unfold Program.face
    rw [htracks.headings, htracks'.headings, htracks.methods, htracks'.methods, ← method_outline,
      hkept, method_outline]
    congr 1
    congr 1
    funext id pl
    unfold Place.heading
    rw [← members_outline, hkept, members_outline]
  · intro id _ _ hid hm hm'
    rw [Program.methodAt?, htracks.methods, getElem?_mapIdx] at hm
    rw [Program.methodAt?, htracks'.methods, getElem?_mapIdx] at hm'
    obtain ⟨e, he, rfl⟩ := map_eq_some_iff.1 hm
    obtain ⟨e', he', rfl⟩ := map_eq_some_iff.1 hm'
    have hbody : e.decl.body = e'.decl.body := by
      refine hbodies id e e' hid he ?_
      unfold standing
      rw [hplaces]
      exact he'
    have hsame : e.outline = e'.outline := by
      have hid := congrArg (fun l : List Entry => l[id]?) hkept
      simp only [getElem?_map, he, he', map_some, Option.some.injEq] at hid
      exact hid
    rw [Entry.eq_of_outline_eq hsame hbody]
    exact ⟨⟨rfl, rfl, rfl, rfl, rfl, rfl⟩, rfl, rfl⟩
  · intro _ _
    rw [htracks.scripts, htracks'.scripts, hrefused]

end Evaluation

/-- The methods of an evaluated program are the entries that stand. -/
theorem methodAt?_evaluate_outline (scripts : ScriptTable) (files : List SourceFile)
    (id : MethodId) : ((evaluate scripts files).program.methodAt? id).map Method.outline =
      (standing files)[id]?.map fun e =>
        (e.method (placesOf files) scripts.isHeader id).outline := by
  have hout : (evaluate scripts files).program.outline =
      (declared scripts files).program.outline := by
    unfold evaluate
    rw [Evaluation.outline_lower, Evaluation.outline_check, Evaluation.outline_resolve]
  rw [← methodAt?_outline, hout, methodAt?_outline, Program.methodAt?,
    (Evaluation.declare_tracks scripts files).methods, getElem?_mapIdx, Option.map_map]
  rfl

/-- Methods are compiled separately. The methods of an evaluation are the entries of the scripts that
stand, by their positions. If two lists of scripts differ only in the bodies of some changed
methods, then every other method gets the same code and the same locals from both, and every script
that owns no changed method gets the same errors and warnings in the same order. -/
theorem bodies_compile_separately (scripts : ScriptTable) (files files' : List SourceFile)
    (changed : MethodId → Prop)
    (hout : files.map SourceFile.outline = files'.map SourceFile.outline)
    (hbodies : ∀ id e e', ¬ changed id → (standing files)[id]? = some e →
      (standing files')[id]? = some e' → e.decl.body = e'.decl.body) :
    (∀ id, ((evaluate scripts files).program.methodAt? id).map Method.outline =
      (standing files)[id]?.map fun e => (e.method (placesOf files) scripts.isHeader id).outline) ∧
    (∀ id m, ¬ changed id → (evaluate scripts files).program.methodAt? id = some m →
      ∃ m', (evaluate scripts files').program.methodAt? id = some m' ∧
        m'.outline = m.outline ∧ m'.code = m.code ∧ m'.locals = m.locals) ∧
    (∀ k, (∀ id m, changed id → (evaluate scripts files).program.methodAt? id = some m →
        m.script ≠ k) →
      (evaluate scripts files).scripts.get? k = (evaluate scripts files').scripts.get? k) := by
  have hagree := (Evaluation.agree_declare scripts hout hbodies).resolve.check.lower
  refine ⟨methodAt?_evaluate_outline scripts files, ?_, hagree.reports⟩
  intro id m hid hm
  have hface := Program.methodAt?_face hagree.face id
  have hsame := hagree.same id
  unfold evaluate at hm ⊢
  rw [hm, Option.map_some] at hface
  obtain ⟨m', hm', ho⟩ := Option.map_eq_some_iff.1 hface
  have hmatches := hsame m m' hid hm hm'
  exact ⟨m', hm', ho, hmatches.code, hmatches.locals⟩

namespace Sample

def twoScripts : ScriptTable := (((ScriptTable.empty.add "lib.ql" .source).1).add "app.ql" .source).1

/-- `i32 Main(i32 a)` declares `u8 y = 300` and returns `Lib.Half(a) + y`. -/
def caller : MethodDecl :=
  ⟨.i32, ⟨["Main"]⟩, [⟨"a", .i32, .unknown⟩],
    [.declare "y" .u8 (some (number 300)) .unknown,
      .ret (some (operation .add (.call ⟨["Lib", "Half"]⟩ [use "a"] none .unknown) (use "y")))
        .unknown], .unknown⟩

/-- A library with `Half`, which has some body, and a script that calls it. -/
def callingFiles (body : List Stmt) : List SourceFile :=
  [⟨0, [.group ⟨["Lib"]⟩ [.method { half with body }] .unknown]⟩,
    ⟨1, [.group ⟨["App"]⟩ [.method caller] .unknown]⟩]

/-- A body that calls a method that nobody declares. -/
def strayBody : List Stmt := [.ret (some (call "Missing" [])) .unknown]

end Sample

/-- A library with a fault in a body does not disturb its caller: `Main` is compiled as before, and
its script keeps its one warning and gets no error. -/
theorem caller_compiles_separately :
    (evaluate Sample.twoScripts (Sample.callingFiles Sample.half.body)).scripts.errorCount = 0 ∧
      (evaluate Sample.twoScripts (Sample.callingFiles Sample.strayBody)).scripts.errorCount = 1 ∧
      (evaluate Sample.twoScripts (Sample.callingFiles Sample.half.body)).scripts.get? 1 =
        (evaluate Sample.twoScripts (Sample.callingFiles Sample.strayBody)).scripts.get? 1 ∧
      ((evaluate Sample.twoScripts (Sample.callingFiles Sample.strayBody)).scripts.get? 1).map
        (fun s => (s.errors.length, s.warnings.length)) = some (0, 1) ∧ ∃ m m',
        (evaluate Sample.twoScripts (Sample.callingFiles Sample.half.body)).program.methodAt? 1 =
          some m ∧
        (evaluate Sample.twoScripts (Sample.callingFiles Sample.strayBody)).program.methodAt? 1 =
          some m' ∧
        m'.code = m.code ∧ m'.locals = m.locals ∧ m.code.length = 8 ∧ m.locals = [.u8] := by
  have hbodies : ∀ id e e', ¬ id = 0 →
      (standing (Sample.callingFiles Sample.half.body))[id]? = some e →
      (standing (Sample.callingFiles Sample.strayBody))[id]? = some e' →
      e.decl.body = e'.decl.body := by
    intro id e e' hid he he'
    cases id with
    | zero => exact absurd rfl hid
    | succ id =>
      cases id with
      | zero =>
        cases he
        cases he'
        rfl
      | succ => cases he
  obtain ⟨-, hsame, hreports⟩ := bodies_compile_separately Sample.twoScripts
    (Sample.callingFiles Sample.half.body) (Sample.callingFiles Sample.strayBody) (· = 0) rfl hbodies
  have hmethods : ((evaluate Sample.twoScripts
      (Sample.callingFiles Sample.half.body)).program.methodAt? 0).map Method.script = some 0 ∧
      ((evaluate Sample.twoScripts
        (Sample.callingFiles Sample.half.body)).program.methodAt? 1).map
          (fun m => (m.code.length, m.locals)) = some (8, [.u8]) := by
    decide +kernel
  have hreports' := hreports 1 <| by
    intro id m hid hm hscript
    rw [hid] at hm
    rw [hm, Option.map_some, hscript] at hmethods
    exact absurd hmethods.1 (by decide)
  obtain ⟨m, hm, hshape⟩ := Option.map_eq_some_iff.1 hmethods.2
  obtain ⟨m', hm', -, hcode, hlocals⟩ := hsame 1 m (by decide) hm
  refine ⟨by decide +kernel, by decide +kernel, hreports', by decide +kernel, m, m', hm, hm', hcode,
    hlocals, congrArg Prod.fst hshape, congrArg Prod.snd hshape⟩

end ScriptCompiler
