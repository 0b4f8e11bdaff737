import Mathlib.Data.List.Perm.Basic
import ScriptCompiler.Proofs.Operands
import ScriptCompiler.Wat.Emit

/-!
# Names of functions

A function of a module has the dotted name of its method, where nothing marks where the path ends.
So two methods have one name exactly if they have the same segments in all and the same parameter
types (`Reference.flatName_eq_iff`): `C` of the namespace `A.B` and `B.C` of the namespace `A` are
different methods, and both functions are called `A.B.C?`.
-/

set_option autoImplicit false

namespace ScriptCompiler

open List

/-! ## Dotted names -/

theorem intercalate_append {α : Type} (sep : List α) {xs ys : List (List α)} (hx : xs ≠ [])
    (hy : ys ≠ []) :
    sep.intercalate (xs ++ ys) = sep.intercalate xs ++ sep ++ sep.intercalate ys := by
  induction xs with
  | nil => exact absurd rfl hx
  | cons _ rest ih =>
    cases rest with
    | nil =>
      cases ys with
      | nil => exact absurd rfl hy
      | cons => rw [cons_append, nil_append, intercalate_cons_cons, intercalate_singleton]
    | cons x' rest =>
      have hrest := ih (cons_ne_nil x' rest)
      rw [cons_append] at hrest
      rw [cons_append, cons_append, intercalate_cons_cons, hrest, intercalate_cons_cons]
      simp only [append_assoc]

namespace Reference

/-- The segments of the path and of the method name. -/
def segments (r : Reference) : List String := r.path ++ r.method

variable {r : Reference}

/-- The name of a function: all segments, and the parameter types. -/
theorem toList_flatName (h : r.Readable) : r.flatName.toList =
      (".".intercalate r.segments).toList ++ '?' :: (tagText r.parameters).toList := by
  have hjoined : (".".intercalate r.segments).toList =
      (".".intercalate r.path).toList ++ ".".toList ++ (".".intercalate r.method).toList := by
    rw [String.toList_intercalate, String.toList_intercalate, String.toList_intercalate, segments,
      map_append]
    apply intercalate_append
    · simpa using h.path.1
    · simpa using h.method.1
  rw [hjoined]
  simp only [flatName, pathText, methodText, tags_eq_tagText, String.toList_append, append_assoc]
  rfl

/-- Functions have one name exactly if their references have the same segments in all and the same
parameter types. -/
theorem flatName_eq_iff {r' : Reference} (h : r.Readable) (h' : r'.Readable) :
    r.flatName = r'.flatName ↔ r.segments = r'.segments ∧ r.parameters = r'.parameters := by
  have hsplit : ∀ {r : Reference}, r.Readable →
      Text.split '.' (".".intercalate r.segments) = r.segments := by
    intro r h
    apply Text.split_intercalate
    · rw [segments, ne_eq, append_eq_nil_iff, not_and]
      exact fun hpath => absurd hpath h.path.1
    · intro s hs
      rcases mem_append.1 hs with hs | hs
      · exact (h.pathSegments s hs).1
      · exact (h.methodSegments s hs).1
  constructor
  · intro hsame
    have hlist := congrArg String.toList hsame
    rw [toList_flatName h, toList_flatName h'] at hlist
    -- the tags hold no question mark, so it is the last one that they follow
    have htags := eq_of_append_cons_eq (notMem_tagText _) (notMem_tagText _) hlist
    rw [htags] at hlist
    have hnames := congrArg (Text.split '.')
      (String.toList_injective (append_cancel_right hlist))
    rw [hsplit h, hsplit h'] at hnames
    exact ⟨hnames, tagText_injective (String.toList_injective htags)⟩
  · rintro ⟨hsegments, hparams⟩
    apply String.toList_injective
    rw [toList_flatName h, toList_flatName h', hsegments, hparams]

end Reference

/-! ## Methods of one name -/

namespace Program

/-- The name of the function of a method. -/
def functionName (p : Program) (m : Method) : String := (p.referenceOf m).flatName

/-- Whether two methods have the same segments in all and the same parameter types. -/
def Overlap (p : Program) (m m' : Method) : Prop :=
  p.pathOf m.owner ++ m.name.segments = p.pathOf m'.owner ++ m'.name.segments ∧
    m.parameterTypes = m'.parameterTypes

variable {d : SignatureHash.Digest} {p : Program} {id' id : MethodId}

theorem Registered.functionName_eq_iff (hp : p.Registered d) (hclean : p.CleanNames) {m m' : Method}
    (hm : p.methodAt? id = some m) (hm' : p.methodAt? id' = some m') :
    p.functionName m = p.functionName m' ↔ p.Overlap m m' :=
  Reference.flatName_eq_iff (hp.readable hclean hm) (hp.readable hclean hm')

/-- Methods that overlap have names of different lengths, or else they are the same. -/
theorem Registered.eq_of_overlap (hp : p.Registered d) {m m' : Method}
    (hm : p.methodAt? id = some m) (hm' : p.methodAt? id' = some m') (h : p.Overlap m m')
    (hlen : m.name.segments.length = m'.name.segments.length) : id = id' := by
  obtain ⟨hsegments, htypes⟩ := h
  obtain ⟨hpath, hname⟩ := append_inj' hsegments hlen
  apply hp.distinct id id' m m' hm hm'
  rw [referenceOf, hpath, hname, htypes, referenceOf]

/-- The functions of some of the methods have different names exactly if no two of them overlap. -/
theorem Registered.nodup_functionName_iff (hp : p.Registered d) (hclean : p.CleanNames)
    (test : Method → Bool) : ((p.methods.filter test).map p.functionName).Nodup ↔
      ∀ id id' m m', p.methodAt? id = some m → p.methodAt? id' = some m' → test m = true →
        test m' = true → id ≠ id' → ¬ p.Overlap m m' := by
  rw [List.Nodup, pairwise_map, pairwise_filter, pairwise_iff_getElem]
  constructor
  · intro h id id' m m' hm hm' htest htest' hne hoverlap
    rw [← hp.functionName_eq_iff hclean hm hm'] at hoverlap
    obtain ⟨hlt, rfl⟩ := List.getElem?_eq_some_iff.1 hm
    obtain ⟨hlt', rfl⟩ := List.getElem?_eq_some_iff.1 hm'
    rcases Nat.lt_or_gt_of_ne hne with hless | hless
    · exact h id id' hlt hlt' hless htest htest' hoverlap
    · exact h id' id hlt' hlt hless htest' htest hoverlap.symm
  · intro h id id' hlt hlt' hless htest htest' hsame
    have hm : p.methodAt? id = some p.methods[id] := getElem?_eq_getElem hlt
    have hm' : p.methodAt? id' = some p.methods[id'] := getElem?_eq_getElem hlt'
    rw [hp.functionName_eq_iff hclean hm hm'] at hsame
    exact h id id' _ _ hm hm' htest htest' (Nat.ne_of_lt hless) hsame

end Program

/-! ## Functions of a module -/

namespace Wat

/-- The text of a module with given imports, functions and data. -/
def moduleText (o : Options) (imports : List String) (functions : List Function) (data : String) :
    String :=
  let page := imports.foldl Page.line (({} : Page).line "(module").indent
  let page := page.line ("(memory $mem " ++ toString o.memoryPages ++ ")")
  let page := if o.exportMemory then page.line "(export \"memory\" (memory $mem))" else page
  let page := functions.foldl (fun page f => f.render page) page
  ((page.line data).dedent.line ")").text

variable {p : Program} {methods : List Method} {loadString : Option String}

theorem renderImports_eq_ok {page page' : Page} (h : renderImports p methods page = .ok page') :
    ∃ imports, methods.mapM (importText p) = .ok imports ∧ page' = imports.foldl Page.line page := by
  induction methods generalizing page with
  | nil =>
    cases h
    exact ⟨[], rfl, rfl⟩
  | cons _ _ ih =>
    rw [renderImports, Except.bind_eq_ok_iff] at h
    obtain ⟨text, htext, hrest⟩ := h
    obtain ⟨imports, himports, hpage⟩ := ih hrest
    refine ⟨text :: imports, ?_, hpage⟩
    rw [mapM_cons, htext, himports]
    rfl

variable {memory' memory : Memory} {text : String}

theorem name_of_compileFunction {m : Method} {f : Function}
    (h : compileFunction p loadString m memory = .ok (f, memory')) : f.name = p.functionName m := by
  simp only [compileFunction, Except.bind_eq_ok_iff] at h
  obtain ⟨_, -, _, -, _, -, s, -, hend⟩ := h
  by_cases hopen : s.branches.isEmpty
  · rw [hopen] at hend
    cases hend
    rfl
  · rw [Bool.not_eq_true] at hopen
    rw [hopen] at hend
    cases hend

theorem renderFunctions_eq_ok {page page' : Page}
    (h : renderFunctions p loadString methods memory page = .ok (memory', page')) :
    ∃ functions : List Function, List.Forall₂ (fun m f => ∃ before after,
        compileFunction p loadString m before = .ok (f, after)) methods functions ∧
      page' = functions.foldl (fun page f => f.render page) page := by
  induction methods generalizing memory page with
  | nil =>
    cases h
    exact ⟨[], .nil, rfl⟩
  | cons _ _ ih =>
    rw [renderFunctions, Except.bind_eq_ok_iff] at h
    obtain ⟨⟨f, memory₁⟩, hf, hrest⟩ := h
    obtain ⟨functions, hcomp, hpage⟩ := ih hrest
    exact ⟨f :: functions, .cons ⟨memory, memory₁, hf⟩ hcomp, hpage⟩

/-- A module holds an import for each external method and the compiled function of each other one. -/
theorem exists_compiled_of_emit {o : Options} (h : emit o p = .ok text) : ∃ imports functions data,
      (p.methods.filter (·.external)).mapM (importText p) = .ok imports ∧
      List.Forall₂ (fun m f => ∃ before after,
          compileFunction p (loadString? p) m before = .ok (f, after))
        (p.methods.filter fun m => !m.external) functions ∧
      text = moduleText o imports functions data := by
  simp only [emit, Except.bind_eq_ok_iff] at h
  obtain ⟨_, himports, ⟨memory, _⟩, hfunctions, hend⟩ := h
  obtain ⟨imports, hmapped, rfl⟩ := renderImports_eq_ok himports
  obtain ⟨functions, hcomp, rfl⟩ := renderFunctions_eq_ok hfunctions
  cases hend
  exact ⟨imports, functions, memory.text, hmapped, hcomp, rfl⟩

theorem names_of_compiled {functions : List Function} (h : List.Forall₂ (fun m f => ∃ before after,
      compileFunction p loadString m before = .ok (f, after)) methods functions) :
    functions.map (·.name) = methods.map p.functionName := by
  induction h with
  | nil => rfl
  | cons hf _ ih =>
    obtain ⟨before, after, hf⟩ := hf
    rw [map_cons, map_cons, ih, name_of_compileFunction hf]

/-- A module holds an import for each external method and a function for each other one, under their
names. -/
theorem emit_eq_ok {o : Options} (h : emit o p = .ok text) : ∃ imports functions data,
      (p.methods.filter (·.external)).mapM (importText p) = .ok imports ∧
      functions.map (·.name) = (p.methods.filter fun m => !m.external).map p.functionName ∧
      text = moduleText o imports functions data := by
  obtain ⟨imports, functions, data, himports, hcomp, htext⟩ := exists_compiled_of_emit h
  exact ⟨imports, functions, data, himports, names_of_compiled hcomp, htext⟩

end Wat

/-- Which methods share the name of a function. Two methods do exactly if path and name together
have the same segments and the parameter types are the same; then the names of the methods have
different numbers of segments. A module that is emitted declares the names of its imports and of its
functions and exports those of its functions; so none is declared twice exactly if no two methods
overlap, and none is exported twice exactly if no two methods with a function do. -/
theorem function_names_collide_iff {d : SignatureHash.Digest} {p : Program} (hreach : p.Reachable d)
    (hclean : p.CleanNames) :
    (∀ id id' m m', p.methodAt? id = some m → p.methodAt? id' = some m' → id ≠ id' →
      (p.functionName m = p.functionName m' ↔
        p.pathOf m.owner ++ m.name.segments = p.pathOf m'.owner ++ m'.name.segments ∧
          m.parameterTypes = m'.parameterTypes) ∧ (p.functionName m = p.functionName m' →
        m.name.segments.length ≠ m'.name.segments.length)) ∧ ∀ o text, Wat.emit o p = .ok text →
      ∃ imports functions data, text = Wat.moduleText o imports functions data ∧
        (p.methods.filter (·.external)).mapM (Wat.importText p) = .ok imports ∧
        functions.map (·.name) = (p.methods.filter fun m => !m.external).map p.functionName ∧
        (((p.methods.filter (·.external)).map p.functionName ++ functions.map (·.name)).Nodup ↔
          ∀ id id' m m', p.methodAt? id = some m → p.methodAt? id' = some m' → id ≠ id' →
            ¬ p.Overlap m m') ∧ ((functions.map (·.name)).Nodup ↔
          ∀ id id' m m', p.methodAt? id = some m → p.methodAt? id' = some m' →
            m.external = false → m'.external = false → id ≠ id' → ¬ p.Overlap m m') := by
  have hp := hreach.registered
  refine ⟨?_, ?_⟩
  · intro id id' m m' hm hm' hne
    have hiff := hp.functionName_eq_iff hclean hm hm'
    exact ⟨hiff, fun hsame hlen => hne (hp.eq_of_overlap hm hm' (hiff.1 hsame) hlen)⟩
  · intro o text h
    obtain ⟨imports, functions, data, himports, hnames, htext⟩ := Wat.emit_eq_ok h
    refine ⟨imports, functions, data, htext, himports, hnames, ?_, ?_⟩
    · have hperm := (List.filter_append_perm (·.external) p.methods).map p.functionName
      rw [List.map_append, ← hnames] at hperm
      have hall := hp.nodup_functionName_iff hclean fun _ => true
      rw [List.filter_true] at hall
      rw [hperm.nodup_iff, hall]
      simp
    · rw [hnames, hp.nodup_functionName_iff hclean]
      simp

namespace Sample

/-- `i32 name()` returns a number. -/
def answer (name : List String) (n : Int) : MethodDecl :=
  ⟨.i32, ⟨name⟩, [], [.ret (some (number n)) .unknown], .unknown⟩

/-- `C` of the namespace `A.B`, and `B.C` of the namespace `A`. -/
def dottedFiles : List SourceFile :=
  [⟨0, [.group ⟨["A", "B"]⟩ [.method (answer ["C"] 1)] .unknown,
    .group ⟨["A"]⟩ [.method (answer ["B", "C"] 2)] .unknown]⟩]

end Sample

/-- Two methods are accepted, and their functions have one name, which the module exports twice. -/
theorem dotted_names_collide : (evaluate Sample.scripts Sample.dottedFiles).scripts.errorCount = 0 ∧
      ∃ m m' text imports functions data,
        (evaluate Sample.scripts Sample.dottedFiles).program.methodAt? 0 = some m ∧
        (evaluate Sample.scripts Sample.dottedFiles).program.methodAt? 1 = some m' ∧
        (evaluate Sample.scripts Sample.dottedFiles).program.functionName m =
          (evaluate Sample.scripts Sample.dottedFiles).program.functionName m' ∧
        Wat.emit {} (evaluate Sample.scripts Sample.dottedFiles).program = .ok text ∧
        text = Wat.moduleText {} imports functions data ∧ ¬ (functions.map (·.name)).Nodup := by
  obtain ⟨hnames, hmodule⟩ := function_names_collide_iff
    (evaluate_reached Sample.scripts Sample.dottedFiles) (by decide +kernel)
  have herrors : (evaluate Sample.scripts Sample.dottedFiles).scripts.errorCount = 0 := by
    decide +kernel
  have hfirst : ((evaluate Sample.scripts Sample.dottedFiles).program.methodAt? 0).map (fun m =>
      ((evaluate Sample.scripts Sample.dottedFiles).program.pathOf m.owner, m.name.segments,
        m.parameterTypes, m.external)) = some (["A", "B"], ["C"], [], false) := by
    decide +kernel
  have hsecond : ((evaluate Sample.scripts Sample.dottedFiles).program.methodAt? 1).map (fun m =>
      ((evaluate Sample.scripts Sample.dottedFiles).program.pathOf m.owner, m.name.segments,
        m.parameterTypes, m.external)) = some (["A"], ["B", "C"], [], false) := by
    decide +kernel
  have hemit : (Wat.emit {} (evaluate Sample.scripts Sample.dottedFiles).program).isOk = true := by
    decide +kernel
  obtain ⟨m, hm, hshape⟩ := Option.map_eq_some_iff.1 hfirst
  obtain ⟨m', hm', hshape'⟩ := Option.map_eq_some_iff.1 hsecond
  simp only [Prod.mk.injEq] at hshape hshape'
  obtain ⟨hpath, hname, htypes, hext⟩ := hshape
  obtain ⟨hpath', hname', htypes', hext'⟩ := hshape'
  have hoverlap : (evaluate Sample.scripts Sample.dottedFiles).program.Overlap m m' := by
    rw [Program.Overlap, hpath, hname, htypes, hpath', hname', htypes']
    exact ⟨rfl, rfl⟩
  cases htext : Wat.emit {} (evaluate Sample.scripts Sample.dottedFiles).program with
  | error =>
    rw [htext] at hemit
    cases hemit
  | ok text =>
    obtain ⟨imports, functions, data, hlayout, -, -, -, hexported⟩ := hmodule {} text htext
    refine ⟨herrors, m, m', text, imports, functions, data, hm, hm',
      ((hnames 0 1 m m' hm hm' (by decide)).1).2 hoverlap, rfl, hlayout, ?_⟩
    intro hnodup
    exact hexported.1 hnodup 0 1 m m' hm hm' hext hext' (by decide) hoverlap

end ScriptCompiler
