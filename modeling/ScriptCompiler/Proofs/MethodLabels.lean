import ScriptCompiler.Proofs.Wat.FunctionNames

/-!
# Labels of methods

The label of a method, and the names by which a module imports it, say where the path of its
namespace ends. So if no segment is empty or holds one of the marks between the parts, different
methods have different labels and are imported differently (`Program.labels_distinct`), also where
their functions would have one name.
-/

set_option autoImplicit false

namespace ScriptCompiler

open List

/-- Whether a segment is not empty and holds none of the marks in labels and imports. -/
def Text.Unmarked (s : String) : Prop := s ≠ "" ∧ ∀ c ∈ ['.', '@', '?'], c ∉ s.toList

instance (s : String) : Decidable (Text.Unmarked s) :=
  letI : Decidable (∀ c ∈ ['.', '@', '?'], c ∉ s.toList) := List.decidableBAll _ _
  inferInstanceAs (Decidable (_ ∧ _))

theorem DottedName.parse_text {n : DottedName} (h : ∀ s ∈ n.segments, s ≠ "" ∧ '.' ∉ s.toList) :
    parse n.text = n := by
  obtain ⟨segments⟩ := n
  cases segments with
  | nil => rfl
  | cons s rest =>
    have hsplit : Text.split '.' (text ⟨s :: rest⟩) = s :: rest :=
      Text.split_intercalate (cons_ne_nil s rest) fun t ht => (h t ht).2
    rw [parse, hsplit, filter_eq_self.2]
    intro t ht
    exact decide_eq_true (h t ht).1

namespace Reference

/-- Whether no segment of the path and of the name is empty or holds a mark. -/
def Unmarked (r : Reference) : Prop := ∀ s ∈ r.segments, Text.Unmarked s

variable {r r' : Reference}

/-- The import is what stands before and after the first mark of the label. -/
theorem Unmarked.cutAt?_asmLabel (h : r.Unmarked) :
    Text.cutAt? '@' r.asmLabel = some r.importPath := by
  apply Text.cutAt?_append
  apply Text.notMem_dotted (by decide)
  intro s hs
  exact (h s (mem_append_left _ hs)).2 '@' (by simp)

/-- Name and parameter types are what stands before and after the first mark behind the path. -/
theorem Unmarked.cutAt?_methodText (h : r.Unmarked) :
    Text.cutAt? '?' r.methodText = some (DottedName.text ⟨r.method⟩, r.tags) := by
  apply Text.cutAt?_append
  apply Text.notMem_dotted (by decide)
  intro s hs
  exact (h s (mem_append_right _ hs)).2 '?' (by simp)

theorem eq_of_text_eq {xs ys : List String} (hx : ∀ s ∈ xs, Text.Unmarked s)
    (hy : ∀ s ∈ ys, Text.Unmarked s) (h : DottedName.text ⟨xs⟩ = DottedName.text ⟨ys⟩) : xs = ys := by
  have hread : ∀ {zs : List String}, (∀ s ∈ zs, Text.Unmarked s) →
      DottedName.parse (DottedName.text ⟨zs⟩) = ⟨zs⟩ := by
    intro zs hz
    apply DottedName.parse_text
    intro s hs
    exact ⟨(hz s hs).1, (hz s hs).2 '.' (by simp)⟩
  have hsame := congrArg DottedName.parse h
  rw [hread hx, hread hy] at hsame
  exact congrArg DottedName.segments hsame

theorem Unmarked.eq_of_importPath_eq (h : r.Unmarked) (h' : r'.Unmarked)
    (hsame : r.importPath = r'.importPath) : r = r' := by
  obtain ⟨hpath, hmethod⟩ := Prod.mk.inj hsame
  have hparts := congrArg (Text.cutAt? '?') hmethod
  rw [h.cutAt?_methodText, h'.cutAt?_methodText, Option.some.injEq, Prod.mk.injEq] at hparts
  obtain ⟨hname, htags⟩ := hparts
  have hpaths : r.path = r'.path :=
    eq_of_text_eq (fun s hs => h s (mem_append_left _ hs))
      (fun s hs => h' s (mem_append_left _ hs)) hpath
  have hnames : r.method = r'.method :=
    eq_of_text_eq (fun s hs => h s (mem_append_right _ hs))
      (fun s hs => h' s (mem_append_right _ hs)) hname
  have hparams : r.parameters = r'.parameters := tagText_injective htags
  cases r
  cases r'
  subst hpaths hnames hparams
  rfl

theorem Unmarked.eq_of_asmLabel_eq (h : r.Unmarked) (h' : r'.Unmarked)
    (hsame : r.asmLabel = r'.asmLabel) : r = r' := by
  have hcut := congrArg (Text.cutAt? '@') hsame
  rw [h.cutAt?_asmLabel, h'.cutAt?_asmLabel] at hcut
  exact h.eq_of_importPath_eq h' (Option.some.inj hcut)

end Reference

namespace Program

/-- Whether no segment of the namespaces and methods of a program is empty or holds a mark. -/
def UnmarkedNames (p : Program) : Prop :=
  (∀ ns ∈ p.namespaces, ∀ s ∈ ns.name.segments, Text.Unmarked s) ∧
    ∀ m ∈ p.methods, ∀ s ∈ m.name.segments, Text.Unmarked s

instance (p : Program) : Decidable p.UnmarkedNames := inferInstanceAs (Decidable (_ ∧ _))

variable {d : SignatureHash.Digest} {p : Program} {id id' : MethodId} {m m' : Method}

theorem UnmarkedNames.referenceOf (h : p.UnmarkedNames) (hp : p.Registered d)
    (hm : p.methodAt? id = some m) : (p.referenceOf m).Unmarked := by
  obtain ⟨ns, hns, -⟩ := hp.listed id m hm
  intro s hs
  rcases mem_append.1 hs with hs | hs
  · rw [Program.referenceOf, pathOf_eq hns] at hs
    exact h.1 ns (mem_of_getElem? hns) s hs
  · exact h.2 m (mem_of_getElem? hm) s hs

/-- Different methods of a program have different labels, and different imports. -/
theorem labels_distinct (h : p.Reachable d) (hnames : p.UnmarkedNames)
    (hm : p.methodAt? id = some m) (hm' : p.methodAt? id' = some m') (hne : id ≠ id') :
    (p.referenceOf m).asmLabel ≠ (p.referenceOf m').asmLabel ∧
      (p.referenceOf m).importPath ≠ (p.referenceOf m').importPath := by
  have hp := h.registered
  have hunmarked := hnames.referenceOf hp hm
  have hunmarked' := hnames.referenceOf hp hm'
  have hreferences : p.referenceOf m ≠ p.referenceOf m' :=
    fun hsame => hne (hp.distinct id id' m m' hm hm' hsame)
  constructor
  · exact fun hsame => hreferences (hunmarked.eq_of_asmLabel_eq hunmarked' hsame)
  · exact fun hsame => hreferences (hunmarked.eq_of_importPath_eq hunmarked' hsame)

end Program

/-- The functions of two methods have one name, and their labels and imports differ. -/
theorem dotted_labels_differ : (evaluate Sample.scripts Sample.dottedFiles).program.UnmarkedNames ∧
      ∃ m m', (evaluate Sample.scripts Sample.dottedFiles).program.methodAt? 0 = some m ∧
        (evaluate Sample.scripts Sample.dottedFiles).program.methodAt? 1 = some m' ∧
        (evaluate Sample.scripts Sample.dottedFiles).program.functionName m =
          (evaluate Sample.scripts Sample.dottedFiles).program.functionName m' ∧
        ((evaluate Sample.scripts Sample.dottedFiles).program.referenceOf m).asmLabel ≠
          ((evaluate Sample.scripts Sample.dottedFiles).program.referenceOf m').asmLabel ∧
        ((evaluate Sample.scripts Sample.dottedFiles).program.referenceOf m).importPath ≠
          ((evaluate Sample.scripts Sample.dottedFiles).program.referenceOf m').importPath := by
  have hnames : (evaluate Sample.scripts Sample.dottedFiles).program.UnmarkedNames := by
    decide +kernel
  have hfound : ∀ id ∈ [0, 1], ((evaluate Sample.scripts Sample.dottedFiles).program.methodAt?
      id).map (evaluate Sample.scripts Sample.dottedFiles).program.functionName = some "A.B.C?" := by
    decide +kernel
  obtain ⟨m, hm, hname⟩ := Option.map_eq_some_iff.1 (hfound 0 (by simp))
  obtain ⟨m', hm', hname'⟩ := Option.map_eq_some_iff.1 (hfound 1 (by simp))
  exact ⟨hnames, m, m', hm, hm', hname.trans hname'.symm,
    Program.labels_distinct (evaluate_reached Sample.scripts Sample.dottedFiles) hnames hm hm'
      (by decide)⟩

end ScriptCompiler
