import ScriptCompiler.Proofs.Coherence
import ScriptCompiler.Proofs.LookUp

/-!
# Candidates of a call

A dotted name can be split into the path of a namespace and the name of a method in several ways. A
call means the methods of one namespace: its own one, if the name is simple and declared there, and
otherwise the first one whose path the name of a method completes to the called name
(`Program.candidates_found`).
-/

set_option autoImplicit false

namespace ScriptCompiler

open List Option

/-- The first member with an answer gives the answer of a list. -/
theorem findSome?_of_first {α β : Type} {l : List α} {f : α → Option β} {i : Nat} {a : α} {b : β}
    (hi : l[i]? = some a) (hb : f a = some b)
    (hfirst : ∀ j < i, ∀ a', l[j]? = some a' → f a' = none) : l.findSome? f = some b := by
  induction l generalizing i with
  | nil => cases hi
  | cons head _ ih =>
    cases i with
    | zero =>
      cases hi
      rw [findSome?_cons, hb]
    | succ i =>
      rw [findSome?_cons, hfirst 0 (Nat.succ_pos i) head rfl]
      exact ih hi fun j hj => hfirst (j + 1) (Nat.succ_lt_succ hj)

namespace Program

variable {d : SignatureHash.Digest} {p : Program} {i : NamespaceId} {ns : Namespace}
  {name rest : DottedName}

/-- Whether the namespace at a position declares a method of this name. -/
def DeclaresAt (p : Program) (i : NamespaceId) (name : DottedName) : Prop :=
  ∃ m ∈ p.methods, m.owner = i ∧ m.name = name

instance (p : Program) (i : NamespaceId) (name : DottedName) : Decidable (p.DeclaresAt i name) :=
  inferInstanceAs (Decidable (∃ m ∈ p.methods, m.owner = i ∧ m.name = name))

/-- Whether a list holds all methods of a name in a namespace, in the order of their declarations. -/
structure ListsNamed (p : Program) (i : NamespaceId) (name : DottedName) (found : List MethodId) :
    Prop where
  members : ∀ id, id ∈ found ↔ ∃ m, p.methodAt? id = some m ∧ m.owner = i ∧ m.name = name
  ordered : found.Pairwise (· < ·)

/-- Whether the namespace at a position has a path and declares a method whose name completes the
path to the called name. -/
def Completes (p : Program) (name : DottedName) (i : NamespaceId) (rest : DottedName) : Prop :=
  ∃ ns path, p.namespaceAt? i = some ns ∧ ns.name = .explicit path ∧
    path.segments ++ rest.segments = name.segments ∧ rest.segments ≠ [] ∧ p.DeclaresAt i rest

theorem Completes.exists_namespace (h : p.Completes name i rest) :
    ∃ ns, p.namespaceAt? i = some ns := by
  obtain ⟨ns, -, hi, -⟩ := h
  exact ⟨ns, hi⟩

theorem ListsNamed.ne_nil_iff {found : List MethodId} (h : p.ListsNamed i name found) :
    found ≠ [] ↔ p.DeclaresAt i name := by
  rw [← isEmpty_eq_false_iff, isEmpty_eq_false_iff_exists_mem]
  constructor
  · rintro ⟨id, hid⟩
    obtain ⟨m, hm, hnamed⟩ := (h.members id).1 hid
    exact ⟨m, mem_of_getElem? hm, hnamed⟩
  · rintro ⟨m, hmem, hnamed⟩
    obtain ⟨id, hm⟩ := getElem?_of_mem hmem
    exact ⟨id, (h.members id).2 ⟨m, hm, hnamed⟩⟩

/-- The methods of a name in a namespace are those that are declared there. -/
theorem Reachable.listsNamed_methodsNamed (h : p.Reachable d) (i : NamespaceId) (name : DottedName) :
    p.ListsNamed i name (p.methodsNamed i name) := by
  have hp := h.registered
  unfold methodsNamed
  cases hi : p.namespaceAt? i with
  | none =>
    refine ⟨fun id => iff_of_false not_mem_nil ?_, .nil⟩
    rintro ⟨m, hm, rfl, -⟩
    obtain ⟨ns, hns, -⟩ := hp.listed id m hm
    cases hi.symm.trans hns
  | some ns =>
    refine ⟨fun id => ?_, (h.layout_housing.2.ordered i ns hi).filter _⟩
    rw [map_some, getD_some, mem_filter, Option.any_eq_true]
    constructor
    · rintro ⟨hmem, m, hm, hname⟩
      obtain ⟨_, hm', howner⟩ := hp.owned i ns hi id hmem
      cases hm.symm.trans hm'
      exact ⟨m, hm, howner, beq_iff_eq.1 hname⟩
    · rintro ⟨m, hm, rfl, rfl⟩
      obtain ⟨_, hns', hmem⟩ := hp.listed id m hm
      cases hi.symm.trans hns'
      exact ⟨hmem, m, hm, beq_self_eq_true _⟩

theorem Reachable.qualifiedIn_of_completes (h : p.Reachable d) (hi : p.namespaceAt? i = some ns)
    (hname : p.Completes name i rest) : p.qualifiedIn name ns = p.methodsNamed i rest := by
  obtain ⟨_, _, hns', hpath, hsegments, hrest, -⟩ := hname
  cases hi.symm.trans hns'
  unfold qualifiedIn
  simp only [hpath, DottedName.after?_eq_some_iff.2 ⟨hrest, hsegments⟩,
    h.registered.position i ns hi]

theorem Reachable.qualifiedIn_ne_nil_iff (h : p.Reachable d) (hi : p.namespaceAt? i = some ns)
    (name : DottedName) : p.qualifiedIn name ns ≠ [] ↔ ∃ rest, p.Completes name i rest := by
  constructor
  · intro hne
    unfold qualifiedIn at hne
    cases hpath : ns.name with
    | implicit =>
      rw [hpath] at hne
      exact absurd rfl hne
    | explicit path =>
      rw [hpath] at hne
      dsimp only at hne
      cases hafter : name.after? path with
      | none =>
        rw [hafter] at hne
        exact absurd rfl hne
      | some rest =>
        rw [hafter, h.registered.position i ns hi] at hne
        obtain ⟨hrest, hsegments⟩ := DottedName.after?_eq_some_iff.1 hafter
        exact ⟨rest, ns, path, hi, hpath, hsegments, hrest,
          (h.listsNamed_methodsNamed i rest).ne_nil_iff.1 hne⟩
  · rintro ⟨rest, hcompletes⟩
    rw [h.qualifiedIn_of_completes hi hcompletes, (h.listsNamed_methodsNamed i rest).ne_nil_iff]
    obtain ⟨-, -, -, -, -, -, hdeclares⟩ := hcompletes
    exact hdeclares

/-- Away from its own namespace a call finds something exactly if a name completes some path. -/
theorem Reachable.far_ne_nil_iff (h : p.Reachable d) (name : DottedName) :
    (p.namespaces.findSome? (p.answer? name)).getD [] ≠ [] ↔ ∃ i rest, p.Completes name i rest := by
  cases hfar : p.namespaces.findSome? (p.answer? name) with
  | none =>
    refine iff_of_false (not_not_intro rfl) ?_
    rintro ⟨i, rest, hcompletes⟩
    obtain ⟨ns, hi⟩ := hcompletes.exists_namespace
    have hnone := findSome?_eq_none_iff.1 hfar ns (mem_of_getElem? hi)
    rw [answer?, if_neg ((h.qualifiedIn_ne_nil_iff hi name).2 ⟨rest, hcompletes⟩)] at hnone
    cases hnone
  | some =>
    obtain ⟨ns, hns, hanswer⟩ := exists_of_findSome?_eq_some hfar
    obtain ⟨i, hi⟩ := getElem?_of_mem hns
    by_cases hempty : p.qualifiedIn name ns = []
    · rw [answer?, if_pos hempty] at hanswer
      cases hanswer
    · rw [answer?, if_neg hempty] at hanswer
      cases hanswer
      exact iff_of_true hempty ⟨i, (h.qualifiedIn_ne_nil_iff hi name).1 hempty⟩

/-- Away from its own namespace a call means the methods of the first namespace that answers. -/
theorem Reachable.far_of_first (h : p.Reachable d) (hname : p.Completes name i rest)
    (hfirst : ∀ j < i, ∀ rest', ¬ p.Completes name j rest') :
    (p.namespaces.findSome? (p.answer? name)).getD [] = p.methodsNamed i rest := by
  obtain ⟨ns, hi⟩ := hname.exists_namespace
  have hanswer : p.answer? name ns = some (p.methodsNamed i rest) := by
    rw [answer?, if_neg ((h.qualifiedIn_ne_nil_iff hi name).2 ⟨rest, hname⟩),
      h.qualifiedIn_of_completes hi hname]
  rw [findSome?_of_first hi hanswer, getD_some]
  intro j hj _ hns'
  rw [answer?, if_pos]
  by_contra hne
  obtain ⟨rest', hcompletes⟩ := (h.qualifiedIn_ne_nil_iff hns' name).1 hne
  exact hfirst j hj rest' hcompletes

/-- A call finds candidates exactly if its name is simple and declared in its own namespace, or the
name of a declared method completes the path of its namespace to the called name. In the first case
the candidates are the methods of that name in the own namespace, and otherwise those of the first
namespace whose path is completed. -/
theorem candidates_found (h : p.Reachable d) (name : DottedName) (enclosing : NamespaceId) :
    (p.findOverloads name enclosing ≠ [] ↔
      (name.isSimple = true ∧ p.DeclaresAt enclosing name) ∨ ∃ i rest, p.Completes name i rest) ∧
    (name.isSimple = true → p.DeclaresAt enclosing name →
      p.ListsNamed enclosing name (p.findOverloads name enclosing)) ∧
    (¬ (name.isSimple = true ∧ p.DeclaresAt enclosing name) → ∀ i rest, p.Completes name i rest →
      (∀ j < i, ∀ rest', ¬ p.Completes name j rest') →
      p.ListsNamed i rest (p.findOverloads name enclosing)) := by
  have hown := h.listsNamed_methodsNamed enclosing name
  have hnear : (if name.isSimple then p.methodsNamed enclosing name else []) ≠ [] ↔
      name.isSimple = true ∧ p.DeclaresAt enclosing name := by
    by_cases hsimple : name.isSimple = true
    · rw [if_pos hsimple, hown.ne_nil_iff, and_iff_right hsimple]
    · rw [if_neg hsimple]
      exact iff_of_false (not_not_intro rfl) fun hboth => hsimple hboth.1
  rw [findOverloads_eq]
  by_cases hhere : name.isSimple = true ∧ p.DeclaresAt enclosing name
  · rw [if_pos (hnear.2 hhere), if_pos hhere.1]
    refine ⟨?_, fun _ _ => hown, fun haway => absurd hhere haway⟩
    exact iff_of_true (hown.ne_nil_iff.2 hhere.2) (.inl hhere)
  · rw [if_neg (mt hnear.1 hhere)]
    refine ⟨?_, fun hsimple hdeclares => absurd ⟨hsimple, hdeclares⟩ hhere, ?_⟩
    · rw [h.far_ne_nil_iff, or_iff_right hhere]
    · intro _ i rest hname hfirst
      rw [h.far_of_first hname hfirst]
      exact h.listsNamed_methodsNamed i rest

end Program

namespace Sample

/-- A declaration of a dotted name with parameters of some types. -/
def dotted (name : List String) (types : Types) : Program.Declaration :=
  ⟨⟨name⟩, .void, types.map fun t => ⟨"x", t⟩, false, .unknown⟩

/-- The namespaces `App`, `A` and `A.B`, with `C` in `App` and in `A.B`, and two methods `B.C` in
`A`. -/
def branching : Program :=
  [(2, dotted ["C"] []), (1, dotted ["B", "C"] []), (0, dotted ["C"] []),
    (1, dotted ["B", "C"] [.i32])].foldl
      (fun p offered => (p.offer blind offered.1 offered.2).1)
      (((Program.empty.addNamespace ⟨["App"]⟩ 0).1.addNamespace ⟨["A"]⟩ 0).1.addNamespace
        ⟨["A", "B"]⟩ 1).1

theorem reachable_branching : branching.Reachable blind := by
  have hspaces := (((Program.Reachable.empty (d := blind)).addNamespace ⟨["App"]⟩ 0).addNamespace
    ⟨["A"]⟩ 0).addNamespace ⟨["A", "B"]⟩ 1
  exact hspaces.foldl_offer (by decide)

end Sample

/-- From `App`, the name `C` means the method of `App`. The name `A.B.C` can be split in two ways, and
it means both methods `B.C` of `A`, which stands before `A.B`. -/
theorem branching_candidates :
    Sample.branching.ListsNamed 0 ⟨["C"]⟩ (Sample.branching.findOverloads ⟨["C"]⟩ 0) ∧
      Sample.branching.Completes ⟨["A", "B", "C"]⟩ 2 ⟨["C"]⟩ ∧
      Sample.branching.ListsNamed 1 ⟨["B", "C"]⟩
        (Sample.branching.findOverloads ⟨["A", "B", "C"]⟩ 0) ∧
      Sample.branching.findOverloads ⟨["A", "B", "C"]⟩ 0 = [1, 3] := by
  have hfound := Program.candidates_found Sample.reachable_branching
  have hfirst : ∀ rest, ¬ Sample.branching.Completes ⟨["A", "B", "C"]⟩ 0 rest := by
    rintro rest ⟨ns, path, hns, hpath, hsegments, -⟩
    cases hns
    cases hpath
    simp at hsegments
  refine ⟨(hfound ⟨["C"]⟩ 0).2.1 rfl (by decide +kernel), ?_, ?_, by decide +kernel⟩
  · exact ⟨_, ⟨["A", "B"]⟩, rfl, rfl, rfl, by decide, by decide +kernel⟩
  · refine (hfound ⟨["A", "B", "C"]⟩ 0).2.2 (fun hsimple => absurd hsimple.1 (by decide)) 1 _
      ⟨_, ⟨["A"]⟩, rfl, rfl, rfl, by decide, by decide +kernel⟩ ?_
    intro _ hj
    rw [Nat.lt_one_iff.1 hj]
    exact hfirst

end ScriptCompiler
