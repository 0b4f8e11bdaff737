import ScriptCompiler.Proofs.Signatures

/-!
# Registered methods

A program is built up from the empty one by adding namespaces, fields and methods. Every such
program is *registered*: a method stands in the list of the namespace that owns it and nowhere else,
the index has its hash, and no two methods have one reference. The index only speeds up the search
for duplicates: it finds what a scan over all methods would (`Program.Registered.isDeclared_iff`).
-/

set_option autoImplicit false

namespace ScriptCompiler

open List Option

theorem Method.eq_of_outline_eq {m n : Method} (h : m.outline = n.outline) :
    m.owner = n.owner ∧ m.name = n.name ∧ m.parameterTypes = n.parameterTypes := by
  have howner := congrArg Method.owner h
  have hname := congrArg Method.name h
  have htypes := congrArg Method.parameterTypes h
  exact ⟨howner, hname, htypes⟩

namespace Program

/-- The hash of a method under a digest. -/
def hashOf (d : SignatureHash.Digest) (p : Program) (m : Method) : UInt64 :=
  SignatureHash.ofMethod d (p.pathHash d m.owner) m.name.segments m.parameterTypes

/-- What holds of the namespaces and methods of a program, whatever was added to it. -/
structure Registered (d : SignatureHash.Digest) (p : Program) : Prop where
  position : ∀ i ns, p.namespaceAt? i = some ns → ns.id = i
  listed : ∀ id m, p.methodAt? id = some m →
    ∃ ns, p.namespaceAt? m.owner = some ns ∧ id ∈ ns.methods
  owned : ∀ i ns, p.namespaceAt? i = some ns → ∀ id ∈ ns.methods,
    ∃ m, p.methodAt? id = some m ∧ m.owner = i
  indexed : ∀ id m, p.methodAt? id = some m → (p.hashOf d m, id) ∈ p.index
  distinct : ∀ id id' m m', p.methodAt? id = some m → p.methodAt? id' = some m' →
    p.referenceOf m = p.referenceOf m' → id = id'

/-- The programs that arise from the empty one. -/
inductive Reachable (d : SignatureHash.Digest) : Program → Prop where
  | empty : Reachable d .empty
  | addNamespace {p} (path : DottedName) (script : ScriptId) : Reachable d p →
      Reachable d (p.addNamespace path script).1
  | implicitNamespace {p} (script : ScriptId) : Reachable d p →
      Reachable d (p.implicitNamespace script).1
  | addField {p} (owner : NamespaceId) (field : Field) : Reachable d p →
      Reachable d (p.addField owner field)
  | addMethod {p q owner decl id} : Reachable d p → owner < p.namespaces.length →
      p.addMethodWith d owner decl = some (q, id) → Reachable d q
  /-- Only bodies changed. -/
  | work {p q} : Reachable d p → p.outline = q.outline → Reachable d q

variable {d : SignatureHash.Digest} {p q : Program}

/-! ## Adding namespaces and fields, and working on bodies -/

variable {id : MethodId} {m : Method}

theorem hashOf_congr {m' : Method} (h : q.referenceOf m = p.referenceOf m') :
    q.hashOf d m = p.hashOf d m' := by
  have hsame := congrArg (fun r : Reference =>
    SignatureHash.ofMethod d (SignatureHash.ofPath d r.path) r.method r.parameters) h
  exact hsame

/-- Whether one program has the methods of the other one, up to their bodies, and its namespaces, up
to their fields, and any other namespaces are empty. -/
structure Widens (p q : Program) : Prop where
  methods : ∀ id, (q.methodAt? id).map Method.outline = (p.methodAt? id).map Method.outline
  index : q.index = p.index
  kept : ∀ i ns, p.namespaceAt? i = some ns →
    ∃ fields, q.namespaceAt? i = some { ns with fields := fields }
  fresh : ∀ i ns', q.namespaceAt? i = some ns' → p.namespaceAt? i = none →
    ns'.id = i ∧ ns'.methods = []

theorem Widens.exists_method (h : Widens p q) (hm : q.methodAt? id = some m) :
    ∃ m', p.methodAt? id = some m' ∧ m'.outline = m.outline :=
  map_eq_some_iff.1 ((h.methods id).symm.trans (congrArg _ hm))

theorem Widens.kept_or_fresh (h : Widens p q) {i : NamespaceId} {ns' : Namespace}
    (hi' : q.namespaceAt? i = some ns') :
    (∃ ns fields, p.namespaceAt? i = some ns ∧ ns' = { ns with fields := fields }) ∨
      ns'.id = i ∧ ns'.methods = [] := by
  cases hi : p.namespaceAt? i with
  | none => exact .inr (h.fresh i ns' hi' hi)
  | some ns =>
    obtain ⟨fields, hkept⟩ := h.kept i ns hi
    rw [hi'] at hkept
    exact .inl ⟨ns, fields, rfl, some.inj hkept⟩

theorem pathOf_eq {i : NamespaceId} {ns : Namespace} (h : p.namespaceAt? i = some ns) :
    p.pathOf i = ns.name.segments := by
  simp only [pathOf, h, map_some, getD_some]

theorem Widens.referenceOf_eq (h : Widens p q) (hp : p.Registered d) {m' : Method}
    (hm' : p.methodAt? id = some m') (ho : m'.outline = m.outline) :
    q.referenceOf m = p.referenceOf m' := by
  obtain ⟨ns, hns, -⟩ := hp.listed id m' hm'
  obtain ⟨_, hkept⟩ := h.kept _ ns hns
  obtain ⟨howner, hname, htypes⟩ := Method.eq_of_outline_eq ho
  simp only [referenceOf, pathOf, ← howner, ← hname, ← htypes, hns, hkept, map_some]

/-- Fields and empty namespaces may be added. -/
theorem Widens.registered (h : Widens p q) (hp : p.Registered d) : q.Registered d := by
  refine ⟨?_, ?_, ?_, ?_, ?_⟩
  · intro i ns' hi'
    rcases h.kept_or_fresh hi' with ⟨ns, fields, hi, rfl⟩ | ⟨hid, -⟩
    · exact hp.position i ns hi
    · exact hid
  · intro id m hm
    obtain ⟨m', hm', ho⟩ := h.exists_method hm
    obtain ⟨ns, hns, hmem⟩ := hp.listed id m' hm'
    obtain ⟨fields, hkept⟩ := h.kept _ ns hns
    rw [(Method.eq_of_outline_eq ho).1] at hkept
    exact ⟨_, hkept, hmem⟩
  · intro i ns' hi' id hmem
    rcases h.kept_or_fresh hi' with ⟨ns, fields, hi, rfl⟩ | ⟨-, hnone⟩
    · obtain ⟨m, hm, howner⟩ := hp.owned i ns hi id hmem
      obtain ⟨m', hm', ho⟩ := map_eq_some_iff.1 ((h.methods id).trans (congrArg _ hm))
      exact ⟨m', hm', (Method.eq_of_outline_eq ho).1.trans howner⟩
    · rw [hnone] at hmem
      cases hmem
  · intro id m hm
    obtain ⟨m', hm', ho⟩ := h.exists_method hm
    rw [h.index, hashOf_congr (h.referenceOf_eq hp hm' ho)]
    exact hp.indexed id m' hm'
  · intro id id' m _ hm hn hsame
    obtain ⟨m', hm', hom⟩ := h.exists_method hm
    obtain ⟨n', hn', hon⟩ := h.exists_method hn
    rw [h.referenceOf_eq hp hm' hom, h.referenceOf_eq hp hn' hon] at hsame
    exact hp.distinct id id' m' n' hm' hn' hsame

theorem widens_of_outline_eq (h : p.outline = q.outline) : Widens p q where
  methods id := by rw [← methodAt?_outline, ← methodAt?_outline, h]
  index := (congrArg Program.index h).symm
  kept i ns hi := ⟨ns.fields, (congrArg (fun p : Program => p.namespaces[i]?) h).symm.trans hi⟩
  fresh i ns' hi' hi := by
    have hsome := (congrArg (fun p : Program => p.namespaces[i]?) h).trans hi'
    cases hi.symm.trans hsome

theorem getElem?_concat_cases {α : Type} {l : List α} {a b : α} {i : Nat}
    (h : (l ++ [a])[i]? = some b) : l[i]? = some b ∨ (i = l.length ∧ b = a) := by
  by_cases hlt : i < l.length
  · exact .inl ((getElem?_append_left hlt).symm.trans h)
  · rw [getElem?_append_right (Nat.le_of_not_lt hlt), getElem?_singleton] at h
    split at h
    · cases h
      exact .inr ⟨by omega, rfl⟩
    · cases h

theorem getElem?_concat_of_eq_some {α : Type} {l : List α} {b : α} {i : Nat} (h : l[i]? = some b)
    (a : α) : (l ++ [a])[i]? = some b :=
  (getElem?_append_left (List.getElem?_eq_some_iff.1 h).1).trans h

theorem widens_pushNamespace (p : Program) (name : NamespaceName) (script : ScriptId) :
    Widens p (p.pushNamespace name script).1 where
  methods _ := rfl
  index := rfl
  kept i ns hi := ⟨ns.fields, getElem?_concat_of_eq_some hi _⟩
  fresh i ns' hi' hi := by
    rcases getElem?_concat_cases hi' with hold | ⟨rfl, rfl⟩
    · cases hi.symm.trans hold
    · exact ⟨rfl, rfl⟩

theorem widens_addNamespace (p : Program) (path : DottedName) (script : ScriptId) :
    Widens p (p.addNamespace path script).1 := by
  unfold addNamespace
  split
  · exact widens_of_outline_eq rfl
  · exact widens_pushNamespace p _ _

theorem widens_implicitNamespace (p : Program) (script : ScriptId) :
    Widens p (p.implicitNamespace script).1 := by
  unfold implicitNamespace
  split
  · exact widens_of_outline_eq rfl
  · -- the counter of implicit namespaces plays no part
    have h := widens_pushNamespace { p with nextImplicit := p.nextImplicit + 1 }
      (.implicit p.nextImplicit) script
    exact ⟨h.methods, h.index, h.kept, h.fresh⟩

theorem widens_addField (p : Program) (owner : NamespaceId) (field : Field) :
    Widens p (p.addField owner field) where
  methods _ := rfl
  index := rfl
  kept i ns hi := by
    have hi' : p.namespaces[i]? = some ns := hi
    simp only [addField, namespaceAt?, getElem?_modify, hi', Option.map_eq_map, map_some]
    split
    · exact ⟨_, rfl⟩
    · exact ⟨ns.fields, rfl⟩
  fresh i ns' hi' hi := by
    have hnone : p.namespaces[i]? = none := hi
    simp only [addField, namespaceAt?, getElem?_modify, hnone] at hi'
    cases hi'

/-! ## Adding methods -/

/-- The method of a declaration, without a body yet. -/
def Declaration.method (decl : Declaration) (id : MethodId) (owner : NamespaceId)
    (script : ScriptId) : Method where
  id := id
  owner := owner
  script := script
  name := decl.name
  returnType := decl.returnType
  parameters := decl.parameters
  external := decl.external
  span := decl.span

/-- The program with one more method, one more entry in the list of its namespace, and one more entry
of the index. -/
def insertMethod (d : SignatureHash.Digest) (p : Program) (m : Method) : Program :=
  { p with
    namespaces := p.namespaces.modify m.owner fun ns => { ns with methods := ns.methods ++ [m.id] }
    methods := p.methods ++ [m]
    index := p.index ++ [(p.hashOf d m, m.id)] }

variable {ns : Namespace} {owner : NamespaceId}

/-- A declaration is refused if the index leads to its signature, and inserted otherwise. -/
theorem addMethodWith_eq (d : SignatureHash.Digest) (p : Program) (owner : NamespaceId)
    (decl : Declaration) : p.addMethodWith d owner decl =
      if p.isDeclared (SignatureHash.ofMethod d (p.pathHash d owner) decl.name.segments
          (decl.parameters.map (·.type))) (p.pathOf owner) decl.name
          (decl.parameters.map (·.type)) then none
      else some (p.insertMethod d (decl.method p.methods.length owner
        (((p.namespaceAt? owner).map (·.script)).getD 0)), p.methods.length) :=
  rfl

theorem addMethodWith_ok {decl : Declaration} (h : p.addMethodWith d owner decl = some (q, id)) :
    ∃ m : Method, q = p.insertMethod d m ∧ m.id = p.methods.length ∧ m.owner = owner ∧
      m.script = ((p.namespaceAt? owner).map (·.script)).getD 0 ∧
      p.isDeclared (p.hashOf d m) (p.pathOf m.owner) m.name m.parameterTypes = false := by
  rw [addMethodWith_eq] at h
  split at h
  · cases h
  · rename_i hfree
    cases h
    exact ⟨_, rfl, rfl, rfl, rfl, Bool.not_eq_true _ ▸ hfree⟩

/-- One more method is listed in its namespace, and nothing else changes there. -/
theorem namespaceAt?_insertMethod (d : SignatureHash.Digest) (p : Program) (m : Method)
    (i : NamespaceId) : (p.insertMethod d m).namespaceAt? i = (p.namespaceAt? i).map fun ns =>
      if m.owner = i then { ns with methods := ns.methods ++ [m.id] } else ns :=
  getElem?_modify ..

theorem referenceOf_insertMethod (d : SignatureHash.Digest) (p : Program) (m m' : Method) :
    (p.insertMethod d m).referenceOf m' = p.referenceOf m' := by
  simp only [referenceOf, pathOf, namespaceAt?_insertMethod, Option.map_map, Function.comp_def]
  congr 3
  funext ns
  split <;> rfl

/-- Only a registered method of the same reference is taken for a duplicate, and every one is. -/
theorem Registered.isDeclared_iff (hp : p.Registered d) (owner : NamespaceId) (name : DottedName)
    (types : Types) :
    p.isDeclared (SignatureHash.ofMethod d (p.pathHash d owner) name.segments types)
        (p.pathOf owner) name types = true ↔ ∃ id m, p.methodAt? id = some m ∧
        p.referenceOf m = ⟨p.pathOf owner, name.segments, types⟩ := by
  unfold isDeclared
  rw [List.any_eq_true]
  constructor
  · rintro ⟨⟨hash, id⟩, -, hentry⟩
    simp only [Bool.and_eq_true, Option.any_eq_true] at hentry
    obtain ⟨-, m, hm, hsame⟩ := hentry
    simp only [hasSignature, Bool.and_eq_true, beq_iff_eq] at hsame
    obtain ⟨⟨hname, htypes⟩, hpath⟩ := hsame
    refine ⟨id, m, hm, ?_⟩
    rw [referenceOf, hpath, hname, htypes]
  · rintro ⟨id, m, hm, hsame⟩
    simp only [referenceOf, Reference.mk.injEq] at hsame
    obtain ⟨hpath, hname, htypes⟩ := hsame
    have hentry := hp.indexed id m hm
    -- equal paths have equal hashes, so the entry of the method is under this hash
    rw [hashOf, pathHash, hpath, hname, htypes] at hentry
    refine ⟨_, hentry, ?_⟩
    have hname' : m.name = name := congrArg DottedName.mk hname
    simp only [hm, hasSignature, hname', htypes, hpath, pathHash, beq_self_eq_true, Bool.and_self,
      any_some]

/-- A method that is not declared yet may be added. -/
theorem Registered.insertMethod (hp : p.Registered d) (hid : m.id = p.methods.length)
    (howner : p.namespaceAt? m.owner = some ns)
    (hfree : p.isDeclared (p.hashOf d m) (p.pathOf m.owner) m.name m.parameterTypes = false) :
    (p.insertMethod d m).Registered d := by
  -- the new method has a reference that no other one has
  have hnew : ∀ id m', p.methodAt? id = some m' → p.referenceOf m' ≠ p.referenceOf m := by
    intro id m' hm' hsame
    have hdeclared := (hp.isDeclared_iff m.owner m.name m.parameterTypes).2 ⟨id, m', hm', hsame⟩
    cases hfree.symm.trans hdeclared
  refine ⟨?_, ?_, ?_, ?_, ?_⟩
  · intro i ns' hi'
    rw [namespaceAt?_insertMethod] at hi'
    obtain ⟨ns, hi, rfl⟩ := map_eq_some_iff.1 hi'
    have hposition := hp.position i ns hi
    split <;> exact hposition
  · intro id m' hm'
    rcases getElem?_concat_cases hm' with hold | ⟨rfl, rfl⟩
    · obtain ⟨ns, hns, hmem⟩ := hp.listed id m' hold
      refine ⟨_, by rw [namespaceAt?_insertMethod, hns, map_some], ?_⟩
      split
      · exact mem_append_left _ hmem
      · exact hmem
    · refine ⟨_, by rw [namespaceAt?_insertMethod, howner, map_some], ?_⟩
      rw [if_pos rfl, ← hid]
      exact mem_append_right _ (mem_singleton_self _)
  · intro i ns' hi' id hmem
    rw [namespaceAt?_insertMethod] at hi'
    obtain ⟨ns, hi, rfl⟩ := map_eq_some_iff.1 hi'
    have hold : id ∈ ns.methods → ∃ m', (p.insertMethod d m).methodAt? id = some m' ∧
        m'.owner = i := by
      intro hmem
      obtain ⟨m', hm', howns⟩ := hp.owned i ns hi id hmem
      exact ⟨m', getElem?_concat_of_eq_some hm' m, howns⟩
    split at hmem
    · rename_i hi'
      rcases mem_append.1 hmem with hmem | hmem
      · exact hold hmem
      · rw [mem_singleton.1 hmem, hid]
        exact ⟨m, getElem?_concat_length, hi'⟩
    · exact hold hmem
  · intro id m' hm'
    rw [hashOf_congr (referenceOf_insertMethod d p m m')]
    rcases getElem?_concat_cases hm' with hold | ⟨rfl, rfl⟩
    · exact mem_append_left _ (hp.indexed id m' hold)
    · rw [← hid]
      exact mem_append_right _ (mem_singleton_self _)
  · intro id id' m₁ m₂ h₁ h₂ hsame
    rw [referenceOf_insertMethod, referenceOf_insertMethod] at hsame
    rcases getElem?_concat_cases h₁ with hold₁ | ⟨rfl, rfl⟩
    · rcases getElem?_concat_cases h₂ with hold₂ | ⟨rfl, rfl⟩
      · exact hp.distinct id id' m₁ m₂ hold₁ hold₂ hsame
      · exact absurd hsame (hnew id m₁ hold₁)
    · rcases getElem?_concat_cases h₂ with hold₂ | ⟨rfl, rfl⟩
      · exact absurd hsame.symm (hnew id' m₂ hold₂)
      · rfl

theorem registered_empty (d : SignatureHash.Digest) : (empty).Registered d := by
  refine ⟨?_, ?_, ?_, ?_, ?_⟩
  all_goals
    intros
    simp_all [empty, namespaceAt?, methodAt?]

theorem Reachable.registered (h : Reachable d p) : p.Registered d := by
  induction h with
  | empty => exact registered_empty d
  | addNamespace path script _ ih => exact (widens_addNamespace _ path script).registered ih
  | implicitNamespace script _ ih => exact (widens_implicitNamespace _ script).registered ih
  | addField owner field _ ih => exact (widens_addField _ owner field).registered ih
  | addMethod _ howner hadd ih =>
    obtain ⟨_, rfl, hid, rfl, -, hfree⟩ := addMethodWith_ok hadd
    exact ih.insertMethod hid (getElem?_eq_getElem howner) hfree
  | work _ hsame ih => exact (widens_of_outline_eq hsame).registered ih

/-- A reference leads to a method of this reference only. -/
theorem Registered.referenceOf_of_findMethod? (hp : p.Registered d) {r : Reference}
    (h : p.findMethod? r = some id) : ∃ m, p.methodAt? id = some m ∧ p.referenceOf m = r := by
  have hanswer := find?_some h
  obtain ⟨ns, hns, hmem⟩ := mem_flatMap.1 (mem_of_find?_eq_some h)
  obtain ⟨hns, hsegments⟩ := mem_filter.1 hns
  obtain ⟨i, hi⟩ := getElem?_of_mem hns
  obtain ⟨m, hm, howner⟩ := hp.owned i ns hi id hmem
  rw [answersTo, hm, any_some, Bool.and_eq_true, beq_iff_eq, beq_iff_eq] at hanswer
  refine ⟨m, hm, ?_⟩
  rw [referenceOf, howner, pathOf_eq hi, beq_iff_eq.1 hsegments, hanswer.1, hanswer.2]

theorem Registered.findMethod?_referenceOf (hp : p.Registered d) (h : p.methodAt? id = some m) :
    p.findMethod? (p.referenceOf m) = some id := by
  have hanswer : p.answersTo (p.referenceOf m) id = true := by
    simp only [answersTo, h, any_some, referenceOf, beq_self_eq_true, Bool.and_self]
  obtain ⟨ns, hns, hmem⟩ := hp.listed id m h
  have hcandidate : id ∈ (p.namespaces.filter fun ns =>
      ns.name.segments == (p.referenceOf m).path).flatMap (·.methods) := by
    refine mem_flatMap.2 ⟨ns, mem_filter.2 ⟨mem_of_getElem? hns, ?_⟩, hmem⟩
    simp only [referenceOf, pathOf_eq hns, beq_self_eq_true]
  have hfound : (p.findMethod? (p.referenceOf m)).isSome = true :=
    find?_isSome.2 ⟨id, hcandidate, hanswer⟩
  obtain ⟨id', hid'⟩ := isSome_iff_exists.1 hfound
  -- the first candidate that answers has the reference of the method
  obtain ⟨m', hm', hsame⟩ := hp.referenceOf_of_findMethod? hid'
  rw [hid', hp.distinct id' id m' m hm' h hsame]

end Program

/-! ## Declared methods -/

namespace Evaluation

/-- The digest in use. -/
abbrev Reached (s : Evaluation) : Prop := s.program.Reachable SignatureHash.digest

theorem declareMethod_reached {s : Evaluation} (h : s.Reached) (external : Bool)
    {owner : NamespaceId} (howner : owner < s.program.namespaces.length) (m : MethodDecl) :
    (s.declareMethod external owner m).Reached := by
  unfold declareMethod
  dsimp only
  split
  · exact h
  · split
    · exact h
    · rename_i program id hadd
      have hreach : program.Reachable SignatureHash.digest := .addMethod h howner hadd
      split
      · exact hreach
      · refine .work hreach (program.outline_updateMethod id ?_).symm
        exact fun _ => rfl

end Evaluation

end ScriptCompiler
