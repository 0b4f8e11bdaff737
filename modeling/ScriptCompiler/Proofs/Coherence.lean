import ScriptCompiler.Proofs.Entries

/-!
# The program model

Namespaces and methods point at each other by position, and the lists of a program repeat what the
items say. In every program that arises from the empty one these agree (`Program.Coherent`), and the
reference of a method leads back to it.

A declaration is *offered* to a program, which takes it or is left as it was. Whether it is taken is
what a plain scan over the methods says, whatever the digest behind the index is.
-/

set_option autoImplicit false

namespace ScriptCompiler

open List Option

/-! ## Namespaces -/

/-- A namespace without its members. -/
def Namespace.title (ns : Namespace) : Namespace := { ns with methods := [], fields := [] }

/-- The tag of a namespace that stands for the methods outside any namespace. -/
def Namespace.tag? (ns : Namespace) : Option Nat :=
  match ns.name with
  | .explicit _ => none
  | .implicit tag => some tag

namespace Program

variable {d : SignatureHash.Digest} {p q : Program} {ns : Namespace} {owner : NamespaceId} {α : Type}

/-- What holds of the namespaces of a program: no two are for one place or have one tag, and their
scripts are listed in the order of their first ones. -/
structure Layout (p : Program) : Prop where
  places : (p.namespaces.map Namespace.place).Nodup
  tags : (p.namespaces.filterMap Namespace.tag?).Nodup
  counted : ∀ tag ∈ p.namespaces.filterMap Namespace.tag?, tag < p.nextImplicit
  scripts : p.scripts = (p.namespaces.map (·.script)).eraseDups

theorem Layout.congr (h : p.Layout)
    (htitles : q.namespaces.map Namespace.title = p.namespaces.map Namespace.title)
    (hnext : q.nextImplicit = p.nextImplicit) (hscripts : q.scripts = p.scripts) : q.Layout := by
  have hplaces := congrArg (List.map Namespace.place) htitles
  have htags := congrArg (List.filterMap Namespace.tag?) htitles
  have hlisted := congrArg (List.map (·.script)) htitles
  rw [List.map_map, List.map_map] at hplaces hlisted
  rw [filterMap_map, filterMap_map] at htags
  refine ⟨?_, ?_, ?_, ?_⟩
  · exact hplaces ▸ h.places
  · exact htags ▸ h.tags
  · rw [hnext]
    exact htags ▸ h.counted
  · rw [hscripts, h.scripts]
    exact congrArg List.eraseDups hlisted.symm

/-- Entering a place keeps the program or adds an empty namespace for the place, which no other one
is for. -/
theorem enter_cases (p : Program) (pl : Place) : (p.enter pl).1 = p ∨
      pl ∉ p.namespaces.map Namespace.place ∧
        (p.enter pl).1 =
          { p with
            namespaces := p.namespaces ++
              [{ id := p.namespaces.length, name := pl.named p.nextImplicit, script := pl.script }]
            scripts :=
              if p.scripts.contains pl.script then p.scripts else p.scripts ++ [pl.script]
            nextImplicit := if pl.isLoose then p.nextImplicit + 1 else p.nextImplicit } := by
  rw [enter_eq]
  cases hfind : p.namespaces.find? fun ns => ns.place == pl with
  | some ns => exact .inl rfl
  | none =>
    refine .inr ⟨?_, rfl⟩
    rintro hmem
    obtain ⟨ns, hns, hplace⟩ := List.mem_map.1 hmem
    exact List.find?_eq_none.1 hfind ns hns (beq_iff_eq.2 hplace)

theorem Layout.enter (h : p.Layout) (pl : Place) : (p.enter pl).1.Layout := by
  rcases p.enter_cases pl with hsame | ⟨hnew, hpushed⟩
  · rw [hsame]
    exact h
  · rw [hpushed]
    obtain ⟨script, group⟩ := pl
    have hscripts : (if p.scripts.contains script then p.scripts else p.scripts ++ [script]) =
        (p.namespaces.map (·.script) ++ [script]).eraseDups := by
      rw [eraseDups_concat, ← h.scripts, contains_eq_mem, h.scripts]
      simp only [mem_eraseDups, decide_eq_true_eq]
    have hplaces : (p.namespaces.map Namespace.place ++ [(⟨script, group⟩ : Place)]).Nodup := by
      rw [← concat_eq_append]
      exact h.places.concat hnew
    cases group with
    | some =>
      refine ⟨?_, ?_, ?_, ?_⟩
      · rw [map_append]
        exact hplaces
      · rw [filterMap_append]
        exact (append_nil _).symm ▸ h.tags
      · rw [filterMap_append]
        exact (append_nil _).symm ▸ h.counted
      · rw [map_append]
        exact hscripts
    | none =>
      have htags : (p.namespaces.filterMap Namespace.tag? ++ [p.nextImplicit]).Nodup := by
        rw [← concat_eq_append]
        exact h.tags.concat fun hmem => Nat.lt_irrefl _ (h.counted _ hmem)
      refine ⟨?_, ?_, ?_, ?_⟩
      · rw [map_append]
        exact hplaces
      · rw [filterMap_append]
        exact htags
      · rw [filterMap_append, forall_mem_append]
        refine ⟨fun tag htag => Nat.lt_succ_of_lt (h.counted tag htag), ?_⟩
        exact forall_mem_singleton.2 (Nat.lt_succ_self p.nextImplicit)
      · rw [map_append]
        exact hscripts

/-! ## Methods -/

/-- The script of the namespace at a position. -/
def scriptAt? (p : Program) (i : NamespaceId) : Option ScriptId :=
  (p.namespaceAt? i).map (·.script)

/-- What holds of the methods of a program: each one has its position and the script of its
namespace, and every namespace lists them in the order of their declarations. -/
structure Housing (p : Program) : Prop where
  position : ∀ id m, p.methodAt? id = some m → m.id = id
  script : ∀ id m, p.methodAt? id = some m → p.scriptAt? m.owner = some m.script
  ordered : ∀ i ns, p.namespaceAt? i = some ns → ns.methods.Pairwise (· < ·)

theorem scriptAt?_congr
    (htitles : q.namespaces.map Namespace.title = p.namespaces.map Namespace.title)
    (i : NamespaceId) : q.scriptAt? i = p.scriptAt? i := by
  have hat := congrArg (fun titles : List Namespace => titles[i]?.map (·.script)) htitles
  simp only [getElem?_map, Option.map_map] at hat
  exact hat

theorem Widens.housing (h : Widens p q) (hp : p.Housing) : q.Housing := by
  refine ⟨?_, ?_, ?_⟩
  · intro id m hm
    obtain ⟨m', hm', ho⟩ := h.exists_method hm
    have hid := congrArg Method.id ho
    exact hid.symm.trans (hp.position id m' hm')
  · intro id m hm
    obtain ⟨m', hm', ho⟩ := h.exists_method hm
    obtain ⟨ns, hns, hscript⟩ := map_eq_some_iff.1 (hp.script id m' hm')
    obtain ⟨fields, hkept⟩ := h.kept _ ns hns
    rw [scriptAt?, ← (Method.eq_of_outline_eq ho).1, hkept]
    have hsame := congrArg Method.script ho
    exact congrArg some (hscript.trans hsame)
  · intro i _ hi'
    rcases h.kept_or_fresh hi' with ⟨ns, fields, hi, rfl⟩ | ⟨-, hnone⟩
    · exact hp.ordered i ns hi
    · rw [hnone]
      exact .nil

theorem map_title_insertMethod (d : SignatureHash.Digest) (p : Program) (m : Method) :
    (p.insertMethod d m).namespaces.map Namespace.title = p.namespaces.map Namespace.title :=
  map_modify_of_eq (fun _ => by rfl) p.namespaces m.owner

theorem Housing.insertMethod (h : p.Housing) (hp : p.Registered d) {m : Method}
    (hid : m.id = p.methods.length) (hscript : p.scriptAt? m.owner = some m.script) :
    (p.insertMethod d m).Housing := by
  refine ⟨?_, ?_, ?_⟩
  · intro id m' hm'
    rcases getElem?_concat_cases hm' with hold | ⟨rfl, rfl⟩
    · exact h.position id m' hold
    · exact hid
  · intro id m' hm'
    rw [scriptAt?_congr (map_title_insertMethod d p m)]
    rcases getElem?_concat_cases hm' with hold | ⟨-, rfl⟩
    · exact h.script id m' hold
    · exact hscript
  · intro i _ hi
    rw [namespaceAt?_insertMethod] at hi
    obtain ⟨ns₀, hi₀, rfl⟩ := map_eq_some_iff.1 hi
    have hord := h.ordered i ns₀ hi₀
    split
    · -- what a namespace lists is a method before the new one
      refine pairwise_append.2 ⟨hord, pairwise_singleton _ _, ?_⟩
      intro id hmem _ hlast
      obtain ⟨m', hm', -⟩ := hp.owned i ns₀ hi₀ id hmem
      rw [mem_singleton.1 hlast, hid]
      exact (List.getElem?_eq_some_iff.1 hm').1
    · exact hord

/-- Every program that arises from the empty one is laid out and houses its methods. -/
theorem Reachable.layout_housing (h : p.Reachable d) : p.Layout ∧ p.Housing := by
  induction h with
  | empty => exact ⟨⟨.nil, .nil, forall_mem_nil _, rfl⟩, ⟨nofun, nofun, nofun⟩⟩
  | addNamespace path script _ ih =>
    exact ⟨ih.1.enter ⟨script, some path⟩, (widens_addNamespace _ path script).housing ih.2⟩
  | implicitNamespace script _ ih =>
    exact ⟨ih.1.enter ⟨script, none⟩, (widens_implicitNamespace _ script).housing ih.2⟩
  | @addField p owner field _ ih =>
    exact ⟨ih.1.congr (map_modify_of_eq (fun _ => by rfl) p.namespaces owner) rfl rfl,
      (widens_addField p owner field).housing ih.2⟩
  | @addMethod p q owner decl id hp howner hadd ih =>
    obtain ⟨m, rfl, hid, rfl, hscript, -⟩ := addMethodWith_ok hadd
    have hns : p.namespaceAt? m.owner = some p.namespaces[m.owner] :=
      getElem?_eq_getElem howner
    refine ⟨ih.1.congr (map_title_insertMethod d p m) rfl rfl,
      ih.2.insertMethod hp.registered hid ?_⟩
    rw [scriptAt?, hscript, hns]
    rfl
  | @work p q _ hsame ih =>
    have htitles := congrArg (fun p : Program => p.namespaces.map Namespace.title) hsame
    have hnext := congrArg Program.nextImplicit hsame
    have hscripts := congrArg Program.scripts hsame
    exact ⟨ih.1.congr htitles.symm hnext.symm hscripts.symm,
      (widens_of_outline_eq hsame).housing ih.2⟩

/-! ## Coherence -/

/-- Members that are not apart are one member, in a list whose members are apart. -/
theorem eq_of_pairwise {apart : α → α → Prop} {l : List α} (h : l.Pairwise apart) {i j : Nat}
    {a b : α} (hi : l[i]? = some a) (hj : l[j]? = some b) (hab : ¬ apart a b) (hba : ¬ apart b a) :
    i = j := by
  obtain ⟨hilt, rfl⟩ := List.getElem?_eq_some_iff.1 hi
  obtain ⟨hjlt, rfl⟩ := List.getElem?_eq_some_iff.1 hj
  rw [pairwise_iff_getElem] at h
  rcases Nat.lt_trichotomy i j with hlt | heq | hgt
  · exact absurd (h i j hilt hjlt hlt) hab
  · exact heq
  · exact absurd (h j i hjlt hilt hgt) hba

theorem nodup_eraseDups [DecidableEq α] (l : List α) : l.eraseDups.Nodup := by
  induction l using List.reverseRecOn with
  | nil => exact .nil
  | append_singleton l a ih =>
    rw [eraseDups_concat]
    split
    · exact ih
    · rename_i hnew
      rw [← concat_eq_append]
      exact ih.concat fun hmem => hnew (mem_eraseDups.1 hmem)

/-- What the items and lists of a program say of each other. -/
structure Coherent (p : Program) : Prop where
  namespace_position : ∀ i ns, p.namespaceAt? i = some ns → ns.id = i
  method_position : ∀ id m, p.methodAt? id = some m → m.id = id
  /-- The namespace that a method names is there, and both are of one script. -/
  home : ∀ id m, p.methodAt? id = some m →
    ∃ ns, p.namespaceAt? m.owner = some ns ∧ m.script = ns.script
  /-- A method is listed once, by the namespace that it names. -/
  listed : ∀ id m, p.methodAt? id = some m → ∀ i ns, p.namespaceAt? i = some ns →
    ns.methods.count id = if i = m.owner then 1 else 0
  /-- Namespaces list nothing but methods. -/
  members : ∀ i ns, p.namespaceAt? i = some ns → ∀ id ∈ ns.methods, ∃ m, p.methodAt? id = some m
  explicit_once : ∀ i j ns ns' path, p.namespaceAt? i = some ns → p.namespaceAt? j = some ns' →
    ns.script = ns'.script → ns.name = .explicit path → ns'.name = .explicit path → i = j
  implicit_once : ∀ i j ns ns' tag tag', p.namespaceAt? i = some ns → p.namespaceAt? j = some ns' →
    ns.script = ns'.script → ns.name = .implicit tag → ns'.name = .implicit tag' → i = j
  tag_once : ∀ i j ns ns' tag, p.namespaceAt? i = some ns → p.namespaceAt? j = some ns' →
    ns.name = .implicit tag → ns'.name = .implicit tag → i = j
  scripts_nodup : p.scripts.Nodup
  /-- The scripts stand in the order of their first namespaces. -/
  scripts_order : p.scripts = (p.namespaces.map (·.script)).eraseDups
  /-- A reference leads back to its method. -/
  reference : ∀ id m, p.methodAt? id = some m → p.findMethod? (p.referenceOf m) = some id

/-- A namespace lists a method once if the method names it, and not at all otherwise. -/
theorem Registered.count_methods (hp : p.Registered d) (h : p.Housing) {id : MethodId} {m : Method}
    (hm : p.methodAt? id = some m) {i : NamespaceId} (hi : p.namespaceAt? i = some ns) :
    ns.methods.count id = if i = m.owner then 1 else 0 := by
  by_cases howner : i = m.owner
  · obtain ⟨_, hns', hmem⟩ := hp.listed id m hm
    rw [← howner, hi] at hns'
    cases hns'
    rw [if_pos howner]
    exact count_eq_one_of_mem ((h.ordered i ns hi).imp Nat.ne_of_lt) hmem
  · rw [if_neg howner, count_eq_zero]
    intro hmem
    obtain ⟨_, hm', howner'⟩ := hp.owned i ns hi id hmem
    rw [hm] at hm'
    cases hm'
    exact howner howner'.symm

/-- Every program that arises from the empty one is coherent. -/
theorem reachable_coherent (h : p.Reachable d) : p.Coherent := by
  have hreg := h.registered
  obtain ⟨hlayout, hhousing⟩ := h.layout_housing
  have hplaces := List.pairwise_map.1 hlayout.places
  have htags := List.pairwise_filterMap.1 hlayout.tags
  refine ⟨hreg.position, hhousing.position, ?_, ?_, ?_, ?_, ?_, ?_, ?_, hlayout.scripts, ?_⟩
  · intro id m hm
    obtain ⟨ns, hns, hscript⟩ := Option.map_eq_some_iff.1 (hhousing.script id m hm)
    exact ⟨ns, hns, hscript.symm⟩
  · intro id m hm i ns hi
    exact hreg.count_methods hhousing hm hi
  · intro i ns hi id hmem
    obtain ⟨m, hm, -⟩ := hreg.owned i ns hi id hmem
    exact ⟨m, hm⟩
  · intro i j ns ns' _ hi hj hscript hname hname'
    have hplace : ns.place = ns'.place := by simp only [Namespace.place, hscript, hname, hname']
    exact eq_of_pairwise hplaces hi hj (fun hne => hne hplace) fun hne => hne hplace.symm
  · intro i j ns ns' tag _ hi hj hscript hname hname'
    have hplace : ns.place = ns'.place := by simp only [Namespace.place, hscript, hname, hname']
    exact eq_of_pairwise hplaces hi hj (fun hne => hne hplace) fun hne => hne hplace.symm
  · intro i j ns ns' tag hi hj hname hname'
    have htag : ns.tag? = some tag := by simp only [Namespace.tag?, hname]
    have htag' : ns'.tag? = some tag := by simp only [Namespace.tag?, hname']
    exact eq_of_pairwise htags hi hj (fun hne => hne tag htag tag htag' rfl)
      fun hne => hne tag htag' tag htag rfl
  · rw [hlayout.scripts]
    exact nodup_eraseDups _
  · intro id m hm
    exact hreg.findMethod?_referenceOf hm

/-! ## Offered declarations -/

/-- The program after a declaration was offered to it, and the position of the method unless the
signature was taken. -/
def offer (d : SignatureHash.Digest) (p : Program) (owner : NamespaceId) (decl : Declaration) :
    Program × Option MethodId :=
  match p.addMethodWith d owner decl with
  | some (q, id) => (q, some id)
  | none => (p, none)

theorem Reachable.offer (h : p.Reachable d) (howner : owner < p.namespaces.length)
    (decl : Declaration) : (p.offer d owner decl).1.Reachable d := by
  unfold Program.offer
  cases hadd : p.addMethodWith d owner decl with
  | none => exact h
  | some => exact .addMethod h howner hadd

theorem length_namespaces_offer (d : SignatureHash.Digest) (p : Program) (owner : NamespaceId)
    (decl : Declaration) : (p.offer d owner decl).1.namespaces.length = p.namespaces.length := by
  unfold Program.offer
  cases hadd : p.addMethodWith d owner decl with
  | none => rfl
  | some result =>
    obtain ⟨_, _⟩ := result
    obtain ⟨_, rfl, -⟩ := addMethodWith_ok hadd
    exact length_modify ..

/-- Offering declarations to namespaces of a program leads to one that arises like it. -/
theorem Reachable.foldl_offer (h : p.Reachable d) {offers : List (NamespaceId × Declaration)}
    (howner : ∀ offered ∈ offers, offered.1 < p.namespaces.length) :
    (offers.foldl (fun p offered => (p.offer d offered.1 offered.2).1) p).Reachable d := by
  refine (List.foldlRecOn (motive := fun q : Program =>
    q.Reachable d ∧ q.namespaces.length = p.namespaces.length) offers _ ⟨h, rfl⟩ ?_).1
  rintro q ⟨hq, hlen⟩ offered hoffered
  refine ⟨hq.offer ?_ offered.2, ?_⟩
  · rw [hlen]
    exact howner offered hoffered
  · rw [length_namespaces_offer, hlen]

/-- Whether a scan over all methods finds one of this namespace path, name and parameter types. -/
def Declares (p : Program) (path : List String) (name : DottedName) (types : Types) : Prop :=
  ∃ m ∈ p.methods, ∃ ns, p.namespaceAt? m.owner = some ns ∧ ns.name.segments = path ∧
    m.name = name ∧ m.parameterTypes = types

/-- The index leads to a signature exactly if the scan finds it. -/
theorem Registered.isDeclared_iff_declares (hp : p.Registered d)
    (howner : p.namespaceAt? owner = some ns) (name : DottedName) (types : Types) :
    p.isDeclared (SignatureHash.ofMethod d (p.pathHash d owner) name.segments types)
        (p.pathOf owner) name types = true ↔ p.Declares ns.name.segments name types := by
  rw [hp.isDeclared_iff, pathOf_eq howner]
  constructor
  · rintro ⟨id, m, hm, hsame⟩
    obtain ⟨ns', hns', -⟩ := hp.listed id m hm
    simp only [referenceOf, pathOf_eq hns', Reference.mk.injEq] at hsame
    obtain ⟨hsegments, hname, htypes⟩ := hsame
    exact ⟨m, mem_of_getElem? hm, ns', hns', hsegments, congrArg DottedName.mk hname, htypes⟩
  · rintro ⟨m, hmem, ns', hns', hsegments, rfl, rfl⟩
    obtain ⟨id, hm⟩ := getElem?_of_mem hmem
    refine ⟨id, m, hm, ?_⟩
    rw [referenceOf, pathOf_eq hns', hsegments]

theorem declares_congr (hspaces : q.namespaces = p.namespaces) (hmethods : q.methods = p.methods)
    (path : List String) (name : DottedName) (types : Types) :
    q.Declares path name types ↔ p.Declares path name types := by
  unfold Declares namespaceAt?
  rw [hspaces, hmethods]

variable {decl : Declaration}

theorem Registered.offer_of_declares (hp : p.Registered d) (howner : p.namespaceAt? owner = some ns)
    (hfound : p.Declares ns.name.segments decl.name (decl.parameters.map (·.type))) :
    p.offer d owner decl = (p, none) := by
  unfold Program.offer
  rw [addMethodWith_eq, if_pos ((hp.isDeclared_iff_declares howner _ _).2 hfound)]

theorem Registered.offer_of_not_declares (hp : p.Registered d)
    (howner : p.namespaceAt? owner = some ns)
    (hfree : ¬ p.Declares ns.name.segments decl.name (decl.parameters.map (·.type))) :
    p.offer d owner decl =
      (p.insertMethod d (decl.method p.methods.length owner ns.script), some p.methods.length) := by
  unfold Program.offer
  rw [addMethodWith_eq, if_neg (mt (hp.isDeclared_iff_declares howner _ _).1 hfree), howner]
  rfl

/-- A declaration is refused exactly if a scan over all methods finds one with its namespace path,
name and parameter types, whatever the digest is. A program that refuses is left as it was, and one
that takes the declaration gets one method, one entry in the list of the namespace and one entry of
the index. A program with the same namespaces and methods answers alike if it was built with another
digest. -/
theorem offer_decides_as_scan (h : p.Reachable d) {owner : NamespaceId} {ns : Namespace}
    (howner : p.namespaceAt? owner = some ns) (decl : Declaration) :
    ((p.offer d owner decl).2 = none ↔
        p.Declares ns.name.segments decl.name (decl.parameters.map (·.type))) ∧
      ((p.offer d owner decl).2 = none → (p.offer d owner decl).1 = p) ∧
      (∀ id, (p.offer d owner decl).2 = some id → id = p.methods.length ∧
        (p.offer d owner decl).1 = p.insertMethod d (decl.method id owner ns.script)) ∧
      ∀ d' q, Reachable d' q → q.namespaces = p.namespaces → q.methods = p.methods →
        (q.offer d' owner decl).2 = (p.offer d owner decl).2 := by
  have howner' : ∀ {q : Program}, q.namespaces = p.namespaces → q.namespaceAt? owner = some ns :=
    fun hspaces => (congrArg (fun l : List Namespace => l[owner]?) hspaces).trans howner
  by_cases hscan : p.Declares ns.name.segments decl.name (decl.parameters.map (·.type))
  · rw [h.registered.offer_of_declares howner hscan]
    refine ⟨iff_of_true rfl hscan, fun _ => rfl, nofun, ?_⟩
    intro d' q hq hspaces hmethods
    have hscan' := (declares_congr hspaces hmethods _ _ _).2 hscan
    rw [hq.registered.offer_of_declares (howner' hspaces) hscan']
  · rw [h.registered.offer_of_not_declares howner hscan]
    refine ⟨iff_of_false nofun hscan, nofun, ?_, ?_⟩
    · rintro _ ⟨⟩
      exact ⟨rfl, rfl⟩
    · intro d' q hq hspaces hmethods
      have hscan' := mt (declares_congr hspaces hmethods _ _ _).1 hscan
      rw [hq.registered.offer_of_not_declares (howner' hspaces) hscan', hmethods]

end Program

namespace Sample

/-- A declaration without parameters and result. -/
def plain (name : String) : Program.Declaration := ⟨⟨[name]⟩, .void, [], false, .unknown⟩

/-- A program with the namespace `__implicit0`, which has a field, and with the one of the methods
that another script declares outside any namespace, which has the same path. -/
def rivals : Program :=
  (((Program.empty.addNamespace ⟨["__implicit0"]⟩ 0).1.addField 0 ⟨"count", .i32⟩).implicitNamespace
    1).1

/-- What is offered to `rivals`: `F` to one namespace, and `F` and `G` to the other one. -/
def offers : List (NamespaceId × Program.Declaration) :=
  [(0, plain "F"), (1, plain "F"), (1, plain "G")]

/-- `rivals` after the offers. -/
def occupied (d : SignatureHash.Digest) : Program :=
  offers.foldl (fun p offered => (p.offer d offered.1 offered.2).1) rivals

theorem reachable_occupied (d : SignatureHash.Digest) : (occupied d).Reachable d := by
  have hrivals : rivals.Reachable d :=
    .implicitNamespace 1 (.addField 0 _ (.addNamespace ⟨["__implicit0"]⟩ 0 .empty))
  exact hrivals.foldl_offer (by decide)

/-- A digest that tells nothing apart. -/
def blind : SignatureHash.Digest := fun _ => 0

end Sample

/-- Two namespaces have the path `__implicit0`. `F` of one of them keeps the other `F` out, and both
methods are found by their references. -/
theorem occupied_coherent : (Sample.occupied SignatureHash.digest).Coherent ∧
      (Sample.occupied SignatureHash.digest).namespaces.map (·.name.segments) =
        [["__implicit0"], ["__implicit0"]] ∧
      (Sample.occupied SignatureHash.digest).methods.map (fun m => (m.name.segments, m.owner)) =
        [(["F"], 0), (["G"], 1)] := by
  have hcoherent := Program.reachable_coherent (Sample.reachable_occupied SignatureHash.digest)
  exact ⟨hcoherent, by decide +kernel, by decide +kernel⟩

/-- Where all methods have one hash, `F` is still refused and `H` is still taken. -/
theorem blind_offers_decided : (Sample.occupied Sample.blind).Reachable Sample.blind ∧
      ((Sample.occupied Sample.blind).index.map (·.1)).eraseDups.length = 1 ∧
      ∃ ns, (Sample.occupied Sample.blind).namespaceAt? 1 = some ns ∧
        (Sample.occupied Sample.blind).Declares ns.name.segments ⟨["F"]⟩ [] ∧
        ((Sample.occupied Sample.blind).offer Sample.blind 1 (Sample.plain "F")).1 =
          Sample.occupied Sample.blind ∧
        ¬ (Sample.occupied Sample.blind).Declares ns.name.segments ⟨["H"]⟩ [] ∧
        ((Sample.occupied Sample.blind).offer Sample.blind 1 (Sample.plain "H")).1 =
          (Sample.occupied Sample.blind).insertMethod Sample.blind
            ((Sample.plain "H").method 2 1 ns.script) := by
  have hreachable := Sample.reachable_occupied Sample.blind
  have hsome : ((Sample.occupied Sample.blind).namespaceAt? 1).isSome = true := by decide +kernel
  obtain ⟨ns, hns⟩ := Option.isSome_iff_exists.1 hsome
  obtain ⟨hiff, hkept, -⟩ := Program.offer_decides_as_scan hreachable hns (Sample.plain "F")
  obtain ⟨hiff', -, htaken, -⟩ := Program.offer_decides_as_scan hreachable hns (Sample.plain "H")
  have hF : ((Sample.occupied Sample.blind).offer Sample.blind 1 (Sample.plain "F")).2 = none := by
    decide +kernel
  have hH : ((Sample.occupied Sample.blind).offer Sample.blind 1 (Sample.plain "H")).2 = some 2 := by
    decide +kernel
  refine ⟨hreachable, by decide +kernel, ns, hns, hiff.1 hF, hkept hF, ?_, (htaken 2 hH).2⟩
  intro hdeclares
  have hnone := hiff'.2 hdeclares
  rw [hH] at hnone
  cases hnone

end ScriptCompiler
