import Mathlib.Data.List.Induction
import Mathlib.Data.List.Nodup
import ScriptCompiler.Proofs.Declaration
import ScriptCompiler.Proofs.Findings
import ScriptCompiler.Proofs.Registration

/-!
# What the scripts declare

An *entry* is a method together with the place where a script declares it: a namespace that it
names, or outside any. The declared program is a function of the places and entries of all scripts
in their order (`Evaluation.declare_tracks`): each entry is a method unless its parameters have a
fault or an entry before it has its reference.
-/

set_option autoImplicit false

namespace ScriptCompiler

open List Option

/-- Where a script declares methods: in the namespace with a path, or outside any. -/
structure Place where
  script : ScriptId
  group : Option DottedName
  deriving DecidableEq

/-- A method and the place of its declaration. -/
structure Entry where
  place : Place
  decl : MethodDecl

/-- The method that a member declares. -/
def Member.method? : Member → Option MethodDecl
  | .method m => some m
  | .field .. => none

/-- The place of an item of a script. -/
def Item.places (script : ScriptId) : Item → List Place
  | .group name _ _ => [⟨script, some name⟩]
  | .method _ => [⟨script, none⟩]
  | .statement _ => []

/-- The methods that an item of a script declares. -/
def Item.entries (script : ScriptId) : Item → List Entry
  | .group name members _ => (members.filterMap Member.method?).map (⟨⟨script, some name⟩, ·⟩)
  | .method m => [⟨⟨script, none⟩, m⟩]
  | .statement _ => []

/-- The places of a script. -/
def SourceFile.places (f : SourceFile) : List Place := f.items.flatMap (Item.places f.script)

/-- The methods that a script declares. -/
def SourceFile.entries (f : SourceFile) : List Entry := f.items.flatMap (Item.entries f.script)

/-- The places of all scripts, each one once. -/
def placesOf (files : List SourceFile) : List Place :=
  (files.flatMap SourceFile.places).eraseDups

/-- The methods that all scripts declare. -/
def entriesOf (files : List SourceFile) : List Entry := files.flatMap SourceFile.entries

/-! ## Names and references -/

namespace Place

/-- Whether the place is outside any namespace. -/
def isLoose (pl : Place) : Bool := pl.group.isNone

/-- The name of the namespace of a place; one outside any namespace is known by a tag. -/
def named (pl : Place) (tag : Nat) : NamespaceName :=
  match pl.group with
  | some path => .explicit path
  | none => .implicit tag

/-- The name of the namespace of one of some places: those outside any namespace are counted. -/
def name (places : List Place) (pl : Place) : NamespaceName :=
  pl.named ((places.filter isLoose).idxOf pl)

end Place

/-- The reference of the method of an entry. -/
def Entry.reference (places : List Place) (e : Entry) : Reference :=
  ⟨(e.place.name places).segments, e.decl.name.segments, e.decl.parameters.map (·.type)⟩

/-- Why an entry cannot stand beside those that are kept. -/
def Entry.fault? (places : List Place) (kept : List Entry) (e : Entry) : Option EvaluationError :=
  match Evaluation.parameterFault? e.decl.parameters with
  | some fault => some fault
  | none =>
    if e.reference places ∈ kept.map (Entry.reference places) then
      some (.invalidMethodOverloading (e.place.name places).text
        (Evaluation.declaredSignature e.decl) e.decl.span)
    else none

theorem Entry.fault?_eq_none_iff {places : List Place} {kept : List Entry} {e : Entry} :
    e.fault? places kept = none ↔ Evaluation.parameterFault? e.decl.parameters = none ∧
        e.reference places ∉ kept.map (Entry.reference places) := by
  unfold Entry.fault?
  cases Evaluation.parameterFault? e.decl.parameters <;> simp

/-- The entries that stand, and what is reported about the others. -/
structure Registry where
  kept : List Entry := []
  refused : List Findings := []

/-- Keeps one more entry, or refuses it. -/
def Registry.add (places : List Place) (r : Registry) (e : Entry) : Registry :=
  match e.fault? places r.kept with
  | some fault => { r with refused := r.refused ++ [⟨e.place.script, [fault], []⟩] }
  | none => { r with kept := r.kept ++ [e] }

/-- The entries that stand among all entries, and what is reported about the others. -/
def registry (places : List Place) (entries : List Entry) : Registry :=
  entries.foldl (Registry.add places) {}

/-- The entries that become the methods of a program, in their order. -/
def standing (files : List SourceFile) : List Entry :=
  (registry (placesOf files) (entriesOf files)).kept

/-- The method of an entry, before any pass works on it. -/
def Entry.method (places : List Place) (external : ScriptId → Bool) (id : MethodId) (e : Entry) :
    Method where
  id := id
  owner := places.idxOf e.place
  script := e.place.script
  name := e.decl.name
  returnType := e.decl.returnType
  parameters := e.decl.parameters.map fun p => ⟨p.name, p.type⟩
  external := external e.place.script
  span := e.decl.span
  statements := if external e.place.script then [] else Stmt.foldAll .double e.decl.body

/-- The positions of the entries that satisfy a test. -/
def positions (kept : List Entry) (test : Entry → Bool) : List MethodId :=
  (kept.zipIdx.filter fun e => test e.1).map (·.2)

/-- The positions of the entries of a place. -/
def Place.members (kept : List Entry) (pl : Place) : List MethodId :=
  positions kept fun e => e.place = pl

/-- A namespace without its fields. -/
def Namespace.heading (ns : Namespace) : Namespace := { ns with fields := [] }

/-- The namespace of a place. -/
def Place.heading (places : List Place) (kept : List Entry) (id : NamespaceId) (pl : Place) :
    Namespace where
  id := id
  name := pl.name places
  script := pl.script
  methods := pl.members kept

/-- The place of a namespace. -/
def Namespace.place (ns : Namespace) : Place where
  script := ns.script
  group :=
    match ns.name with
    | .explicit path => some path
    | .implicit _ => none

variable {entries : List Entry} (places : List Place) (kept : List Entry)

theorem Place.place_heading (id : NamespaceId) (pl : Place) :
    (pl.heading places kept id).place = pl := by
  obtain ⟨_, group⟩ := pl
  cases group <;> rfl

/-! ## More places and entries -/

theorem eraseDups_concat {α : Type} [DecidableEq α] (l : List α) (a : α) :
    (l ++ [a]).eraseDups = if a ∈ l then l.eraseDups else l.eraseDups ++ [a] := by
  rw [eraseDups_append]
  by_cases h : a ∈ l
  · simp [h, List.removeAll]
  · simp [h, List.removeAll, eraseDups_cons]

namespace Place

variable {places : List Place}

theorem name_concat {pl : Place} (h : pl ∈ places) (other : Place) :
    pl.name (places ++ [other]) = pl.name places := by
  obtain ⟨script, group⟩ := pl
  cases group with
  | some => rfl
  | none =>
    have hmem : (⟨script, none⟩ : Place) ∈ places.filter isLoose :=
      mem_filter.2 ⟨h, rfl⟩
    unfold name
    rw [filter_append, idxOf_append, if_pos hmem]

/-- A new place outside any namespace takes the next tag. -/
theorem name_fresh {pl : Place} (h : pl ∉ places) :
    pl.name (places ++ [pl]) = pl.named (places.filter isLoose).length := by
  obtain ⟨script, group⟩ := pl
  cases group with
  | some => rfl
  | none =>
    have hnot : (⟨script, none⟩ : Place) ∉ places.filter isLoose :=
      fun hmem => h (mem_filter.1 hmem).1
    have hone : [(⟨script, none⟩ : Place)].filter isLoose = [⟨script, none⟩] := rfl
    unfold name
    rw [filter_append, hone, idxOf_append, if_neg hnot, idxOf_cons_self, Nat.zero_add]

end Place

/-! ## More entries -/

theorem Registry.kept_add (r : Registry) (e : Entry) : (r.add places e).kept =
      if e.fault? places r.kept = none then r.kept ++ [e] else r.kept := by
  unfold Registry.add
  cases e.fault? places r.kept <;> rfl

theorem registry_concat (entries : List Entry) (e : Entry) :
    registry places (entries ++ [e]) = (registry places entries).add places e := by
  unfold registry
  rw [foldl_append, foldl_cons, foldl_nil]

theorem kept_sublist (entries : List Entry) : (registry places entries).kept.Sublist entries := by
  induction entries using List.reverseRecOn with
  | nil => exact .slnil
  | append_singleton entries e ih =>
    rw [registry_concat, Registry.kept_add]
    split
    · exact ih.append (.refl [e])
    · exact ih.trans (sublist_append_left entries [e])

theorem parameterFault?_of_mem_kept {places : List Place} {e : Entry}
    (he : e ∈ (registry places entries).kept) :
    Evaluation.parameterFault? e.decl.parameters = none := by
  induction entries using List.reverseRecOn with
  | nil => cases he
  | append_singleton entries last ih =>
    rw [registry_concat, Registry.kept_add] at he
    split at he
    · rename_i hfault
      rcases mem_append.1 he with he | he
      · exact ih he
      · rw [mem_singleton.1 he]
        exact (Entry.fault?_eq_none_iff.1 hfault).1
    · exact ih he

/-- What is kept depends on the names of the places of the entries alone. -/
theorem registry_congr {places places' : List Place}
    (h : ∀ e ∈ entries, e.place.name places' = e.place.name places) :
    registry places' entries = registry places entries := by
  have href : ∀ e ∈ entries, e.reference places' = e.reference places := by
    intro e he
    rw [Entry.reference, h e he, Entry.reference]
  induction entries using List.reverseRecOn with
  | nil => rfl
  | append_singleton entries e ih =>
    have hlast : e ∈ entries ++ [e] := by simp
    have hsame := ih (fun a ha => h a (mem_append_left _ ha)) fun a ha =>
      href a (mem_append_left _ ha)
    have hkept : (registry places entries).kept.map (Entry.reference places') =
        (registry places entries).kept.map (Entry.reference places) := by
      apply map_congr_left
      intro a ha
      exact href a (mem_append_left _ ((kept_sublist places entries).subset ha))
    rw [registry_concat, registry_concat, hsame]
    unfold Registry.add Entry.fault?
    rw [hkept, href e hlast, h e hlast]

theorem Place.members_concat (e : Entry) (pl : Place) : pl.members (kept ++ [e]) =
      if e.place = pl then pl.members kept ++ [kept.length] else pl.members kept := by
  unfold Place.members positions
  rw [zipIdx_append, filter_append, map_append]
  by_cases h : e.place = pl
  · simp [h]
  · simp [h]

/-! ## Entering places -/

/-- The namespace of a place, added if there is none. -/
def Program.enter (p : Program) (pl : Place) : Program × NamespaceId :=
  match pl.group with
  | some path => p.addNamespace path pl.script
  | none => p.implicitNamespace pl.script

/-- Both kinds of namespaces are looked up by their place, and a new one takes the next tag. -/
theorem Program.enter_eq (p : Program) (pl : Place) : p.enter pl =
      match p.namespaces.find? fun ns => ns.place == pl with
      | some ns => (p, ns.id)
      | none =>
        ({ p with nextImplicit := if pl.isLoose then p.nextImplicit + 1 else p.nextImplicit
          } : Program).pushNamespace (pl.named p.nextImplicit) pl.script := by
  obtain ⟨script, group⟩ := pl
  have hsame : ∀ ns : Namespace, (ns.place == ⟨script, group⟩) =
      (ns.script == script && ns.place.group == group) := by
    intro ns
    rw [Bool.eq_iff_iff]
    simp [Namespace.place, Place.mk.injEq]
  cases group with
  | some path =>
    have hfind : (fun ns : Namespace => ns.place == ⟨script, some path⟩) =
        fun ns => ns.script == script && ns.name == .explicit path := by
      funext ns
      rw [hsame]
      congr 1
      rw [Bool.eq_iff_iff]
      cases hname : ns.name <;> simp [Namespace.place, hname]
    rw [hfind]
    rfl
  | none =>
    have hfind : (fun ns : Namespace => ns.place == ⟨script, none⟩) = isImplicitOf script := by
      funext ns
      rw [hsame, isImplicitOf]
      congr 1
      cases hname : ns.name <;> simp [Namespace.place, hname]
    rw [hfind]
    rfl

/-- The program that the scripts declare, with its bodies as they are written. -/
abbrev declared (scripts : ScriptTable) (files : List SourceFile) : Evaluation :=
  ({ scripts } : Evaluation).declare files

namespace Evaluation

/-- Whether an evaluation has declared the entries at the places, and nothing else. -/
structure Tracks (scripts : ScriptTable) (places : List Place) (entries : List Entry)
    (s : Evaluation) : Prop where
  reached : s.Reached
  nodup : places.Nodup
  placed : ∀ e ∈ entries, e.place ∈ places
  headings : s.program.namespaces.map Namespace.heading =
    places.mapIdx (Place.heading places (registry places entries).kept)
  tags : s.program.nextImplicit = (places.filter Place.isLoose).length
  methods : s.program.methods =
    (registry places entries).kept.mapIdx (Entry.method places scripts.isHeader)
  scripts : s.scripts = (registry places entries).refused.foldl ScriptTable.record scripts

theorem modify_length_concat {α : Type} (l : List α) (a : α) (f : α → α) :
    (l ++ [a]).modify l.length f = l ++ [f a] := by
  induction l with
  | nil => rfl
  | cons _ _ ih => rw [cons_append, length_cons, modify_succ_cons, ih, cons_append]

section

variable {scripts : ScriptTable} {places : List Place} {entries : List Entry} {s : Evaluation}

theorem Tracks.heading_namespaceAt? (h : Tracks scripts places entries s) (i : NamespaceId) :
    (s.program.namespaceAt? i).map Namespace.heading =
      places[i]?.map (Place.heading places (registry places entries).kept i) := by
  have hi := congrArg (fun l : List Namespace => l[i]?) h.headings
  simpa only [Program.namespaceAt?, getElem?_map, getElem?_mapIdx] using hi

variable {i : NamespaceId} {pl : Place} {e : Entry}

theorem Tracks.namespaceAt? (h : Tracks scripts places entries s) (hi : places[i]? = some pl) :
    ∃ ns, s.program.namespaceAt? i = some ns ∧ ns.name = pl.name places ∧ ns.script = pl.script ∧
      ns.methods = pl.members (registry places entries).kept ∧ ns.place = pl := by
  have hheading := h.heading_namespaceAt? i
  rw [hi, map_some] at hheading
  obtain ⟨ns, hns, hsame⟩ := map_eq_some_iff.1 hheading
  have hplace : ns.heading.place = pl := by rw [hsame, Place.place_heading]
  exact ⟨ns, hns, congrArg Namespace.name hsame, congrArg Namespace.script hsame,
    congrArg Namespace.methods hsame, hplace⟩

theorem Tracks.place_of_namespaceAt? (h : Tracks scripts places entries s) {ns : Namespace}
    (hi : s.program.namespaceAt? i = some ns) : places[i]? = some ns.place := by
  have hheading := h.heading_namespaceAt? i
  rw [hi, map_some] at hheading
  obtain ⟨pl, hpl, hsame⟩ := map_eq_some_iff.1 hheading.symm
  have hplace : ns.heading.place = pl := by rw [← hsame, Place.place_heading]
  rw [hpl, ← hplace]
  rfl

theorem getElem?_idxOf_place (h : pl ∈ places) : places[places.idxOf pl]? = some pl := by
  have hlt := idxOf_lt_length_of_mem h
  rw [getElem?_eq_getElem hlt, getElem_idxOf hlt]

section

variable (h : Tracks scripts places entries s)
include h

theorem Tracks.idxOf (hi : places[i]? = some pl) : places.idxOf pl = i := by
  obtain ⟨hlt, rfl⟩ := List.getElem?_eq_some_iff.1 hi
  exact h.nodup.idxOf_getElem i hlt

theorem Tracks.find?_place (hpl : pl ∈ places) :
    ∃ ns, s.program.namespaces.find? (fun ns => ns.place == pl) = some ns ∧
      ns.id = places.idxOf pl := by
  obtain ⟨ns, hns, -, -, -, hplace⟩ := h.namespaceAt? (getElem?_idxOf_place hpl)
  have hsome : (s.program.namespaces.find? fun ns => ns.place == pl).isSome = true :=
    find?_isSome.2 ⟨ns, mem_of_getElem? hns, by simp [hplace]⟩
  obtain ⟨ns', hns'⟩ := isSome_iff_exists.1 hsome
  obtain ⟨i, hi⟩ := getElem?_of_mem (mem_of_find?_eq_some hns')
  have hpl' : ns'.place = pl := by simpa using find?_some hns'
  refine ⟨ns', hns', ?_⟩
  rw [h.reached.registered.position i ns' hi]
  exact (h.idxOf (hpl' ▸ h.place_of_namespaceAt? hi)).symm

theorem Tracks.find?_eq_none (hpl : pl ∉ places) :
    s.program.namespaces.find? (fun ns => ns.place == pl) = none := by
  rw [List.find?_eq_none]
  intro ns hns hsame
  obtain ⟨_, hi⟩ := getElem?_of_mem hns
  have hplace : ns.place = pl := by simpa using hsame
  rw [← hplace] at hpl
  exact hpl (mem_of_getElem? (h.place_of_namespaceAt? hi))

theorem Tracks.members_fresh (hpl : pl ∉ places) :
    pl.members (registry places entries).kept = [] := by
  unfold Place.members positions
  rw [map_eq_nil_iff, filter_eq_nil_iff]
  intro e he hplace
  have hkept := (kept_sublist places entries).subset
    (mem_of_getElem? (mem_zipIdx_iff_getElem?.1 he))
  have hmem := h.placed e.1 hkept
  rw [of_decide_eq_true hplace] at hmem
  exact hpl hmem

theorem Tracks.headings_concat (pl : Place) :
    (places ++ [pl]).mapIdx (Place.heading (places ++ [pl]) (registry places entries).kept) =
      s.program.namespaces.map Namespace.heading ++
        [pl.heading (places ++ [pl]) (registry places entries).kept places.length] := by
  have hold : places.mapIdx (Place.heading (places ++ [pl]) (registry places entries).kept) =
      places.mapIdx (Place.heading places (registry places entries).kept) := by
    rw [mapIdx_eq_mapIdx_iff]
    intro _ hi
    simp only [Place.heading, Place.name_concat (getElem_mem hi) pl]
  rw [mapIdx_concat, hold, h.headings]

theorem Tracks.methods_concat (pl : Place) :
    (registry places entries).kept.mapIdx (Entry.method (places ++ [pl]) scripts.isHeader) =
      s.program.methods := by
  rw [h.methods, mapIdx_eq_mapIdx_iff]
  intro _ hi
  have hmem := h.placed _ ((kept_sublist places entries).subset (getElem_mem hi))
  simp only [Entry.method, idxOf_append, if_pos hmem]

/-- Entering a place adds it to the places, unless it is one of them. -/
theorem Tracks.enter (pl : Place) :
    Tracks scripts (if pl ∈ places then places else places ++ [pl]) entries
        { s with program := (s.program.enter pl).1 } ∧
      (s.program.enter pl).2 = (if pl ∈ places then places else places ++ [pl]).idxOf pl := by
  have hreached : (s.program.enter pl).1.Reachable SignatureHash.digest := by
    unfold Program.enter
    cases pl.group with
    | some path => exact .addNamespace path pl.script h.reached
    | none => exact .implicitNamespace pl.script h.reached
  by_cases hpl : pl ∈ places
  · obtain ⟨ns, hfind, hid⟩ := h.find?_place hpl
    have henter : s.program.enter pl = (s.program, ns.id) := by rw [Program.enter_eq, hfind]
    rw [if_pos hpl, henter]
    exact ⟨h, hid⟩
  · have hfind := h.find?_eq_none hpl
    have hsame : registry (places ++ [pl]) entries = registry places entries :=
      registry_congr fun e he => Place.name_concat (h.placed e he) pl
    have hlen : s.program.namespaces.length = places.length := by
      have hlengths := congrArg List.length h.headings
      simpa using hlengths
    rw [Program.enter_eq, hfind] at hreached ⊢
    rw [if_neg hpl]
    refine ⟨⟨hreached, ?_, ?_, ?_, ?_, ?_, ?_⟩, ?_⟩
    · rw [← concat_eq_append]
      exact h.nodup.concat hpl
    · exact fun e he => mem_append_left _ (h.placed e he)
    · rw [hsame, h.headings_concat]
      simp only [Program.pushNamespace, map_append, map_cons, map_nil,
        Place.heading, Place.name_fresh hpl, h.members_fresh hpl, h.tags, hlen,
        Namespace.heading]
    · rw [filter_append, length_append, ← h.tags]
      by_cases hloose : pl.isLoose
      · simp [hloose, Program.pushNamespace]
      · simp [hloose, Program.pushNamespace]
    · rw [hsame, h.methods_concat]
      rfl
    · rw [hsame]
      exact h.scripts
    · rw [idxOf_append, if_neg hpl]
      simp [Program.pushNamespace, hlen]

/-! ## Declaring methods -/

theorem Tracks.pathOf (hpl : pl ∈ places) :
    s.program.pathOf (places.idxOf pl) = (pl.name places).segments := by
  obtain ⟨_, hns, hname, -⟩ := h.namespaceAt? (getElem?_idxOf_place hpl)
  rw [Program.pathOf_eq hns, hname]

theorem Tracks.referenceOf_method (hplace : e.place ∈ places) (id : MethodId) :
    s.program.referenceOf (e.method places scripts.isHeader id) = e.reference places := by
  simp only [Program.referenceOf, Entry.method, h.pathOf hplace, Entry.reference,
    Method.parameterTypes, List.map_map, Function.comp_def]

/-- A reference is taken exactly if an entry that is kept has it. -/
theorem Tracks.isDeclared_iff (hplace : e.place ∈ places) : s.program.isDeclared
        (SignatureHash.ofMethod SignatureHash.digest
          (s.program.pathHash SignatureHash.digest (places.idxOf e.place)) e.decl.name.segments
          (e.decl.parameters.map (·.type)))
        (s.program.pathOf (places.idxOf e.place)) e.decl.name (e.decl.parameters.map (·.type)) = true ↔
      e.reference places ∈ (registry places entries).kept.map (Entry.reference places) := by
  rw [h.reached.registered.isDeclared_iff, h.pathOf hplace, List.mem_map]
  have hkept : ∀ a ∈ (registry places entries).kept, a.place ∈ places := fun a ha =>
    h.placed a ((kept_sublist places entries).subset ha)
  constructor
  · rintro ⟨id, m, hm, hsame⟩
    rw [Program.methodAt?, h.methods, getElem?_mapIdx] at hm
    obtain ⟨a, ha, rfl⟩ := map_eq_some_iff.1 hm
    have hmem := mem_of_getElem? ha
    rw [h.referenceOf_method (hkept a hmem)] at hsame
    exact ⟨a, hmem, hsame⟩
  · rintro ⟨a, ha, hsame⟩
    obtain ⟨id, hid⟩ := getElem?_of_mem ha
    refine ⟨id, a.method places scripts.isHeader id, ?_, ?_⟩
    · rw [Program.methodAt?, h.methods, getElem?_mapIdx, hid, map_some]
    · rw [h.referenceOf_method (hkept a ha), hsame]
      rfl

/-- An entry whose reference is taken is not added, and one with a free reference is inserted, without
its body. -/
theorem Tracks.addMethod {e : Entry} (hplace : e.place ∈ places) (external : Bool) :
    s.program.addMethod (places.idxOf e.place)
        { name := e.decl.name
          returnType := e.decl.returnType
          parameters := e.decl.parameters.map fun p => ⟨p.name, p.type⟩
          external
          span := e.decl.span } =
      if e.reference places ∈ (registry places entries).kept.map (Entry.reference places) then none
      else
        some (s.program.insertMethod SignatureHash.digest
          { e.method places (fun _ => external) s.program.methods.length with statements := [] },
          s.program.methods.length) := by
  obtain ⟨_, hns, -, hscript, -⟩ := h.namespaceAt? (getElem?_idxOf_place hplace)
  rw [Program.addMethod, Program.addMethodWith_eq]
  simp only [List.map_map, Function.comp_def, hns, map_some, getD_some, hscript,
    h.isDeclared_iff hplace]
  rfl

section

variable (hplace : e.place ∈ places)
include hplace

theorem Tracks.declareMethod_of_fault {fault : EvaluationError}
    (hfault : e.fault? places (registry places entries).kept = some fault) (external : Bool) :
    s.declareMethod external (places.idxOf e.place) e.decl = s.report e.place.script fault := by
  obtain ⟨_, hns, -, hscript, -⟩ := h.namespaceAt? (getElem?_idxOf_place hplace)
  unfold Entry.fault? at hfault
  unfold Evaluation.declareMethod
  simp only [hns, map_some, getD_some, hscript, h.addMethod hplace, h.pathOf hplace]
  cases hparams : parameterFault? e.decl.parameters with
  | some =>
    rw [hparams] at hfault
    rw [← some.inj hfault]
  | none =>
    rw [hparams] at hfault
    by_cases htaken : e.reference places ∈ (registry places entries).kept.map (Entry.reference places)
    · rw [← some.inj ((if_pos htaken).symm.trans hfault), if_pos htaken]
      rfl
    · exact absurd ((if_neg htaken).symm.trans hfault) (by simp)

theorem Tracks.declareMethod_of_sound
    (hfault : e.fault? places (registry places entries).kept = none) :
    s.declareMethod (scripts.isHeader e.place.script) (places.idxOf e.place) e.decl =
      { s with
        program := s.program.insertMethod SignatureHash.digest
          (e.method places scripts.isHeader s.program.methods.length) } := by
  obtain ⟨hparams, hfree⟩ := Entry.fault?_eq_none_iff.1 hfault
  unfold Evaluation.declareMethod Entry.method
  simp only [hparams, h.addMethod hplace, if_neg hfree]
  cases scripts.isHeader e.place.script with
  | true => rfl
  | false =>
    -- the body goes to the last method
    simp only [Bool.false_eq_true, if_false, Program.updateMethod, Program.insertMethod,
      modify_length_concat]
    rfl

/-- The namespace of the place gets the new method as its last member. -/
theorem Tracks.headings_modify : (s.program.namespaces.modify (places.idxOf e.place) fun ns =>
        { ns with methods := ns.methods ++ [s.program.methods.length] }).map Namespace.heading =
      places.mapIdx (Place.heading places ((registry places entries).kept ++ [e])) := by
  have hlen : s.program.methods.length = (registry places entries).kept.length := by
    rw [h.methods, length_mapIdx]
  apply ext_getElem?
  intro i
  have hi := h.heading_namespaceAt? i
  simp only [Program.namespaceAt?] at hi
  simp only [getElem?_map, getElem?_modify, getElem?_mapIdx, Option.map_eq_map, Option.map_map]
  cases hpl : places[i]? with
  | none =>
    rw [hpl, map_none, map_eq_none_iff] at hi
    rw [hi]
    rfl
  | some pl =>
    rw [hpl, map_some] at hi
    obtain ⟨ns, hns, hsame⟩ := map_eq_some_iff.1 hi
    rw [hns, map_some, map_some, Option.some.injEq, Place.heading, Place.members_concat]
    dsimp only [Function.comp]
    -- the position is that of the place, so no other namespace changes
    by_cases hown : e.place = pl
    · have hid : places.idxOf e.place = i := by
        rw [hown]
        exact h.idxOf hpl
      have hmore : Namespace.heading { ns with
          methods := ns.methods ++ [s.program.methods.length] } =
          { ns.heading with methods := ns.heading.methods ++ [s.program.methods.length] } := rfl
      rw [if_pos hid, if_pos hown, hmore, hsame, hlen]
      rfl
    · have hid : places.idxOf e.place ≠ i := by
        rintro rfl
        rw [getElem?_idxOf_place hplace] at hpl
        exact hown (some.inj hpl)
      rw [if_neg hid, if_neg hown, hsame]
      rfl

/-- Declaring a method at one of the places adds its entry. -/
theorem Tracks.declareMethod : Tracks scripts places (entries ++ [e])
      (s.declareMethod (scripts.isHeader e.place.script) (places.idxOf e.place) e.decl) := by
  have hlt : places.idxOf e.place < s.program.namespaces.length := by
    obtain ⟨_, hns, -⟩ := h.namespaceAt? (getElem?_idxOf_place hplace)
    exact (List.getElem?_eq_some_iff.1 hns).1
  have hreached := declareMethod_reached h.reached (scripts.isHeader e.place.script) hlt e.decl
  have hplaced : ∀ a ∈ entries ++ [e], a.place ∈ places := by
    rw [forall_mem_append, forall_mem_singleton]
    exact ⟨h.placed, hplace⟩
  cases hfault : e.fault? places (registry places entries).kept with
  | some fault =>
    have hregistry : registry places (entries ++ [e]) =
        { registry places entries with
          refused := (registry places entries).refused ++ [⟨e.place.script, [fault], []⟩] } := by
      rw [registry_concat, Registry.add, hfault]
    rw [h.declareMethod_of_fault hplace hfault] at hreached ⊢
    refine ⟨hreached, h.nodup, hplaced, ?_, h.tags, ?_, ?_⟩
    · rw [hregistry]
      exact h.headings
    · rw [hregistry]
      exact h.methods
    · rw [hregistry, foldl_append, ← h.scripts]
      rfl
  | none =>
    have hregistry : registry places (entries ++ [e]) =
        { registry places entries with kept := (registry places entries).kept ++ [e] } := by
      rw [registry_concat, Registry.add, hfault]
    rw [h.declareMethod_of_sound hplace hfault] at hreached ⊢
    refine ⟨hreached, h.nodup, hplaced, ?_, h.tags, ?_, ?_⟩
    · rw [hregistry]
      exact h.headings_modify hplace
    · rw [hregistry, mapIdx_concat, Program.insertMethod, h.methods, length_mapIdx]
    · rw [hregistry]
      exact h.scripts

end

end

/-! ## Declaring scripts -/

theorem isHeader_foldl_record (found : List Findings) (t : ScriptTable) (k : ScriptId) :
    (found.foldl ScriptTable.record t).isHeader k = t.isHeader k := by
  unfold ScriptTable.isHeader
  rw [ScriptTable.get?_foldl_record]
  cases t.get? k <;> rfl

theorem Tracks.addField (h : Tracks scripts places entries s) (owner : NamespaceId)
    (field : Field) : Tracks scripts places entries
      { s with program := s.program.addField owner field } := by
  refine ⟨.addField owner field h.reached, h.nodup, h.placed, ?_, h.tags, h.methods, h.scripts⟩
  rw [← h.headings]
  exact map_modify_of_eq (fun _ => by rfl) s.program.namespaces owner

theorem Tracks.declareMembers (members : List Member) :
    ∀ {entries s}, Tracks scripts places entries s → pl ∈ places →
      Tracks scripts places (entries ++ (members.filterMap Member.method?).map (⟨pl, ·⟩))
        (members.foldl (declareMember (scripts.isHeader pl.script) (places.idxOf pl)) s) := by
  induction members with
  | nil =>
    intro entries s h _
    rw [filterMap_nil, map_nil, append_nil]
    exact h
  | cons member _ ih =>
    intro entries s h hpl
    rw [foldl_cons]
    cases member with
    | method m =>
      have hstep := h.declareMethod (e := ⟨pl, m⟩) hpl
      have hrest := ih hstep hpl
      rw [append_assoc] at hrest
      exact hrest
    | field name type => exact ih (h.addField (places.idxOf pl) ⟨name, type⟩) hpl

/-- Declaring an item adds its places and entries. -/
theorem Tracks.declareItem {seen : List Place} (h : Tracks scripts seen.eraseDups entries s)
    (script : ScriptId) (item : Item) :
    Tracks scripts (seen ++ item.places script).eraseDups (entries ++ item.entries script)
      (Evaluation.declareItem script (scripts.isHeader script) s item) := by
  have henter : ∀ pl : Place,
      Tracks scripts (seen ++ [pl]).eraseDups entries
          { s with program := (s.program.enter pl).1 } ∧
        (s.program.enter pl).2 = (seen ++ [pl]).eraseDups.idxOf pl ∧
        pl ∈ (seen ++ [pl]).eraseDups := by
    intro pl
    have hpl : pl ∈ (seen ++ [pl]).eraseDups := by simp
    rw [eraseDups_concat] at hpl ⊢
    have hentered := h.enter pl
    simp only [mem_eraseDups] at hentered
    exact ⟨hentered.1, hentered.2, hpl⟩
  cases item with
  | group name members =>
    obtain ⟨htracks, hid, hpl⟩ := henter ⟨script, some name⟩
    have hmembers := htracks.declareMembers members hpl
    rw [← hid] at hmembers
    exact hmembers
  | method m =>
    obtain ⟨htracks, hid, hpl⟩ := henter ⟨script, none⟩
    have hmethod := htracks.declareMethod (e := ⟨⟨script, none⟩, m⟩) hpl
    dsimp only at hmethod
    rw [← hid] at hmethod
    exact hmethod
  | statement =>
    rw [Item.places, Item.entries, append_nil, append_nil]
    exact h

theorem Tracks.declareItems (script : ScriptId) (items : List Item) :
    ∀ {seen entries s}, Tracks scripts (List.eraseDups seen) entries s →
      Tracks scripts (seen ++ items.flatMap (Item.places script)).eraseDups
        (entries ++ items.flatMap (Item.entries script))
        (items.foldl (Evaluation.declareItem script (scripts.isHeader script)) s) := by
  induction items with
  | nil =>
    intro seen entries s h
    simpa using h
  | cons item _ ih =>
    intro seen entries s h
    simpa only [flatMap_cons, append_assoc, foldl_cons] using ih (h.declareItem script item)

theorem Tracks.declareFiles (files : List SourceFile) :
    ∀ {seen entries s}, Tracks scripts (List.eraseDups seen) entries s →
      Tracks scripts (seen ++ files.flatMap SourceFile.places).eraseDups
        (entries ++ files.flatMap SourceFile.entries) (s.declare files) := by
  induction files with
  | nil =>
    intro seen entries s h
    rw [flatMap_nil, flatMap_nil, append_nil, append_nil]
    exact h
  | cons file _ ih =>
    intro seen entries s h
    have hheader : s.scripts.isHeader file.script = scripts.isHeader file.script := by
      rw [h.scripts, isHeader_foldl_record]
    have hfile := h.declareItems file.script file.items
    rw [← hheader] at hfile
    have hrest := ih hfile
    rw [append_assoc, append_assoc] at hrest
    exact hrest

end

/-- A declared program has the places and entries of the scripts, and nothing else. -/
theorem declare_tracks (scripts : ScriptTable) (files : List SourceFile) :
    Tracks scripts (placesOf files) (entriesOf files)
      (declared scripts files) := by
  have hempty : Tracks scripts (List.eraseDups []) [] { scripts } :=
    ⟨.empty, .nil, (forall_mem_nil _), rfl, rfl, rfl, rfl⟩
  exact hempty.declareFiles files

variable {scripts : ScriptTable} {files : List SourceFile}

theorem exists_entry_of_declared {m : Method} (hm : m ∈ (declared scripts files).program.methods) :
    ∃ e ∈ standing files, ∃ id, m = e.method (placesOf files) scripts.isHeader id := by
  rw [(declare_tracks scripts files).methods] at hm
  obtain ⟨id, hid, rfl⟩ := mem_mapIdx.1 hm
  exact ⟨_, getElem_mem hid, id, rfl⟩

/-- All methods of a declared program have parameters with values, and no locals yet. -/
theorem declare_declared (scripts : ScriptTable) (files : List SourceFile) :
    (declared scripts files).program.Declared := by
  intro _ hm
  obtain ⟨_, he, _, rfl⟩ := exists_entry_of_declared hm
  refine ⟨?_, rfl⟩
  simp only [Entry.method, Method.parameterTypes, List.map_map, List.forall_mem_map]
  exact isConcreteValue_of_parameterFault? (parameterFault?_of_mem_kept he)

end Evaluation

/-- An evaluated program arises from the empty one: the passes only work on bodies. -/
theorem evaluate_reached (scripts : ScriptTable) (files : List SourceFile) :
    (evaluate scripts files).Reached := by
  refine .work (Evaluation.declare_tracks scripts files).reached ?_
  unfold evaluate
  rw [Evaluation.outline_lower, Evaluation.outline_check, Evaluation.outline_resolve]

end ScriptCompiler
