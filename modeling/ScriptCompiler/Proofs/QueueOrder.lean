import ScriptCompiler.Proofs.LookUp
import ScriptCompiler.Proofs.Reports

/-!
# The order of the scripts

A qualified name means the methods of the first namespace that has one of that name, so whether a
program compiles may depend on the order of its scripts (`queue_order_decides_overloads`). Where the
first script that answers a called name is the same in two orders, both compile or neither does. The
proof renames the methods of one program to those of the other one (`Requeued`).
-/

set_option autoImplicit false

namespace ScriptCompiler

open List Option Evaluation

/-! ## Evaluations without errors -/

theorem Registry.refused_add (places : List Place) (r : Registry) (e : Entry) :
    (r.add places e).refused = r.refused ++
      (e.fault? places r.kept).toList.map fun fault => ⟨e.place.script, [fault], []⟩ := by
  unfold Registry.add
  cases e.fault? places r.kept with
  | none => exact (append_nil _).symm
  | some => rfl

/-- What is refused is an entry, and it is reported with an error on its script. -/
theorem exists_of_mem_refused {places : List Place} {entries : List Entry} {f : Findings}
    (h : f ∈ (registry places entries).refused) :
    f.errors ≠ [] ∧ ∃ e ∈ entries, f.script = e.place.script := by
  induction entries using List.reverseRecOn with
  | nil => cases h
  | append_singleton _ e ih =>
    rw [registry_concat, Registry.refused_add] at h
    rcases mem_append.1 h with h | h
    · obtain ⟨herrors, a, ha, hscript⟩ := ih h
      exact ⟨herrors, a, mem_append_left _ ha, hscript⟩
    · obtain ⟨fault, -, rfl⟩ := List.mem_map.1 h
      exact ⟨by simp, e, by simp, rfl⟩

/-- Nothing is refused exactly if the parameters have no fault and the references are different; then
all entries are kept. -/
theorem refused_eq_nil_iff (places : List Place) (entries : List Entry) :
    ((registry places entries).refused = [] → (registry places entries).kept = entries) ∧
      ((registry places entries).refused = [] ↔
        (∀ e ∈ entries, Evaluation.parameterFault? e.decl.parameters = none) ∧
          (entries.map (Entry.reference places)).Nodup) := by
  induction entries using List.reverseRecOn with
  | nil => exact ⟨fun _ => rfl, by simp [registry]⟩
  | append_singleton entries e ih =>
    obtain ⟨hkept, hiff⟩ := ih
    have hrefused : (registry places (entries ++ [e])).refused = [] ↔
        (registry places entries).refused = [] ∧
          e.fault? places (registry places entries).kept = none := by
      rw [registry_concat, Registry.refused_add, append_eq_nil_iff, map_eq_nil_iff,
        toList_eq_nil_iff]
    have hnodup : ((entries ++ [e]).map (Entry.reference places)).Nodup ↔
        (entries.map (Entry.reference places)).Nodup ∧
          e.reference places ∉ entries.map (Entry.reference places) := by
      rw [map_append, map_cons, map_nil, ← concat_eq_append, nodup_concat]
      exact and_comm
    rw [hrefused]
    refine ⟨?_, ?_⟩
    · rintro ⟨hnone, hfault⟩
      rw [registry_concat, Registry.kept_add, if_pos hfault, hkept hnone]
    · rw [forall_mem_append, forall_mem_singleton, hnodup]
      constructor
      · rintro ⟨hnone, hfault⟩
        rw [hkept hnone, Entry.fault?_eq_none_iff] at hfault
        obtain ⟨hparams, hreferences⟩ := hiff.1 hnone
        exact ⟨⟨hparams, hfault.1⟩, hreferences, hfault.2⟩
      · rintro ⟨⟨hparams, hlast⟩, hreferences, hfree⟩
        have hnone := hiff.2 ⟨hparams, hreferences⟩
        rw [hkept hnone, Entry.fault?_eq_none_iff]
        exact ⟨hnone, hlast, hfree⟩

theorem script_of_mem_entries {f : SourceFile} {e : Entry} (h : e ∈ f.entries) :
    e.place.script = f.script ∧ e.place ∈ f.places := by
  obtain ⟨item, hitem, he⟩ := mem_flatMap.1 h
  have hplace : e.place.script = f.script ∧ e.place ∈ item.places f.script := by
    cases item with
    | group =>
      obtain ⟨_, -, rfl⟩ := List.mem_map.1 he
      exact ⟨rfl, by simp [Item.places]⟩
    | method =>
      rw [mem_singleton.1 he]
      exact ⟨rfl, by simp [Item.places]⟩
    | statement => cases he
  exact ⟨hplace.1, mem_flatMap.2 ⟨item, hitem, hplace.2⟩⟩

theorem script_of_mem_places {f : SourceFile} {pl : Place} (h : pl ∈ f.places) :
    pl.script = f.script := by
  obtain ⟨item, -, hpl⟩ := mem_flatMap.1 h
  cases item with
  | group | method => rw [mem_singleton.1 hpl]
  | statement => cases hpl

variable {files : List SourceFile} {scripts : ScriptTable}

/-- The declared methods belong to the scripts of the entries, also after resolution. -/
theorem script_lt_of_declared (hreg : ∀ f ∈ files, f.script < scripts.scripts.length) :
    (∀ e ∈ entriesOf files, e.place.script < scripts.scripts.length) ∧
      (∀ m ∈ (declared scripts files).program.methods,
        m.script < scripts.scripts.length) ∧
      ∀ m ∈ (resolved scripts files).program.methods, m.script < scripts.scripts.length := by
  have hentry : ∀ e ∈ entriesOf files, e.place.script < scripts.scripts.length := by
    intro e he
    obtain ⟨f, hf, hmem⟩ := mem_flatMap.1 he
    rw [(script_of_mem_entries hmem).1]
    exact hreg f hf
  have hmethod : ∀ m ∈ (declared scripts files).program.methods,
      m.script < scripts.scripts.length := by
    intro m hm
    obtain ⟨e, he, id, rfl⟩ := exists_entry_of_declared hm
    exact hentry e ((kept_sublist _ _).subset he)
  refine ⟨hentry, hmethod, ?_⟩
  intro m hm
  obtain ⟨id, hid⟩ := getElem?_of_mem hm
  rw [resolved, ← Program.methodAt?, methodAt?_resolve] at hid
  obtain ⟨m₀, hm₀, rfl⟩ := map_eq_some_iff.1 hid
  have hlt := hmethod m₀ (mem_of_getElem? hm₀)
  split <;> exact hlt

/-- When both passes find no error. -/
theorem findings_eq_nil_iff (scripts : ScriptTable) (files : List SourceFile) :
    ((∀ m ∈ (declared scripts files).program.methods,
        (m.resolveFindings (declared scripts files).program).errors = []) ∧
      ∀ m ∈ (resolved scripts files).program.methods,
        (m.checkFindings (resolved scripts files).program).errors = []) ↔
      ∀ id m, (declared scripts files).program.methodAt? id = some m →
        m.external = false → (m.resolve (declared scripts files).program).2 = [] ∧
          ((m.resolve (declared scripts files).program).1.check
            (resolved scripts files).program).2.1 = [] := by
  constructor
  · rintro ⟨hresolve, hcheck⟩ id m hm hext
    have hfound := hresolve m (mem_of_getElem? hm)
    have hresolved : (resolved scripts files).program.methodAt? id =
        some (m.resolve (declared scripts files).program).1 := by
      rw [resolved, methodAt?_resolve, hm, map_some, hext]
      rfl
    have hfound' := hcheck _ (mem_of_getElem? hresolved)
    have hext' : (m.resolve (declared scripts files).program).1.external =
        false := hext
    rw [Method.resolveFindings, hext] at hfound
    rw [Method.checkFindings, hext'] at hfound'
    exact ⟨hfound, hfound'⟩
  · intro h
    refine ⟨?_, ?_⟩
    · intro m hm
      obtain ⟨id, hid⟩ := getElem?_of_mem hm
      unfold Method.resolveFindings
      cases hext : m.external with
      | true => rfl
      | false => exact (h id m hid hext).1
    · intro m hm
      obtain ⟨id, hid⟩ := getElem?_of_mem hm
      unfold Method.checkFindings
      cases hext : m.external with
      | true => rfl
      | false =>
        rw [resolved, ← Program.methodAt?, methodAt?_resolve] at hid
        obtain ⟨m₀, hm₀, -, rfl⟩ := Method.exists_of_map_bodies hid hext
        exact (h id m₀ hm₀ hext).2

/-- An evaluation reports no error exactly if every entry stands, and neither resolution nor checking
finds an error in a body. -/
theorem errorCount_evaluate_iff (hreg : ∀ f ∈ files, f.script < scripts.scripts.length) :
    (evaluate scripts files).scripts.errorCount = scripts.errorCount ↔
      (registry (placesOf files) (entriesOf files)).refused = [] ∧
        ∀ id m, (declared scripts files).program.methodAt? id = some m →
          m.external = false →
          (m.resolve (declared scripts files).program).2 = [] ∧
            ((m.resolve (declared scripts files).program).1.check
              (resolved scripts files).program).2.1 = [] := by
  have hnone : (∀ f ∈ (registry (placesOf files) (entriesOf files)).refused, f.errors = []) ↔
      (registry (placesOf files) (entriesOf files)).refused = [] := by
    rw [eq_nil_iff_forall_not_mem]
    exact forall₂_congr fun f hf => iff_of_false (exists_of_mem_refused hf).1 not_false
  obtain ⟨hentry, hmethod, hmethod'⟩ := script_lt_of_declared hreg
  have hrefused : ∀ f ∈ (registry (placesOf files) (entriesOf files)).refused,
      f.script < scripts.scripts.length := by
    intro f hf
    obtain ⟨-, e, he, hscript⟩ := exists_of_mem_refused hf
    rw [hscript]
    exact hentry e he
  obtain ⟨hcount₀, hlength₀⟩ := ScriptTable.errorCount_foldl_record hrefused
  rw [← (declare_tracks scripts files).scripts] at hcount₀ hlength₀
  obtain ⟨hcount₁, hlength₁⟩ := (sweep_resolve _).errorCount fun m hm => by
    rw [hlength₀]
    exact hmethod m hm
  obtain ⟨hcount₂, -⟩ := (sweep_check (resolved scripts files)).errorCount fun m hm => by
      rw [resolved, hlength₁, hlength₀]
      exact hmethod' m hm
  rw [← resolved, hcount₀] at hcount₁
  rw [scripts_evaluate, checked, hcount₂, hcount₁, ← hnone, ← findings_eq_nil_iff]
  rw [← flatMap_eq_nil_iff, ← flatMap_eq_nil_iff, ← flatMap_eq_nil_iff,
    ← length_eq_zero_iff, ← length_eq_zero_iff, ← length_eq_zero_iff]
  omega

/-! ## References -/

/-- Whether an entry outside any namespace has the name and parameter types of one in a namespace that
is called like the namespaces that get a tag. -/
def Entry.Clashes (e e' : Entry) : Prop :=
  e.place.group = none ∧
    (∃ path tag, e'.place.group = some path ∧
      path.segments = (NamespaceName.implicit tag).segments) ∧
    e.decl.name = e'.decl.name ∧
    e.decl.parameters.map (·.type) = e'.decl.parameters.map (·.type)

theorem NamespaceName.implicit_segments_inj {tag tag' : Nat}
    (h : (implicit tag).segments = (implicit tag').segments) : tag = tag' := by
  have htext : "__implicit" ++ toString tag = "__implicit" ++ toString tag' :=
    head_eq_of_cons_eq h
  have hdigits := congrArg String.toList ((String.append_right_inj _).1 htext)
  rw [show (toString tag).toList = Nat.toDigits 10 tag from Nat.toList_repr,
    show (toString tag').toList = Nat.toDigits 10 tag' from Nat.toList_repr] at hdigits
  have hread := congrArg Integer.readDigits? hdigits
  rw [Integer.readDigits?_toDigits, Integer.readDigits?_toDigits] at hread
  exact some.inj hread

/-- Entries that do not clash have one reference exactly if they have one identity. -/
theorem Entry.reference_eq_iff {places : List Place} {e e' : Entry} (he : e.place ∈ places)
    (he' : e'.place ∈ places) (h : ¬ e.Clashes e') (h' : ¬ e'.Clashes e) :
    e.reference places = e'.reference places ↔ e.identity = e'.identity := by
  refine ⟨?_, reference_eq_of_identity_eq places⟩
  intro hsame
  simp only [Entry.reference, Reference.mk.injEq] at hsame
  obtain ⟨hpath, hname, htypes⟩ := hsame
  have hname : e.decl.name = e'.decl.name := congrArg DottedName.mk hname
  have hplace : e.place.group = e'.place.group ∧
      (e.place.isLoose = true → e.place.script = e'.place.script) := by
    cases hg : e.place.group with
    | some path =>
      cases hg' : e'.place.group with
      | some =>
        simp only [Place.name, Place.named, hg, hg', NamespaceName.segments] at hpath
        refine ⟨congrArg (fun segments => some (DottedName.mk segments)) hpath, ?_⟩
        simp [Place.isLoose, hg]
      | none =>
        simp only [Place.name, Place.named, hg, hg'] at hpath
        exact absurd ⟨hg', ⟨path, _, hg, hpath⟩, hname.symm, htypes.symm⟩ h'
    | none =>
      cases hg' : e'.place.group with
      | some path' =>
        simp only [Place.name, Place.named, hg, hg'] at hpath
        exact absurd ⟨hg, ⟨path', _, hg', hpath.symm⟩, hname, htypes⟩ h
      | none =>
        simp only [Place.name, Place.named, hg, hg'] at hpath
        have hindex := NamespaceName.implicit_segments_inj hpath
        have hmem : ∀ pl ∈ places, pl.group = none → pl ∈ places.filter Place.isLoose := by
          intro pl hpl hnone
          exact mem_filter.2 ⟨hpl, by simp [Place.isLoose, hnone]⟩
        have hone := getElem?_idxOf_place (hmem e.place he hg)
        rw [hindex, getElem?_idxOf_place (hmem e'.place he' hg'), Option.some.injEq] at hone
        exact ⟨rfl, fun _ => by rw [hone]⟩
  unfold Entry.identity Place.isLoose at *
  rw [hplace.1, hname, htypes]
  cases hg' : e'.place.group with
  | some => rfl
  | none => rw [hplace.2 (by rw [hplace.1, hg']; rfl)]

/-! ## The first answer -/

/-- Looking through the places of a program is looking through the places of its scripts. -/
theorem findSome?_placesOf {α : Type} (files : List SourceFile) (g : Place → Option α) :
    (placesOf files).findSome? g = files.findSome? fun f => f.places.findSome? g := by
  have hdups : ∀ places : List Place, places.eraseDups.findSome? g = places.findSome? g := by
    intro places
    induction places using List.reverseRecOn with
    | nil => rfl
    | append_singleton places pl ih =>
      rw [eraseDups_concat, findSome?_append, findSome?_singleton]
      by_cases hpl : pl ∈ places
      · rw [if_pos hpl, ih]
        cases hfound : places.findSome? g with
        | none => rw [findSome?_eq_none_iff.1 hfound pl hpl, or_none]
        | some => rfl
      · rw [if_neg hpl, findSome?_append, findSome?_singleton, ih]
  unfold placesOf
  rw [hdups]
  induction files with
  | nil => rfl
  | cons f _ ih =>
    rw [flatMap_cons, findSome?_append, ih, findSome?_cons]
    cases f.places.findSome? g <;> rfl

/-- The first result is that of the first member that has one. -/
theorem findSome?_eq_bind_find? {α β : Type} {l : List α} {g : α → Option β} {test : α → Bool}
    (h : ∀ a ∈ l, (g a).isSome = test a) : l.findSome? g = (l.find? test).bind g := by
  induction l with
  | nil => rfl
  | cons a _ ih =>
    have ha := h a (by simp)
    rw [findSome?_cons, find?_cons, ← ha]
    cases hg : g a with
    | none => exact ih fun b hb => h b (mem_cons_of_mem _ hb)
    | some => exact hg.symm

/-! ## Two orders -/

/-- Whether a called name means a method of the script. -/
def SourceFile.answers (name : DottedName) (f : SourceFile) : Bool :=
  f.entries.any (Entry.answers name)

/-- The first script with a method that a called name means. -/
def firstAnswer? (files : List SourceFile) (name : DottedName) : Option ScriptId :=
  (files.find? (SourceFile.answers name)).map (·.script)

/-- What is known of two orders of the scripts: they are different scripts of the table, no two
entries clash, and a name that is called in a body is declared at the place of the call or first
answered by the same script. -/
structure Requeued (scripts : ScriptTable) (files files' : List SourceFile) : Prop where
  perm : files.Perm files'
  distinct : (files.map (·.script)).Nodup
  registered : ∀ f ∈ files, f.script < scripts.scripts.length
  apart : ∀ e ∈ entriesOf files, ∀ e' ∈ entriesOf files, ¬ e.Clashes e'
  answered : ∀ e ∈ entriesOf files, scripts.isHeader e.place.script = false →
    ∀ n ∈ Stmt.calledAll e.decl.body,
      (n.isSimple = true ∧ (entriesOf files).any (Entry.isNamed e.place n) = true) ∨
        firstAnswer? files n = firstAnswer? files' n

namespace Requeued

variable {scripts : ScriptTable} {files files' : List SourceFile}

section

variable (h : Requeued scripts files files')
include h

theorem perm_entriesOf : (entriesOf files).Perm (entriesOf files') := h.perm.flatMap_right _

theorem symm : Requeued scripts files' files where
  perm := h.perm.symm
  distinct := (h.perm.map _).nodup_iff.1 h.distinct
  registered f hf := h.registered f (h.perm.mem_iff.2 hf)
  apart e he e' he' := h.apart e (h.perm_entriesOf.mem_iff.2 he) e' (h.perm_entriesOf.mem_iff.2 he')
  answered e he hheader n hn := by
    rcases h.answered e (h.perm_entriesOf.mem_iff.2 he) hheader n hn with ⟨hsimple, hnamed⟩ | hsame
    · refine .inl ⟨hsimple, ?_⟩
      rw [← h.perm_entriesOf.any_eq]
      exact hnamed
    · exact .inr hsame.symm

theorem eq_of_script_eq {f g : SourceFile} (hf : f ∈ files) (hg : g ∈ files)
    (hscript : f.script = g.script) : f = g :=
  inj_on_of_nodup_map h.distinct hf hg hscript

theorem refused_eq_nil_iff : (registry (placesOf files) (entriesOf files)).refused = [] ↔
      (registry (placesOf files') (entriesOf files')).refused = [] := by
  have hidentity : ∀ {files : List SourceFile},
      (∀ e ∈ entriesOf files, ∀ e' ∈ entriesOf files, ¬ e.Clashes e') →
      (((entriesOf files).map (Entry.reference (placesOf files))).Nodup ↔
        ((entriesOf files).map Entry.identity).Nodup) := by
    intro files hapart
    have hplaced := (declare_tracks scripts files).placed
    rw [List.Nodup, List.Nodup, pairwise_map, pairwise_map]
    apply List.Pairwise.iff_of_mem
    intro a b ha hb
    rw [not_iff_not]
    exact Entry.reference_eq_iff (hplaced a ha) (hplaced b hb) (hapart a ha b hb) (hapart b hb a ha)
  rw [(ScriptCompiler.refused_eq_nil_iff _ _).2, (ScriptCompiler.refused_eq_nil_iff _ _).2,
    hidentity h.apart, hidentity h.symm.apart, (h.perm_entriesOf.map _).nodup_iff]
  apply and_congr_left
  intro _
  constructor
  · intro hsound e he
    exact hsound e (h.perm_entriesOf.mem_iff.2 he)
  · intro hsound e he
    exact hsound e (h.perm_entriesOf.mem_iff.1 he)

/-- At most one script of the list has a given position in the table. -/
theorem filter_script (k : ScriptId) :
    files'.filter (·.script = k) = files.filter (·.script = k) := by
  have hperm := h.perm.filter (fun f => decide (f.script = k))
  have hnodup : ((files.filter (·.script = k)).map (·.script)).Nodup :=
    h.distinct.sublist (filter_sublist.map _)
  have hscript : ∀ f ∈ files.filter (·.script = k), f.script = k := by
    intro f hf
    exact of_decide_eq_true (mem_filter.1 hf).2
  generalize files.filter (·.script = k) = l at hperm hnodup hscript ⊢
  cases l with
  | nil => exact nil_perm.1 hperm
  | cons f rest =>
    cases rest with
    | nil => exact (singleton_perm.1 hperm).symm
    | cons g =>
      have hsame : f.script = g.script := by rw [hscript f (by simp), hscript g (by simp)]
      simp [hsame] at hnodup

/-- The entries of one script are the same, in the same order. -/
theorem filter_entriesOf {k : ScriptId} {test : Entry → Bool}
    (htest : ∀ e, test e = true → e.place.script = k) :
    (entriesOf files').filter test = (entriesOf files).filter test := by
  have hone : ∀ files : List SourceFile, (entriesOf files).filter test =
      (files.filter (·.script = k)).flatMap fun f => f.entries.filter test := by
    intro files
    unfold entriesOf
    rw [filter_flatMap]
    induction files with
    | nil => rfl
    | cons f _ ih =>
      rw [flatMap_cons, ih]
      by_cases hf : f.script = k
      · rw [filter_cons_of_pos (by simpa using hf), flatMap_cons]
      · have hnil : f.entries.filter test = [] := by
          rw [filter_eq_nil_iff]
          intro e he hpass
          rw [← (script_of_mem_entries he).1, htest e hpass] at hf
          exact hf rfl
        rw [filter_cons_of_neg (by simpa using hf), hnil, nil_append]
  rw [hone files', hone files, h.filter_script]

theorem filter_isNamed (pl : Place) (name : DottedName) :
    (entriesOf files').filter (Entry.isNamed pl name) =
      (entriesOf files).filter (Entry.isNamed pl name) := by
  apply h.filter_entriesOf
  intro _ he
  rw [Entry.isNamed, Bool.and_eq_true, decide_eq_true_eq] at he
  rw [he.1]

theorem answer?_entriesOf (name : DottedName) (pl : Place) :
    pl.answer? (entriesOf files') name = pl.answer? (entriesOf files) name := by
  unfold Place.answer?
  have hfilter : (entriesOf files').filter (Entry.answersAt pl name) =
      (entriesOf files).filter (Entry.answersAt pl name) := by
    apply h.filter_entriesOf
    intro _ he
    rw [Entry.answersAt, Bool.and_eq_true, decide_eq_true_eq] at he
    rw [he.1]
  rw [hfilter]

/-- A script answers a name exactly if one of its places does. -/
theorem isSome_findSome?_answer? {f : SourceFile} (hf : f ∈ files) (name : DottedName) :
    (f.places.findSome? (Place.answer? (entriesOf files) name)).isSome = f.answers name := by
  rw [Bool.eq_iff_iff, findSome?_isSome_iff, SourceFile.answers, List.any_eq_true]
  constructor
  · rintro ⟨pl, hpl, hsome⟩
    obtain ⟨e, he, rfl, hanswers⟩ := Place.isSome_answer?_iff.1 hsome
    obtain ⟨g, hg, hmem⟩ := mem_flatMap.1 he
    -- the entry is one of this script, since no other one has the script of its place
    have hsame : g = f := by
      apply h.eq_of_script_eq hg hf
      rw [← (script_of_mem_entries hmem).1, script_of_mem_places hpl]
    rw [hsame] at hmem
    exact ⟨e, hmem, hanswers⟩
  · rintro ⟨e, he, hanswers⟩
    exact ⟨e.place, (script_of_mem_entries he).2, Place.isSome_answer?_iff.2
      ⟨e, mem_flatMap.2 ⟨f, hf, he⟩, rfl, hanswers⟩⟩

theorem find?_answers {name : DottedName}
    (hsame : firstAnswer? files name = firstAnswer? files' name) :
    files'.find? (SourceFile.answers name) = files.find? (SourceFile.answers name) := by
  unfold firstAnswer? at hsame
  cases hfind : files.find? (SourceFile.answers name) with
  | none =>
    rw [hfind, map_none, eq_comm, map_eq_none_iff] at hsame
    exact hsame
  | some =>
    rw [hfind, map_some, eq_comm] at hsame
    obtain ⟨g, hg, hscript⟩ := map_eq_some_iff.1 hsame
    have hmem : g ∈ files := h.perm.mem_iff.2 (mem_of_find?_eq_some hg)
    rw [hg, h.eq_of_script_eq hmem (mem_of_find?_eq_some hfind) hscript]

theorem candidates (pl : Place) {name : DottedName}
    (hname : (name.isSimple = true ∧ (entriesOf files).any (Entry.isNamed pl name) = true) ∨
      firstAnswer? files name = firstAnswer? files' name) :
    ScriptCompiler.candidates (placesOf files') (entriesOf files') pl name =
      ScriptCompiler.candidates (placesOf files) (entriesOf files) pl name := by
  unfold ScriptCompiler.candidates
  rw [h.filter_isNamed, ← h.perm_entriesOf.any_eq]
  rcases hname with ⟨hsimple, hnamed⟩ | hsame
  · rw [hsimple, hnamed]
    rfl
  · have hanswer : Place.answer? (entriesOf files') name = Place.answer? (entriesOf files) name := by
      funext pl
      exact h.answer?_entriesOf name pl
    have hfar : (placesOf files').findSome? (Place.answer? (entriesOf files') name) =
        (placesOf files).findSome? (Place.answer? (entriesOf files) name) := by
      rw [findSome?_placesOf, findSome?_placesOf,
        findSome?_eq_bind_find? fun f hf => h.symm.isSome_findSome?_answer? hf name,
        findSome?_eq_bind_find? fun f hf => h.isSome_findSome?_answer? hf name,
        h.find?_answers hsame, hanswer]
    rw [hfar]

end

/-! ## The methods in both orders -/

section

variable (hsound : (registry (placesOf files) (entriesOf files)).refused = [])

include hsound

theorem kept_eq_entriesOf : (registry (placesOf files) (entriesOf files)).kept = entriesOf files :=
  (ScriptCompiler.refused_eq_nil_iff _ _).1 hsound

theorem nodup_identity : ((entriesOf files).map Entry.identity).Nodup := by
  have hnodup := nodup_identity_kept (placesOf files) (entriesOf files)
  rwa [kept_eq_entriesOf hsound] at hnodup

theorem methodAt?_declare (scripts : ScriptTable) (id : MethodId) :
    (declared scripts files).program.methodAt? id =
      (entriesOf files)[id]?.map (Entry.method (placesOf files) scripts.isHeader id) := by
  rw [Program.methodAt?, (declare_tracks scripts files).methods,
    kept_eq_entriesOf hsound, getElem?_mapIdx]

theorem findOverloads_declare (scripts : ScriptTable) {e : Entry} (he : e ∈ entriesOf files)
    (name : DottedName) : (declared scripts files).program.findOverloads name
        ((placesOf files).idxOf e.place) =
      (ScriptCompiler.candidates (placesOf files) (entriesOf files) e.place name).map
        (Entry.position (entriesOf files)) := by
  have htracks := declare_tracks scripts files
  have hfound := htracks.findOverloads (htracks.placed e he) name
  rwa [kept_eq_entriesOf hsound] at hfound

end

/-- The position in the second order of the method at a position in the first one. -/
def moved (files files' : List SourceFile) (id : MethodId) : MethodId :=
  ((entriesOf files)[id]?.map (Entry.position (entriesOf files'))).getD id

theorem moved_of_getElem? {id : MethodId} {e : Entry} (hid : (entriesOf files)[id]? = some e) :
    moved files files' id = e.position (entriesOf files') := by
  rw [moved, hid, map_some, getD_some]

section

variable (hsound : (registry (placesOf files) (entriesOf files)).refused = [])

include hsound

/-- Moving positions leads from the methods of the first order to those of the second one. -/
theorem renames (h : Requeued scripts files files') :
    (declared scripts files).program.Renames (moved files files')
      (declared scripts files').program := by
  intro id
  rw [methodAt?_declare hsound, methodAt?_declare (h.refused_eq_nil_iff.1 hsound)]
  cases hid : (entriesOf files)[id]? with
  | none =>
    have hlen := h.perm_entriesOf.length_eq
    have hnone : (entriesOf files')[id]? = none := by
      rw [List.getElem?_eq_none_iff] at hid ⊢
      omega
    rw [moved, hid, map_none, getD_none, hnone]
    rfl
  | some =>
    have hnodup := nodup_identity (h.refused_eq_nil_iff.1 hsound)
    have hmem := h.perm_entriesOf.mem_iff.1 (mem_of_getElem? hid)
    rw [moved_of_getElem? hid, getElem?_position hnodup hmem]
    rfl

/-- Calls in the body of an entry find the moved candidates. -/
theorem finds (h : Requeued scripts files files') {e : Entry} (he : e ∈ entriesOf files)
    (hheader : scripts.isHeader e.place.script = false) {name : DottedName}
    (hname : name ∈ Stmt.calledAll e.decl.body) : Site.Finds (moved files files')
      ⟨(declared scripts files).program, (placesOf files).idxOf e.place⟩
      ⟨(declared scripts files').program, (placesOf files').idxOf e.place⟩
      name := by
  unfold Site.Finds
  rw [findOverloads_declare (h.refused_eq_nil_iff.1 hsound) scripts
      (h.perm_entriesOf.mem_iff.1 he),
    findOverloads_declare hsound scripts he, h.candidates e.place (h.answered e he hheader name hname),
    List.map_map]
  apply map_congr_left
  intro a ha
  have hmem := candidates_subset _ _ _ _ a ha
  exact (moved_of_getElem? (getElem?_position (nodup_identity hsound) hmem)).symm

end

/-- If the first order compiles, so does the second one. -/
theorem errorCount_eq (h : Requeued scripts files files')
    (hok : (evaluate scripts files).scripts.errorCount = scripts.errorCount) :
    (evaluate scripts files').scripts.errorCount = scripts.errorCount := by
  rw [errorCount_evaluate_iff h.registered] at hok
  rw [errorCount_evaluate_iff h.symm.registered]
  obtain ⟨hsound, hbodies⟩ := hok
  have hsound' := h.refused_eq_nil_iff.1 hsound
  have hrenames := h.renames hsound
  refine ⟨hsound', ?_⟩
  intro id' _ hm' hext
  rw [methodAt?_declare hsound'] at hm'
  obtain ⟨e, he', rfl⟩ := map_eq_some_iff.1 hm'
  have he : e ∈ entriesOf files := h.perm_entriesOf.mem_iff.2 (mem_of_getElem? he')
  -- the same entry is a method in the first order, too
  have hid := getElem?_position (nodup_identity hsound) he
  generalize e.position (entriesOf files) = id at hid
  have hm : (declared scripts files).program.methodAt? id =
      some (e.method (placesOf files) scripts.isHeader id) := by
    rw [methodAt?_declare hsound, hid, map_some]
  obtain ⟨hresolve, hcheck⟩ := hbodies id _ hm hext
  have htwins : (e.method (placesOf files) scripts.isHeader id).Twins
      (e.method (placesOf files') scripts.isHeader id') := ⟨rfl, rfl, rfl, rfl, rfl, rfl⟩
  have hcalled : Stmt.calledAll (e.method (placesOf files) scripts.isHeader id).statements =
      Stmt.calledAll e.decl.body := by
    have hheader : scripts.isHeader e.place.script = false := hext
    simp only [Entry.method, hheader, Bool.false_eq_true, if_false, Stmt.calledAll_fold]
  obtain ⟨htwins', hstmts, herrors⟩ := htwins.resolve hrenames rfl fun n hn => by
    rw [hcalled] at hn
    exact h.finds hsound he hext hn
  have hresolved : (resolved scripts files).program.Renames (moved files files')
      (resolved scripts files').program :=
    hrenames.congr (outline_resolve _) (outline_resolve _)
  obtain ⟨-, -, hreports⟩ := htwins'.check hresolved hstmts
  exact ⟨herrors.trans hresolve, (congrArg Prod.fst hreports).trans hcheck⟩

end Requeued

/-- The order of the scripts does not decide whether a program compiles, as far as the names that it
calls are first answered by the same scripts. The lists hold different scripts of the table in two
orders. No entry outside any namespace has the name and parameter types of one in a namespace that
is called like the namespaces with a tag. And a name that is called in the body of a method, unless
it is a simple name that the place of the method declares, is first answered by the same script in
both orders. -/
theorem requeued_scripts_compile_alike (scripts : ScriptTable) (files files' : List SourceFile)
    (hperm : files.Perm files') (hdistinct : (files.map (·.script)).Nodup)
    (hreg : ∀ f ∈ files, f.script < scripts.scripts.length)
    (hapart : ∀ e ∈ entriesOf files, ∀ e' ∈ entriesOf files, ¬ e.Clashes e')
    (hanswered : ∀ e ∈ entriesOf files, scripts.isHeader e.place.script = false →
      ∀ n ∈ Stmt.calledAll e.decl.body,
        (n.isSimple = true ∧ (entriesOf files).any (Entry.isNamed e.place n) = true) ∨
          firstAnswer? files n = firstAnswer? files' n) :
    (evaluate scripts files).scripts.errorCount = scripts.errorCount ↔
      (evaluate scripts files').scripts.errorCount = scripts.errorCount := by
  have h : Requeued scripts files files' := ⟨hperm, hdistinct, hreg, hapart, hanswered⟩
  exact ⟨h.errorCount_eq, h.symm.errorCount_eq⟩

namespace Sample

def threeScripts : ScriptTable :=
  ⟨[⟨0, "first.ql", .source, [], []⟩, ⟨1, "second.ql", .source, [], []⟩,
    ⟨2, "main.ql", .source, [], []⟩]⟩

/-- A script with the method `void name(type v)` in the namespace `Lib`. -/
def library (script : ScriptId) (name : String) (type : Primitive) : SourceFile :=
  ⟨script, [.group ⟨["Lib"]⟩
    [.method ⟨.void, ⟨[name]⟩, [⟨"v", type, .unknown⟩], [], .unknown⟩] .unknown]⟩

/-- The call `Lib.name(value)`. -/
def libraryCall (name : String) (value : Literal) : Stmt :=
  .expression (.call ⟨["Lib", name]⟩ [.literal value .unknown] none .unknown)

/-- The namespace `App` with some methods and `Main`, which has a given body. -/
def application (others : List Member) (body : List Stmt) : Item :=
  .group ⟨["App"]⟩ (others ++ [.method ⟨.void, ⟨["Main"]⟩, [], body, .unknown⟩]) .unknown

/-- One library has `F`, the other one `G`, and `Main` calls both and `Helper` beside it. Its script
has a method outside any namespace, too. -/
def separateFiles : List SourceFile :=
  [library 0 "F" .i32, library 1 "G" .str,
    ⟨2, [.method ⟨.void, ⟨["Loose"]⟩, [], [], .unknown⟩,
      application [.method ⟨.void, ⟨["Helper"]⟩, [], [], .unknown⟩]
        [.expression (call "Helper" []), libraryCall "F" (.integer 1),
          libraryCall "G" (.text "x")]]⟩]

/-- Both libraries have `F`, and `Main` calls that of the second one. -/
def overloadedFiles : List SourceFile :=
  [library 0 "F" .i32, library 1 "F" .str, ⟨2, [application [] [libraryCall "F" (.text "x")]]⟩]

end Sample

/-- Three scripts compile in the reverse order as well. -/
theorem separate_scripts_compile_alike :
    (evaluate Sample.threeScripts Sample.separateFiles).scripts.errorCount = 0 ∧
      (evaluate Sample.threeScripts Sample.separateFiles.reverse).scripts.errorCount = 0 := by
  have hnames : ∀ e ∈ entriesOf Sample.separateFiles, ∀ e' ∈ entriesOf Sample.separateFiles,
      e.place.group = none → e'.place.group ≠ none → e.decl.name ≠ e'.decl.name := by
    decide +kernel
  have hok : (evaluate Sample.threeScripts Sample.separateFiles).scripts.errorCount = 0 := by
    decide +kernel
  refine ⟨hok, ?_⟩
  apply (requeued_scripts_compile_alike Sample.threeScripts Sample.separateFiles
    Sample.separateFiles.reverse (List.reverse_perm _).symm (by decide +kernel) (by decide +kernel)
    ?_ (by decide +kernel)).1 hok
  rintro e he e' he' ⟨hgroup, ⟨path, tag, hgroup', -⟩, hname, -⟩
  exact hnames e he e' he' hgroup (by simp [hgroup']) hname

/-- The order of the scripts may decide whether a program compiles: of two libraries with overloads of
one method, calls only see the first one. -/
theorem queue_order_decides_overloads :
    ¬ ∀ (scripts : ScriptTable) (files files' : List SourceFile), files.Perm files' →
      (files.map (·.script)).Nodup → (∀ f ∈ files, f.script < scripts.scripts.length) →
      ((evaluate scripts files).scripts.errorCount = scripts.errorCount ↔
        (evaluate scripts files').scripts.errorCount = scripts.errorCount) := by
  intro h
  have hiff := h Sample.threeScripts Sample.overloadedFiles.reverse Sample.overloadedFiles
    (List.reverse_perm _) (by decide +kernel) (by decide +kernel)
  have hreverse : (evaluate Sample.threeScripts Sample.overloadedFiles.reverse).scripts.errorCount =
      Sample.threeScripts.errorCount := by
    decide +kernel
  have hfirst : (evaluate Sample.threeScripts Sample.overloadedFiles).scripts.errorCount = 1 := by
    decide +kernel
  have hzero : Sample.threeScripts.errorCount = 0 := rfl
  have hcount := hiff.1 hreverse
  omega

end ScriptCompiler
