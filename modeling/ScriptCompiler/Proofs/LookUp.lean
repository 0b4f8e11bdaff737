import ScriptCompiler.Proofs.Entries
import ScriptCompiler.Proofs.FoldedTrees
import ScriptCompiler.Proofs.Renaming

/-!
# What calls find

The candidates of a call are found among the entries of the scripts: those of the
calling place with the name, or else the entries with the qualified name at the first
place that has one (`Evaluation.Tracks.findOverloads`). The positions of the candidates
play no part in this; an entry is known by its identity.
-/

set_option autoImplicit false

namespace ScriptCompiler

open List Option

/-! ## Qualified names -/

/-- What follows a leading part is not empty and completes the name. -/
theorem DottedName.after?_eq_some_iff {n lead rest : DottedName} :
    n.after? lead = some rest ↔ rest.segments ≠ [] ∧ lead.segments ++ rest.segments = n.segments := by
  unfold DottedName.after? DottedName.properlyExtends DottedName.size
  simp only [Bool.and_eq_true, decide_eq_true_eq, isPrefixOf_iff_prefix]
  constructor
  · intro h
    by_cases hlead : lead.segments.length < n.segments.length ∧ lead.segments <+: n.segments
    · rw [if_pos hlead, Option.some.injEq] at h
      rw [← h]
      refine ⟨?_, prefix_iff_eq_append.1 hlead.2⟩
      intro hnil
      have hlen := drop_eq_nil_iff.1 hnil
      omega
    · rw [if_neg hlead] at h
      cases h
  · rintro ⟨hrest, hsegments⟩
    have hpos : 0 < rest.segments.length := length_pos_iff.2 hrest
    have hlead : lead.segments.length < n.segments.length ∧ lead.segments <+: n.segments := by
      rw [← hsegments, length_append]
      exact ⟨by omega, prefix_append ..⟩
    rw [if_pos hlead, ← hsegments, drop_left]

/-- Whether a qualified name means the method of an entry. -/
def Entry.answers (name : DottedName) (e : Entry) : Bool :=
  match e.place.group with
  | some path => e.decl.name.segments ≠ [] && path.segments ++ e.decl.name.segments = name.segments
  | none => false

/-- Whether an entry has a name at a place. -/
def Entry.isNamed (pl : Place) (name : DottedName) (e : Entry) : Bool :=
  e.place = pl && e.decl.name = name

/-- Whether a qualified name means the method of an entry at a place. -/
def Entry.answersAt (pl : Place) (name : DottedName) (e : Entry) : Bool :=
  e.place = pl && e.answers name

variable {pl : Place} (places : List Place)

theorem Entry.answersAt_loose (hgroup : pl.group = none) (name : DottedName) (e : Entry) :
    e.answersAt pl name = false := by
  by_cases he : e.place = pl
  · simp [Entry.answersAt, Entry.answers, he, hgroup]
  · simp [Entry.answersAt, he]

/-- In a group, a qualified name means the entries with what follows the path of the group. -/
theorem Entry.answersAt_group {path : DottedName} (hgroup : pl.group = some path)
    (name : DottedName) (e : Entry) :
    e.answersAt pl name = true ↔ e.place = pl ∧ name.after? path = some e.decl.name := by
  by_cases he : e.place = pl
  · simp [Entry.answersAt, Entry.answers, he, hgroup, DottedName.after?_eq_some_iff]
  · simp [Entry.answersAt, he]

/-- The entries at a place that a qualified name means, if there are any. -/
def Place.answer? (kept : List Entry) (name : DottedName) (pl : Place) : Option (List Entry) :=
  if (kept.filter (Entry.answersAt pl name)).isEmpty then none
  else some (kept.filter (Entry.answersAt pl name))

theorem Place.isSome_answer?_iff {kept : List Entry} {name : DottedName} :
    (pl.answer? kept name).isSome = true ↔ ∃ e ∈ kept, e.place = pl ∧ e.answers name = true := by
  have hiff : (pl.answer? kept name).isSome = true ↔
      kept.filter (Entry.answersAt pl name) ≠ [] := by
    unfold Place.answer?
    cases kept.filter (Entry.answersAt pl name) <;> simp
  rw [hiff, ne_eq, filter_eq_nil_iff]
  simp [Entry.answersAt]

/-- The entries that a call at a place may mean. -/
def candidates (places : List Place) (kept : List Entry) (pl : Place) (name : DottedName) :
    List Entry :=
  if name.isSimple && kept.any (Entry.isNamed pl name) then kept.filter (Entry.isNamed pl name)
  else (places.findSome? (Place.answer? kept name)).getD []

theorem candidates_subset (kept : List Entry) (pl : Place) (name : DottedName) :
    ∀ e ∈ candidates places kept pl name, e ∈ kept := by
  intro e he
  unfold candidates at he
  by_cases hnear : name.isSimple && kept.any (Entry.isNamed pl name)
  · rw [if_pos hnear] at he
    exact (mem_filter.1 he).1
  · rw [if_neg hnear] at he
    cases hfar : places.findSome? (Place.answer? kept name) with
    | none =>
      rw [hfar] at he
      cases he
    | some =>
      rw [hfar, getD_some] at he
      obtain ⟨other, -, hanswer⟩ := exists_of_findSome?_eq_some hfar
      unfold Place.answer? at hanswer
      by_cases hempty : (kept.filter (Entry.answersAt other name)).isEmpty
      · rw [if_pos hempty] at hanswer
        cases hanswer
      · rw [if_neg hempty] at hanswer
        cases hanswer
        exact (mem_filter.1 he).1

/-! ## Called names -/

variable (r : RealArithmetic)

/-- Folding keeps the names that an expression calls: an operation between literals calls nothing, and
its result does not, either. -/
theorem Expr.called_fold (e : Expr) : (e.fold r).called = e.called := by
  refine fold_induction (P := fun e f => f.called = e.called) r ?_ ?_ ?_ ?_ ?_ ?_ ?_ e
  · exact fun _ _ => rfl
  · exact fun _ => rfl
  · intro op left right span a _ b _ _ hl hr _
    rw [Expr.called, Expr.called, ← hl, ← hr]
    rfl
  · intro op left _ right _ span hl hr _
    rw [Expr.called, Expr.called, hl, hr]
  · exact fun _ _ _ _ hv => hv
  · intro _ arguments _ span hargs
    have hall : Expr.calledAll (arguments.map (Expr.fold r)) = Expr.calledAll arguments := by
      induction arguments with
      | nil => rfl
      | cons a _ ih =>
        rw [map_cons, Expr.calledAll, Expr.calledAll, hargs a mem_cons_self,
          ih fun b hb => hargs b (mem_cons_of_mem _ hb)]
    rw [Expr.called, hall, Expr.called]
  · exact fun _ _ _ _ ho => ho

theorem Expr.calledOption_fold (e : Option Expr) :
    Expr.calledOption (e.map (Expr.fold r)) = Expr.calledOption e := by
  cases e with
  | none => rfl
  | some e => exact called_fold r e

mutual

theorem Stmt.called_fold (r : RealArithmetic) : ∀ s : Stmt, (s.fold r).called = s.called
  | .expression e => by rw [Stmt.fold, Stmt.called, Expr.called_fold, Stmt.called]
  | .declare name type initial span => by
    rw [Stmt.fold, Stmt.called, Expr.calledOption_fold, Stmt.called]
  | .ret value span => by rw [Stmt.fold, Stmt.called, Expr.calledOption_fold, Stmt.called]
  | .branch cond body alts span => by
    rw [Stmt.fold, Stmt.called, Expr.called_fold, Stmt.called_fold r body,
      Alternatives.called_fold r alts, Stmt.called]
  | .block body span => by rw [Stmt.fold, Stmt.called, Stmt.calledAll_fold r body, Stmt.called]
  | .assembly .. => rfl

theorem Alternatives.called_fold (r : RealArithmetic) :
    ∀ a : Alternatives, (a.fold r).called = a.called
  | .none => rfl
  | .more cond body next span => by
    rw [Alternatives.fold, Alternatives.called, Expr.calledOption_fold, Stmt.called_fold r body,
      Alternatives.called_fold r next, Alternatives.called]

theorem Stmt.calledAll_fold (r : RealArithmetic) :
    ∀ body : List Stmt, Stmt.calledAll (Stmt.foldAll r body) = Stmt.calledAll body
  | [] => rfl
  | s :: rest => by
    rw [Stmt.foldAll, Stmt.calledAll, Stmt.called_fold r s, Stmt.calledAll_fold r rest,
      Stmt.calledAll]

end

/-! ## Identities and positions -/

/-- What tells the entries of a program apart, whatever the order of the scripts. -/
def Entry.identity (e : Entry) : Option ScriptId × Option DottedName × DottedName × Types :=
  (if e.place.isLoose then some e.place.script else none, e.place.group, e.decl.name,
    e.decl.parameters.map (·.type))

/-- The position of an entry. -/
def Entry.position (kept : List Entry) (e : Entry) : MethodId :=
  (kept.map Entry.identity).idxOf e.identity

theorem Entry.reference_eq_of_identity_eq {e e' : Entry} (h : e.identity = e'.identity) :
    e.reference places = e'.reference places := by
  obtain ⟨⟨script, group⟩, _⟩ := e
  obtain ⟨⟨script', _⟩, _⟩ := e'
  simp only [Entry.identity, Prod.mk.injEq] at h
  obtain ⟨hscript, rfl, hname, htypes⟩ := h
  have hplace : (⟨script, group⟩ : Place).name places = (⟨script', group⟩ : Place).name places := by
    cases group with
    | some => rfl
    | none =>
      simp only [Place.isLoose, isNone_none, if_true, Option.some.injEq] at hscript
      rw [hscript]
  simp only [Entry.reference, hplace, hname, htypes]

variable (entries : List Entry)

theorem nodup_reference_kept :
    ((registry places entries).kept.map (Entry.reference places)).Nodup := by
  induction entries using List.reverseRecOn with
  | nil => exact .nil
  | append_singleton entries e ih =>
    rw [registry_concat, Registry.kept_add]
    split
    · rename_i hfault
      have hfree := (Entry.fault?_eq_none_iff.1 hfault).2
      rw [map_append, map_cons, map_nil, ← concat_eq_append]
      exact ih.concat hfree
    · exact ih

theorem nodup_identity_kept : ((registry places entries).kept.map Entry.identity).Nodup := by
  have hreferences := nodup_reference_kept places entries
  rw [List.Nodup, pairwise_map] at hreferences ⊢
  refine hreferences.imp ?_
  intro _ _ hne hsame
  exact hne (Entry.reference_eq_of_identity_eq places hsame)

section

variable {kept : List Entry}

theorem position_of_getElem? (h : (kept.map Entry.identity).Nodup) {i : MethodId} {e : Entry}
    (hi : kept[i]? = some e) : e.position kept = i := by
  obtain ⟨hlt, rfl⟩ := List.getElem?_eq_some_iff.1 hi
  have hindex := h.idxOf_getElem i (by simpa using hlt)
  rw [getElem_map] at hindex
  exact hindex

theorem getElem?_position (h : (kept.map Entry.identity).Nodup) {e : Entry} (he : e ∈ kept) :
    kept[e.position kept]? = some e := by
  obtain ⟨_, hi⟩ := getElem?_of_mem he
  rw [position_of_getElem? h hi, hi]

theorem positions_eq_nil {test : Entry → Bool} (h : ∀ e, test e = false) :
    positions kept test = [] := by
  unfold positions
  simp [h]

/-- The positions of entries are found by their identities. -/
theorem positions_eq (h : (kept.map Entry.identity).Nodup) (test : Entry → Bool) :
    positions kept test = (kept.filter test).map (Entry.position kept) := by
  have hfilter : (kept.zipIdx.filter fun e => test e.1).map (·.1) = kept.filter test := by
    have hfst : kept.filter test = (kept.zipIdx.map Prod.fst).filter test := by rw [zipIdx_map_fst]
    rw [hfst, List.filter_map]
    rfl
  unfold positions
  rw [← hfilter, List.map_map]
  apply map_congr_left
  intro e he
  exact (position_of_getElem? h (mem_zipIdx_iff_getElem?.1 (mem_filter.1 he).1)).symm

end

/-! ## Candidates -/

namespace Evaluation

section

variable {scripts : ScriptTable} {places : List Place} {entries : List Entry} {s : Evaluation}

section

variable (h : Tracks scripts places entries s)
include h

/-- The methods of a namespace with a name are those of the entries of the place. -/
theorem Tracks.methodsNamed (hpl : pl ∈ places) (name : DottedName) :
    s.program.methodsNamed (places.idxOf pl) name =
      positions (registry places entries).kept (Entry.isNamed pl name) := by
  obtain ⟨_, hns, -, -, hmembers, -⟩ := h.namespaceAt? (getElem?_idxOf_place hpl)
  unfold Program.methodsNamed
  rw [hns, map_some, getD_some, hmembers]
  unfold Place.members positions
  rw [List.filter_map, List.filter_filter]
  congr 1
  apply filter_congr
  rintro ⟨e, id⟩ he
  have hid : (registry places entries).kept[id]? = some e := mem_zipIdx_iff_getElem?.1 he
  have hmethod : s.program.methodAt? id = some (e.method places scripts.isHeader id) := by
    rw [Program.methodAt?, h.methods, getElem?_mapIdx, hid, map_some]
  simp only [Function.comp, hmethod, any_some, Entry.method, Entry.isNamed, Bool.and_comm]
  congr 1

theorem Tracks.qualifiedIn {i : NamespaceId} {ns : Namespace}
    (hi : s.program.namespaceAt? i = some ns) (name : DottedName) : s.program.qualifiedIn name ns =
      positions (registry places entries).kept (Entry.answersAt ns.place name) := by
  have hplace := h.place_of_namespaceAt? hi
  have hid : ns.id = places.idxOf ns.place := by
    rw [h.reached.registered.position i ns hi, h.idxOf hplace]
  unfold Program.qualifiedIn
  cases hname : ns.name with
  | implicit =>
    have hgroup : ns.place.group = none := by simp [Namespace.place, hname]
    exact (positions_eq_nil fun e => Entry.answersAt_loose hgroup name e).symm
  | explicit path =>
    have hgroup : ns.place.group = some path := by simp [Namespace.place, hname]
    dsimp only
    cases hafter : name.after? path with
    | none =>
      refine (positions_eq_nil fun e => ?_).symm
      rw [Bool.eq_false_iff, ne_eq, Entry.answersAt_group hgroup, hafter]
      simp
    | some rest =>
      dsimp only
      rw [hid, h.methodsNamed (mem_of_getElem? hplace)]
      congr 1
      funext e
      rw [Bool.eq_iff_iff, Entry.answersAt_group hgroup, hafter, Option.some.injEq,
        eq_comm (a := rest)]
      simp [Entry.isNamed]

theorem Tracks.map_place : s.program.namespaces.map Namespace.place = places := by
  apply ext_getElem?
  intro i
  rw [getElem?_map]
  cases hi : places[i]? with
  | none =>
    have hheading := h.heading_namespaceAt? i
    rw [hi, map_none, map_eq_none_iff, Program.namespaceAt?] at hheading
    rw [hheading, map_none]
  | some =>
    obtain ⟨_, hns, -, -, -, hplace⟩ := h.namespaceAt? hi
    rw [Program.namespaceAt?] at hns
    rw [hns, map_some, hplace]

/-- The first namespace that answers is that of the first place that does. -/
theorem Tracks.findSome?_answer? (name : DottedName) :
    s.program.namespaces.findSome? (s.program.answer? name) =
      (places.findSome? (Place.answer? (registry places entries).kept name)).map
        (List.map (Entry.position (registry places entries).kept)) := by
  have hanswer : ∀ ns ∈ s.program.namespaces, s.program.answer? name ns =
      (ns.place.answer? (registry places entries).kept name).map
        (List.map (Entry.position (registry places entries).kept)) := by
    intro ns hns
    obtain ⟨_, hi⟩ := getElem?_of_mem hns
    unfold Program.answer? Place.answer?
    rw [h.qualifiedIn hi, positions_eq (nodup_identity_kept places entries)]
    cases (registry places entries).kept.filter (Entry.answersAt ns.place name) <;> rfl
  calc s.program.namespaces.findSome? (s.program.answer? name)
      = (s.program.namespaces.map (s.program.answer? name)).findSome? id := by
        rw [findSome?_map]
        rfl
    _ = (s.program.namespaces.map Namespace.place).findSome? (fun pl =>
          (pl.answer? (registry places entries).kept name).map
            (List.map (Entry.position (registry places entries).kept))) := by
        rw [map_congr_left hanswer, findSome?_map, findSome?_map]
        rfl
    _ = _ := by
        rw [h.map_place, map_findSome?]
        rfl

/-- Candidates as positions of entries. -/
theorem Tracks.findOverloads (hpl : pl ∈ places) (name : DottedName) :
    s.program.findOverloads name (places.idxOf pl) =
      (candidates places (registry places entries).kept pl name).map
        (Entry.position (registry places entries).kept) := by
  rw [Program.findOverloads_eq, h.methodsNamed hpl,
    positions_eq (nodup_identity_kept places entries), h.findSome?_answer?]
  unfold candidates
  generalize (registry places entries).kept = kept
  have hfar : ((places.findSome? (Place.answer? kept name)).map
      (List.map (Entry.position kept))).getD [] =
      ((places.findSome? (Place.answer? kept name)).getD []).map (Entry.position kept) :=
    getD_map (List.map (Entry.position kept)) [] _
  by_cases hnear : name.isSimple && kept.any (Entry.isNamed pl name)
  · rw [if_pos hnear]
    rw [Bool.and_eq_true, List.any_eq_true] at hnear
    obtain ⟨hsimple, e, he, hnamed⟩ := hnear
    have hsome : (kept.filter (Entry.isNamed pl name)).map (Entry.position kept) ≠ [] := by
      intro hnil
      rw [map_eq_nil_iff, filter_eq_nil_iff] at hnil
      exact hnil e he hnamed
    rw [if_pos hsimple, if_pos hsome]
  · rw [if_neg hnear, ← hfar]
    have hnil : (if name.isSimple then
        (kept.filter (Entry.isNamed pl name)).map (Entry.position kept) else []) = [] := by
      by_cases hsimple : name.isSimple
      · rw [if_pos hsimple, map_eq_nil_iff, filter_eq_nil_iff]
        intro e he hnamed
        apply hnear
        rw [hsimple, Bool.true_and, List.any_eq_true]
        exact ⟨e, he, hnamed⟩
      · rw [if_neg hsimple]
    rw [if_neg (not_not_intro hnil)]

end

end

end Evaluation

end ScriptCompiler
