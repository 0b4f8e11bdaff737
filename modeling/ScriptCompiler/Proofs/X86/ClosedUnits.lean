import ScriptCompiler.Proofs.X86.HeaderCode
import ScriptCompiler.X86.Emit

/-!
# Labels of a unit

Every call that is compiled is noted, and nothing else is, so the labels declared as external are
those that are called and not defined. The jump at the start is left out of this: it may name a
method of the library that no assembly defines and no compiled method calls.
-/

set_option autoImplicit false

namespace ScriptCompiler.X86

open List

/-! ## Calls in lines -/

/-- Whether a line is a call. -/
def Line.isCall : Line → Bool
  | .instruction mnemonic _ => mnemonic == "CALL"
  | _ => false

/-- The label that a line calls. -/
def Line.call? : Line → Option String
  | .instruction mnemonic [.label label] => if mnemonic == "CALL" then some label else none
  | _ => none

/-- The labels that lines call. -/
def callsOf (lines : List Line) : List String := lines.filterMap Line.call?

theorem Line.call?_eq_none {line : Line} (h : line.isCall = false) : line.call? = none := by
  unfold call?
  split
  · rename_i mnemonic label
    have hmnemonic : (mnemonic == "CALL") = false := h
    rw [hmnemonic]
    rfl
  · rfl

theorem Line.operands_of_call? {mnemonic label : String} {operands : List Operand}
    (h : (Line.instruction mnemonic operands).call? = some label) : operands = [.label label] := by
  unfold call? at h
  split at h
  · rename_i found heq
    obtain ⟨-, hlabel⟩ := Option.ite_none_right_eq_some.1 h
    cases heq
    rw [Option.some.inj hlabel]
  · cases h

/-- Whether lines hold no call. -/
def Callless (lines : List Line) : Prop := ∀ line ∈ lines, line.isCall = false

variable {p : Program} {lines : List Line} {shared : Shared}

theorem Callless.callsOf_eq (h : Callless lines) : callsOf lines = [] :=
  filterMap_eq_nil_iff.2 fun line hline => Line.call?_eq_none (h line hline)

theorem Direct.callless (h : Direct lines) : Callless lines := by
  intro line hline
  have hdirect := h line hline
  cases line with
  | instruction => exact beq_eq_false_iff_ne.2 (bne_iff_ne.1 hdirect)
  | jump | raw => rfl

/-! ## Noted calls -/

/-- Whether the labels noted after lines are those noted before and those that the lines call. All
calls in the lines go to labels. -/
structure Notes (before : List String) (lines : List Line) (after : List String) : Prop where
  labels : ∀ line ∈ lines, line.isCall = true → line.call?.isSome = true
  noted : ∀ label, label ∈ after ↔ label ∈ before ∨ label ∈ callsOf lines

namespace Notes

variable {a b d : List String} {lines more : List Line}

theorem of_callless (h : Callless lines) (a : List String) : Notes a lines a where
  labels line hline hcall := by
    rw [h line hline] at hcall
    cases hcall
  noted label := by simp [h.callsOf_eq]

theorem append (h : Notes a lines b) (h' : Notes b more d) : Notes a (lines ++ more) d where
  labels line hline := (mem_append.1 hline).elim (h.labels line) (h'.labels line)
  noted label := by rw [h'.noted, h.noted, callsOf, callsOf, callsOf, filterMap_append, mem_append, or_assoc]

theorem call (u : Shared) (label : String) :
    Notes u.calls [.instruction "CALL" [.label label]] (u.recordCall label).calls where
  labels line hline _ := by
    rw [mem_singleton.1 hline]
    rfl
  noted other := by
    have hcalls : callsOf [.instruction "CALL" [.label label]] = [label] := rfl
    rw [hcalls, mem_singleton]
    unfold Shared.recordCall
    split
    · rename_i hmem
      have hmem : label ∈ u.calls := contains_iff_mem.1 hmem
      constructor
      · exact .inl
      · rintro (hother | rfl)
        · exact hother
        · exact hmem
    · rw [mem_append, mem_singleton]

end Notes

section

variable {c : Context} {i : Instruction} {k : Nat} {a b : Stage} {lines : List Line}

theorem Action.notes (h : Action c i k a lines b) : Notes a.shared.calls lines b.shared.calls := by
  rcases h.direct with ⟨hdirect, hcalls⟩ | ⟨label, rfl, hshared⟩
  · rw [hcalls]
    exact .of_callless hdirect.callless _
  · rw [hshared]
    exact .call _ label

theorem Acts.notes (h : Acts c i k a lines b) : Notes a.shared.calls lines b.shared.calls := by
  induction h with
  | refl => exact .of_callless (by simp [Callless]) _
  | step hfirst _ ih => exact hfirst.notes.append ih

end

/-! ## Compiled methods -/

theorem walk_notes {c : Context} {code : Code} {index : Nat} {s s' : State}
    (ha : Apart s.frame s.stack) (h : walk c index code s = .ok s') :
    ∃ lines, s'.listing.lines = s.listing.lines ++ lines ∧
      s'.listing.label = s.listing.label ∧ Notes s.shared.calls lines s'.shared.calls := by
  induction code generalizing index s with
  | nil =>
    cases h
    exact ⟨[], (append_nil _).symm, rfl, .of_callless (by simp [Callless]) _⟩
  | cons _ _ ih =>
    obtain ⟨s₁, lines, hacts, -, harranges, ha₁, h⟩ := walk_cons_ok ha h
    obtain ⟨closing, hlines, hclosing, hlabel⟩ := harranges.lines_eq
    obtain ⟨more, hmore, hlabel', hnotes⟩ := ih ha₁ h
    have hcallless : Callless closing := by
      rcases hclosing with rfl | ⟨_, _, rfl⟩ <;> simp [Callless, Line.isCall]
    refine ⟨lines ++ closing ++ more, ?_, hlabel'.trans hlabel, ?_⟩
    · rw [hmore, show s₁.listing.lines = _ from hlines, append_assoc]
      rfl
    · exact (hacts.notes.append (.of_callless hcallless _)).append hnotes

theorem Compiled.notes {m : Method} {l : Listing} {s : State} (h : Compiled p m shared l s) :
    Notes shared.calls l.lines s.shared.calls ∧ l.label = (p.referenceOf m).asmLabel := by
  obtain ⟨rest, hrest, hlabel, hnotes⟩ := walk_notes start_apart h.code
  obtain ⟨ending, closing, hending, hclosing, hlines, hl⟩ := h.lines_eq
  have hcallless : Callless (ending ++ closing) := by
    refine forall_mem_append.2 ⟨?_, ?_⟩
    · rcases hending with rfl | rfl
      · simp
      · exact (direct_epilogueLines _).callless
    · rcases hclosing with rfl | rfl <;> simp [Line.isCall]
  have hall : l.lines = .instruction "ENTER" [.number s.frame.size, .number 0] ::
      (rest ++ (ending ++ closing)) := by
    rw [hlines, hrest]
    simp [State.start, Listing.op, Listing.push]
  refine ⟨?_, hl.trans hlabel⟩
  rw [hall, ← singleton_append]
  apply Notes.append (.of_callless (by simp [Callless, Line.isCall]) _)
  exact hnotes.append (.of_callless hcallless _)

theorem compileMethods_ok {methods : List Method} {shared' : Shared} {listings : List Listing}
    (h : compileMethods p methods shared = .ok (listings, shared')) :
    listings.map (·.label) = methods.map (fun m => (p.referenceOf m).asmLabel) ∧
      Notes shared.calls (listings.flatMap (·.lines)) shared'.calls := by
  induction methods generalizing shared listings with
  | nil =>
    cases h
    exact ⟨rfl, .of_callless (by simp [Callless]) _⟩
  | cons _ _ ih =>
    obtain ⟨⟨_, _⟩, ⟨_, _⟩, hfirst, hrest, h⟩ := of_bind₂ h
    cases h
    obtain ⟨_, hcomp, rfl⟩ := compileMethod_ok hfirst
    obtain ⟨hnotes, hlabel⟩ := hcomp.notes
    obtain ⟨hlabels, hmore⟩ := ih hrest
    refine ⟨?_, ?_⟩
    · rw [map_cons, map_cons, hlabel, hlabels]
    · rw [flatMap_cons]
      exact hnotes.append hmore

/-! ## The library -/

namespace Library

/-- Whether the labels noted as defined are those of the methods. -/
def Named (l : Library) : Prop := ∀ label, label ∈ l.defined ↔ label ∈ l.methods.map (·.label)

theorem Named.merge {l : Library} (h : l.Named) (assembly : String) (table : DataTable) :
    (l.merge assembly table).1.Named := by
  have hlabels : Listing.label ∘ listingOf (renamesOf (itemsOf assembly table)) = Prod.fst :=
    funext (label_listingOf _)
  intro label
  rw [methods_merge, library_merge, map_append, mem_append, map_map, hlabels, ← h label]
  exact mem_foldl_note

end Library

theorem mergeHeaders_named (scripts : ScriptTable) : (mergeHeaders scripts).1.Named := by
  unfold mergeHeaders
  refine List.foldlRecOn scripts.scripts _ (motive := fun state : Library × DataTable => state.1.Named)
    ?_ ?_
  · intro _
    simp
  · intro state hstate _ _
    split
    · exact hstate.merge _ _
    · exact hstate

/-! ## Units -/

/-- The labels that a directive declares: those behind `extern`. -/
def externLabels (directive : String) : List String :=
  if Text.startsWith "extern " (Library.lower directive) then
    (Text.split ',' (String.ofList (directive.toList.drop 7))).map Text.trim
  else []

/-- The parts from which the text of a unit is put together. -/
structure Parts where
  library : Library
  listings : List Listing
  shared : Shared
  entry : Option Method

namespace Parts

/-- Whether parts come from a program and its scripts. -/
structure Of (o : Options) (p : Program) (scripts : ScriptTable) (u : Parts) : Prop where
  library : (mergeHeaders scripts).1 = u.library
  listings : compileMethods p (p.methods.filter fun m => !m.external)
    { data := (mergeHeaders scripts).2 } = .ok (u.listings, u.shared)
  entry : entryPoint o p = .ok u.entry

/-- The labels that the unit defines. -/
def defined (u : Parts) : List String := (u.listings ++ u.library.methods).map (·.label)

/-- The labels that the compiled methods call. -/
def called (u : Parts) : List String := callsOf (u.listings.flatMap (·.lines))

/-- The labels with an `extern` line of their own. -/
def externals (u : Parts) : List String :=
  X86.externals u.shared.calls (u.listings.map (·.label) ++ u.library.defined)

/-- The labels that the directives of the library declare. -/
def directed (u : Parts) : List String := u.library.directives.flatMap externLabels

/-- The text of the unit. -/
def text (p : Program) (u : Parts) : String :=
  (if u.entry.isSome then "global _main\n" else "")
    ++ unlines u.library.directives
    ++ unlines (u.externals.map fun label => "extern " ++ label)
    ++ "\nsection .text\n"
    ++ startText p u.entry
    ++ String.join ((u.listings ++ u.library.methods).map Listing.render)
    ++ "\nsection .data\n" ++ renderEntries u.shared.data.data
    ++ "\nsection .rodata\n" ++ renderEntries u.shared.data.rodata
    ++ "\nsection .bss\n" ++ unlines u.library.bss

variable {o : Options} {p : Program} {scripts : ScriptTable} {u : Parts}

theorem Of.mem_defined (h : Of o p scripts u) (label : String) :
    label ∈ u.listings.map (·.label) ++ u.library.defined ↔ label ∈ u.defined := by
  have hnamed := mergeHeaders_named scripts
  rw [h.library] at hnamed
  rw [defined, map_append, mem_append, mem_append, hnamed label]

/-- Exactly the labels that are called and not defined are declared as external. -/
theorem Of.mem_externals (h : Of o p scripts u) (label : String) :
    label ∈ u.externals ↔ label ∈ u.called ∧ label ∉ u.defined := by
  have hnoted := (compileMethods_ok h.listings).2.noted label
  rw [externals, X86.externals, mem_filter, hnoted, ← h.mem_defined label]
  simp [called]

theorem Of.mem_defined_of_mem (h : Of o p scripts u) {m : Method} (hm : m ∈ p.methods)
    (hexternal : m.external = false) : (p.referenceOf m).asmLabel ∈ u.defined := by
  have hlabels := (compileMethods_ok h.listings).1
  rw [defined, map_append, hlabels]
  apply mem_append_left
  exact List.mem_map.2 ⟨m, mem_filter.2 ⟨hm, by rw [hexternal]; rfl⟩, rfl⟩

theorem Of.entry_mem (h : Of o p scripts u) {m : Method} (hm : u.entry = some m) :
    m ∈ p.methods := by
  have hentry := h.entry
  rw [hm] at hentry
  unfold entryPoint at hentry
  cases htext : o.entryPoint with
  | none =>
    rw [htext] at hentry
    exact mem_of_find?_eq_some (Except.ok.inj hentry)
  | some text =>
    rw [htext] at hentry
    cases hfound : ((Reference.parse? text).bind p.findMethod?).bind p.methodAt? with
    | none =>
      simp only [hfound] at hentry
      cases hentry
    | some =>
      simp only [hfound] at hentry
      cases hentry
      exact Program.mem_of_bind_methodAt? hfound

end Parts

theorem emit_ok {o : Options} {scripts : ScriptTable} {text : String}
    (h : emit o p scripts = .ok text) : ∃ u, Parts.Of o p scripts u ∧ text = u.text p := by
  obtain ⟨⟨listings, shared⟩, entry, hlistings, hentry, h⟩ := of_bind₂ h
  refine ⟨⟨(mergeHeaders scripts).1, listings, shared, entry⟩, ⟨rfl, hlistings, hentry⟩, ?_⟩
  exact (Except.ok.inj h).symm

/-- Every call of a compiled method goes to a label, and the labels declared as external are exactly
those called and not defined. The target of the jump at the start is defined or declared if its
method is compiled; otherwise only where library assembly defines or declares it or a compiled method
calls it. -/
theorem emitted_units_closed {o : Options} {p : Program} {scripts : ScriptTable} {text : String}
    (h : emit o p scripts = .ok text) : ∃ u, Parts.Of o p scripts u ∧ text = u.text p ∧
      (∀ l ∈ u.listings, ∀ operands, .instruction "CALL" operands ∈ l.lines →
        ∃ label, operands = [.label label] ∧ (label ∈ u.defined ∨ label ∈ u.externals)) ∧
      (∀ label, label ∈ u.externals ↔ label ∈ u.called ∧ label ∉ u.defined) ∧
      ∀ m, u.entry = some m →
        ((p.referenceOf m).asmLabel ∈ u.defined ∨ (p.referenceOf m).asmLabel ∈ u.externals ∨
            (p.referenceOf m).asmLabel ∈ u.directed ↔
          m.external = false ∨ (p.referenceOf m).asmLabel ∈ u.library.defined ∨
            (p.referenceOf m).asmLabel ∈ u.listings.map (·.label) ∨
            (p.referenceOf m).asmLabel ∈ u.called ∨ (p.referenceOf m).asmLabel ∈ u.directed) := by
  obtain ⟨u, hu, htext⟩ := emit_ok h
  refine ⟨u, hu, htext, ?_, hu.mem_externals, ?_⟩
  · intro l hl operands hline
    have hmem : Line.instruction "CALL" operands ∈ u.listings.flatMap (·.lines) :=
      List.mem_flatMap.2 ⟨l, hl, hline⟩
    have hsome := (compileMethods_ok hu.listings).2.labels _ hmem rfl
    obtain ⟨label, hlabel⟩ := Option.isSome_iff_exists.1 hsome
    refine ⟨label, Line.operands_of_call? hlabel, ?_⟩
    have hcalled : label ∈ u.called := List.mem_filterMap.2 ⟨_, hmem, hlabel⟩
    by_cases hdefined : label ∈ u.defined
    · exact .inl hdefined
    · exact .inr ((hu.mem_externals label).2 ⟨hcalled, hdefined⟩)
  · intro m hm
    have hiff := hu.mem_defined (p.referenceOf m).asmLabel
    rw [List.mem_append] at hiff
    constructor
    · rintro (hdefined | hexternal | hdirected)
      · rcases hiff.2 hdefined with hlisting | hlibrary
        · exact .inr (.inr (.inl hlisting))
        · exact .inr (.inl hlibrary)
      · exact .inr (.inr (.inr (.inl ((hu.mem_externals _).1 hexternal).1)))
      · exact .inr (.inr (.inr (.inr hdirected)))
    · rintro (hcomp | hlibrary | hlisting | hcalled | hdirected)
      · exact .inl (hu.mem_defined_of_mem (hu.entry_mem hm) hcomp)
      · exact .inl (hiff.1 (.inr hlibrary))
      · exact .inl (hiff.1 (.inl hlisting))
      · by_cases hdefined : (p.referenceOf m).asmLabel ∈ u.defined
        · exact .inl hdefined
        · exact .inr (.inl ((hu.mem_externals _).2 ⟨hcalled, hdefined⟩))
      · exact .inr (.inr hdirected)

namespace Sample

/-- Two methods of a library and one of the program, which calls the first of them. -/
def served : Program where
  namespaces := [⟨0, .explicit ⟨["Lib"]⟩, 0, [0, 1], []⟩, ⟨1, .explicit ⟨["App"]⟩, 1, [2], []⟩]
  methods :=
    [⟨0, 0, 0, ⟨["Log"]⟩, .void, [], true, .unknown, [], [], [], false⟩,
      ⟨1, 0, 0, ⟨["Start"]⟩, .void, [], true, .unknown, [], [], [], false⟩,
      ⟨2, 1, 1, ⟨["Run"]⟩, .void, [], false, .unknown, [], [],
        [.call .void ⟨["Lib"], ["Log"], []⟩, .ret], true⟩]

end Sample

/-- The called library method is declared; the one to start with is neither defined nor declared. -/
theorem start_left_undeclared : ∃ (text : String) (u : Parts) (m : Method),
      emit { entryPoint := some "Lib:Start?" } Sample.served .empty = .ok text ∧
      text = u.text Sample.served ∧ u.externals = ["Lib@Log?"] ∧ u.entry = some m ∧
      (Sample.served.referenceOf m).asmLabel = "Lib@Start?" ∧
      ¬("Lib@Start?" ∈ u.defined ∨ "Lib@Start?" ∈ u.externals ∨ "Lib@Start?" ∈ u.directed) := by
  have hemit : ((emit { entryPoint := some "Lib:Start?" } Sample.served .empty).map fun _ => ()) =
      .ok () := by decide +kernel
  have hcode : (compileMethods Sample.served (Sample.served.methods.filter fun m => !m.external)
      {}).map (fun r => (r.1.map (·.label), callsOf (r.1.flatMap (·.lines)), r.2.calls)) =
      .ok (["App@Run?"], ["Lib@Log?"], ["Lib@Log?"]) := by decide +kernel
  have hstart : ((entryPoint { entryPoint := some "Lib:Start?" } Sample.served).map
      (Option.map fun m => ((Sample.served.referenceOf m).asmLabel, m.external))) =
      .ok (some ("Lib@Start?", true)) := by decide +kernel
  obtain ⟨text, htext, -⟩ := Except.map_eq_ok_iff.1 hemit
  obtain ⟨u, hu, hparts, -, -, hentry⟩ := emitted_units_closed htext
  have hlibrary : u.library = {} := hu.library.symm
  have hlistings : compileMethods Sample.served _ {} = .ok (u.listings, u.shared) := hu.listings
  rw [hlistings] at hcode
  obtain ⟨hlabels, hcalled, hcalls⟩ :
      u.listings.map (·.label) = ["App@Run?"] ∧ u.called = ["Lib@Log?"] ∧
        u.shared.calls = ["Lib@Log?"] := by
    simpa [Except.map, Parts.called] using hcode
  rw [hu.entry] at hstart
  obtain ⟨m, hm, hlabel⟩ := Option.map_eq_some_iff.1 (Except.ok.inj hstart)
  obtain ⟨hlabel, hexternal⟩ := Prod.mk.inj hlabel
  refine ⟨text, u, m, htext, hparts, ?_, hm, hlabel, ?_⟩
  · rw [Parts.externals, hcalls, hlabels, hlibrary]
    decide
  · have hiff := hentry m hm
    rw [hlabel, hexternal, hlibrary, hlabels, hcalled, Parts.directed, hlibrary] at hiff
    rw [Parts.directed, hlibrary, hiff]
    decide

end ScriptCompiler.X86
