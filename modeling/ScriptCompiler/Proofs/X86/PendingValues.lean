import ScriptCompiler.Proofs.X86.Paths

/-!
# Values that are pending over a conditional

The virtual stack goes straight through both parts of a conditional, but a processor takes one of
them. An entry that no part moves keeps its word on every path. One that is moved in a part, because
the slot that it reads is assigned to there, is afterwards looked for in a scratch slot that a path
around this part does not write.
-/

set_option autoImplicit false

namespace ScriptCompiler.X86

open List

section

variable {p : Program} {m : Method} {shared : Shared} {l : Listing} {s r r' : State}
  {e : Setting} {k : Nat} {pre code post rest : Code}

/-- Whether the values of all parameters and locals of a program take bytes. -/
def Weighty (p : Program) : Prop :=
  ∀ m ∈ p.methods, ∀ t ∈ m.parameterTypes ++ m.locals, t.size ≠ 0

instance (p : Program) : Decidable (Weighty p) :=
  letI (m : Method) : Decidable (∀ t ∈ m.parameterTypes ++ m.locals, t.size ≠ 0) :=
    List.decidableBAll _ _
  inferInstanceAs (Decidable (∀ m ∈ p.methods, _))

theorem Compiled.regular (h : Compiled p m shared l s) (hp : Weighty p) (hm : m ∈ p.methods) :
    (startOf p m shared).frame.Regular := by
  intro index t ht
  have hmem : t ∈ m.parameterTypes ++ m.locals := by
    have ht : (if index < 0 then m.parameterTypes[(-index - 1).toNat]? else m.locals[index.toNat]?) =
        some t := ht
    split at ht
    · exact mem_append_left _ (mem_of_getElem? ht)
    · exact mem_append_right _ (mem_of_getElem? ht)
  exact ⟨h.supported t hmem, hp m hm t hmem⟩

theorem walk_settled {c : Context} {index : Nat} (hs : Settled (r.stage 0 []))
    (h : walk c index code r = .ok r') : Settled (r'.stage 0 []) := by
  induction code generalizing index r with
  | nil =>
    cases h
    exact hs
  | cons i _ ih =>
    obtain ⟨s₁, hstep, h⟩ := of_bind h
    obtain ⟨_, hacts, -⟩ := @step_ok c i 0 index r.mark s₁ hs.apart (Nat.zero_le _) hstep
    exact ih (hacts.settled hs) h

section

variable (h : Compiled p m shared l s)
include h

theorem Compiled.settled (hp : Weighty p) (hm : m ∈ p.methods)
    (hr : walk (.of p m) 0 pre (startOf p m shared) = .ok r) : Settled (r.stage 0 []) := by
  have hstart : Settled ((startOf p m shared).stage 0 []) := by
    refine ⟨h.regular hp hm, @start_apart (.of p m) (p.referenceOf m).asmLabel shared, ?_⟩
    intro _ _ hmem
    cases hmem
  exact walk_settled hstart hr

theorem Compiled.fits (hcode : m.code = pre ++ post)
    (hr : walk (.of p m) 0 pre (startOf p m shared) = .ok r) : r.frame.Fits s.frame.size := by
  have hwalk := h.code
  rw [hcode, walk_append, hr, ok_bind] at hwalk
  obtain ⟨-, hout, htemps⟩ := walk_extends (walk_apart start_apart hr) hwalk
  refine Frame.Fits.of_le ?_ hout htemps
  unfold Frame.Fits Frame.size align4
  omega

theorem Compiled.enter :
    l.lines[0]? = some (.instruction "ENTER" [.number s.frame.size, .number 0]) := by
  obtain ⟨_, _, -, -, hlines, -⟩ := h.lines_eq
  have hpos : 0 < s.listing.size := walk_size_le start_apart h.code
  rw [hlines, getElem?_set_self]
  rw [length_append]
  exact Nat.lt_add_right _ hpos

theorem Compiled.found (hcode : m.code = pre ++ post)
    (hr : walk (.of p m) 0 pre (startOf p m shared) = .ok r) {line : Nat} (hpos : 0 < line)
    (hline : line < r.listing.size) : l.lines[line]? = r.listing.lines[line]? := by
  have hapart := walk_apart start_apart hr
  have hrest := h.code
  rw [hcode, walk_append, hr, ok_bind] at hrest
  rw [h.getElem? hpos (Nat.lt_of_lt_of_le hline (walk_size_le hapart hrest))]
  exact walk_getElem? hapart hrest hline

theorem Compiled.region (hp : Weighty p) (he : e.size = s.frame.size)
    (hcode : m.code = pre ++ (code ++ post))
    (hr : walk (.of p m) 0 pre (startOf p m shared) = .ok r)
    (hr' : walk (.of p m) pre.length code r = .ok r') (hready : Ready (.of p m) k (code ++ rest) r) :
    Region e (.of p m) l k pre.length code rest r r' := by
  have hapart' := walk_apart (walk_apart start_apart hr) hr'
  have hwalk' : walk (.of p m) 0 (pre ++ code) (startOf p m shared) = .ok r' := by
    rw [walk_append, hr, ok_bind, Nat.zero_add, hr']
  have hcode' : m.code = (pre ++ code) ++ post := by rw [hcode, append_assoc]
  have hpos : 0 < r.listing.size := walk_size_le start_apart hr
  refine ⟨hready, hr', ?_, fun m hm t ht => hp m hm t (mem_append_left _ ht), ?_, ?_⟩
  · rw [he]
    exact h.fits hcode' hwalk'
  · intro line hlow hline
    exact h.found hcode' hwalk' (Nat.lt_of_lt_of_le hpos hlow) hline
  · intro _ line hbridge hlow _
    obtain ⟨_, _, q, hsplit, hq, rfl⟩ := h.landing hbridge
    rw [hcode] at hsplit
    rcases append_eq_append_iff.1 hsplit with ⟨bs, rfl, hbs⟩ | ⟨_, rfl, -⟩
    · rw [walk_append, hr, ok_bind, Nat.zero_add] at hq
      rcases append_eq_append_iff.1 hbs with ⟨cs, rfl, -⟩ | ⟨cs, hcs, -⟩
      · -- behind the code
        rw [walk_append, hr', ok_bind] at hq
        have hsize := walk_size_le hapart' hq
        exact ⟨code, [], r', (append_nil _).symm, hr', by omega⟩
      · exact ⟨bs, cs, q, hcs, hq, rfl⟩
    · -- before the code
      rw [walk_append, hq, ok_bind] at hr
      have hsize := walk_size_le (walk_apart start_apart hq) hr
      exact ⟨[], code, r, rfl, rfl, by omega⟩

end

end

/-! ## Entries that are moved -/

section

variable {c : Context} {i : Instruction} {index k q : Nat} {code rest : Code}
  {s s₁ s' : State} {v w : StackValue}

/-- Whether code assigns to the slot that an entry reads. -/
def Assigned (code : Code) (v : StackValue) : Prop :=
  ∃ i ∈ code, i.opcode = .setLocal ∧ ∃ t index, i.number? 0 = some index ∧ v = .stored t index

variable {t : Primitive}

theorem notMem_of_setLocal {j : Int} (hop : i.opcode = .setLocal) (hj : i.number? 0 = some j)
    (ha : Apart s.frame s.stack) (h : step c index i s.mark = .ok s₁) : .stored t j ∉ s₁.stack := by
  rw [step, hop] at h
  exact (setLocal_leads (k := 0) (s := s.mark) hop ha (Nat.zero_le _) h).2 j hj t

/-- An entry that is elsewhere behind code was moved by one of its instructions. -/
theorem Ready.moved (h : Ready c k (code ++ rest) s) (hwalk : X86.walk c index code s = .ok s')
    (hq : q < k) (hv : entryAt s.stack q = some v) (hw : entryAt s'.stack q = some w)
    (hne : w ≠ v) : ∃ a i b r r₁, code = a ++ i :: b ∧ X86.walk c index a s = .ok r ∧
      X86.walk c index (a ++ [i]) s = .ok r₁ ∧
      X86.walk c (index + (a ++ [i]).length) b r₁ = .ok s' ∧ entryAt r.stack q = some v ∧
      entryAt r₁.stack q = some w ∧ Becomes i v w := by
  induction code generalizing index s with
  | nil =>
    cases hwalk
    exact absurd (Option.some.inj (hw.symm.trans hv)) hne
  | cons i code ih =>
    obtain ⟨s₁, hstep, hwalk⟩ := of_bind hwalk
    obtain ⟨hk, hready⟩ := h.step hstep
    obtain ⟨_, hacts, -⟩ := @step_ok c i k index s.mark s₁ h.settled.apart hk hstep
    obtain ⟨u, hu, hbecomes⟩ := hacts.entry hq hv
    by_cases huv : u = v
    · subst huv
      obtain ⟨a, j, b, r, r₁, rfl, hr, hr₁, hb, hentry, hentry₁, hmoved⟩ := ih hready hwalk hu
      refine ⟨i :: a, j, b, r, r₁, rfl, ?_, ?_, ?_, hentry, hentry₁, hmoved⟩
      · rw [X86.walk, hstep]
        exact hr
      · rw [cons_append, X86.walk, hstep]
        exact hr₁
      · rw [cons_append, length_cons, ← Nat.add_assoc, Nat.add_right_comm]
        exact hb
    · obtain ⟨w', hw', hgoes⟩ := hready.entry hwalk hq hu
      obtain rfl : w = w' := Option.some.inj (hw.symm.trans hw')
      -- once in a scratch slot, the entry stays there
      obtain rfl : w = u := by
        rcases hgoes with rfl | ⟨hslot, -⟩
        · rfl
        · rcases hbecomes with rfl | ⟨⟨slot, rfl⟩, -⟩
          · exact absurd rfl huv
          · cases hslot
      refine ⟨[], i, code, s, s₁, rfl, rfl, ?_, hwalk, hv, hu, hbecomes⟩
      rw [nil_append, X86.walk, hstep]
      rfl

/-- Entries at different heights use different scratch slots. -/
theorem Apart.height_eq {f : Frame} {vs : Stack} {slot q' : Nat} (h : Apart f vs)
    (hv : entryAt vs q = some v) (hw : entryAt vs q' = some w) (hslot : v.slot? = some slot)
    (hslot' : w.slot? = some slot) : q = q' := by
  have hpairwise := pairwise_reverse.2 (h.pairwise.imp fun {_ _} hab => hab.2)
  rw [pairwise_iff_getElem] at hpairwise
  obtain ⟨hq, rfl⟩ := List.getElem?_eq_some_iff.1 hv
  obtain ⟨hq', rfl⟩ := List.getElem?_eq_some_iff.1 hw
  rcases Nat.lt_trichotomy q q' with hlt | heq | hlt
  · exact absurd hslot (hpairwise q q' hq hq' hlt slot hslot')
  · exact heq
  · exact absurd hslot' (hpairwise q' q hq' hq hlt slot hslot)

/-- The scratch slot to which code moves an entry was used by no pending one. -/
theorem Ready.slot_unused {slot : Nat} (h : Ready c s.stack.length (code ++ rest) s)
    (hwalk : X86.walk c index code s = .ok s') (hv : entryAt s.stack q = some v)
    (hw : entryAt s'.stack q = some (.temp t slot)) (hne : .temp t slot ≠ v) :
    ∀ u ∈ s.stack, u.slot? ≠ some slot := by
  intro u hu hslot
  obtain ⟨q', hq', hu⟩ : ∃ q' < s.stack.length, entryAt s.stack q' = some u := by
    obtain ⟨q', hq'⟩ := mem_iff_getElem?.1 (mem_reverse.2 hu)
    exact ⟨q', lt_of_entryAt hq', hq'⟩
  obtain ⟨u', hu', hgoes⟩ := h.entry hwalk hq' hu
  obtain rfl : u' = u := by
    rcases hgoes with rfl | ⟨hnone, -⟩
    · rfl
    · rw [hslot] at hnone
      cases hnone
  obtain rfl := (h.walk hwalk).settled.apart.height_eq hu' hw hslot rfl
  obtain rfl := Option.some.inj (hu'.symm.trans hw)
  exact hne (Option.some.inj (hu.symm.trans hv))

end

/-! ## Paths over a conditional -/

section

variable {e : Setting} {c : Context} {l : Listing} {k index n n' q : Nat}
  {code rest : Code} {s s₁ r r' : State} {lines closing : List Line}
  {u v w : StackValue} {x y z : Core} (hb : Block e k s s₁ lines closing)
  (hfound : ∀ line, s.listing.size ≤ line → line < s₁.listing.size →
    l.lines[line]? = s₁.listing.lines[line]?)

include hb hfound

/-- An instruction is run once by a path that jumps behind its lines only. -/
theorem Path.through_block (hx : x.reserved = 0) {target : Nat} (htarget : s₁.listing.size ≤ target)
    (h : Path e l s.listing.size s₁.listing.size s₁.listing.size n s.listing.size x target y) :
    Keeps e k (s.stage 0 []) (s₁.stage 0 []) x y ∧
      (target = s₁.listing.size ∨ ∃ bridge : Nat, l.bridges[bridge]? = some (some target)) := by
  obtain ⟨_, landing, _, hkeeps, hrest, hlanding⟩ := h.of_block hb hfound htarget hx
  have hle : s₁.listing.size ≤ landing := by
    rcases hlanding with ⟨rfl, -⟩ | ⟨-, hfloor, -⟩
    · exact Nat.le_refl _
    · exact hfloor
  obtain ⟨rfl, rfl⟩ := hrest.eq_of_le hle
  refine ⟨hkeeps, ?_⟩
  rcases hlanding with ⟨rfl, -⟩ | ⟨-, -, hbridge⟩
  · exact .inl rfl
  · exact .inr hbridge

/-- From an instruction on and through code that does not move an entry, its word is kept. -/
theorem Region.enters (h : Region e c l k index code rest s₁ r') (hq : q < k)
    (hu : entryAt s.stack q = some u) (hv : entryAt s₁.stack q = some v)
    (hv' : entryAt r'.stack q = some v) (hx : x.reserved = 0)
    (hpath : Path e l s.listing.size s₁.listing.size r'.listing.size n s.listing.size x
      r'.listing.size y) : y.reserved = 0 ∧ v.word e s₁.frame y.cpu = u.word e s.frame x.cpu := by
  have hsize := walk_size_le h.ready.settled.apart h.walk
  obtain ⟨m, landing, z, hkeeps, hrest, hlanding⟩ := hpath.of_block hb hfound hsize hx
  have hword : v.word e s₁.frame z.cpu = u.word e s.frame x.cpu := hkeeps.words q hq u v hu hv
  -- the path goes on from a boundary of the code
  obtain ⟨a, b, t, hcode, ht, rfl, hfloor⟩ : ∃ a b t, code = a ++ b ∧
      X86.walk c index a s₁ = .ok t ∧ t.listing.size = landing ∧ s₁.listing.size ≤ landing := by
    rcases hlanding with ⟨rfl, -⟩ | ⟨-, hfloor, bridge, hbridge⟩
    · exact ⟨[], code, s₁, rfl, rfl, rfl, Nat.le_refl _⟩
    · have hhigh := (hrest.bounds (Nat.le_trans (by
        rw [Listing.size, Listing.size, hb.lines_eq, length_append]
        exact Nat.le_add_right _ _) hsize) (Nat.le_refl _)).2
      obtain ⟨a, b, t, hcode, ht, hlanding⟩ := h.landing bridge landing hbridge hfloor hhigh
      exact ⟨a, b, t, hcode, ht, hlanding, hfloor⟩
  obtain ⟨hy, hkept⟩ := h.keeps hq hv hv' m hcode ht hkeeps.reserved (hrest.restrict hfloor)
  exact ⟨hy, hkept.trans hword⟩

/-- Past an instruction and to code behind it, what lies between the two is not run. -/
theorem Region.skips (h : Region e c l k index code rest r r')
    (hle : s₁.listing.size ≤ r.listing.size) (hq : q < k) (hu : entryAt s.stack q = some u)
    (hv : entryAt s₁.stack q = some v) (hw : entryAt r.stack q = some w)
    (hw' : entryAt r'.stack q = some w) (hx : x.reserved = 0) {line : Nat}
    (hpath : Path e l s.listing.size s₁.listing.size s₁.listing.size n s.listing.size x line z)
    (hline : r.listing.size ≤ line)
    (hpath' : Path e l r.listing.size r.listing.size r'.listing.size n' line z r'.listing.size y) :
    v.word e s₁.frame z.cpu = u.word e s.frame x.cpu ∧
      w.word e r.frame y.cpu = w.word e r.frame z.cpu := by
  obtain ⟨hkeeps, hlanding⟩ := hpath.through_block hb hfound hx (Nat.le_trans hle hline)
  refine ⟨hkeeps.words q hq u v hu hv, ?_⟩
  have hsize := walk_size_le h.ready.settled.apart h.walk
  obtain ⟨a, b, t, hcode, ht, rfl⟩ : ∃ a b t, code = a ++ b ∧
      X86.walk c index a r = .ok t ∧ t.listing.size = line := by
    rcases hlanding with _ | ⟨bridge, hbridge⟩
    · exact ⟨[], code, r, rfl, rfl, by omega⟩
    · exact h.landing bridge line hbridge hline (hpath'.bounds hsize (Nat.le_refl _)).2
  exact (h.keeps hq hw hw' n' hcode ht hkeeps.reserved hpath').2

end

/-! ## Conditionals -/

section

variable {p : Program} {m : Method} {shared : Shared} {l : Listing} {s s₀ s₁ s₂ r r₁ : State}
  {e : Setting} {c : Context} {index q : Nat} {before part after a b : Code}
  {i j : Instruction} {v v₁ w : StackValue}

theorem length_of_branch (hop : i.opcode = .branch) (hstep : step c index i s.mark = .ok s₁) :
    s₁.stack.length ≤ s.stack.length - c.takes i ∧ s.stack.length ≤ s₁.stack.length + 1 := by
  have hopen := hstep
  rw [step, hop] at hopen
  obtain ⟨⟨cond, number⟩, hcondition, -⟩ := of_bind hopen
  have hc : i.command? = some (.branch cond number) := by
    rw [Instruction.command?, hop]
    exact Instruction.branch?_of_condition (reading_ok hcondition)
  have htakes := takes_le hc rfl hstep
  have hfollows := (@step_handles False c i index False.elim s.mark False.elim).follows hc rfl
  rw [hstep] at hfollows
  have hlen : s₁.stack.length = s.stack.length - (if cond = .forced then 0 else 1) :=
    hfollows.2.2 (by simp)
  refine ⟨by omega, ?_⟩
  split at hlen <;> omega

theorem forced_of_isOperation (hop : i.opcode = .branch) (ha : Apart s.frame s.stack)
    (hstep : step c index i s.mark = .ok s₁) (hv : v ∈ s₁.stack) (hv' : v.isOperation = true) :
    ∃ number, i.branch? = some (.branch .forced number) := by
  rw [step, hop] at hstep
  obtain ⟨_, -, -, -, hforced | hclear⟩ :=
    @openBranch_ok c i 0 index s.mark s₁ hop ha (Nat.zero_le _) hstep
  · exact hforced
  · rw [hclear v hv] at hv'
    cases hv'

/-- Whether an entry has its word on every path from the first line of a conditional to its end that
does not go back to the test. -/
def Survives (e : Setting) (l : Listing) (s₀ s₁ s₂ : State) (v w : StackValue) : Prop :=
  ∀ n x y, x.reserved = 0 →
    Path e l s₀.listing.size s₁.listing.size s₂.listing.size n s₀.listing.size x
      s₂.listing.size y →
    w.word e s₂.frame y.cpu = v.word e s₀.frame x.cpu

/-- What becomes of an entry that an instruction of a conditional moves, between the states `r` and
`r₁`. -/
structure Strays (e : Setting) (l : Listing) (s₀ s₁ r r₁ s₂ : State) (v v₁ w : StackValue) :
    Prop where
  /-- A path through the instruction leaves the word where the entry is looked for. -/
  through : ∀ n n₁ n₂ x z z₁ y, x.reserved = 0 →
    Path e l s₀.listing.size s₁.listing.size r.listing.size n s₀.listing.size x r.listing.size z →
    Path e l r.listing.size r₁.listing.size r₁.listing.size n₁ r.listing.size z
      r₁.listing.size z₁ →
    Path e l r₁.listing.size r₁.listing.size s₂.listing.size n₂ r₁.listing.size z₁
      s₂.listing.size y →
    w.word e s₂.frame y.cpu = v.word e s₀.frame x.cpu
  /-- A path that jumps over it leaves the word where it was, and the place of the entry alone. -/
  around : ∀ n n₂ line x z y, x.reserved = 0 → r₁.listing.size ≤ line →
    Path e l s₀.listing.size s₁.listing.size s₁.listing.size n s₀.listing.size x line z →
    Path e l r₁.listing.size r₁.listing.size s₂.listing.size n₂ line z s₂.listing.size y →
    v₁.word e s₁.frame z.cpu = v.word e s₀.frame x.cpu ∧
      w.word e s₂.frame y.cpu = w.word e s₂.frame z.cpu

/-- A conditional in the code of a method, with `part` behind its test, which finds its operands above
the pending entries. -/
structure Conditional (p : Program) (m : Method) (shared : Shared)
    (before : Code) (i : Instruction) (part after : Code)
    (s₀ s₁ s₂ : State) : Prop where
  code : m.code = before ++ i :: (part ++ after)
  opcode : i.opcode = .branch
  level : (depth p m (part.filter fun a => a.opcode ≠ .jump) 0).isSome = true
  names : ∀ a ∈ part, NamesBytes a
  start : walk (.of p m) 0 before (startOf p m shared) = .ok s₀
  test : step (.of p m) before.length i s₀.mark = .ok s₁
  walk : walk (.of p m) (before.length + 1) part s₁ = .ok s₂

namespace Conditional

variable (h : Conditional p m shared before i part after s₀ s₁ s₂)
include h

theorem code_eq : m.code = before ++ [i] ++ (part ++ after) := by
  rw [h.code, append_assoc]
  rfl

theorem to_test : X86.walk (.of p m) 0 (before ++ [i]) (startOf p m shared) = .ok s₁ := by
  rw [walk_append, h.start, ok_bind, Nat.zero_add, X86.walk, h.test]
  rfl

theorem found (hc : Compiled p m shared l s) {line : Nat} (hlow : s₀.listing.size ≤ line)
    (hline : line < s₁.listing.size) : l.lines[line]? = s₁.listing.lines[line]? := by
  have hpos : 0 < s₀.listing.size := walk_size_le start_apart h.start
  exact hc.found h.code_eq h.to_test (Nat.lt_of_lt_of_le hpos hlow) hline

/-- Every entry that is pending behind the test was there before it. -/
theorem entry_before (hv₁ : entryAt s₁.stack q = some v₁) : ∃ v, entryAt s₀.stack q = some v := by
  have hlen := (length_of_branch h.opcode h.test).1
  have hq := lt_of_entryAt hv₁
  have hq' : q < s₀.stack.reverse.length := by
    rw [length_reverse]
    omega
  exact ⟨_, getElem?_eq_getElem hq'⟩

variable (hc : Compiled p m shared l s) (hp : Weighty p) (hm : m ∈ p.methods)
include hc hp hm

theorem ready : Ready (.of p m) s₁.stack.length part s₁ := by
  have hsized : Sized s₁.stack.length (s₁.stage 0 []) := by
    refine ⟨?_, ?_⟩
    · intro v hv
      cases hv
    · intro _ v hq hv
      exact absurd (lt_of_entryAt hv) (Nat.not_lt_of_le hq)
  exact ⟨hc.settled hp hm h.to_test, hsized, h.names, 0, rfl, h.level⟩

/-- Of the entries outside of `EAX`, those stay where they are that no instruction assigns to. -/
theorem stays_iff (hv₁ : entryAt s₁.stack q = some v₁) (hw : entryAt s₂.stack q = some w)
    (hplace : v₁.isOperation = false) : w = v₁ ↔ ¬Assigned part v₁ := by
  have hq := lt_of_entryAt hv₁
  have hready := h.ready hc hp hm
  rw [← append_nil part] at hready
  constructor
  · rintro rfl ⟨j, hj, hop, t, index, hindex, rfl⟩
    obtain ⟨a, b, hpart⟩ := append_of_mem hj
    have hwalk := h.walk
    rw [hpart, walk_append] at hwalk
    obtain ⟨r, r₁, hr, hstep, -⟩ := of_bind₂ hwalk
    have hr₁ : X86.walk (.of p m) (before.length + 1) (a ++ [j]) s₁ = .ok r₁ := by
      rw [walk_append, hr, ok_bind, X86.walk, hstep]
      rfl
    have hpart₁ : part = (a ++ [j]) ++ b := by rw [hpart, append_assoc]; rfl
    have hentry := hready.entry_between h.walk hq hv₁ hw hpart₁ hr₁
    have hapart := (walk_settled hready.settled hr).apart
    exact notMem_of_setLocal hop hindex hapart hstep (mem_of_entryAt hentry)
  · intro hassigned
    by_cases heq : w = v₁
    · exact heq
    obtain ⟨a, j, b, r, r₁, hpart, -, -, -, -, -, hbecomes⟩ := hready.moved h.walk hq hv₁ hw heq
    rcases hbecomes with rfl | ⟨-, hop | ⟨hop, index, hindex, hv⟩⟩
    · rfl
    · rw [hplace] at hop
      cases hop
    · refine absurd ⟨j, ?_, hop, v₁.type, index, hindex, hv⟩ hassigned
      rw [hpart]
      exact mem_append_right _ mem_cons_self

variable (he : e.size = s.frame.size)
include he

theorem block : ∃ lines closing, Block e s₁.stack.length s₀ s₁ lines closing := by
  refine step_block (hc.settled hp hm h.start) (length_of_branch h.opcode h.test).1 ?_
    (fun m hm t ht => hp m hm t (mem_append_left _ ht)) ?_ h.test
  · rw [he]
    exact hc.fits h.code_eq h.to_test
  · rw [h.opcode]
    intro hop
    cases hop

/-- The lines behind the test, up to an instruction and from it on. -/
theorem regions (hpart : part = a ++ b) (hr : X86.walk (.of p m) (before.length + 1) a s₁ = .ok r) :
    Region e (.of p m) l s₁.stack.length (before.length + 1) a b s₁ r ∧
      Region e (.of p m) l s₁.stack.length (before.length + 1 + a.length) b [] r s₂ := by
  have hready := h.ready hc hp hm
  have hrest := h.walk
  have hcode := h.code_eq
  subst hpart
  rw [append_assoc a] at hcode
  rw [walk_append, hr, ok_bind] at hrest
  have hlen : (before ++ [i]).length = before.length + 1 := length_append
  have hlen' : (before ++ [i] ++ a).length = before.length + 1 + a.length := by
    rw [length_append, hlen]
  rw [← hlen] at hr
  rw [← hlen'] at hrest ⊢
  rw [← hlen]
  have hr' : X86.walk (.of p m) 0 (before ++ [i] ++ a) (startOf p m shared) = .ok r := by
    rw [walk_append, h.to_test, ok_bind, Nat.zero_add]
    exact hr
  refine ⟨hc.region hp he hcode h.to_test hr hready, ?_⟩
  refine hc.region hp he (hcode.trans (append_assoc _ _ _).symm) hr' hrest ?_
  rw [append_nil]
  exact hready.walk hr

/-- An entry that stays where it is has its word on every path. -/
theorem survives (hv : entryAt s₀.stack q = some v) (hv₁ : entryAt s₁.stack q = some v₁)
    (hv₂ : entryAt s₂.stack q = some v₁) : Survives e l s₀ s₁ s₂ v v₁ := by
  intro _ _ _ hx hpath
  obtain ⟨_, _, hblock⟩ := h.block hc hp hm he
  have hregion := (h.regions hc hp hm he (nil_append part).symm rfl).2
  have hout := (walk_extends hregion.ready.settled.apart h.walk).2.1
  rw [StackValue.word_congr hout]
  exact (hregion.enters hblock (fun _ => h.found hc) (lt_of_entryAt hv₁) hv hv₁ hv₂ hx hpath).2

/-- An entry that an instruction moves is left behind by paths around this instruction. -/
theorem strays (hpart : part = a ++ j :: b)
    (hr : X86.walk (.of p m) (before.length + 1) a s₁ = .ok r)
    (hr₁ : X86.walk (.of p m) (before.length + 1) (a ++ [j]) s₁ = .ok r₁)
    (hv : entryAt s₀.stack q = some v) (hv₁ : entryAt s₁.stack q = some v₁)
    (hv₁' : entryAt r.stack q = some v₁) (hw : entryAt r₁.stack q = some w)
    (hw' : entryAt s₂.stack q = some w) : Strays e l s₀ s₁ r r₁ s₂ v v₁ w := by
  have hq := lt_of_entryAt hv₁
  have hpart₁ : part = (a ++ [j]) ++ b := by rw [hpart, append_assoc]; rfl
  obtain ⟨_, _, hblock⟩ := h.block hc hp hm he
  have hall := (h.regions hc hp hm he (nil_append part).symm rfl).2
  have hbefore := (h.regions hc hp hm he hpart hr).1
  have hbehind := (h.regions hc hp hm he hpart₁ hr₁).2
  have hapart := hall.ready.settled.apart
  have hout := (walk_extends hapart hr).2.1
  have houtline₂ := (walk_extends hbehind.ready.settled.apart hbehind.walk).2.1
  refine ⟨?_, ?_⟩
  · intro n _ n₂ x z z₁ y hx hpath hpath₁ hpath₂
    obtain ⟨hz, hword⟩ := hbefore.enters hblock (fun _ => h.found hc) hq hv hv₁ hv₁' hx hpath
    obtain ⟨_, _, _, hr₁', hblock', -, hfound'⟩ := hall.block hpart hr
    obtain rfl := Except.ok.inj (hr₁.symm.trans hr₁')
    have hlow := walk_size_le hapart hr
    obtain ⟨hkeeps, -⟩ := hpath₁.through_block hblock'
      (fun line hline => hfound' line (Nat.le_trans hlow hline)) hz (Nat.le_refl _)
    have hmoved : w.word e r₁.frame z₁.cpu = v₁.word e r.frame z.cpu :=
      hkeeps.words q hq v₁ w hv₁' hw
    have hkept := (hbehind.keeps hq hw hw' n₂ (nil_append b).symm rfl hkeeps.reserved hpath₂).2
    calc w.word e s₂.frame y.cpu = w.word e r₁.frame y.cpu := StackValue.word_congr houtline₂
      _ = w.word e r₁.frame z₁.cpu := hkept
      _ = v₁.word e r.frame z.cpu := hmoved
      _ = v₁.word e s₁.frame z.cpu := StackValue.word_congr hout
      _ = v.word e s₀.frame x.cpu := hword
  · intro n n₂ line x z y hx hline hpath hpath₂
    have hle := walk_size_le hapart hr₁
    rw [StackValue.word_congr houtline₂, StackValue.word_congr houtline₂]
    exact hbehind.skips hblock (fun _ => h.found hc) hle hq hv hv₁ hw hw' hx hpath hline hpath₂

end Conditional

/-- What becomes of the values that are pending over a conditional. Behind its test, one is in `EAX`
only if nothing is tested. Any other stays in its place exactly if its slot is not assigned to, and
one that stays has its word on every path. One that is moved is looked for in a scratch slot that no
pending value used: the slot has the word on paths through the instruction that moves the value, and
what it held before on paths around this instruction. -/
theorem pending_values_across_conditional {shared' : Shared} (hm : m ∈ p.methods) (hp : Weighty p)
    (h : compileMethod p m shared = .ok (l, shared'))
    (hcode : m.code = before ++ i :: (part ++ after)) (hop : i.opcode = .branch)
    (hlevel : (depth p m (part.filter fun a => a.opcode ≠ .jump) 0).isSome = true)
    (hnames : ∀ a ∈ part, NamesBytes a) :
    ∃ size s₀ s₁ s₂, l.lines[0]? = some (.instruction "ENTER" [.number size, .number 0]) ∧
      walk (.of p m) 0 before (startOf p m shared) = .ok s₀ ∧
      step (.of p m) before.length i s₀.mark = .ok s₁ ∧
      walk (.of p m) (before.length + 1) part s₁ = .ok s₂ ∧
      s₀.stack.length ≤ s₁.stack.length + 1 ∧
      ∀ q v₁, entryAt s₁.stack q = some v₁ → ∃ v w,
        entryAt s₀.stack q = some v ∧ entryAt s₂.stack q = some w ∧
        (v₁.isOperation = true → ∃ number, i.branch? = some (.branch .forced number)) ∧
        (v₁.isOperation = false → (w = v₁ ↔ ¬Assigned part v₁)) ∧
        (w = v₁ → ∀ label, Survives ⟨size, label⟩ l s₀ s₁ s₂ v w) ∧
        (w ≠ v₁ → ∃ a j b r r₁ slot, part = a ++ j :: b ∧
          walk (.of p m) (before.length + 1) a s₁ = .ok r ∧
          walk (.of p m) (before.length + 1) (a ++ [j]) s₁ = .ok r₁ ∧
          w = .temp v₁.type slot ∧ (∀ u ∈ s₁.stack, u.slot? ≠ some slot) ∧
          ∀ label, Strays ⟨size, label⟩ l s₀ s₁ r r₁ s₂ v v₁ w) := by
  obtain ⟨s, hc, -⟩ := compileMethod_ok h
  obtain ⟨s₀, s₁, s₂, hcond⟩ : ∃ s₀ s₁ s₂, Conditional p m shared before i part after s₀ s₁ s₂ := by
    have hwalk := hc.code
    rw [hcode, walk_append] at hwalk
    obtain ⟨s₀, hs₀, hwalk⟩ := Except.bind_eq_ok_iff.1 hwalk
    obtain ⟨s₁, hs₁, hwalk⟩ := Except.bind_eq_ok_iff.1 hwalk
    rw [walk_append] at hwalk
    obtain ⟨s₂, hs₂, -⟩ := Except.bind_eq_ok_iff.1 hwalk
    rw [Nat.zero_add] at hs₁ hs₂
    exact ⟨s₀, s₁, s₂, hcode, hop, hlevel, hnames, hs₀, hs₁, hs₂⟩
  have hready := hcond.ready hc hp hm
  rw [← List.append_nil part] at hready
  refine ⟨s.frame.size, s₀, s₁, s₂, hc.enter, hcond.start, hcond.test, hcond.walk,
    (length_of_branch hop hcond.test).2, ?_⟩
  intro q v₁ hv₁
  obtain ⟨v, hv⟩ := hcond.entry_before hv₁
  obtain ⟨w, hw, hgoes⟩ := hready.entry hcond.walk (lt_of_entryAt hv₁) hv₁
  refine ⟨v, w, hv, hw, ?_, hcond.stays_iff hc hp hm hv₁ hw, ?_, ?_⟩
  · have hapart := walk_apart start_apart hcond.start
    exact forced_of_isOperation hop hapart hcond.test (mem_of_entryAt hv₁)
  · rintro rfl label
    exact hcond.survives hc hp hm rfl hv hv₁ hw
  · intro hne
    obtain ⟨slot, rfl⟩ : ∃ slot, w = .temp v₁.type slot := by
      rcases hgoes with heq | ⟨-, hslot⟩
      · exact absurd heq hne
      · exact hslot
    obtain ⟨a, j, b, r, r₁, hpart, hr, hr₁, -, hv₁', hw', -⟩ :=
      hready.moved hcond.walk (lt_of_entryAt hv₁) hv₁ hw hne
    refine ⟨a, j, b, r, r₁, slot, hpart, hr, hr₁, rfl, ?_, fun label => ?_⟩
    · exact hready.slot_unused hcond.walk hv₁ hw hne
    · exact hcond.strays hc hp hm rfl hpart hr hr₁ hv hv₁ hv₁' hw' hw

end

namespace Sample

/-- The code up to a conditional, with a read pending. -/
def reads : Code := [.getLocal (-1), .getLocal (-2)]

/-- Code that assigns to the slot that is read. -/
def assignment : Code := [.loadConst .i32 "5", .setLocal (-1), .endBranch]

/-- A method that returns its first parameter as it was before the conditional. -/
def former : Method where
  id := 0
  owner := 0
  script := 0
  name := ⟨["F"]⟩
  returnType := .i32
  parameters := [⟨"a", .i32⟩, ⟨"b", .bool⟩]
  external := false
  span := ⟨1, 1, 4⟩
  code := reads ++ .branch .true none :: (assignment ++ [.ret])

/-- A program with this method. -/
def keeper : Program where
  namespaces := [⟨0, .explicit ⟨["App"]⟩, 0, [0], []⟩]
  methods := [former]

/-- Memory with the parameters 7 and false. -/
def called : Cpu where
  eax := 0
  ecx := 0
  edx := 0
  zero := none
  memory address := if address = 8 then 7 else 0

end Sample

/-- On the path around the assignment the parameter is 7, and the entry that reads it is looked for in
a scratch slot with 0. -/
theorem pending_value_lost_around_assignment :
    Weighty Sample.keeper ∧ (∀ a ∈ Sample.assignment, NamesBytes a) ∧
    ∃ l shared' s₀ s₁ s₂ y, compileMethod Sample.keeper Sample.former {} = .ok (l, shared') ∧
      walk (.of Sample.keeper Sample.former) 0 Sample.reads
        (startOf Sample.keeper Sample.former {}) = .ok s₀ ∧
      step (.of Sample.keeper Sample.former) 2 (.branch .true none) s₀.mark = .ok s₁ ∧
      walk (.of Sample.keeper Sample.former) 3 Sample.assignment s₁ = .ok s₂ ∧
      entryAt s₀.stack 0 = some (.stored .i32 (-1)) ∧ entryAt s₂.stack 0 = some (.temp .i32 0) ∧
      (∃ r r₁, Strays ⟨4, fun _ => 0⟩ l s₀ s₁ r r₁ s₂ (.stored .i32 (-1)) (.stored .i32 (-1))
        (.temp .i32 0)) ∧
      Path ⟨4, fun _ => 0⟩ l s₀.listing.size s₁.listing.size s₂.listing.size 3 s₀.listing.size
        ⟨Sample.called, 0⟩ s₂.listing.size y ∧
      (StackValue.stored .i32 (-1)).word ⟨4, fun _ => 0⟩ s₀.frame Sample.called = 7 ∧
      (StackValue.temp .i32 0).word ⟨4, fun _ => 0⟩ s₂.frame y.cpu = 0 := by
  have hp : Weighty Sample.keeper := by decide +kernel
  have hnames : ∀ a ∈ Sample.assignment, NamesBytes a := by decide +kernel
  have hcompile : (compileMethod Sample.keeper Sample.former {}).map
      (fun r => (r.1.lines.take 4, r.1.bridges)) =
      .ok ([.instruction "ENTER" [.number 4, .number 0],
        .instruction "MOVZX" [.register .eax, .parameter .byte 12],
        .instruction "TEST" [.register .eax, .register .eax], .jump "JZ" 0], [some 7]) := by
    decide +kernel
  obtain ⟨⟨l, shared'⟩, hl, hlines⟩ := Except.map_eq_ok_iff.1 hcompile
  obtain ⟨hlines, hbridges⟩ := Prod.mk.inj hlines
  have hfound : ∀ line < 4, l.lines[line]? = (l.lines.take 4)[line]? := by
    intro line hline
    rw [List.getElem?_take_of_lt hline]
  rw [hlines] at hfound
  obtain ⟨size, s₀, s₁, s₂, henter, hs₀, hs₁, hs₂, -, hall⟩ :=
    @pending_values_across_conditional Sample.keeper Sample.former {} l Sample.reads
      Sample.assignment [.ret] (.branch .true none) shared' List.mem_cons_self hp hl rfl rfl
      (by decide +kernel) hnames
  obtain rfl : size = 4 := by
    have hsize : (size : Int) = 4 := by simpa using henter.symm.trans (hfound 0 (by omega))
    omega
  have hstates : ((walk (.of Sample.keeper Sample.former) 0 Sample.reads
      (startOf Sample.keeper Sample.former {})).bind fun s₀ =>
        (step (.of Sample.keeper Sample.former) 2 (.branch .true none) s₀.mark).bind fun s₁ =>
          (walk (.of Sample.keeper Sample.former) 3 Sample.assignment s₁).map fun s₂ =>
            ((s₀.frame, s₀.stack, s₀.listing.size), (s₁.stack, s₁.listing.size),
              (s₂.frame, s₂.stack, s₂.listing.size))) =
      .ok ((⟨[.i32, .bool], [], 0, []⟩, [.stored .bool (-2), .stored .i32 (-1)], 1),
        ([.stored .i32 (-1)], 4), (⟨[.i32, .bool], [], 1, []⟩, [.temp .i32 0], 7)) := by
    decide +kernel
  have hs₁ : step (.of Sample.keeper Sample.former) 2 (.branch .true none) s₀.mark = .ok s₁ := hs₁
  have hs₂ : walk (.of Sample.keeper Sample.former) 3 Sample.assignment s₁ = .ok s₂ := hs₂
  rw [hs₀, Except.bind, hs₁, Except.bind, hs₂] at hstates
  simp only [Except.map, Except.ok.injEq, Prod.mk.injEq] at hstates
  obtain ⟨⟨hframe₀, hstack₀, hsize₀⟩, ⟨hstack₁, hsize₁⟩, hframe₂, hstack₂, hsize₂⟩ := hstates
  have hv₀ : entryAt s₀.stack 0 = some (.stored .i32 (-1)) := by rw [hstack₀]; rfl
  have hv₁ : entryAt s₁.stack 0 = some (.stored .i32 (-1)) := by rw [hstack₁]; rfl
  have hv₂ : entryAt s₂.stack 0 = some (.temp .i32 0) := by rw [hstack₂]; rfl
  obtain ⟨_, _, hv, hw, -, -, -, hmoved⟩ := hall 0 _ hv₁
  obtain rfl := Option.some.inj (hv.symm.trans hv₀)
  obtain rfl := Option.some.inj (hw.symm.trans hv₂)
  obtain ⟨-, -, -, r, r₁, -, -, -, -, -, -, hstrays⟩ := hmoved (by decide)
  -- the jump is taken
  have hpath : Path ⟨4, fun _ => 0⟩ l s₀.listing.size s₁.listing.size s₂.listing.size 3
      s₀.listing.size ⟨Sample.called, 0⟩ s₂.listing.size
      ⟨{ Sample.called with zero := some true }, 0⟩ := by
    rw [hsize₀, hsize₁, hsize₂]
    refine .next (by omega) (by omega) (hfound 1 (by omega)) (.plain rfl) ?_
    refine .next (by omega) (by omega) (hfound 2 (by omega)) (.plain rfl) ?_
    refine .jump (by omega) (by omega) (hfound 3 (by omega)) (by decide +kernel) ?_ ?_ .refl
    · exact congrArg (fun bridges : List (Option Nat) => bridges[0]?) hbridges
    · omega
  refine ⟨hp, hnames, l, shared', s₀, s₁, s₂, _, hl, hs₀, hs₁, hs₂, hv₀, hv₂,
    ⟨r, r₁, hstrays _⟩, hpath, ?_, ?_⟩
  · rw [hframe₀]
    decide +kernel
  · rw [hframe₂]
    decide +kernel

end ScriptCompiler.X86
