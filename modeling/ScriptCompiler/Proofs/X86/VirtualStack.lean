import ScriptCompiler.Proofs.X86.FrameLayout
import ScriptCompiler.X86.State

/-!
# What the virtual stack stands for

Each entry of the virtual stack stands for a value that is extended to 32 bits by its type. Entries
are kept apart: at most one of them is in `EAX`, and no scratch slot is used twice or both used and
free. Lines that only move entries leave the values alone (`Carries`); loading an entry brings its
value to a register.
-/

set_option autoImplicit false

namespace ScriptCompiler.X86

open List Option

/-! ## Entries and their values -/

namespace StackValue

/-- The scratch slot of an entry. -/
def slot? : StackValue → Option Nat
  | temp _ slot => some slot
  | _ => none

/-- Whether an entry is a word that can be brought to a register: a constant is a number of its type,
and a read slot has the type of the entry. -/
def Sound (f : Frame) (v : StackValue) : Prop :=
  v.type.isWord = true ∧
    match v with
    | constant t operand => ∃ n, operand = .number n ∧ t.holds n = true
    | .stored t index => f.localType index = .ok (some t)
    | _ => True

/-- Whether an entry stands for a number, which is a value of its type. -/
def Denotes (f : Frame) (c : Cpu) (v : StackValue) (n : Int) : Prop :=
  v.type.holds n = true ∧
    match v with
    | constant _ operand => operand = .number n
    | .stored t index => f.value c.memory index t = n
    | operation _ => c.eax = BitVec.ofInt 32 n
    | temp _ slot => c.memory.read (f.tempAddress slot) 4 = (BitVec.ofInt 32 n).toNat

variable {f g : Frame} {c d : Cpu} {v : StackValue} {n : Int}

theorem sound_congr (h : g.outline = f.outline) : v.Sound g ↔ v.Sound f := by
  have key : ∀ f : Frame, v.Sound f ↔ v.Sound f.outline := by
    intro f
    cases v <;> exact Iff.rfl
  rw [key g, h, ← key f]

theorem denotes_congr (h : g.outline = f.outline) : v.Denotes g c n ↔ v.Denotes f c n := by
  have key : ∀ f : Frame, v.Denotes f c n ↔ v.Denotes f.outline c n := by
    intro f
    cases v <;> exact Iff.rfl
  rw [key g, h, ← key f]

theorem Denotes.of_memory (h : v.Denotes f c n) (hv : v.isOperation = true → d.eax = c.eax)
    (hm : d.memory = c.memory) : v.Denotes f d n := by
  cases v with
  | operation => exact ⟨h.1, (hv rfl).trans h.2⟩
  | constant => exact h
  | stored => exact ⟨h.1, hm ▸ h.2⟩
  | temp => exact ⟨h.1, hm ▸ h.2⟩

theorem Denotes.write_temp {slot x : Nat} (h : v.Denotes f c n) (hv : v.Sound f)
    (hslot : v.slot? ≠ some slot) : v.Denotes f (c.store (f.tempAddress slot) 4 x) n := by
  cases v with
  | operation => exact h
  | constant => exact h
  | stored => exact ⟨h.1, (Frame.value_write_temp (of_checkIndex hv.2) slot x).trans h.2⟩
  | temp _ other =>
    have hne : slot ≠ other := fun he => hslot (congrArg some he.symm)
    exact ⟨h.1, (Frame.read_temp_write_of_ne hne x).trans h.2⟩

theorem Denotes.write_slot {i : Int} {t : Primitive} {x : Nat} (h : v.Denotes f c n)
    (hv : v.Sound f) (hi : f.localType? i = some t) (hread : ∀ u, v ≠ .stored u i) :
    v.Denotes f (c.store (f.address i) t.size x) n := by
  cases v with
  | operation => exact h
  | constant => exact h
  | stored u index =>
    have hne : index ≠ i := fun he => hread u (congrArg _ he)
    exact ⟨h.1, (Frame.value_write_of_ne (of_checkIndex hv.2) hi hne x).trans h.2⟩
  | temp _ slot => exact ⟨h.1, (Frame.read_temp_write_slot hi slot x).trans h.2⟩

end StackValue

/-! ## Lists side by side -/

/-- Whether two lists are as long as each other and have related elements at every place. -/
inductive Aligned {α β : Type} (R : α → β → Prop) : List α → List β → Prop where
  | nil : Aligned R [] []
  | cons {v : α} {x : β} {vs : List α} {σ : List β} :
      R v x → Aligned R vs σ → Aligned R (v :: vs) (x :: σ)

namespace Aligned

variable {α β : Type} {R S : α → β → Prop} {v : α} {vs ws : List α} {σ τ : List β}

theorem uncons (h : Aligned R (v :: vs) σ) : ∃ x τ, σ = x :: τ ∧ R v x ∧ Aligned R vs τ := by
  cases h with
  | cons hx hrest => exact ⟨_, _, rfl, hx, hrest⟩

theorem tail {x : β} (h : Aligned R (v :: vs) (x :: σ)) : Aligned R vs σ := by
  cases h with
  | cons _ hrest => exact hrest

theorem append (h₁ : Aligned R vs σ) (h₂ : Aligned R ws τ) : Aligned R (vs ++ ws) (σ ++ τ) := by
  induction h₁ with
  | nil => exact h₂
  | cons hx _ ih => exact .cons hx ih

theorem split (h : Aligned R (vs ++ ws) σ) :
    ∃ τ υ, σ = τ ++ υ ∧ Aligned R vs τ ∧ Aligned R ws υ := by
  induction vs generalizing σ with
  | nil => exact ⟨[], σ, rfl, .nil, h⟩
  | cons _ _ ih =>
    obtain ⟨x, σ, rfl, hx, hrest⟩ := h.uncons
    obtain ⟨τ, υ, rfl, hvs, hws⟩ := ih hrest
    exact ⟨x :: τ, υ, rfl, .cons hx hvs, hws⟩

theorem imp (h : Aligned R vs σ) (himp : ∀ v ∈ vs, ∀ x, R v x → S v x) : Aligned S vs σ := by
  induction h with
  | nil => exact .nil
  | cons hx _ ih =>
    exact .cons (himp _ mem_cons_self _ hx) (ih fun v hv => himp v (mem_cons_of_mem _ hv))

end Aligned

/-! ## Stacks of entries -/

/-- Whether entries are kept apart from each other and from the free scratch slots: no slot is used
twice or both used and free, and at most one entry is in `EAX`. -/
structure Apart (f : Frame) (vs : Stack) : Prop where
  nodup : (vs.filterMap StackValue.slot? ++ f.free).Nodup
  given : ∀ slot ∈ vs.filterMap StackValue.slot? ++ f.free, slot < f.temps
  single : vs.countP StackValue.isOperation ≤ 1

/-- Whether entries are words that are kept apart from each other and from the free scratch slots. -/
structure Tidy (f : Frame) (vs : Stack) : Prop where
  sound : ∀ v ∈ vs, v.Sound f
  nodup : (vs.filterMap StackValue.slot? ++ f.free).Nodup
  given : ∀ slot ∈ vs.filterMap StackValue.slot? ++ f.free, slot < f.temps
  single : vs.countP StackValue.isOperation ≤ 1

/-- Whether entries stand for the typed values of an operand stack, and the slots for those of a
store. -/
structure Represents (f : Frame) (c : Cpu) (vs : Stack) (σ : List (Primitive × Int))
    (s : Store Int Unit) : Prop where
  stack : Aligned (fun v x => v.type = x.1 ∧ v.Denotes f c x.2) vs σ
  slots : ∀ i t, f.localType? i = some t → f.value c.memory i t = s.locals i

namespace Represents

variable {f g : Frame} {c d : Cpu} {v : StackValue} {vs : Stack} {x : Primitive × Int}
  {σ : List (Primitive × Int)} {s : Store Int Unit}

theorem uncons (h : Represents f c (v :: vs) σ s) :
    ∃ x τ, σ = x :: τ ∧ v.type = x.1 ∧ v.Denotes f c x.2 ∧ Represents f c vs τ s := by
  obtain ⟨x, τ, rfl, ⟨htype, hx⟩, hrest⟩ := h.stack.uncons
  exact ⟨x, τ, rfl, htype, hx, hrest, h.slots⟩

section

variable (h : Represents f c vs σ s)
include h

theorem cons (htype : v.type = x.1) (hx : v.Denotes f c x.2) :
    Represents f c (v :: vs) (x :: σ) s :=
  ⟨.cons ⟨htype, hx⟩ h.stack, h.slots⟩

/-- Entries and slots depend on memory, and on `EAX` if an entry is there. -/
theorem keep (hout : g.outline = f.outline) (hmemory : d.memory = c.memory)
    (heax : ∀ v ∈ vs, v.isOperation = true → d.eax = c.eax) : Represents g d vs σ s where
  stack := h.stack.imp fun v hv _ hx =>
    ⟨hx.1, (StackValue.denotes_congr hout).2 (hx.2.of_memory (heax v hv) hmemory)⟩
  slots i t hi := by
    rw [Frame.localType?_congr hout] at hi
    rw [Frame.value_congr hout, hmemory]
    exact h.slots i t hi

theorem of_memory (hout : g.outline = f.outline) (hmemory : d.memory = c.memory)
    (hnone : ∀ v ∈ vs, v.isOperation = false) : Represents g d vs σ s := by
  refine h.keep hout hmemory fun v hv hop => ?_
  rw [hnone v hv] at hop
  cases hop

/-- A value is written to a slot that no entry reads. -/
theorem assign {i : Int} {t : Primitive} {n : Int} (hsound : ∀ v ∈ vs, v.Sound f)
    (hi : f.localType? i = some t) (ht : t.isWord = true) (hn : t.holds n = true)
    (hread : ∀ u, .stored u i ∉ vs) :
    Represents f (c.store (f.address i) t.size (BitVec.ofInt 32 n).toNat) vs σ (s.assign i n) where
  stack := h.stack.imp fun v hv _ hx =>
    ⟨hx.1, hx.2.write_slot (hsound v hv) hi fun u hu => hread u (hu ▸ hv)⟩
  slots j u hj := by
    rw [Cpu.store_memory]
    by_cases hji : j = i
    · subst hji
      have hsame : t = u := some.inj (hi.symm.trans hj)
      subst hsame
      rw [Frame.value_write_self ht hn]
      exact (if_pos rfl).symm
    · rw [Frame.value_write_of_ne hj hi hji]
      exact (h.slots j u hj).trans (if_neg hji).symm

end

end Represents

/-- Whether every entry stays where it is or goes to a scratch slot. -/
def Moved : Stack → Stack → Prop :=
  Aligned fun v w => w = v ∨ ∃ slot, w = .temp v.type slot

namespace Moved

variable {us vs ws : Stack}

theorem refl (vs : Stack) : Moved vs vs := by
  induction vs with
  | nil => exact .nil
  | cons _ _ ih => exact .cons (.inl rfl) ih

theorem trans (h₁ : Moved us vs) (h₂ : Moved vs ws) : Moved us ws := by
  induction h₁ generalizing ws with
  | nil => exact h₂
  | cons hv _ ih =>
    obtain ⟨_, _, rfl, hw, hrest⟩ := Aligned.uncons h₂
    refine .cons ?_ (ih hrest)
    rcases hv with rfl | ⟨slot, rfl⟩
    · exact hw
    · rcases hw with rfl | ⟨other, rfl⟩
      · exact .inr ⟨slot, rfl⟩
      · exact .inr ⟨other, rfl⟩

theorem types (h : Moved vs ws) : ws.map StackValue.type = vs.map StackValue.type := by
  induction h with
  | nil => rfl
  | cons hv _ ih =>
    rw [map_cons, map_cons, ih]
    rcases hv with rfl | ⟨_, rfl⟩ <;> rfl

theorem notMem_stored {t : Primitive} {index : Int} (h : Moved vs ws)
    (hnone : .stored t index ∉ vs) : .stored t index ∉ ws := by
  induction h with
  | nil => exact hnone
  | cons hv _ ih =>
    rw [mem_cons, not_or] at hnone ⊢
    refine ⟨?_, ih hnone.2⟩
    rcases hv with rfl | ⟨_, rfl⟩
    · exact hnone.1
    · exact fun h => by cases h

end Moved

/-- Whether lines move entries about: they lead to entries that stand for the same values. -/
structure Carries (f : Frame) (vs : Stack) (lines : List Line) (g : Frame)
    (ws : Stack) : Prop where
  outline : g.outline = f.outline
  tidy : Tidy g ws
  moved : Moved vs ws
  run : ∀ c σ s, Represents f c vs σ s → ∃ d, Cpu.run lines c = some d ∧ Represents g d ws σ s

namespace Carries

variable {f g h : Frame} {us vs ws : Stack} {a b : List Line}

theorem refl (ht : Tidy f vs) : Carries f vs [] f vs where
  outline := rfl
  tidy := ht
  moved := .refl vs
  run c _ _ hc := ⟨c, rfl, hc⟩

theorem trans (h₁ : Carries f us a g vs) (h₂ : Carries g vs b h ws) :
    Carries f us (a ++ b) h ws where
  outline := h₂.outline.trans h₁.outline
  tidy := h₂.tidy
  moved := h₁.moved.trans h₂.moved
  run c σ s hc := by
    obtain ⟨d, hd, hrep⟩ := h₁.run c σ s hc
    obtain ⟨e, he, hrep⟩ := h₂.run d σ s hrep
    exact ⟨e, Cpu.run_append_of hd he, hrep⟩

end Carries

/-! ## Scratch slots -/

/-- A scratch slot that is given out is used by no entry. -/
theorem allocTemp_spec {f g : Frame} {slot : Nat} {used : List Nat} (h : f.allocTemp = (g, slot))
    (hnodup : (used ++ f.free).Nodup) (hgiven : ∀ k ∈ used ++ f.free, k < f.temps) :
    (slot :: (used ++ g.free)).Nodup ∧ ∀ k ∈ slot :: (used ++ g.free), k < g.temps := by
  unfold Frame.allocTemp at h
  split at h
  · rename_i first rest hfree
    cases h
    rw [hfree] at hnodup hgiven
    refine ⟨perm_middle.nodup_iff.1 hnodup, fun k hk => hgiven k ?_⟩
    exact perm_middle.mem_iff.2 hk
  · rename_i hfree
    cases h
    refine ⟨nodup_cons.2 ⟨fun hk => ?_, hnodup⟩, fun k hk => ?_⟩
    · exact Nat.lt_irrefl _ (hgiven _ hk)
    · rcases mem_cons.1 hk with rfl | hk
      · exact Nat.lt_succ_self _
      · exact Nat.lt_succ_of_lt (hgiven k hk)

/-- A scratch slot is taken from the free ones or made anew. -/
theorem allocTemp_slot {f g : Frame} {slot : Nat} (h : f.allocTemp = (g, slot)) :
    f.temps ≤ g.temps ∧ (slot ∈ f.free ∨ slot = f.temps) := by
  unfold Frame.allocTemp at h
  split at h
  · rename_i first rest hfree
    cases h
    exact ⟨Nat.le_refl _, .inl (hfree ▸ mem_cons_self)⟩
  · cases h
    exact ⟨Nat.le_succ _, .inr rfl⟩

theorem allocTemp_outline {f g : Frame} {slot : Nat} (h : f.allocTemp = (g, slot)) :
    g.outline = f.outline := by
  unfold Frame.allocTemp at h
  split at h <;> cases h <;> rfl

/-- The frame after the scratch slot of an entry, if it has one, was given back. -/
def Frame.release (f : Frame) (v : StackValue) : Frame :=
  match v.slot? with
  | some slot => f.freeTemp slot
  | none => f

theorem Frame.release_outline (f : Frame) (v : StackValue) : (f.release v).outline = f.outline := by
  unfold release
  cases v.slot? <;> rfl

theorem Frame.temps_release (f : Frame) (v : StackValue) : (f.release v).temps = f.temps := by
  unfold release
  cases v.slot? <;> rfl

namespace Apart

variable {f g : Frame} {v : StackValue} {vs ws : Stack} {slot : Nat}

theorem perm (h : Apart f vs) (hperm : vs.Perm ws) : Apart f ws := by
  have hslots := (hperm.filterMap StackValue.slot?).append_right f.free
  refine ⟨hslots.nodup_iff.1 h.nodup, fun k hk => h.given k (hslots.mem_iff.2 hk), ?_⟩
  rw [← hperm.countP_eq]
  exact h.single

theorem slot?_ne_of_allocTemp (h : Apart f vs) (halloc : f.allocTemp = (g, slot)) (w : StackValue)
    (hw : w ∈ vs) : w.slot? ≠ some slot := by
  obtain ⟨hnodup, -⟩ := allocTemp_spec halloc h.nodup h.given
  intro hslot
  apply (nodup_cons.1 hnodup).1
  exact mem_append_left _ (mem_filterMap.2 ⟨w, hw, hslot⟩)

theorem isOperation_of_cons (h : Apart f (v :: vs)) (hv : v.isOperation = true) :
    ∀ w ∈ vs, w.isOperation = false := by
  have hsingle := h.single
  rw [countP_cons, if_pos hv] at hsingle
  have hnone : vs.countP StackValue.isOperation = 0 := by omega
  exact fun w hw => Bool.eq_false_iff.2 (countP_eq_zero.1 hnone w hw)

/-- Once the entry in `EAX` is in a scratch slot, none is in `EAX`. -/
theorem isOperation_of_moved {held before after : Stack} {t : Primitive}
    (h : Apart f (held ++ (before ++ .operation t :: after))) (slot : Nat) :
    ∀ w ∈ before ++ .temp t slot :: after, w.isOperation = false := by
  rw [← append_assoc] at h
  have hnone := (h.perm perm_middle).isOperation_of_cons rfl
  intro w hw
  rcases mem_cons.1 (perm_middle.mem_iff.1 hw) with rfl | hw
  · rfl
  · refine hnone w ?_
    rw [append_assoc]
    exact mem_append_right _ hw

theorem to_temp (h : Apart f (v :: vs)) (hv : v.slot? = none) (halloc : f.allocTemp = (g, slot))
    (t : Primitive) : Apart g (.temp t slot :: vs) := by
  have hused : (v :: vs).filterMap StackValue.slot? = vs.filterMap StackValue.slot? := by simp [hv]
  have hslots : (StackValue.temp t slot :: vs).filterMap StackValue.slot? =
      slot :: vs.filterMap StackValue.slot? := by
    simp [StackValue.slot?]
  obtain ⟨hnodup, hgiven⟩ := allocTemp_spec halloc h.nodup h.given
  rw [hused] at hnodup hgiven
  refine ⟨hslots ▸ hnodup, hslots ▸ hgiven, ?_⟩
  have hsingle := h.single
  simp only [countP_cons, StackValue.isOperation, Bool.false_eq_true, if_false] at hsingle ⊢
  omega

theorem push (h : Apart f vs) (hslot : v.slot? = none)
    (hop : v.isOperation = true → ∀ w ∈ vs, w.isOperation = false) : Apart f (v :: vs) := by
  have hslots : (v :: vs).filterMap StackValue.slot? = vs.filterMap StackValue.slot? := by
    simp [hslot]
  refine ⟨hslots ▸ h.nodup, hslots ▸ h.given, ?_⟩
  rw [countP_cons]
  split
  · rename_i hv
    have hnone : vs.countP StackValue.isOperation = 0 :=
      countP_eq_zero.2 fun w hw => Bool.eq_false_iff.1 (hop hv w hw)
    omega
  · exact h.single

theorem release (h : Apart f (v :: vs)) : Apart (f.release v) vs := by
  have hsingle : vs.countP StackValue.isOperation ≤ 1 := by
    have := h.single
    rw [countP_cons] at this
    omega
  have hnodup := h.nodup
  have hgiven := h.given
  rw [filterMap_cons] at hnodup hgiven
  unfold Frame.release
  cases hslot : v.slot? with
  | none =>
    rw [hslot] at hnodup hgiven
    exact ⟨hnodup, hgiven, hsingle⟩
  | some slot =>
    rw [hslot] at hnodup hgiven
    have hperm : (vs.filterMap StackValue.slot? ++ slot :: f.free).Perm
        (slot :: (vs.filterMap StackValue.slot? ++ f.free)) := perm_middle
    exact ⟨hperm.nodup_iff.2 hnodup, fun k hk => hgiven k (hperm.mem_iff.1 hk), hsingle⟩

end Apart

namespace Tidy

variable {f g : Frame} {before after : Stack} {v : StackValue} {slot : Nat}
  {vs : Stack}

theorem apart (ht : Tidy f vs) : Apart f vs :=
  ⟨ht.nodup, ht.given, ht.single⟩

theorem of_apart (h : Apart f vs) (hsound : ∀ v ∈ vs, v.Sound f) : Tidy f vs :=
  ⟨hsound, h.nodup, h.given, h.single⟩

theorem to_temp (ht : Tidy f (before ++ v :: after)) (hv : v.slot? = none)
    (halloc : f.allocTemp = (g, slot)) : Tidy g (before ++ .temp v.type slot :: after) := by
  have hout := allocTemp_outline halloc
  have hapart := (ht.apart.perm perm_middle).to_temp hv halloc v.type
  refine of_apart (hapart.perm perm_middle.symm) ?_
  intro w hw
  rw [StackValue.sound_congr hout]
  simp only [mem_append, mem_cons] at hw
  rcases hw with hw | rfl | hw
  · exact ht.sound w (by simp [hw])
  · exact ⟨(ht.sound v (by simp)).1, trivial⟩
  · exact ht.sound w (by simp [hw])

theorem push {vs : Stack} (ht : Tidy f vs) (hv : v.Sound f) (hslot : v.slot? = none)
    (hop : v.isOperation = true → ∀ w ∈ vs, w.isOperation = false) : Tidy f (v :: vs) :=
  of_apart (ht.apart.push hslot hop) (forall_mem_cons.2 ⟨hv, ht.sound⟩)

theorem release (ht : Tidy f (before ++ v :: after)) : Tidy (f.release v) (before ++ after) := by
  refine of_apart (ht.apart.perm perm_middle).release ?_
  intro w hw
  rw [StackValue.sound_congr (f.release_outline v)]
  apply ht.sound w
  simp only [mem_append, mem_cons] at hw ⊢
  exact hw.imp_right .inr

end Tidy

theorem tempOperand_address? (f : Frame) (slot : Nat) :
    (f.tempOperand slot).address? = some (f.tempAddress slot) := by
  simp only [Frame.tempOperand, Operand.address?, Frame.tempAddress]
  push_cast
  rfl

theorem Frame.execute_store_temp (f : Frame) (slot : Nat) {r : Register} {c : Cpu}
    {word : BitVec 32} (hr : r.width = .dword) (hread : c.read (.register r) = some word) :
    c.execute "MOV" [f.tempOperand slot, .register r] =
      some (c.store (f.tempAddress slot) 4 word.toNat) := by
  have hwidth : (f.tempOperand slot).width? = some .dword := rfl
  rw [Cpu.execute_mov hwidth (Operand.width?_register hr) (by simp [Operand.isMemory]), hread]
  exact Cpu.write_memory rfl rfl (tempOperand_address? f slot) c word

/-- An entry goes to a scratch slot by way of a register. -/
theorem carries_to_temp {f g : Frame} {before after : Stack} {v : StackValue}
    {slot : Nat} {lines : List Line} {r : Register} (ht : Tidy f (before ++ v :: after))
    (hv : v.slot? = none) (halloc : f.allocTemp = (g, slot)) (hr : r.width = .dword)
    (hload : ∀ c n, v.Denotes f c n → ∃ d, Cpu.run lines c = some d ∧
      d.read (.register r) = some (BitVec.ofInt 32 n) ∧ d.eax = c.eax ∧ d.memory = c.memory) :
    Carries f (before ++ v :: after)
      (lines ++ [Line.instruction "MOV" [g.tempOperand slot, .register r]]) g
      (before ++ StackValue.temp v.type slot :: after) := by
  have hout := allocTemp_outline halloc
  have hfresh := ht.apart.slot?_ne_of_allocTemp halloc
  have haddress := Frame.tempAddress_congr hout
  refine ⟨hout, ht.to_temp hv halloc, ?_, ?_⟩
  · exact Aligned.append (Moved.refl before) (.cons (.inr ⟨slot, rfl⟩) (Moved.refl after))
  · intro c σ _ hc
    obtain ⟨τ, υ, rfl, hbefore, hrest⟩ := hc.stack.split
    obtain ⟨x, υ, rfl, hx, hafter⟩ := hrest.uncons
    obtain ⟨d, hd, hread, heax, hmemory⟩ := hload c x.2 hx.2
    -- the other entries are neither in the register nor in the slot
    have hother : ∀ w ∈ before ++ v :: after, ∀ n, w.Denotes f c n →
        w.Denotes g (d.store (f.tempAddress slot) 4 (BitVec.ofInt 32 x.2).toNat) n := by
      intro w hw n hn
      rw [StackValue.denotes_congr hout]
      have hd := hn.of_memory (fun _ => heax) hmemory
      exact hd.write_temp (ht.sound w hw) (hfresh w hw)
    refine ⟨d.store (f.tempAddress slot) 4 (BitVec.ofInt 32 x.2).toNat,
      Cpu.run_append_of hd (Cpu.run_cons_of ?_ rfl), ?_, ?_⟩
    · rw [g.execute_store_temp slot hr hread, haddress]
    · refine Aligned.append ?_ (.cons ⟨hx.1, hx.2.1, ?_⟩ ?_)
      · exact hbefore.imp fun w hw y hy => ⟨hy.1, hother w (mem_append_left _ hw) y.2 hy.2⟩
      · show Memory.read _ (g.tempAddress slot) 4 = _
        rw [haddress, Cpu.store_memory, Memory.read_write_self]
        exact Nat.mod_eq_of_lt (BitVec.ofInt 32 x.2).isLt
      · exact hafter.imp fun w hw y hy => ⟨hy.1, hother w (by simp [hw]) y.2 hy.2⟩
    · intro i t hi
      rw [Frame.localType?_congr hout] at hi
      rw [Frame.value_congr hout, Cpu.store_memory, Frame.value_write_temp hi, hmemory]
      exact hc.slots i t hi

/-! ## Spilling -/

namespace State

/-- The state after more lines, with another frame and other entries. -/
def advance (s : State) (lines : List Line) (frame : Frame) (stack : Stack) : State :=
  { s with frame, stack, listing := { s.listing with lines := s.listing.lines ++ lines } }

variable {vs : Stack} (s : State)

@[simp] theorem advance_frame (lines : List Line) (f : Frame) (vs : Stack) :
    (s.advance lines f vs).frame = f := rfl

@[simp] theorem advance_stack (lines : List Line) (f : Frame) (vs : Stack) :
    (s.advance lines f vs).stack = vs := rfl

theorem advance_nil : s.advance [] s.frame s.stack = s := by simp [advance]

theorem advance_advance (a b : List Line) (f g : Frame) (vs ws : Stack) :
    (s.advance a f vs).advance b g ws = s.advance (a ++ b) g ws := by
  simp [advance]

theorem op_eq_advance (mnemonic : String) (operands : List Operand) :
    s.op mnemonic operands = s.advance [.instruction mnemonic operands] s.frame s.stack := rfl

theorem advance_op (lines : List Line) (f : Frame) (vs : Stack) (mnemonic : String)
    (operands : List Operand) : (s.advance lines f vs).op mnemonic operands =
      s.advance (lines ++ [.instruction mnemonic operands]) f vs :=
  s.advance_advance lines [.instruction mnemonic operands] f f vs vs

theorem replaceOperation_cases (slot : Nat) (vs : Stack) :
    replaceOperation slot vs = none ∧ (∀ v ∈ vs, v.isOperation = false) ∨
      ∃ before t after, vs = before ++ .operation t :: after ∧
        replaceOperation slot vs = some (before ++ .temp t slot :: after) := by
  induction vs with
  | nil => exact .inl ⟨rfl, by simp⟩
  | cons v rest ih =>
    rw [replaceOperation]
    rcases ih with ⟨hrest, hnone⟩ | ⟨before, t, after, rfl, hrest⟩
    · rw [hrest]
      cases v with
      | operation t => exact .inr ⟨[], t, rest, rfl, rfl⟩
      | constant | stored | temp => exact .inl ⟨rfl, forall_mem_cons.2 ⟨rfl, hnone⟩⟩
    · rw [hrest]
      exact .inr ⟨v :: before, t, after, rfl, rfl⟩

/-- The entry in `EAX` is moved to a scratch slot, if there is one. -/
theorem spill_cases (s : State) :
    s.spill = s ∧ (∀ v ∈ s.stack, v.isOperation = false) ∨ ∃ g slot before t after,
      s.frame.allocTemp = (g, slot) ∧ s.stack = before ++ StackValue.operation t :: after ∧
      s.spill = s.advance [.instruction "MOV" [g.tempOperand slot, .register .eax]] g
        (before ++ StackValue.temp t slot :: after) := by
  rcases halloc : s.frame.allocTemp with ⟨g, slot⟩
  unfold spill
  rw [halloc]
  dsimp only
  rcases replaceOperation_cases slot s.stack with
    ⟨hreplace, hnone⟩ | ⟨before, t, after, hstack, hreplace⟩
  · rw [hreplace]
    exact .inl ⟨rfl, hnone⟩
  · rw [hreplace]
    exact .inr ⟨g, slot, before, t, after, rfl, hstack, rfl⟩

theorem spill_carries (held : Stack) (s : State) (ht : Tidy s.frame (held ++ s.stack)) :
    ∃ lines g ws, s.spill = s.advance lines g ws ∧
      Carries s.frame (held ++ s.stack) lines g (held ++ ws) ∧ ∀ v ∈ ws, v.isOperation = false := by
  rcases s.spill_cases with ⟨hspill, hnone⟩ | ⟨g, slot, before, t, after, halloc, hstack, hspill⟩
  · exact ⟨[], s.frame, s.stack, hspill.trans s.advance_nil.symm, .refl ht, hnone⟩
  · have hsplit : held ++ s.stack = (held ++ before) ++ .operation t :: after := by
      rw [hstack, append_assoc]
    rw [hsplit] at ht ⊢
    refine ⟨_, g, _, hspill, ?_, ?_⟩
    · have hcarries := @carries_to_temp s.frame g (held ++ before) after (.operation t) slot []
        .eax ht rfl halloc rfl fun c _ hn => ⟨c, rfl, congrArg some hn.2, rfl, rfl⟩
      simpa only [append_assoc, nil_append, StackValue.type] using hcarries
    · rw [append_assoc] at ht
      exact ht.apart.isOperation_of_moved slot

/-- `EAX` is made free for an entry that may be there itself. -/
theorem spill_unless_operation (v : StackValue) (s : State) (ht : Tidy s.frame (v :: s.stack)) :
    ∃ lines g ws, (if v.isOperation then s else s.spill) = s.advance lines g ws ∧
      Carries s.frame (v :: s.stack) lines g (v :: ws) ∧ ∀ w ∈ ws, w.isOperation = false := by
  by_cases hv : v.isOperation = true
  · rw [if_pos hv]
    exact ⟨[], s.frame, s.stack, s.advance_nil.symm, .refl ht, ht.apart.isOperation_of_cons hv⟩
  · rw [if_neg hv]
    exact spill_carries [v] s ht

end State

/-! ## Loading -/

variable {t : Primitive}

theorem ofInt_lowBits (ht : t.isWord = true) (n : Int) : BitVec.ofInt 32 (t.lowBits n) =
      if t.isSigned then ((BitVec.ofInt 32 n).setWidth t.bits).signExtend 32
      else ((BitVec.ofInt 32 n).setWidth t.bits).setWidth 32 := by
  rw [setWidth_ofInt (Primitive.bits_le ht)]
  exact t.ofInt_lowBits n

/-- A load extends a value by its type. -/
theorem Cpu.execute_load {o : Operand} {address : Int} {r : Register} (ht : t.isWord = true)
    (hm : o.isMemory = true) (hw : o.width? = some (.ofSize t.size))
    (ha : o.address? = some address) (hr : r.width = .dword) (c : Cpu) :
    c.execute (State.loadMnemonic t) [.register r, o] =
      c.write (.register r) (BitVec.ofInt 32 (t.lowBits (c.memory.read address t.size))) := by
  have hread := c.read_memory hm hw ha
  have hbytes := bytes_ofSize ht
  have hlt := c.memory.read_lt address t.size
  rw [hbytes] at hread
  rw [ofInt_lowBits ht, BitVec.ofInt_natCast]
  generalize c.memory.read address t.size = x at hread hlt
  unfold State.loadMnemonic
  split
  · have hsize : t.size = 4 := by
      have := Primitive.bits_le ht
      unfold Primitive.bits at this
      omega
    have hmemory : ¬((Operand.register r).isMemory = true ∧ o.isMemory = true) := by
      simp [Operand.isMemory]
    rw [hsize] at hw
    rw [execute_mov (Operand.width?_register hr) hw hmemory, hread, bind_some, Primitive.bits, hsize]
    simp
  · have hwidth : Width.ofSize t.size ≠ .dword := by
      intro hw
      rw [hw] at hbytes
      exact ‹¬4 ≤ t.size› (Nat.le_of_eq hbytes)
    split
    · rw [← bits_ofSize ht]
      exact extend_eq true hw hwidth hread hr
    · have hpow : 256 ^ t.size = 2 ^ t.bits := by
        rw [Primitive.bits, Nat.pow_mul]
      have hle : 2 ^ t.bits ≤ 2 ^ 32 := Nat.pow_le_pow_right (by decide) (Primitive.bits_le ht)
      have hzeros : ((BitVec.ofNat 32 x).setWidth t.bits).setWidth 32 = BitVec.ofNat 32 x := by
        apply BitVec.eq_of_toNat_eq
        rw [BitVec.toNat_setWidth, BitVec.toNat_setWidth, BitVec.toNat_ofNat]
        rw [Nat.mod_eq_of_lt (show x < 2 ^ 32 by omega), Nat.mod_eq_of_lt (show x < 2 ^ t.bits by omega)]
        exact Nat.mod_eq_of_lt (by omega)
      rw [hzeros]
      exact extend_eq false hw hwidth hread hr

theorem Frame.execute_load_temp (f : Frame) (slot : Nat) {r : Register} (hr : r.width = .dword)
    (c : Cpu) : c.execute "MOV" [.register r, f.tempOperand slot] =
      c.write (.register r) (.ofNat 32 (c.memory.read (f.tempAddress slot) 4)) := by
  have hwidth : (f.tempOperand slot).width? = some .dword := rfl
  rw [Cpu.execute_mov (Operand.width?_register hr) hwidth (by simp [Operand.isMemory]),
    c.read_memory rfl hwidth (tempOperand_address? f slot), bind_some]
  rfl

/-- A value of a type can be written in an instruction of at least its width. -/
theorem Width.accepts_of_holds {w : Width} {n : Int} (hle : t.bits ≤ w.bits) (h : t.holds n = true) :
    w.accepts n = true := by
  have hpow : ∀ {j k : Nat}, j ≤ k → (2 : Int) ^ j ≤ 2 ^ k := by
    intro j k hjk
    exact_mod_cast Nat.pow_le_pow_right (by decide) hjk
  have hhalf := hpow (show t.bits - 1 ≤ w.bits - 1 by omega)
  have hwhole := hpow hle
  have hlow := hpow (show t.bits - 1 ≤ w.bits by omega)
  have hpos : (0 : Int) < 2 ^ (w.bits - 1) := Int.pow_pos (by decide)
  rw [Primitive.holds_iff] at h
  rw [accepts, Integer.least, Bool.and_eq_true, decide_eq_true_eq, decide_eq_true_eq]
  split at h <;> omega

variable (c : Context)

/-- Loading brings the value of an entry to a register and changes nothing else. -/
theorem State.load_spec (s : State) {v : StackValue} (hv : v.Sound s.frame) {r : Register}
    (hr : r = .eax ∨ r = .ecx) :
    ∃ lines, s.load c v r = .ok (s.advance lines (s.frame.release v) s.stack) ∧
      ∀ d n, v.Denotes s.frame d n → Cpu.run lines d = d.write (.register r) (BitVec.ofInt 32 n) := by
  have hwidth : r.width = .dword := by rcases hr with rfl | rfl <;> rfl
  cases v with
  | constant =>
    refine ⟨_, rfl, ?_⟩
    rintro d n ⟨hn, rfl⟩
    have haccepts : r.width.accepts n = true := by
      rw [hwidth]
      exact Width.accepts_of_holds (Primitive.bits_le hv.1) hn
    rw [Cpu.run_singleton]
    exact Cpu.execute_mov_number rfl haccepts d
  | stored t =>
    obtain ⟨o, ho, hm, hw, ha⟩ := Frame.exists_localOperand? (of_checkIndex hv.2)
    refine ⟨[.instruction (loadMnemonic t) [.register r, o]], ?_, ?_⟩
    · simp only [load, localOperand, Frame.localOperand_of_localType hv.2, ho, ok_bind]
      rfl
    · rintro d n ⟨-, rfl⟩
      rw [Cpu.run_singleton]
      exact Cpu.execute_load hv.1 hm hw ha hwidth d
  | operation =>
    rcases hr with rfl | rfl
    · refine ⟨[], congrArg Except.ok s.advance_nil.symm, ?_⟩
      rintro d n ⟨-, hn⟩
      rw [← hn]
      rfl
    · refine ⟨_, rfl, ?_⟩
      rintro d n ⟨-, hn⟩
      rw [← hn]
      rfl
  | temp _ slot =>
    refine ⟨_, rfl, ?_⟩
    rintro d n ⟨-, hn⟩
    rw [Cpu.run_singleton, s.frame.execute_load_temp slot hwidth, hn, BitVec.ofNat_toNat,
      BitVec.setWidth_eq]

theorem State.load_eax (v : StackValue) (s : State) (ht : Tidy s.frame (v :: s.stack)) :
    ∃ lines g ws,
      (if v.isOperation then s else s.spill).load c v .eax = .ok (s.advance lines g ws) ∧
      g.outline = s.frame.outline ∧ Tidy g ws ∧ Moved s.stack ws ∧
      (∀ w ∈ ws, w.isOperation = false) ∧
      ∀ d x τ st, Represents s.frame d (v :: s.stack) (x :: τ) st →
        ∃ e, Cpu.run lines d = some e ∧ e.eax = BitVec.ofInt 32 x.2 ∧
          v.type.holds x.2 = true ∧ Represents g e ws τ st := by
  obtain ⟨a, g, ws, hspill, hcarries, hnone⟩ := spill_unless_operation v s ht
  have hsound := hcarries.tidy.sound v mem_cons_self
  obtain ⟨b, hload, hrun⟩ := (s.advance a g ws).load_spec c hsound (.inl rfl)
  have hrelease := @Tidy.release g [] ws v hcarries.tidy
  refine ⟨a ++ b, g.release v, ws, ?_, (g.release_outline v).trans hcarries.outline, hrelease,
    Aligned.tail hcarries.moved, hnone, ?_⟩
  · rw [hspill, hload]
    exact congrArg _ (s.advance_advance a b g _ ws ws)
  · intro d x τ st hd
    obtain ⟨e, he, hrep⟩ := hcarries.run d (x :: τ) st hd
    obtain ⟨_, υ, hcons, -, hx, hrest⟩ := hrep.uncons
    cases hcons
    exact ⟨{ e with eax := BitVec.ofInt 32 x.2 }, Cpu.run_append_of he (hrun e x.2 hx), rfl, hx.1,
      hrest.of_memory (g.release_outline v) rfl hnone⟩

/-! ## Pending reads -/

/-- A pending read is copied to a scratch slot by way of `ECX`. -/
theorem State.detach_carries (s : State) {before after : Stack} {index : Int}
    (ht : Tidy s.frame (before ++ .stored t index :: after)) : ∃ lines g slot,
      s.detach c (.stored t index) = .ok (.temp t slot, s.advance lines g s.stack) ∧
      Carries s.frame (before ++ .stored t index :: after) lines g
        (before ++ .temp t slot :: after) := by
  have hsound := ht.sound (.stored t index) (by simp)
  obtain ⟨lines, hload, hrun⟩ := s.load_spec c hsound (.inr rfl)
  rcases halloc : s.frame.allocTemp with ⟨g, slot⟩
  refine ⟨lines ++ [.instruction "MOV" [g.tempOperand slot, .register .ecx]], g, slot, ?_, ?_⟩
  · have halloc' : (s.advance lines (s.frame.release (.stored t index)) s.stack).frame.allocTemp =
        (g, slot) := halloc
    simp only [detach, hload, ok_bind, halloc']
    rw [← advance_advance s lines _ g g s.stack s.stack]
    rfl
  · apply carries_to_temp ht rfl halloc rfl
    intro d n hn
    exact ⟨_, hrun d n hn, rfl, rfl, rfl⟩

theorem State.detachAll_carries (index : Int) (vs held : Stack) (s : State)
    (ht : Tidy s.frame (held ++ vs)) :
    ∃ lines g ws, detachAll c index vs s = .ok (ws, s.advance lines g s.stack) ∧
      Carries s.frame (held ++ vs) lines g (held ++ ws) ∧ ∀ t, .stored t index ∉ ws := by
  induction vs generalizing held with
  | nil => exact ⟨[], s.frame, [], congrArg _ (by rw [advance_nil]), .refl ht, by simp⟩
  | cons v rest ih =>
    obtain ⟨lines, g, ws, hrest, hcarries, hnone⟩ := ih (held ++ [v]) (by simpa using ht)
    simp only [append_assoc, singleton_append] at hcarries
    by_cases hv : ∃ t, v = .stored t index
    · obtain ⟨t, rfl⟩ := hv
      obtain ⟨more, h, slot, hdetach, hmore⟩ :=
        detach_carries c (s.advance lines g s.stack) hcarries.tidy
      refine ⟨lines ++ more, h, .temp t slot :: ws, ?_, hcarries.trans hmore, by simpa using hnone⟩
      simp only [detachAll, hrest, ok_bind, if_true, hdetach, advance_advance]
      rfl
    · refine ⟨lines, g, v :: ws, ?_, hcarries, ?_⟩
      · simp only [detachAll, hrest, ok_bind]
        split
        · rename_i t i
          rw [if_neg (fun hi => hv ⟨t, congrArg _ hi⟩)]
          rfl
        · rfl
      · intro t ht
        rcases mem_cons.1 ht with ht | ht
        · exact hv ⟨t, ht.symm⟩
        · exact hnone t ht

/-- All pending reads of a slot on the stack are copied. -/
theorem State.detachLocal_carries (index : Int) (held : Stack) (s : State)
    (ht : Tidy s.frame (held ++ s.stack)) :
    ∃ lines g ws, s.detachLocal c index = .ok (s.advance lines g ws) ∧
      Carries s.frame (held ++ s.stack) lines g (held ++ ws) ∧ ∀ t, .stored t index ∉ ws := by
  obtain ⟨lines, g, ws, hall, hcarries, hnone⟩ := detachAll_carries c index s.stack held s ht
  refine ⟨lines, g, ws, ?_, hcarries, hnone⟩
  simp only [detachLocal, hall, ok_bind]
  rfl

end ScriptCompiler.X86
