import ScriptCompiler.Proofs.X86.VirtualStack

/-!
# Regions of the frame

The parameters, locals and scratch slots of a frame as sets of bytes. However scratch
slots are given out and taken back, two places of the frame have no byte in common.
Parameters start above the two words at the frame base, and all else lies in the bytes
that the frame reserves below it.
-/

set_option autoImplicit false

namespace ScriptCompiler.X86

open List Option

/-! ## Places and their bytes -/

/-- Whether an operand has the byte at a distance from the frame base. -/
def Operand.Covers (o : Operand) (byte : Int) : Prop :=
  ∃ first width, o.address? = some first ∧ o.width? = some width ∧
    first ≤ byte ∧ byte < first + width.bytes

/-- A place of a frame: a parameter or local by its index, or a scratch slot. -/
inductive Place where
  | stored (index : Int)
  | scratch (slot : Nat)
  deriving DecidableEq, Repr

/-- Whether a place is a parameter. -/
def Place.isParameter : Place → Bool
  | stored index => index < 0
  | scratch _ => false

theorem Operand.covers_iff {o : Operand} {first : Int} {width : Width}
    (ha : o.address? = some first) (hw : o.width? = some width) (byte : Int) :
    o.Covers byte ↔ first ≤ byte ∧ byte < first + width.bytes := by
  constructor
  · rintro ⟨first', width', ha', hw', hbyte⟩
    rw [ha] at ha'
    rw [hw] at hw'
    cases ha'
    cases hw'
    exact hbyte
  · intro hbyte
    exact ⟨first, width, ha, hw, hbyte⟩

namespace Frame

/-- The memory of a place; a scratch slot that was never given out has none. -/
def operand? (f : Frame) : Place → Option Operand
  | .stored index => f.localOperand? index
  | .scratch slot => if slot < f.temps then some (f.tempOperand slot) else none

/-- The size of a place. -/
def placeSize? (f : Frame) : Place → Option Nat
  | .stored index => (f.localType? index).map Primitive.size
  | .scratch slot => if slot < f.temps then some 4 else none

/-- The first byte of a place. -/
def placeAddress (f : Frame) : Place → Int
  | .stored index => f.address index
  | .scratch slot => f.tempAddress slot

/-- Whether the parameters and locals of a frame take one, two or four bytes each. -/
def Narrow (f : Frame) : Prop :=
  ∀ t ∈ f.parameters ++ f.locals, t.size = 1 ∨ t.size = 2 ∨ t.size = 4

variable {f : Frame} {p q : Place} {m n : Nat}

theorem mem_of_localType? {index : Int} {t : Primitive} (h : f.localType? index = some t) :
    t ∈ f.parameters ++ f.locals := by
  unfold localType? at h
  by_cases hi : index < 0
  · rw [if_pos hi] at h
    exact mem_append_left _ (mem_of_getElem? h)
  · rw [if_neg hi] at h
    exact mem_append_right _ (mem_of_getElem? h)

/-- Indices count the parameters downwards from minus one and the locals upwards from zero. -/
theorem isSome_localOperand?_iff (f : Frame) (index : Int) : (f.localOperand? index).isSome = true ↔
      -(f.parameters.length : Int) ≤ index ∧ index < f.locals.length := by
  rw [localOperand?, isSome_map]
  unfold localType?
  by_cases hi : index < 0
  · rw [if_pos hi, isSome_iff_ne_none, ne_eq, List.getElem?_eq_none_iff]
    omega
  · rw [if_neg hi, isSome_iff_ne_none, ne_eq, List.getElem?_eq_none_iff]
    omega

/-- A place with a size has so many bytes, from its address on. -/
theorem operand?_of_placeSize? (hf : f.Narrow) (h : f.placeSize? p = some n) :
    ∃ o, f.operand? p = some o ∧
      ∀ byte, o.Covers byte ↔ f.placeAddress p ≤ byte ∧ byte < f.placeAddress p + n := by
  cases p with
  | stored =>
    obtain ⟨t, ht, rfl⟩ := map_eq_some_iff.1 h
    obtain ⟨o, ho, -, hwidth, haddress⟩ := exists_localOperand? ht
    have hbytes := bytes_ofSize_self (hf t (mem_of_localType? ht))
    refine ⟨o, ho, fun byte => ?_⟩
    rw [Operand.covers_iff haddress hwidth, hbytes]
    rfl
  | scratch slot =>
    obtain ⟨hslot, hn⟩ := ite_none_right_eq_some.1 h
    cases hn
    have hwidth : (f.tempOperand slot).width? = some .dword := rfl
    refine ⟨f.tempOperand slot, if_pos hslot, fun byte => ?_⟩
    exact Operand.covers_iff rfl hwidth byte

theorem covers_bounds {o : Operand} {byte : Int} (hf : f.Narrow) (ho : f.operand? p = some o)
    (hbyte : o.Covers byte) :
    ∃ n, f.placeSize? p = some n ∧ f.placeAddress p ≤ byte ∧ byte < f.placeAddress p + n := by
  have hsize : (f.placeSize? p).isSome = true := by
    cases p with
    | stored =>
      obtain ⟨_, ht, -⟩ := map_eq_some_iff.1 ho
      rw [placeSize?, ht]
      rfl
    | scratch =>
      obtain ⟨hslot, -⟩ := ite_none_right_eq_some.1 ho
      rw [placeSize?, if_pos hslot]
      rfl
  obtain ⟨n, hn⟩ := isSome_iff_exists.1 hsize
  obtain ⟨_, ho', hcovers⟩ := operand?_of_placeSize? hf hn
  rw [ho] at ho'
  cases ho'
  exact ⟨n, hn, (hcovers byte).1 hbyte⟩

theorem place_disjoint (hp : f.placeSize? p = some m) (hq : f.placeSize? q = some n) (hne : p ≠ q) :
    f.placeAddress p + m ≤ f.placeAddress q ∨ f.placeAddress q + n ≤ f.placeAddress p := by
  cases p with
  | stored =>
    obtain ⟨_, ht, rfl⟩ := map_eq_some_iff.1 hp
    cases q with
    | stored =>
      obtain ⟨u, hu, rfl⟩ := map_eq_some_iff.1 hq
      exact address_disjoint ht hu fun h => hne (congrArg _ h)
    | scratch slot =>
      obtain ⟨-, hn⟩ := ite_none_right_eq_some.1 hq
      cases hn
      exact .inr (tempAddress_add_le ht slot)
  | scratch a =>
    obtain ⟨-, hm⟩ := ite_none_right_eq_some.1 hp
    cases hm
    cases q with
    | stored =>
      obtain ⟨u, hu, rfl⟩ := map_eq_some_iff.1 hq
      exact .inl (tempAddress_add_le hu a)
    | scratch =>
      obtain ⟨-, hn⟩ := ite_none_right_eq_some.1 hq
      cases hn
      exact tempAddress_disjoint fun h => hne (congrArg _ h)

/-- Parameters lie in the bytes from eight on, and all else in those that the frame reserves. -/
theorem place_bounds (hp : f.placeSize? p = some n) : (p.isParameter = true → 8 ≤ f.placeAddress p ∧
      f.placeAddress p + n ≤ 8 + f.parametersSize) ∧
    (p.isParameter = false → -(f.size : Int) ≤ f.placeAddress p ∧ f.placeAddress p + n ≤ 0) := by
  have hsize : f.localsSize + 4 * f.temps ≤ f.size := by
    unfold size align4
    omega
  cases p with
  | stored index =>
    obtain ⟨_, ht, rfl⟩ := map_eq_some_iff.1 hp
    simp only [Place.isParameter, placeAddress, decide_eq_true_eq, decide_eq_false_iff_not]
    rcases address_bounds ht with ⟨hi, -, hlow, hhigh⟩ | ⟨hi, -, hlow, hhigh⟩
    · have htotal := totalSize_take_le_total f.parameters ((-index - 1).toNat + 1)
      unfold parametersSize
      omega
    · have htotal := totalSize_take_le_total f.locals (index.toNat + 1)
      unfold localsSize at hsize
      omega
  | scratch =>
    obtain ⟨_, hn⟩ := ite_none_right_eq_some.1 hp
    cases hn
    refine ⟨fun hparam => absurd hparam Bool.false_ne_true, fun _ => ?_⟩
    simp only [placeAddress, tempAddress]
    omega

/-! ## Scratch slots in use -/

/-- Whether a frame with these parameters and locals comes from giving out scratch slots and taking
them back, and these slots are in use. -/
inductive Lent (parameters locals : Types) : Frame → List Nat → Prop where
  | start : Lent parameters locals { parameters, locals } []
  | alloc {f g : Frame} {used : List Nat} {slot : Nat} :
      Lent parameters locals f used → f.allocTemp = (g, slot) →
      Lent parameters locals g (slot :: used)
  | free {f : Frame} {used : List Nat} {slot : Nat} :
      Lent parameters locals f used → slot ∈ used →
      Lent parameters locals (f.freeTemp slot) (used.erase slot)

/-- A slot in use was given out and is in use only once. -/
theorem Lent.spec {parameters locals : Types} {used : List Nat}
    (h : Lent parameters locals f used) :
    f.parameters = parameters ∧ f.locals = locals ∧ (used ++ f.free).Nodup ∧
      ∀ slot ∈ used ++ f.free, slot < f.temps := by
  induction h with
  | start => exact ⟨rfl, rfl, nodup_nil, fun _ hslot => by cases hslot⟩
  | alloc _ halloc ih =>
    obtain ⟨hparams, hlocals, hnodup, hgiven⟩ := ih
    have hout := allocTemp_outline halloc
    obtain ⟨hnodup, hgiven⟩ := allocTemp_spec halloc hnodup hgiven
    exact ⟨(congrArg Frame.parameters hout).trans hparams,
      (congrArg Frame.locals hout).trans hlocals, hnodup, hgiven⟩
  | @free f used slot _ hslot ih =>
    obtain ⟨hparams, hlocals, hnodup, hgiven⟩ := ih
    -- the slot only moves from the used ones to the free ones
    have hperm : (used.erase slot ++ slot :: f.free).Perm (used ++ f.free) :=
      perm_middle.trans ((perm_cons_erase hslot).symm.append_right f.free)
    exact ⟨hparams, hlocals, hperm.nodup_iff.2 hnodup,
      fun k hk => hgiven k (hperm.mem_iff.1 hk)⟩

end Frame

/-! ## The layout -/

/-- The places of a frame lie apart, whatever the types of its parameters and locals and however its
scratch slots are given out and taken back. Each has as many bytes as its size says and shares none
of them with another place; parameters have those from eight bytes above the frame base on, and
locals and scratch slots lie in the bytes that the frame reserves below it. If the frame takes less
than half of the address space, the places stay apart where addresses wrap around. -/
theorem frame_places_apart {parameters locals : List Primitive} {f : Frame} {used : List Nat}
    (hsizes : ∀ t ∈ parameters ++ locals, t.size = 1 ∨ t.size = 2 ∨ t.size = 4)
    (h : Frame.Lent parameters locals f used) :
    used.Nodup ∧ (∀ slot ∈ used, f.operand? (.scratch slot) = some (f.tempOperand slot)) ∧
    (∀ index, (f.operand? (.stored index)).isSome = true ↔
      -(parameters.length : Int) ≤ index ∧ index < locals.length) ∧
    (∀ p n, f.placeSize? p = some n → ∃ o first, f.operand? p = some o ∧
      ∀ byte, o.Covers byte ↔ first ≤ byte ∧ byte < first + n) ∧
    (∀ p q o o' byte, f.operand? p = some o → f.operand? q = some o' →
      o.Covers byte → o'.Covers byte → p = q) ∧
    (∀ p o byte, f.operand? p = some o → o.Covers byte → p.isParameter = true → 8 ≤ byte) ∧
    (∀ p o byte, f.operand? p = some o → o.Covers byte → p.isParameter = false →
      -(f.size : Int) ≤ byte ∧ byte < 0) ∧
    (totalSize parameters + totalSize locals + 4 * f.temps < 2 ^ 31 →
      ∀ p q o o' a b, f.operand? p = some o → f.operand? q = some o' → o.Covers a →
        o'.Covers b → a % 2 ^ 32 = b % 2 ^ 32 → p = q ∧ a = b) := by
  obtain ⟨rfl, rfl, hnodup, hgiven⟩ := h.spec
  have hapart : ∀ p q o o' byte, f.operand? p = some o → f.operand? q = some o' →
      o.Covers byte → o'.Covers byte → p = q := by
    intro p q o o' byte hp hq hbyte hbyte'
    obtain ⟨_, hm, hlow, hhigh⟩ := Frame.covers_bounds hsizes hp hbyte
    obtain ⟨n, hn, _, _⟩ := Frame.covers_bounds hsizes hq hbyte'
    apply Decidable.byContradiction
    intro hne
    have hdisjoint := Frame.place_disjoint hm hn hne
    omega
  have habove : ∀ p o byte, f.operand? p = some o → o.Covers byte → p.isParameter = true →
      8 ≤ byte ∧ byte < 8 + f.parametersSize := by
    intro p o byte hp hbyte hparam
    obtain ⟨n, hn, hlow, hhigh⟩ := Frame.covers_bounds hsizes hp hbyte
    have hbounds := (Frame.place_bounds hn).1 hparam
    omega
  have hbelow : ∀ p o byte, f.operand? p = some o → o.Covers byte → p.isParameter = false →
      -(f.size : Int) ≤ byte ∧ byte < 0 := by
    intro p o byte hp hbyte hparam
    obtain ⟨n, hn, hlow, hhigh⟩ := Frame.covers_bounds hsizes hp hbyte
    have hbounds := (Frame.place_bounds hn).2 hparam
    omega
  refine ⟨(List.nodup_append.1 hnodup).1, fun slot hslot => ?_,
    Frame.isSome_localOperand?_iff f, fun p n hn => ?_, hapart,
    fun p o byte hp hbyte hparam => (habove p o byte hp hbyte hparam).1, hbelow,
    fun _ p q o o' a b hp hq ha hb _ => ?_⟩
  · exact if_pos (hgiven slot (List.mem_append_left _ hslot))
  · obtain ⟨o, ho, hcovers⟩ := Frame.operand?_of_placeSize? hsizes hn
    exact ⟨o, _, ho, hcovers⟩
  · -- the bytes of a frame are too few to wrap around to each other
    have hspan : ∀ p o byte, f.operand? p = some o → o.Covers byte →
        -(2 ^ 31 + 3 - f.parametersSize : Int) < byte ∧ byte < 8 + f.parametersSize := by
      intro p o byte hp hbyte
      have hsize : f.size ≤ f.localsSize + 4 * f.temps + 3 := by
        unfold Frame.size align4
        omega
      unfold Frame.parametersSize Frame.localsSize at *
      cases hparam : p.isParameter with
      | true =>
        have := habove p o byte hp hbyte hparam
        omega
      | false =>
        have := hbelow p o byte hp hbyte hparam
        omega
    have hbytes : a = b := by
      have := hspan p o a hp ha
      have := hspan q o' b hq hb
      omega
    subst hbytes
    exact ⟨hapart p q o o' a hp hq ha hb, rfl⟩

/-- Two parameters and two locals of different widths, with one of three scratch slots given back:
its place is free, and the last slot still lies inside the frame. -/
theorem frame_places_apart_of_mixed_widths :
    ∃ f used, Frame.Lent [.i32, .u8] [.bool, .u16] f used ∧ used = [2, 0] ∧ f.free = [1] ∧
      f.size = 16 ∧ f.operand? (.scratch 2) = some (.slot .dword 15) ∧
      ∀ byte, (Operand.slot .dword 15).Covers byte →
        (-16 ≤ byte ∧ byte < 0) ∧ ¬(Operand.slot .word 3).Covers byte := by
  have h : Frame.Lent [.i32, .u8] [.bool, .u16]
      { parameters := [.i32, .u8], locals := [.bool, .u16], temps := 3, free := [1] } [2, 0] :=
    .free (.alloc (.alloc (.alloc .start rfl) rfl) rfl) (show 1 ∈ [2, 1, 0] by decide)
  obtain ⟨-, -, -, -, hapart, -, hbelow, -⟩ := frame_places_apart (by decide) h
  refine ⟨_, _, h, rfl, rfl, rfl, rfl, fun byte hbyte => ⟨?_, fun hbyte' => ?_⟩⟩
  · exact hbelow (.scratch 2) _ byte rfl hbyte rfl
  · have hplaces := hapart (.scratch 2) (.stored 1) _ _ byte rfl rfl hbyte hbyte'
    cases hplaces

end ScriptCompiler.X86
