import ScriptCompiler.Code.Instruction
import ScriptCompiler.Number.Decimal

/-!
# Written forms

Stack code keeps its operands as text. Types, conditions and numbers can be read back from what is
written for them. The text of a reference decides its parameters whatever characters its path and
its name hold, since tags hold no question mark. If path and name hold none of the marks between the
parts, the whole reference reads back.
-/

set_option autoImplicit false

namespace ScriptCompiler

open List Option

/-! ## Numbers -/

namespace Integer

theorem isDigit_of_mem_toDigits {n : Nat} {c : Char} (h : c ∈ Nat.toDigits 10 n) :
    isDigit c = true := by
  have hdigit := Nat.isDigit_of_mem_toDigits (by omega) (by omega) h
  simpa [Char.isDigit, isDigit, Char.le_def] using hdigit

theorem readDigits?_toDigits (n : Nat) : readDigits? (Nat.toDigits 10 n) = some n := by
  have hdigits : (Nat.toDigits 10 n).all isDigit = true :=
    List.all_eq_true.2 fun _ => isDigit_of_mem_toDigits
  unfold readDigits?
  rw [if_pos ⟨Nat.toDigits_ne_nil, hdigits⟩]
  exact congrArg some Nat.ofDigitChars_ten_toDigits

theorem readSigned?_of_all_isDigit {cs : List Char} (h : cs.all isDigit = true) :
    readSigned? cs = (readDigits? cs).map fun n => (n : Int) := by
  unfold readSigned?
  split
  · rename_i cs'
    simp [isDigit] at h
  · rename_i cs'
    simp [isDigit] at h
  · rfl

theorem readSigned?_repr (n : Int) : readSigned? n.repr.toList = some n := by
  have hdigits : ∀ k : Nat, (Nat.toDigits 10 k).all isDigit = true := by
    intro k
    exact List.all_eq_true.2 fun _ => isDigit_of_mem_toDigits
  rw [Int.repr_eq_if]
  split
  · rename_i hn
    rw [Nat.toList_repr, readSigned?_of_all_isDigit (hdigits _), readDigits?_toDigits]
    simp [Int.toNat_of_nonneg hn]
  · rename_i hn
    rw [String.toList_append, Nat.toList_repr]
    show (readDigits? (Nat.toDigits 10 (-n).toNat)).map (fun k => -(k : Int)) = some n
    rw [readDigits?_toDigits]
    have hpos : ((-n).toNat : Int) = -n := Int.toNat_of_nonneg (by omega)
    simp [hpos]

theorem readSigned?_of_read? {bits : Nat} {text : String} {n : Int} (h : read? bits text = some n) :
    readSigned? text.toList = some n := by
  obtain ⟨_, hfound, hwithin⟩ := bind_eq_some_iff.1 h
  obtain ⟨-, hsame⟩ := ite_none_right_eq_some.1 hwithin
  rw [hfound, hsame]

end Integer

/-! ## Real numbers -/

namespace Double

variable {cs : List Char}

theorem takeWhile_of_forall (h : ∀ c ∈ cs, Integer.isDigit c = true) :
    cs.takeWhile Integer.isDigit = cs := by
  have hall := @takeWhile_append_of_pos _ Integer.isDigit cs [] h
  simpa using hall

theorem dropWhile_of_forall (h : ∀ c ∈ cs, Integer.isDigit c = true) :
    cs.dropWhile Integer.isDigit = [] := by
  have hall := @dropWhile_append_of_pos _ Integer.isDigit cs [] h
  simpa using hall

theorem isSome_readMagnitude? {negative : Bool} (h : (readUnsigned? negative cs).isSome = true) :
    (readMagnitude? negative cs).isSome = true := by
  unfold readMagnitude?
  dsimp only
  split
  · rfl
  · split
    · rfl
    · exact h

variable (negative : Bool)

theorem isSome_readUnsigned?_whole (hne : cs ≠ []) (h : cs.all Integer.isDigit = true) :
    (readUnsigned? negative cs).isSome = true := by
  have hall : ∀ c ∈ cs, Integer.isDigit c = true := List.all_eq_true.1 h
  have htake : cs.takeWhile Integer.isDigit = cs := takeWhile_of_forall hall
  have hdrop : cs.dropWhile Integer.isDigit = [] := dropWhile_of_forall hall
  simp [readUnsigned?, htake, hdrop, hne, readExponent?]

theorem isSome_readUnsigned?_fraction {whole fraction : List Char} (negative : Bool)
    (hne : whole ≠ []) (hw : whole.all Integer.isDigit = true)
    (hf : fraction.all Integer.isDigit = true) :
    (readUnsigned? negative (whole ++ '.' :: fraction)).isSome = true := by
  have hallw : ∀ c ∈ whole, Integer.isDigit c = true := List.all_eq_true.1 hw
  have hallf : ∀ c ∈ fraction, Integer.isDigit c = true := List.all_eq_true.1 hf
  have hpoint : Integer.isDigit '.' = false := by decide
  have htake : (whole ++ '.' :: fraction).takeWhile Integer.isDigit = whole := by
    rw [takeWhile_append_of_pos hallw, takeWhile_cons_of_neg (by simp [hpoint]), append_nil]
  have hdrop : (whole ++ '.' :: fraction).dropWhile Integer.isDigit = '.' :: fraction := by
    rw [dropWhile_append_of_pos hallw, dropWhile_cons_of_neg (by simp [hpoint])]
  have htakef : fraction.takeWhile Integer.isDigit = fraction := takeWhile_of_forall hallf
  have hdropf : fraction.dropWhile Integer.isDigit = [] := dropWhile_of_forall hallf
  simp [readUnsigned?, htake, hdrop, htakef, hdropf, hne, readExponent?]

theorem isSome_read?_signed {text : String}
    (h : ∀ negative, (readUnsigned? negative text.toList).isSome = true) :
    (read? ((if negative then "-" else "") ++ text)).isSome = true := by
  cases negative with
  | true =>
    have hlist : ((if true = true then "-" else "") ++ text).toList = '-' :: text.toList := by simp
    unfold read?
    rw [hlist]
    exact isSome_readMagnitude? (h true)
  | false =>
    have hlist : ((if false = true then "-" else "") ++ text).toList = text.toList := by simp
    have hunsigned := h false
    unfold read?
    rw [hlist]
    split
    · rename_i cs hcs
      rw [hcs] at hunsigned
      simp [readUnsigned?, Integer.isDigit] at hunsigned
    · rename_i cs hcs
      rw [hcs] at hunsigned
      simp [readUnsigned?, Integer.isDigit] at hunsigned
    · exact isSome_readMagnitude? hunsigned

theorem all_isDigit_significant (n : Nat) : (significant n).all Integer.isDigit = true := by
  rw [List.all_eq_true]
  intro c hc
  have hmem : c ∈ Nat.toDigits 10 n := by
    have hrest := mem_reverse.1 hc
    exact mem_reverse.1 ((dropWhile_sublist _).subset hrest)
  exact Integer.isDigit_of_mem_toDigits hmem

theorem all_isDigit_shortest (x : Double) : x.shortest.digits.all Integer.isDigit = true := by
  unfold shortest
  dsimp only
  split
  · rfl
  · exact all_isDigit_significant _

theorem isSome_readUnsigned?_positional {d : Decimal} (h : d.digits.all Integer.isDigit = true)
    (negative : Bool) : (readUnsigned? negative (d.positional "").toList).isSome = true := by
  have hzeros : ∀ n, (List.replicate n '0').all Integer.isDigit = true := by
    intro n
    simp [Integer.isDigit]
  have hall : ∀ c ∈ d.digits, Integer.isDigit c = true := List.all_eq_true.1 h
  unfold Decimal.positional
  dsimp only
  split
  · have hfraction : (List.replicate (-d.point).toNat '0' ++ d.digits).all Integer.isDigit = true := by
      rw [all_append, hzeros, h]
      rfl
    simp only [String.toList_append, String.toList_ofList]
    exact @isSome_readUnsigned?_fraction ['0'] _ negative (by simp) (by decide) hfraction
  · rename_i hpoint
    split
    · rename_i hcount
      rw [String.toList_append, String.toList_ofList, String.toList_empty, append_nil]
      apply isSome_readUnsigned?_whole
      · -- without digits there are as many zeros as the point says
        intro hnil
        obtain ⟨hdigits, hpad⟩ := append_eq_nil_iff.1 hnil
        rw [replicate_eq_nil_iff] at hpad
        simp only [hdigits, length_nil] at hpad hcount
        omega
      · rw [all_append, hzeros, h]
        rfl
    · rename_i hcount
      rw [String.toList_ofList]
      apply isSome_readUnsigned?_fraction
      · intro hnil
        rw [take_eq_nil_iff] at hnil
        rcases hnil with hzero | hdigits
        · omega
        · simp only [hdigits, length_nil] at hcount
          omega
      · exact List.all_eq_true.2 fun c hc => hall c (mem_of_mem_take hc)
      · exact List.all_eq_true.2 fun c hc => hall c (mem_of_mem_drop hc)

theorem isSome_read?_text (x : Double) : (read? (x.text .plain)).isSome = true := by
  unfold text
  split
  · decide
  · dsimp only
    split
    · cases x.isNegative <;> decide
    · split
      · cases x.isNegative <;> decide
      · exact isSome_read?_signed _ (isSome_readUnsigned?_positional (all_isDigit_shortest x))

theorem isSome_read?_repr (n : Int) : (read? n.repr).isSome = true := by
  have hdigits : ∀ k : Nat, ∀ negative,
      (readUnsigned? negative (Nat.repr k).toList).isSome = true := by
    intro k negative
    rw [Nat.toList_repr]
    refine isSome_readUnsigned?_whole negative Nat.toDigits_ne_nil (List.all_eq_true.2 ?_)
    intro _ hc
    exact Integer.isDigit_of_mem_toDigits hc
  rw [Int.repr_eq_if]
  split
  · simpa using isSome_read?_signed false (hdigits _)
  · exact isSome_read?_signed true (hdigits _)

end Double

/-! ## Types and conditions -/

namespace Primitive

variable (t : Primitive)

theorem ofTag?_tag : ofTag? t.tag = some t := by cases t <;> rfl

theorem eq_tag_of_ofTag? {s : String} {t : Primitive} (h : ofTag? s = some t) : s = t.tag := by
  have htag := find?_some h
  exact (beq_iff_eq.1 htag).symm

/-- Tags are not empty, and hold neither underscores nor question marks. -/
theorem tag_characters : t.tag.toList ≠ [] ∧ '_' ∉ t.tag.toList ∧ '?' ∉ t.tag.toList := by
  cases t <;> decide

end Primitive

theorem Condition.ofName?_name (c : Condition) : ofName? c.name = some c := by cases c <;> rfl

/-! ## References -/

/-- The part behind the last occurrence of an element is unique. -/
theorem eq_of_append_cons_eq {α : Type} {a : α} {xs ys zs ws : List α} (hz : a ∉ zs) (hw : a ∉ ws)
    (h : xs ++ a :: zs = ys ++ a :: ws) : zs = ws := by
  have htails : ∀ {as us vs : List α}, a ∉ us → a :: us = as ++ a :: vs → us = vs := by
    intro as us vs hu h
    cases as with
    | nil => simpa using h
    | cons _ bs =>
      simp only [cons_append, List.cons.injEq] at h
      exact absurd (h.2 ▸ mem_append_right bs mem_cons_self) hu
  rcases append_eq_append_iff.1 h with ⟨as, -, htail⟩ | ⟨as, -, htail⟩
  · exact htails hz htail
  · exact (htails hw htail).symm

theorem mem_of_mem_intercalate {α : Type} {a sep : α} {ls : List (List α)}
    (h : a ∈ [sep].intercalate ls) : a = sep ∨ ∃ l ∈ ls, a ∈ l := by
  induction ls with
  | nil => cases h
  | cons l rest ih =>
    cases rest with
    | nil =>
      simp only [intercalate_singleton] at h
      exact .inr ⟨l, by simp, h⟩
    | cons =>
      rw [intercalate_cons_cons] at h
      simp only [mem_append, mem_singleton] at h
      rcases h with (h | h) | h
      · exact .inr ⟨l, by simp, h⟩
      · exact .inl h
      · rcases ih h with h | ⟨k, hk, h⟩
        · exact .inl h
        · exact .inr ⟨k, mem_cons_of_mem _ hk, h⟩

variable {c : Char} {pieces : List String} {before : String}

/-- Joined with dots, segments hold no other character than dots and their own. -/
theorem Text.notMem_dotted (hc : c ≠ '.') (h : ∀ s ∈ pieces, c ∉ s.toList) :
    c ∉ (".".intercalate pieces).toList := by
  intro hmem
  rw [String.toList_intercalate] at hmem
  rcases @mem_of_mem_intercalate _ _ '.' _ hmem with heq | ⟨_, hl, hmem⟩
  · exact hc heq
  · obtain ⟨s, hs, rfl⟩ := List.mem_map.1 hl
    exact h s hs hmem

/-- A text is cut at the first occurrence of a character. -/
theorem Text.cutAt?_append (h : c ∉ before.toList) (after : String) :
    Text.cutAt? c (before ++ String.singleton c ++ after) = some (before, after) := by
  have hlist : (before ++ String.singleton c ++ after).toList =
      before.toList ++ c :: after.toList := by
    simp
  have hbefore : ∀ x ∈ before.toList, (!(x == c)) = true := by
    intro x hx
    have hne : x ≠ c := fun heq => h (heq ▸ hx)
    simp [hne]
  unfold cutAt? cutWhere?
  rw [hlist, dropWhile_append_of_pos hbefore, takeWhile_append_of_pos hbefore]
  simp

/-- Pieces that do not hold a character are found again after they are joined with it. -/
theorem Text.split_intercalate (hne : pieces ≠ []) (h : ∀ s ∈ pieces, c ∉ s.toList) :
    Text.split c ((String.singleton c).intercalate pieces) = pieces := by
  have hpieces : pieces.map String.toList ≠ [] := by simpa using hne
  have hlist : ((String.singleton c).intercalate pieces).toList =
      [c].intercalate (pieces.map String.toList) := by
    rw [String.toList_intercalate]
    simp
  unfold Text.split
  rw [hlist, splitOn_intercalate c ?_ hpieces, List.map_map]
  · simp [Function.comp_def]
  · intro _ hl
    obtain ⟨s, hs, rfl⟩ := List.mem_map.1 hl
    exact h s hs

/-- A text is its pieces between the occurrences of a character, joined with the character. -/
theorem Text.intercalate_split (c : Char) (s : String) :
    (String.singleton c).intercalate (Text.split c s) = s := by
  have hpieces : (Text.split c s).map String.toList = s.toList.splitOn c := by
    simp [Text.split, Function.comp_def]
  apply String.toList_injective
  rw [String.toList_intercalate, String.toList_singleton, hpieces, intercalate_splitOn]

theorem Text.intercalate_eq_empty {sep : Char} {pieces : List String}
    (h : (String.singleton sep).intercalate pieces = "") : pieces = [] ∨ pieces = [""] := by
  have hlist := congrArg String.toList h
  rw [String.toList_intercalate] at hlist
  cases pieces with
  | nil => exact .inl rfl
  | cons first rest =>
    cases rest with
    | nil =>
      have hfirst : first.toList = "".toList := by simpa using hlist
      rw [String.toList_injective hfirst]
      exact .inr rfl
    | cons => simp [intercalate_cons_cons] at hlist

namespace Reference

/-- The text of parameter types: their tags with underscores between them. -/
def tagText (types : Types) : String := "_".intercalate (types.map Primitive.tag)

theorem tags_eq_tagText (r : Reference) : r.tags = tagText r.parameters := rfl

variable (types : Types)

theorem toList_tagText :
    (tagText types).toList = ['_'].intercalate (types.map fun t => t.tag.toList) := by
  unfold tagText
  rw [String.toList_intercalate, List.map_map]
  rfl

theorem notMem_tagText : '?' ∉ (tagText types).toList := by
  rw [toList_tagText]
  intro h
  rcases mem_of_mem_intercalate h with h | ⟨_, hl, h⟩
  · cases h
  · obtain ⟨t, -, rfl⟩ := List.mem_map.1 hl
    exact t.tag_characters.2.2 h

variable {types : Types}

theorem split_tagText (h : types ≠ []) :
    Text.split '_' (tagText types) = types.map Primitive.tag := by
  apply Text.split_intercalate (by simpa using h)
  intro _ hs
  obtain ⟨t, -, rfl⟩ := List.mem_map.1 hs
  exact t.tag_characters.2.1

theorem mapM_ofTag?_tag (types : Types) :
    (types.map Primitive.tag).mapM Primitive.ofTag? = some types := by
  induction types with
  | nil => rfl
  | cons _ _ ih => simp [mapM_cons, Primitive.ofTag?_tag, ih]

theorem eq_map_tag_of_mapM (h : pieces.mapM Primitive.ofTag? = some types) :
    pieces = types.map Primitive.tag := by
  induction pieces generalizing types with
  | nil =>
    cases h
    rfl
  | cons _ _ ih =>
    simp only [mapM_cons, Option.pure_def, bind_eq_bind, bind_eq_some_iff, Option.some.injEq] at h
    obtain ⟨_, ht, _, hts, rfl⟩ := h
    simp only [map_cons, ← Primitive.eq_tag_of_ofTag? ht, ← ih hts]

theorem tagText_ne_empty (t : Primitive) (rest : Types) : tagText (t :: rest) ≠ "" := by
  intro h
  have hlist := congrArg String.toList h
  rw [toList_tagText] at hlist
  cases rest with
  | nil => exact t.tag_characters.1 (by simpa using hlist)
  | cons => simp [intercalate_cons_cons] at hlist

/-- Only the text of parameter types reads as parameter types, and it reads as these. -/
theorem parseTags?_eq_some_iff {s : String} : parseTags? s = some types ↔ s = tagText types := by
  constructor
  · intro h
    unfold parseTags? at h
    split at h
    · rename_i hs
      cases h
      exact hs
    · rw [tagText, ← eq_map_tag_of_mapM h]
      exact (Text.intercalate_split '_' s).symm
  · rintro rfl
    unfold parseTags?
    cases types with
    | nil => rfl
    | cons t rest => rw [if_neg (tagText_ne_empty t rest), split_tagText (by simp), mapM_ofTag?_tag]

theorem tagText_injective {types' : Types} (h : tagText types = tagText types') :
    types = types' := by
  have hread := parseTags?_eq_some_iff.2 h
  rw [parseTags?_eq_some_iff.2 rfl] at hread
  exact some.inj hread

/-- The text of a reference ends in a question mark and the tags of its parameters. -/
theorem exists_toList_text (r : Reference) :
    ∃ lead, r.text.toList = lead ++ '?' :: (tagText r.parameters).toList := by
  refine ⟨(r.pathText ++ ":" ++ ".".intercalate r.method).toList, ?_⟩
  simp only [text, methodText, tags_eq_tagText, String.toList_append, append_assoc]
  rfl

theorem parameters_eq_of_text_eq {r r' : Reference} (h : r.text = r'.text) :
    r.parameters = r'.parameters := by
  obtain ⟨_, hr⟩ := r.exists_toList_text
  obtain ⟨_, hr'⟩ := r'.exists_toList_text
  rw [h, hr'] at hr
  have htags := eq_of_append_cons_eq (notMem_tagText _) (notMem_tagText _) hr.symm
  exact tagText_injective (String.toList_injective htags)

end Reference

theorem Text.eq_of_cutAt? {s after : String} (h : Text.cutAt? c s = some (before, after)) :
    before ++ String.singleton c ++ after = s := by
  unfold cutAt? cutWhere? at h
  split at h
  · cases h
  · rename_i x rest hdrop
    cases h
    have hx : x = c := by
      have hhead := head?_dropWhile_not (fun y => !(y == c)) s.toList
      rw [hdrop] at hhead
      simpa using hhead
    have hsplit := takeWhile_append_dropWhile (p := fun y => !(y == c)) (l := s.toList)
    rw [hdrop, hx] at hsplit
    apply String.toList_injective
    simpa using hsplit

namespace Reference

/-- Whether the text of a reference can be read: path and name are not empty, and their segments do
not hold the marks that end them. -/
structure Readable (r : Reference) : Prop where
  path : r.path ≠ [] ∧ r.path ≠ [""]
  method : r.method ≠ [] ∧ r.method ≠ [""]
  pathSegments : ∀ s ∈ r.path, '.' ∉ s.toList ∧ ':' ∉ s.toList
  methodSegments : ∀ s ∈ r.method, '.' ∉ s.toList ∧ '?' ∉ s.toList

variable {r : Reference}

/-- The text of a readable reference reads back. -/
theorem parse?_text (h : r.Readable) : parse? r.text = some r := by
  have hpath : Text.cutAt? ':' r.text = some (r.pathText, r.methodText) :=
    Text.cutAt?_append (Text.notMem_dotted (by decide) fun s hs => (h.pathSegments s hs).2) _
  have hmethod : Text.cutAt? '?' r.methodText = some (".".intercalate r.method, r.tags) :=
    Text.cutAt?_append (Text.notMem_dotted (by decide) fun s hs => (h.methodSegments s hs).2) _
  have hsplitPath : Text.split '.' r.pathText = r.path :=
    Text.split_intercalate h.path.1 fun s hs => (h.pathSegments s hs).1
  have hsplitMethod : Text.split '.' (".".intercalate r.method) = r.method :=
    Text.split_intercalate h.method.1 fun s hs => (h.methodSegments s hs).1
  have hne : ¬ (r.pathText = "" ∨ ".".intercalate r.method = "") := by
    rintro (hempty | hempty)
    · rcases @Text.intercalate_eq_empty '.' r.path hempty with hnil | hblank
      · exact h.path.1 hnil
      · exact h.path.2 hblank
    · rcases @Text.intercalate_eq_empty '.' r.method hempty with hnil | hblank
      · exact h.method.1 hnil
      · exact h.method.2 hblank
  have htags : parseTags? r.tags = some r.parameters := parseTags?_eq_some_iff.2 rfl
  simp only [parse?, hpath, hmethod, bind_eq_bind, bind_some, if_neg hne, htags,
    hsplitPath, hsplitMethod]

theorem text_of_parse? {s : String} (h : parse? s = some r) : r.text = s := by
  have hdots : ∀ t, ".".intercalate (Text.split '.' t) = t := Text.intercalate_split '.'
  unfold parse? at h
  simp only [bind_eq_bind, bind_eq_some_iff, Prod.exists] at h
  obtain ⟨_, _, hpath, _, _, hmethod, h⟩ := h
  split at h
  · cases h
  · obtain ⟨_, hparams, h⟩ := bind_eq_some_iff.1 h
    cases h
    rw [← Text.eq_of_cutAt? hpath, ← Text.eq_of_cutAt? hmethod,
      parseTags?_eq_some_iff.1 hparams]
    simp only [text, pathText, methodText, hdots]
    rfl

/-- Reading and writing references are inverse to each other: a text is read as no reference but one
that is written so, and every readable reference is read from its text. -/
theorem reads_as_written : (∀ (s : String) (r : Reference), parse? s = some r → r.text = s) ∧
      ∀ r : Reference, r.Readable → parse? r.text = some r :=
  ⟨fun _ _ => text_of_parse?, fun _ => parse?_text⟩

end Reference

/-- A reference with empty segments, with the mark after a name in its path and with the mark after a
path in its name. -/
def Sample.oddReference : Reference := ⟨["Std", "?", ""], ["Write:", ""], [.number, .str]⟩

/-- Empty segments and odd names read back. -/
theorem oddReference_reads_back : Sample.oddReference.Readable ∧
      Reference.parse? "Std.?.:Write:.?number_str" = some Sample.oddReference ∧
      Sample.oddReference.text = "Std.?.:Write:.?number_str" := by
  have hreadable : Sample.oddReference.Readable :=
    ⟨by decide, by decide, by decide, by decide⟩
  have htext : Sample.oddReference.text = "Std.?.:Write:.?number_str" := by decide
  have hparse := Reference.reads_as_written.2 _ hreadable
  rw [htext] at hparse
  exact ⟨hreadable, hparse, Reference.reads_as_written.1 _ _ hparse⟩

end ScriptCompiler
