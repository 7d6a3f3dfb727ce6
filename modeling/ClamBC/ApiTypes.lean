import ClamBC.PrepareGeps
import Mathlib.Data.Nat.Prime.Basic

/-!
# The types that the API may pass

The generator of the interface checks that a pointer in a prototype points to integers, and to arrays
and structs of these, whose fields are where they would be in a packed struct. The check is made with
the largest alignments there are, and it is meant to hold for every target.

Sizes are `unsigned`. What the check prints is left out.
-/

namespace ApiTypes

open PrepareGeps (IntWidth DataLayout extent extents allocSize layoutOffset indexedOffset Index natural)
open RecordLayout

/-- Of the other types only that they are refused matters. -/
inductive Ty where
  | int (bits : Nat)
  | pointer
  | array (count : Nat) (element : Ty)
  | struct (packed : Bool) (fields : List Ty)
  | other

abbrev Unsigned := BitVec 32

/-- The variables of the loop over the fields. -/
structure Fields where
  size : Unsigned
  maxAlign : Unsigned
  valid : Bool

/-- One field, by its size and alignment. -/
def Fields.add (packed : Bool) (st : Fields) (field : Unsigned × Unsigned) : Fields :=
  let valid := st.valid && field.1 != 0
  if packed then ⟨st.size + field.1, st.maxAlign, valid⟩
  else
    let padding := st.size &&& (field.2 - 1)
    ⟨st.size + padding + field.1, if st.maxAlign < field.2 then field.2 else st.maxAlign,
      valid && padding == 0⟩

mutual

/-- The size, which is zero if the type is refused, and the alignment. Where the alignment is not set
it is what was in the variable before. -/
def checkTypeSize (garbage : Unsigned) : Ty → Unsigned × Unsigned
  | .int bits =>
    if bits = 8 ∨ bits = 16 ∨ bits = 32 ∨ bits = 64 then
      (BitVec.ofNat 32 (bits / 8), BitVec.ofNat 32 (bits / 8))
    else (0, garbage)
  | .pointer => (0, garbage)
  | .array count element =>
    let e := checkTypeSize garbage element
    if e.1 = 0 then (0, e.2) else (BitVec.ofNat 32 count * e.1, e.2)
  | .struct packed fields =>
    let st := checkFields garbage packed fields ⟨0, 1, true⟩
    (if st.valid && st.size &&& (st.maxAlign - 1) == 0 then st.size else 0, st.maxAlign)
  | .other => (0, garbage)

def checkFields (garbage : Unsigned) (packed : Bool) : List Ty → Fields → Fields
  | [], st => st
  | t :: ts, st => checkFields garbage packed ts (st.add packed (checkTypeSize garbage t))

end

inductive Param where
  | int
  | pointer (pointee : Ty)
  | other

def checkParam (garbage : Unsigned) : Param → Bool
  | .int => true
  | .pointer pointee => (checkTypeSize garbage pointee).1 != 0
  | .other => false

/-- All parameters are looked at, also behind one that is refused. -/
def checkFuncParams (garbage : Unsigned) (ret : Param) (params : List Param) : Bool :=
  params.foldl (fun valid param => valid && checkParam garbage param) (checkParam garbage ret)

/-! ## Types with a layout -/

def width? (bits : Nat) : Option IntWidth :=
  if bits = 8 then some .w8
  else if bits = 16 then some .w16
  else if bits = 32 then some .w32
  else if bits = 64 then some .w64
  else none

mutual

/-- The type in a data layout, if it is made of integers only. -/
def layoutType : Ty → Option PrepareGeps.Ty
  | .int bits => (width? bits).map .int
  | .pointer => none
  | .array count element => (layoutType element).map (.array count)
  | .struct packed fields => (layoutTypes fields).map (.struct packed)
  | .other => none

def layoutTypes : List Ty → Option (List PrepareGeps.Ty)
  | [] => some []
  | t :: ts => (layoutType t).bind fun p => (layoutTypes ts).map (p :: ·)

end

mutual

/-- No size is a multiple of 4 GiB, in particular none is zero. -/
def Sizeable : PrepareGeps.Ty → Prop
  | .int _ => True
  | .ptr => False
  | .array n t => Sizeable t ∧ allocSize natural (.array n t) % 2 ^ 32 ≠ 0
  | .struct packed fields =>
    SizeableAll fields ∧ allocSize natural (.struct packed fields) % 2 ^ 32 ≠ 0

def SizeableAll : List PrepareGeps.Ty → Prop
  | [] => True
  | t :: ts => Sizeable t ∧ SizeableAll ts

end

mutual

/-- Every struct in the type has its fields where a packed struct has them, and its size. -/
def Tight (dl : DataLayout) : PrepareGeps.Ty → Prop
  | .int _ | .ptr => True
  | .array _ t => Tight dl t
  | .struct packed fields =>
    TightAll dl fields ∧ place packed (extents dl fields) 0 = place true (extents dl fields) 0 ∧
      recordSize packed (extents dl fields) = recordSize true (extents dl fields)

def TightAll (dl : DataLayout) : List PrepareGeps.Ty → Prop
  | [] => True
  | t :: ts => Tight dl t ∧ TightAll dl ts

end

mutual

/-- The type with all structs packed. -/
def pack : PrepareGeps.Ty → PrepareGeps.Ty
  | .int w => .int w
  | .ptr => .ptr
  | .array n t => .array n (pack t)
  | .struct _ fields => .struct true (packs fields)

def packs : List PrepareGeps.Ty → List PrepareGeps.Ty
  | [] => []
  | t :: ts => pack t :: packs ts

end

/-! ## Alignments -/

/-- The alignments of integers: 1, 2, 4 and 8. -/
def IsAlignment (a : Nat) : Prop := ∃ k ≤ 3, a = 2 ^ k

theorem IsAlignment.le {a : Nat} (h : IsAlignment a) : 1 ≤ a ∧ a ≤ 8 := by
  obtain ⟨k, small, rfl⟩ := h
  exact ⟨Nat.one_le_two_pow, Nat.pow_le_pow_right (by omega) small⟩

theorem IsAlignment.max {a b : Nat} (ha : IsAlignment a) (hb : IsAlignment b) :
    IsAlignment (max a b) := by
  rcases Nat.le_total a b with le | le
  · rwa [Nat.max_eq_right le]
  · rwa [Nat.max_eq_left le]

theorem isAlignment_width (w : IntWidth) : IsAlignment (w.bits / 8) := by
  cases w with
  | w8 => exact ⟨0, by decide, rfl⟩
  | w16 => exact ⟨1, by decide, rfl⟩
  | w32 => exact ⟨2, by decide, rfl⟩
  | w64 => exact ⟨3, by decide, rfl⟩

theorem isAlignment_of_dvd {a b : Nat} (dvd : a ∣ b) (h : IsAlignment b) : IsAlignment a := by
  obtain ⟨k, small, rfl⟩ := h
  obtain ⟨i, le, rfl⟩ := (Nat.dvd_prime_pow Nat.prime_two).mp dvd
  exact ⟨i, le.trans small, rfl⟩

/-- Of two alignments the smaller one divides the larger one. -/
theorem IsAlignment.dvd_of_le {a b : Nat} (ha : IsAlignment a) (hb : IsAlignment b) (le : a ≤ b) :
    a ∣ b := by
  obtain ⟨i, -, rfl⟩ := ha
  obtain ⟨j, -, rfl⟩ := hb
  exact Nat.pow_dvd_pow 2 ((Nat.pow_le_pow_iff_right (by decide)).mp le)

theorem max_dvd_max {a b c d : Nat} (hc : IsAlignment c) (hd : IsAlignment d) (ac : a ∣ c)
    (bd : b ∣ d) : max a b ∣ max c d := by
  have ha := isAlignment_of_dvd ac hc
  have hb := isAlignment_of_dvd bd hd
  have le : max a b ≤ max c d :=
    max_le_max (Nat.le_of_dvd hc.le.1 ac) (Nat.le_of_dvd hd.le.1 bd)
  exact (ha.max hb).dvd_of_le (hc.max hd) le

/-- The mask has the bits below the alignment. -/
theorem mask_eq_zero_iff {m : Nat} (hm : IsAlignment m) (pos : Nat) :
    BitVec.ofNat 32 pos &&& (BitVec.ofNat 32 m - 1) = 0 ↔ m ∣ pos := by
  have range := hm.le
  have mask : (BitVec.ofNat 32 m - 1).toNat = m - 1 := by
    rw [BitVec.toNat_sub]
    simp only [BitVec.toNat_ofNat, BitVec.ofNat_eq_ofNat]
    omega
  have wraps : m ∣ 2 ^ 32 := by
    obtain ⟨k, small, rfl⟩ := hm
    exact Nat.pow_dvd_pow 2 (by omega)
  rw [← BitVec.toNat_inj, BitVec.toNat_and, mask, BitVec.toNat_ofNat]
  obtain ⟨k, -, rfl⟩ := hm
  rw [Nat.and_two_pow_sub_one_eq_mod, Nat.mod_mod_of_dvd _ wraps]
  exact Nat.dvd_iff_mod_eq_zero.symm

theorem ofNat_eq_zero_iff (n : Nat) : BitVec.ofNat 32 n = 0 ↔ n % 2 ^ 32 = 0 := by
  rw [← BitVec.toNat_inj, BitVec.toNat_ofNat]
  rfl

/-- The larger alignment is kept. -/
theorem ofNat_max {a m : Nat} (ha : IsAlignment a) (hm : IsAlignment m) :
    (if BitVec.ofNat 32 a < BitVec.ofNat 32 m then BitVec.ofNat 32 m else BitVec.ofNat 32 a) =
      BitVec.ofNat 32 (max a m) := by
  have range := ha.le
  have range' := hm.le
  have lt : BitVec.ofNat 32 a < BitVec.ofNat 32 m ↔ a < m := by
    rw [BitVec.lt_def, BitVec.toNat_ofNat, BitVec.toNat_ofNat]
    omega
  simp only [lt]
  split_ifs with h
  · rw [Nat.max_eq_right h.le]
  · rw [Nat.max_eq_left (not_lt.mp h)]

theorem isAlignment_recordAlign (packed : Bool) {fields : List (Nat × Nat)}
    (each : ∀ field ∈ fields, IsAlignment field.2) : IsAlignment (recordAlign packed fields) := by
  have one : IsAlignment 1 := ⟨0, by decide, rfl⟩
  unfold recordAlign
  split_ifs
  · exact one
  · induction fields with
    | nil => exact one
    | cons field fields ih =>
      rw [List.foldr_cons]
      exact (each field List.mem_cons_self).max
        (ih fun other h => each other (List.mem_cons_of_mem field h))

mutual

theorem natural_align : ∀ p : PrepareGeps.Ty, IsAlignment (extent natural p).2
  | .int w => isAlignment_width w
  | .ptr => ⟨3, by decide, rfl⟩
  | .array n t => by
    rw [extent]
    exact natural_align t
  | .struct packed fields => by
    rw [extent]
    exact isAlignment_recordAlign packed (natural_aligns fields)

theorem natural_aligns : ∀ ts : List PrepareGeps.Ty, ∀ field ∈ extents natural ts,
    IsAlignment field.2
  | [], _, h => by cases h
  | t :: ts, field, h => by
    rw [extents] at h
    rcases List.mem_cons.mp h with rfl | h
    · exact natural_align t
    · exact natural_aligns ts field h

end

/-! ## The check -/

theorem add_packed (pos size m : Nat) (al : Unsigned) (some : size % 2 ^ 32 ≠ 0) :
    Fields.add true ⟨BitVec.ofNat 32 pos, al, true⟩ (BitVec.ofNat 32 size, BitVec.ofNat 32 m) =
      ⟨BitVec.ofNat 32 (pos + size), al, true⟩ := by
  have nonzero : BitVec.ofNat 32 size ≠ 0 := fun zero => some ((ofNat_eq_zero_iff size).mp zero)
  simp only [Fields.add, if_true, BitVec.ofNat_add]
  simpa using nonzero

theorem add_aligned {pos al m : Nat} (hal : IsAlignment al) (hm : IsAlignment m) (dvd : m ∣ pos)
    {size : Nat} (some : size % 2 ^ 32 ≠ 0) :
    Fields.add false ⟨BitVec.ofNat 32 pos, BitVec.ofNat 32 al, true⟩
        (BitVec.ofNat 32 size, BitVec.ofNat 32 m) =
      ⟨BitVec.ofNat 32 (pos + size), BitVec.ofNat 32 (max al m), true⟩ := by
  have nonzero : BitVec.ofNat 32 size ≠ 0 := fun zero => some ((ofNat_eq_zero_iff size).mp zero)
  simp only [Fields.add, (mask_eq_zero_iff hm pos).mpr dvd, ofNat_max hal hm, BitVec.ofNat_add]
  simpa using nonzero

/-- A field is only added to a valid state, and only with a size and where it is aligned. -/
theorem valid_of_add {packed : Bool} {st : Fields} {field : Unsigned × Unsigned}
    (valid : (st.add packed field).valid = true) :
    st.valid = true ∧ field.1 ≠ 0 ∧ (packed = false → st.size &&& (field.2 - 1) = 0) := by
  cases packed with
  | true =>
    simp only [Fields.add, if_true, Bool.and_eq_true, bne_iff_ne] at valid
    exact ⟨valid.1, valid.2, fun h => Bool.noConfusion h⟩
  | false =>
    simp only [Fields.add, Bool.false_eq_true, if_false, Bool.and_eq_true, bne_iff_ne,
      beq_iff_eq] at valid
    exact ⟨valid.1.1, valid.1.2, fun _ => valid.2⟩

theorem foldr_max (a m : Nat) (fields : List (Nat × Nat)) :
    fields.foldr (fun field align => max field.2 align) (max a m) =
      max m (fields.foldr (fun field align => max field.2 align) a) := by
  induction fields with
  | nil => exact Nat.max_comm a m
  | cons field fields ih =>
    rw [List.foldr_cons, List.foldr_cons, ih]
    omega

theorem sizeable_ne_zero {p : PrepareGeps.Ty} (sizeable : Sizeable p) :
    allocSize natural p % 2 ^ 32 ≠ 0 := by
  cases p with
  | int w =>
    rw [PrepareGeps.allocSize_int]
    cases w <;> decide
  | ptr => exact sizeable.elim
  | array n t =>
    rw [Sizeable] at sizeable
    exact sizeable.2
  | struct packed fields =>
    rw [Sizeable] at sizeable
    exact sizeable.2

/-- The size of a struct without padding is where the last field ends. -/
theorem allocSize_tight {dl : DataLayout} {packed : Bool} {fields : List PrepareGeps.Ty}
    (tight : Tight dl (.struct packed fields)) :
    allocSize dl (.struct packed fields) = (place true (extents dl fields) 0).2 := by
  rw [Tight] at tight
  rw [PrepareGeps.allocSize_struct, tight.2.2, recordSize_packed]

theorem width_eq {bits : Nat} :
    (width? bits).isSome = true ↔ bits = 8 ∨ bits = 16 ∨ bits = 32 ∨ bits = 64 := by
  unfold width?
  split_ifs <;> simp_all

theorem bits_of_width {bits : Nat} {w : IntWidth} (h : width? bits = some w) : w.bits = bits := by
  unfold width? at h
  split_ifs at h with h8 h16 h32 h64
  all_goals cases h
  · exact h8.symm
  · exact h16.symm
  · exact h32.symm
  · exact h64.symm

mutual

theorem checkTypeSize_tight (garbage : Unsigned) : ∀ (t : Ty) (p : PrepareGeps.Ty),
    layoutType t = some p → Sizeable p → Tight natural p →
    checkTypeSize garbage t =
      (BitVec.ofNat 32 (allocSize natural p), BitVec.ofNat 32 (extent natural p).2)
  | .int bits, p, found, _, _ => by
    rw [layoutType] at found
    obtain ⟨w, width, rfl⟩ := Option.map_eq_some_iff.mp found
    have simple := width_eq.mp (Option.isSome_iff_exists.mpr ⟨w, width⟩)
    rw [checkTypeSize, if_pos simple, PrepareGeps.allocSize_int, ← bits_of_width width]
    rfl
  | .pointer, _, found, _, _ => by
    rw [layoutType] at found
    cases found
  | .array count element, p, found, sizeable, tight => by
    rw [layoutType] at found
    obtain ⟨q, inner, rfl⟩ := Option.map_eq_some_iff.mp found
    rw [Sizeable] at sizeable
    rw [Tight] at tight
    have each := checkTypeSize_tight garbage element q inner sizeable.1 tight
    have nonzero : BitVec.ofNat 32 (allocSize natural q) ≠ 0 := fun zero =>
      sizeable_ne_zero sizeable.1 ((ofNat_eq_zero_iff _).mp zero)
    rw [checkTypeSize, each]
    simp only [if_neg nonzero]
    rw [PrepareGeps.allocSize_array, BitVec.ofNat_mul, extent]
  | .struct packed fields, p, found, sizeable, tight => by
    rw [layoutType] at found
    obtain ⟨ps, inner, rfl⟩ := Option.map_eq_some_iff.mp found
    have size := allocSize_tight tight
    have whole := sizeable_ne_zero sizeable
    rw [Sizeable] at sizeable
    rw [Tight] at tight
    obtain ⟨aligned, dvd⟩ := (like_packed_iff (PrepareGeps.extents_pos natural ps)).mp tight.2
    have loop := checkFields_tight garbage packed fields ps inner sizeable.1 tight.1 0 1
      ⟨0, by decide, rfl⟩ aligned
    have masked := (mask_eq_zero_iff (isAlignment_recordAlign packed (natural_aligns ps)) _).mpr dvd
    have loop' : checkFields garbage packed fields ⟨0, 1, true⟩ = _ := loop
    rw [checkTypeSize, size, extent]
    simp only [loop']
    rw [recordAlign] at masked
    simp only [masked, beq_self_eq_true, Bool.and_self, if_true, recordAlign]
  | .other, _, found, _, _ => by
    rw [layoutType] at found
    cases found

theorem checkFields_tight (garbage : Unsigned) (packed : Bool) :
    ∀ (ts : List Ty) (ps : List PrepareGeps.Ty), layoutTypes ts = some ps → SizeableAll ps →
    TightAll natural ps → ∀ pos al, IsAlignment al →
    (packed = false → Aligned (extents natural ps) pos) →
    checkFields garbage packed ts ⟨BitVec.ofNat 32 pos, BitVec.ofNat 32 al, true⟩ =
      ⟨BitVec.ofNat 32 (place true (extents natural ps) pos).2,
        BitVec.ofNat 32 (if packed then al else
          (extents natural ps).foldr (fun field align => max field.2 align) al), true⟩
  | [], ps, found, _, _, pos, al, _, _ => by
    rw [layoutTypes] at found
    cases found
    rw [checkFields, extents]
    cases packed <;> rfl
  | t :: ts, ps, found, sizeable, tight, pos, al, hal, aligned => by
    rw [layoutTypes] at found
    obtain ⟨p, first, found⟩ := Option.bind_eq_some_iff.mp found
    obtain ⟨qs, rest, rfl⟩ := Option.map_eq_some_iff.mp found
    rw [SizeableAll] at sizeable
    rw [TightAll] at tight
    rw [extents] at aligned
    have here := checkTypeSize_tight garbage t p first sizeable.1 tight.1
    have some := sizeable_ne_zero sizeable.1
    have size : (extent natural p).1 = allocSize natural p := rfl
    rw [checkFields, here, extents]
    cases packed with
    | true =>
      rw [add_packed _ _ _ _ some]
      rw [checkFields_tight garbage true ts qs rest sizeable.2 tight.2 _ al hal
        (fun h => Bool.noConfusion h)]
      rfl
    | false =>
      obtain ⟨dvd, later⟩ := aligned rfl
      rw [size] at later
      rw [add_aligned hal (natural_align p) dvd some]
      rw [checkFields_tight garbage false ts qs rest sizeable.2 tight.2 _ _
        (hal.max (natural_align p)) (fun _ => later)]
      simp only [Bool.false_eq_true, if_false, foldr_max]
      rfl

end

/-! ## What is accepted -/

theorem valid_of_checkFields (garbage : Unsigned) (packed : Bool) (ts : List Ty) {st : Fields}
    (valid : (checkFields garbage packed ts st).valid = true) : st.valid = true := by
  induction ts generalizing st with
  | nil => exact valid
  | cons t ts ih =>
    rw [checkFields] at valid
    exact (valid_of_add (ih valid)).1

mutual

theorem tight_of_checkTypeSize (garbage : Unsigned) : ∀ t : Ty, (checkTypeSize garbage t).1 ≠ 0 →
    ∃ p, layoutType t = some p ∧ Sizeable p ∧ Tight natural p
  | .int bits, accepted => by
    rw [checkTypeSize] at accepted
    split_ifs at accepted with simple
    · obtain ⟨w, width⟩ := Option.isSome_iff_exists.mp (width_eq.mpr simple)
      refine ⟨.int w, ?_, trivial, trivial⟩
      rw [layoutType, width]
      rfl
    · exact absurd rfl accepted
  | .pointer, accepted => by
    rw [checkTypeSize] at accepted
    exact absurd rfl accepted
  | .array count element, accepted => by
    rw [checkTypeSize] at accepted
    split_ifs at accepted with refused
    · exact absurd rfl accepted
    · obtain ⟨q, inner, sizeable, tight⟩ := tight_of_checkTypeSize garbage element refused
      have each := checkTypeSize_tight garbage element q inner sizeable tight
      refine ⟨.array count q, ?_, ?_, tight⟩
      · rw [layoutType, inner]
        rfl
      · refine ⟨sizeable, fun zero => accepted ?_⟩
        rw [each, ← BitVec.ofNat_mul, ← PrepareGeps.allocSize_array, ofNat_eq_zero_iff]
        exact zero
  | .struct packed fields, accepted => by
    rw [checkTypeSize] at accepted
    dsimp only at accepted
    split_ifs at accepted with checked
    · rw [Bool.and_eq_true, beq_iff_eq] at checked
      obtain ⟨valid, padded⟩ := checked
      obtain ⟨ps, inner, sizeable, tight, aligned⟩ :=
        tight_of_checkFields garbage packed fields ⟨0, 1, true⟩ valid
      have one : IsAlignment 1 := ⟨0, by decide, rfl⟩
      have fits := aligned 0 1 one rfl
      have loop : checkFields garbage packed fields ⟨0, 1, true⟩ = _ :=
        checkFields_tight garbage packed fields ps inner sizeable tight 0 1 one fits
      have align := isAlignment_recordAlign packed (natural_aligns ps)
      rw [loop] at padded accepted
      have dvd := (mask_eq_zero_iff align _).mp padded
      have whole := (like_packed_iff (PrepareGeps.extents_pos natural ps)).mpr ⟨fits, dvd⟩
      have same : Tight natural (.struct packed ps) := ⟨tight, whole⟩
      refine ⟨.struct packed ps, ?_, ⟨sizeable, fun zero => accepted ?_⟩, same⟩
      · rw [layoutType, inner]
        rfl
      · rw [← allocSize_tight same, ofNat_eq_zero_iff]
        exact zero
    · exact absurd rfl accepted
  | .other, accepted => by
    rw [checkTypeSize] at accepted
    exact absurd rfl accepted

theorem tight_of_checkFields (garbage : Unsigned) (packed : Bool) : ∀ (ts : List Ty) (st : Fields),
    (checkFields garbage packed ts st).valid = true →
    ∃ ps, layoutTypes ts = some ps ∧ SizeableAll ps ∧ TightAll natural ps ∧
      ∀ pos al, IsAlignment al → st = ⟨BitVec.ofNat 32 pos, BitVec.ofNat 32 al, true⟩ →
        packed = false → Aligned (extents natural ps) pos
  | [], _, _ => ⟨[], rfl, trivial, trivial, fun _ _ _ _ _ => trivial⟩
  | t :: ts, st, valid => by
    rw [checkFields] at valid
    obtain ⟨-, accepted, masked⟩ := valid_of_add (valid_of_checkFields garbage packed ts valid)
    obtain ⟨p, first, sizeable, tight⟩ := tight_of_checkTypeSize garbage t accepted
    obtain ⟨ps, rest, sizeables, tights, aligned⟩ := tight_of_checkFields garbage packed ts _ valid
    refine ⟨p :: ps, ?_, ⟨sizeable, sizeables⟩, ⟨tight, tights⟩, ?_⟩
    · rw [layoutTypes, first, rest]
      rfl
    · rintro pos al hal rfl rfl
      have here := checkTypeSize_tight garbage t p first sizeable tight
      rw [here] at masked aligned
      have dvd := (mask_eq_zero_iff (natural_align p) pos).mp (masked rfl)
      refine ⟨dvd, aligned (pos + allocSize natural p) (max al (extent natural p).2)
        (hal.max (natural_align p)) ?_ rfl⟩
      exact add_aligned hal (natural_align p) dvd (sizeable_ne_zero sizeable)

end

theorem checkTypeSize_ne_zero_iff (garbage : Unsigned) (t : Ty) :
    (checkTypeSize garbage t).1 ≠ 0 ↔
      ∃ p, layoutType t = some p ∧ Sizeable p ∧ Tight natural p := by
  refine ⟨tight_of_checkTypeSize garbage t, ?_⟩
  rintro ⟨p, found, sizeable, tight⟩ zero
  rw [checkTypeSize_tight garbage t p found sizeable tight] at zero
  exact sizeable_ne_zero sizeable ((ofNat_eq_zero_iff _).mp zero)

/-! ## Other targets -/

theorem recordAlign_dvd (packed : Bool) {as bs : List (Nat × Nat)}
    (finer : List.Forall₂ Finer as bs) (each : ∀ b ∈ bs, IsAlignment b.2) :
    recordAlign packed as ∣ recordAlign packed bs := by
  cases packed with
  | true => exact Nat.dvd_refl 1
  | false =>
    induction finer with
    | nil => exact Nat.dvd_refl 1
    | @cons a b as bs head _ ih =>
      have later : ∀ b ∈ bs, IsAlignment b.2 := fun b h => each b (List.mem_cons_of_mem _ h)
      exact max_dvd_max (each b List.mem_cons_self) (isAlignment_recordAlign false later) head.2
        (ih later)

mutual

/-- What has no padding with the largest alignments has none with others. -/
theorem tight_of_natural (dl : DataLayout) : ∀ p : PrepareGeps.Ty, Sizeable p → Tight natural p →
    Finer (extent dl p) (extent natural p) ∧ Tight dl p
  | .int w, _, _ =>
    ⟨⟨(PrepareGeps.allocSize_int w).trans (PrepareGeps.allocSize_int w).symm, dl.align_dvd w⟩,
      trivial⟩
  | .ptr, sizeable, _ => sizeable.elim
  | .array n t, sizeable, tight => by
    rw [Sizeable] at sizeable
    rw [Tight] at tight
    obtain ⟨finer, there⟩ := tight_of_natural dl t sizeable.1 tight
    refine ⟨⟨?_, ?_⟩, there⟩
    · have here : allocSize dl t = allocSize natural t := finer.1
      change allocSize dl (.array n t) = allocSize natural (.array n t)
      rw [PrepareGeps.allocSize_array, PrepareGeps.allocSize_array, here]
    · rw [extent, extent]
      exact finer.2
  | .struct packed fields, sizeable, tight => by
    have size := allocSize_tight tight
    rw [Sizeable] at sizeable
    rw [Tight] at tight
    obtain ⟨finer, there⟩ := tight_of_naturals dl fields sizeable.1 tight.1
    obtain ⟨aligned, dvd⟩ := (like_packed_iff (PrepareGeps.extents_pos natural fields)).mp tight.2
    have ends := place_sizes (Finer.sizes finer) 0
    have coarser := recordAlign_dvd packed finer (natural_aligns fields)
    have same : Tight dl (.struct packed fields) :=
      ⟨there, (like_packed_iff (PrepareGeps.extents_pos dl fields)).mpr
        ⟨fun h => Finer.aligned finer (aligned h), ends ▸ coarser.trans dvd⟩⟩
    refine ⟨⟨?_, ?_⟩, same⟩
    · change allocSize dl (.struct packed fields) = allocSize natural (.struct packed fields)
      rw [size, allocSize_tight same, ends]
    · rw [extent, extent]
      exact coarser

theorem tight_of_naturals (dl : DataLayout) : ∀ ts : List PrepareGeps.Ty, SizeableAll ts →
    TightAll natural ts →
    List.Forall₂ Finer (extents dl ts) (extents natural ts) ∧ TightAll dl ts
  | [], _, _ => ⟨.nil, trivial⟩
  | t :: ts, sizeable, tight => by
    rw [SizeableAll] at sizeable
    rw [TightAll] at tight
    obtain ⟨first, here⟩ := tight_of_natural dl t sizeable.1 tight.1
    obtain ⟨rest, there⟩ := tight_of_naturals dl ts sizeable.2 tight.2
    exact ⟨.cons first rest, here, there⟩

end

mutual

theorem pack_size (dl dl' : DataLayout) : ∀ p : PrepareGeps.Ty, Sizeable p → Tight dl p →
    allocSize dl' (pack p) = allocSize dl p
  | .int w, _, _ => (PrepareGeps.allocSize_int w).trans (PrepareGeps.allocSize_int w).symm
  | .ptr, sizeable, _ => sizeable.elim
  | .array n t, sizeable, tight => by
    rw [Sizeable] at sizeable
    rw [Tight] at tight
    rw [pack, PrepareGeps.allocSize_array, PrepareGeps.allocSize_array,
      pack_size dl dl' t sizeable.1 tight]
  | .struct packed fields, sizeable, tight => by
    rw [Sizeable] at sizeable
    have size := allocSize_tight tight
    rw [Tight] at tight
    rw [pack, size, PrepareGeps.allocSize_struct, recordSize_packed,
      place_sizes (pack_sizes dl dl' fields sizeable.1 tight.1)]

theorem pack_sizes (dl dl' : DataLayout) : ∀ ts : List PrepareGeps.Ty, SizeableAll ts →
    TightAll dl ts → (extents dl' (packs ts)).map Prod.fst = (extents dl ts).map Prod.fst
  | [], _, _ => rfl
  | t :: ts, sizeable, tight => by
    rw [SizeableAll] at sizeable
    rw [TightAll] at tight
    rw [packs, extents, extents, List.map_cons, List.map_cons,
      pack_sizes dl dl' ts sizeable.2 tight.2]
    exact congrArg (· :: _) (pack_size dl dl' t sizeable.1 tight.1)

end

mutual

theorem pack_indexedOffset (dl dl' : DataLayout) (ρ : Nat → Int) : ∀ (p : PrepareGeps.Ty)
    (is : List Index), Sizeable p → Tight dl p →
    indexedOffset dl' ρ (pack p) is = indexedOffset dl ρ p is
  | .int _, is, _, _ => by cases is <;> rfl
  | .ptr, _, sizeable, _ => sizeable.elim
  | .array n t, is, sizeable, tight => by
    rw [Sizeable] at sizeable
    rw [Tight] at tight
    cases is with
    | nil => rfl
    | cons i is =>
      rw [pack, indexedOffset, indexedOffset, pack_size dl dl' t sizeable.1 tight,
        pack_indexedOffset dl dl' ρ t is sizeable.1 tight]
  | .struct packed fields, is, sizeable, tight => by
    rw [Sizeable] at sizeable
    rw [Tight] at tight
    obtain ⟨inner, starts, -⟩ := tight
    cases is with
    | nil => rfl
    | cons i is =>
      rw [pack, indexedOffset, indexedOffset]
      cases i.operand with
      | var id => rfl
      | const v =>
        dsimp only
        rw [pack_fieldOffsets dl dl' ρ fields is sizeable.1 inner, fieldOffset, fieldOffset,
          starts, place_sizes (pack_sizes dl dl' fields sizeable.1 inner)]

theorem pack_fieldOffsets (dl dl' : DataLayout) (ρ : Nat → Int) : ∀ (ts : List PrepareGeps.Ty)
    (is : List Index), SizeableAll ts → TightAll dl ts → ∀ i : Nat,
    ((packs ts)[i]?).elim 0 (fun t => indexedOffset dl' ρ t is) =
      (ts[i]?).elim 0 fun t => indexedOffset dl ρ t is
  | [], _, _, _, _ => rfl
  | t :: ts, is, sizeable, tight, i => by
    rw [SizeableAll] at sizeable
    rw [TightAll] at tight
    rw [packs]
    cases i with
    | zero => exact pack_indexedOffset dl dl' ρ t is sizeable.1 tight.1
    | succ i =>
      rw [List.getElem?_cons_succ, List.getElem?_cons_succ]
      exact pack_fieldOffsets dl dl' ρ ts is sizeable.2 tight.2 i

end

theorem pack_layoutOffset {dl : DataLayout} {p : PrepareGeps.Ty} (sizeable : Sizeable p)
    (tight : Tight dl p) (dl' : DataLayout) (ρ : Nat → Int) (first : Index) (rest : List Index) :
    layoutOffset dl' ρ (pack p) first rest = layoutOffset dl ρ p first rest := by
  rw [layoutOffset, layoutOffset, pack_size dl dl' p sizeable tight,
    pack_indexedOffset dl dl' ρ p rest sizeable tight]

/-! ## Prototypes -/

/-- Refused once, a prototype stays refused. -/
theorem foldl_checkParam (garbage : Unsigned) (params : List Param) (valid : Bool) :
    params.foldl (fun valid param => valid && checkParam garbage param) valid = true ↔
      valid = true ∧ ∀ param ∈ params, checkParam garbage param = true := by
  induction params generalizing valid with
  | nil => simp
  | cons param params ih =>
    rw [List.foldl_cons, ih, List.forall_mem_cons, Bool.and_eq_true]
    exact and_assoc

/-- The parameter is an integer or points to what is laid out without padding on every target. -/
def Portable : Param → Prop
  | .int => True
  | .pointer pointee => ∃ p, layoutType pointee = some p ∧ Sizeable p ∧ ∀ dl, Tight dl p
  | .other => False

theorem checkParam_iff (garbage : Unsigned) (param : Param) :
    checkParam garbage param = true ↔ Portable param := by
  cases param with
  | int => exact iff_of_true rfl trivial
  | other => exact iff_of_false (fun h => Bool.noConfusion h) id
  | pointer pointee =>
    rw [checkParam, bne_iff_ne, checkTypeSize_ne_zero_iff, Portable]
    refine exists_congr fun p => and_congr_right fun _ => and_congr_right fun sizeable => ?_
    exact ⟨fun tight dl => (tight_of_natural dl p sizeable tight).2, fun tight => tight natural⟩

/-- The prototypes that are accepted are those whose pointers are to types without padding. A type
that is passed has one layout on every target, which is the one with all its structs packed. -/
theorem checkFuncParams_layouts (garbage : Unsigned) (ret : Param) (params : List Param) :
    (checkFuncParams garbage ret params = true ↔ ∀ param ∈ ret :: params, Portable param) ∧
    (checkFuncParams garbage ret params = true →
      ∀ pointee, .pointer pointee ∈ ret :: params → ∃ p, layoutType pointee = some p ∧
        ∀ dl dl', allocSize dl p = allocSize dl' (pack p) ∧
          ∀ ρ first rest, layoutOffset dl ρ p first rest = layoutOffset dl' ρ (pack p) first rest) := by
  have iff : checkFuncParams garbage ret params = true ↔ ∀ param ∈ ret :: params, Portable param := by
    unfold checkFuncParams
    simp only [foldl_checkParam, checkParam_iff, List.forall_mem_cons]
  refine ⟨iff, fun accepted pointee passed => ?_⟩
  obtain ⟨p, found, sizeable, tight⟩ := iff.mp accepted _ passed
  refine ⟨p, found, fun dl dl' => ⟨(pack_size dl dl' p sizeable (tight dl)).symm, ?_⟩⟩
  intro ρ first rest
  exact (pack_layoutOffset sizeable (tight dl) dl' ρ first rest).symm

/-- A struct with a gap between its fields is refused, and accepted if it is packed. -/
example :
    checkFuncParams 0 .int [.pointer (.struct false [.int 8, .int 32])] = false ∧
      checkFuncParams 0 .int [.pointer (.struct true [.int 8, .int 32])] = true := by
  decide +kernel

end ApiTypes
