import ClamBC.Fallible
import ClamBC.RecordLayout
import ClamBC.WrapAround
import Mathlib.Tactic.Positivity

/-!
# Replacing getelementptr on structs and arrays by byte offsets

`processGEPI` rewrites a getelementptr whose pointer is a bitcast of bytes. It adds up a
byte offset from products of sizes and indices, while it keeps track of the type that is
reached. There is one version for structs and one for arrays, which differ in the type
they begin with and in what they do at each index.

Sizes are an `int64_t` with the number of bits. Failing an assertion and following a null
pointer are faults. Types are the ones the writer admits, and pointers.
-/

namespace PrepareGeps

open RecordLayout WrapAround

inductive IntWidth where
  | w8 | w16 | w32 | w64
  deriving DecidableEq

def IntWidth.bits : IntWidth → Nat
  | .w8 => 8
  | .w16 => 16
  | .w32 => 32
  | .w64 => 64

inductive Ty where
  | int (w : IntWidth)
  | ptr
  | array (length : Nat) (element : Ty)
  | struct (packed : Bool) (fields : List Ty)

/-- The alignment of an integer divides its size. -/
structure DataLayout where
  align : IntWidth → Nat
  align_pos : ∀ w, 0 < align w
  align_dvd : ∀ w, align w ∣ w.bits / 8
  pointerBytes : Nat
  pointerAlign : Nat
  pointerAlign_pos : 0 < pointerAlign

section
variable (dl : DataLayout)

mutual

/-- `getTypeAllocSize` and `getABITypeAlign`. -/
def extent : Ty → Nat × Nat
  | .int w => (roundUp (w.bits / 8) (dl.align w), dl.align w)
  | .ptr => (roundUp dl.pointerBytes dl.pointerAlign, dl.pointerAlign)
  | .array n t => (roundUp (n * (extent t).1) (extent t).2, (extent t).2)
  | .struct packed fields =>
    (roundUp (recordSize packed (extents fields)) (recordAlign packed (extents fields)),
      recordAlign packed (extents fields))

def extents : List Ty → List (Nat × Nat)
  | [] => []
  | t :: ts => extent t :: extents ts

end

def allocSize (t : Ty) : Nat := (extent dl t).1

end

/-! ## Indices -/

/-- An index has its own integer type. -/
structure Index where
  width : Nat
  operand : Atom

/-- `getLimitedValue`, where the index is a constant. -/
def limited (width : Nat) (v : Int) : Nat := min (v % 2 ^ width).toNat (2 ^ 64 - 1)

/-- The indices are read as signed numbers. -/
def Index.value (ρ : Nat → Int) (i : Index) : Int := wrap i.width (i.operand.value ρ)

/-- The type that is reached; the index of a field is a constant of 32 bits. -/
def getIndexedType : Ty → List Index → Option Ty
  | t, [] => some t
  | .array _ t, _ :: is => getIndexedType t is
  | .struct _ fields, i :: is =>
    match i.operand with
    | .const v => if i.width = 32 then
        (fields[limited 32 v]?).bind fun t => getIndexedType t is else none
    | .var _ => none
  | _, _ :: _ => none

/-- The offset in the data layout, behind the first index. -/
def indexedOffset (dl : DataLayout) (ρ : Nat → Int) : Ty → List Index → Int
  | .array _ t, i :: is => allocSize dl t * i.value ρ + indexedOffset dl ρ t is
  | .struct packed fields, i :: is =>
    match i.operand with
    | .const v =>
      fieldOffset packed (extents dl fields) (limited 32 v) +
        ((fields[limited 32 v]?).elim 0 fun t => indexedOffset dl ρ t is)
    | .var _ => 0
  | _, _ => 0

/-- The offset that the data layout gives for a getelementptr. -/
def layoutOffset (dl : DataLayout) (ρ : Nat → Int) (t : Ty) (first : Index)
    (rest : List Index) : Int :=
  allocSize dl t * first.value ρ + indexedOffset dl ρ t rest

/-! ## Sizes and offsets -/

inductive Fault where
  | assertion (text : String)
  | nullPointer

section
variable (dl : DataLayout)

/-- The size in bits. -/
def getTypeSize : Ty → Except Fault Int
  | .int w => .ok w.bits
  | .ptr => .error (.assertion "Size has not been computed")
  | .array n t => do
    let size ← getTypeSize t
    if wrap 64 (n * size) ≠ 0 then return wrap 64 (n * size)
    else throw (.assertion "Size has not been computed")
  | .struct packed fields => .ok (wrap 64 (8 * recordSize packed (extents dl fields)))

def getTypeSizeInBytes (t : Ty) : Except Fault Int := (getTypeSize dl t).map fun size => size.tdiv 8

def computeOffsetInBytes (t : Ty) (idx : Nat) : Except Fault Int :=
  match t with
  | .struct packed fields =>
    if idx ≤ fields.length then
      if idx < fields.length then
        .ok ((8 * fieldOffset packed (extents dl fields) idx) % 2 ^ 64 / 8)
      else .error (.assertion "Invalid element idx!")
    else .error (.assertion "Idx too high")
  | .array n t =>
    if idx ≤ n then (getTypeSizeInBytes dl t).map fun size => wrap 64 (idx * size)
    else .error (.assertion "Idx too high")
  | _ => .error (.assertion "pt must be a complex type")

end

def findTypeAtIndex (t : Ty) (idx : Nat) : Except Fault (Option Ty) :=
  match t with
  | .struct _ fields =>
    match fields[idx]? with
    | some t => .ok (some t)
    | none => .error (.assertion "Something went wrong")
  | .array _ t => .ok (some t)
  | _ => .ok none

/-! ## The code that is emitted -/

/-- Constants are given as an `uint64_t`, and truncated to the type. -/
inductive Expr where
  | const (v : Int)
  | index (operand : Atom)
  | mul (a b : Expr)
  | add (a b : Expr)

def Expr.eval (w : Nat) (ρ : Nat → Int) : Expr → Int
  | .const v => wrap w (v % 2 ^ 64)
  | .index operand => wrap w (operand.value ρ)
  | .mul a b => wrap w (a.eval w ρ * b.eval w ρ)
  | .add a b => wrap w (a.eval w ρ + b.eval w ρ)

/-- Both operands have the same type. -/
def createAdd (w : Nat) (vCnt : Expr) (width : Nat) (addend : Expr) : Except Fault Expr :=
  if width = w then .ok (.add vCnt addend) else
    .error (.assertion "Binary operator types must match!")

/-! ## Structs -/

def Ty.isAggregate : Ty → Bool
  | .struct _ _ | .array _ _ => true
  | _ => false

def Ty.isStruct : Ty → Bool
  | .struct _ _ => true
  | _ => false

section
variable (dl : DataLayout)

/-- What one index adds, and the type behind it. -/
def structStep (currType : Ty) (i : Index) : Except Fault (Expr × Ty) :=
  match i.operand with
  | .const v => do
    let val ← computeOffsetInBytes dl currType (limited i.width v)
    let tmp ← findTypeAtIndex currType (limited i.width v)
    match tmp with
    | none => throw (.assertion "Should always be defined")
    | some t => return (.const val, if t.isAggregate then t else currType)
  | .var id =>
    match currType with
    | .array _ t => do
      let size ← getTypeSizeInBytes dl t
      return (.mul (.const size) (.index (.var id)), if t.isAggregate then t else currType)
    | _ => throw (.assertion "Figure out what to do here")

def structLoop (w : Nat) : Ty → List Index → Expr → Except Fault Expr
  | _, [], vCnt => .ok vCnt
  | currType, i :: is, vCnt => do
    let (addend, currType) ← structStep dl currType i
    let vCnt ← createAdd w vCnt i.width addend
    structLoop w currType is vCnt

/-- The version for structs. -/
def processStruct (packed : Bool) (fields : List Ty) (first : Index) (rest : List Index) :
    Except Fault Expr := do
  let size ← getTypeSizeInBytes dl (.struct packed fields)
  if size = 0 then throw (.assertion "size not computed")
  else
    structLoop dl first.width (.struct packed fields) rest
      (.mul (.const size) (.index first.operand))

/-! ## Arrays -/

/-- `pCurrStruct` is the struct that offsets of fields that are not structs are looked up in. -/
def arrayStep (currType : Ty) (pCurrStruct : Option Ty) (i : Index) :
    Except Fault (Option Expr × Ty × Option Ty) :=
  let pCurrStruct := if pCurrStruct.isNone && currType.isStruct then some currType else pCurrStruct
  match i.operand with
  | .const v => do
    let pt ← findTypeAtIndex currType (limited i.width v)
    match pt with
    | none => return (none, currType, pCurrStruct)
    | some pt =>
      if pt.isStruct then
        let val ← computeOffsetInBytes dl pt (limited i.width v)
        return (some (.const val), pt, some pt)
      else
        match pCurrStruct with
        | none => throw .nullPointer
        | some s =>
          let val ← computeOffsetInBytes dl s (limited i.width v)
          return (some (.const val), pt, some s)
  | .var id => do
    let size ← getTypeSizeInBytes dl currType
    return (some (.mul (.const size) (.index (.var id))), currType, pCurrStruct)

def arrayLoop (w : Nat) : Ty → Option Ty → List Index → Expr → Except Fault Expr
  | _, _, [], vCnt => .ok vCnt
  | currType, pCurrStruct, i :: is, vCnt => do
    let (addend, currType, pCurrStruct) ← arrayStep dl currType pCurrStruct i
    match addend with
    | none => arrayLoop w currType pCurrStruct is vCnt
    | some addend =>
      let vCnt ← createAdd w vCnt i.width addend
      arrayLoop w currType pCurrStruct is vCnt

/-- The version for arrays. -/
def processArray (element : Ty) (first : Index) (rest : List Index) : Except Fault Expr := do
  let size ← getTypeSizeInBytes dl element
  if size = 0 then throw (.assertion "size not computed")
  else arrayLoop dl first.width element none rest (.mul (.const size) (.index first.operand))

/-- What the pointer of the getelementptr is cast from: bytes, an array of bytes, or something else.
-/
inductive Underlying where
  | bytes
  | byteArray
  | other

/-- The offset from the underlying object, if the instruction is rewritten. -/
def processGEPI (underlying : Option Underlying) (gepiDstType : Ty) (first : Index)
    (rest : List Index) :
    Except Fault (Option Expr) :=
  match underlying with
  | none => .ok none
  | some .other => .error (.assertion "ClamBCLowering did not do it's job")
  | some _ =>
    match gepiDstType with
    | .struct packed fields => (processStruct dl packed fields first rest).map some
    | .array _ element => (processArray dl element first rest).map some
    | _ => .ok none

end

/-! ## Sizes in the data layout -/

section
variable {dl : DataLayout}

theorem extent_aligned (dl : DataLayout) (t : Ty) :
    0 < (extent dl t).2 ∧ (extent dl t).2 ∣ (extent dl t).1 := by
  cases t with
  | int w => exact ⟨dl.align_pos w, dvd_roundUp _ _⟩
  | ptr => exact ⟨dl.pointerAlign_pos, dvd_roundUp _ _⟩
  | array n t =>
    rw [extent]
    exact ⟨(extent_aligned dl t).1, dvd_roundUp _ _⟩
  | struct packed fields =>
    rw [extent]
    exact ⟨recordAlign_pos _ _, dvd_roundUp _ _⟩

theorem allocSize_int (w : IntWidth) : allocSize dl (.int w) = w.bits / 8 := by
  rw [allocSize, extent]
  exact roundUp_of_dvd (dl.align_pos w) (dl.align_dvd w)

theorem allocSize_array (n : Nat) (t : Ty) : allocSize dl (.array n t) = n * allocSize dl t := by
  obtain ⟨positive, dvd⟩ := extent_aligned dl t
  rw [allocSize, extent]
  exact roundUp_of_dvd positive (dvd.mul_left n)

theorem allocSize_struct (packed : Bool) (fields : List Ty) :
    allocSize dl (.struct packed fields) = recordSize packed (extents dl fields) := by
  rw [allocSize, extent]
  exact roundUp_recordSize _ _

theorem extents_pos (dl : DataLayout) (ts : List Ty) : ∀ field ∈ extents dl ts, 0 < field.2 := by
  induction ts with
  | nil => exact nofun
  | cons t ts ih =>
    intro field here
    rw [extents] at here
    rcases List.mem_cons.mp here with rfl | here
    · exact (extent_aligned dl t).1
    · exact ih field here

/-- A size in bits is the one of the data layout, up to the range of `int64_t`. -/
theorem getTypeSize_eq {t : Ty} {size : Int} (sized : getTypeSize dl t = .ok size) :
    size = wrap 64 (8 * allocSize dl t) := by
  cases t with
  | int w =>
    cases sized
    rw [allocSize_int]
    cases w <;> rfl
  | ptr => cases sized
  | array n t =>
    rw [getTypeSize] at sized
    obtain ⟨inner, sizedInner, sized⟩ := Fallible.bind_eq_ok.mp sized
    split_ifs at sized with some
    cases sized
    rw [getTypeSize_eq sizedInner, allocSize_array, wrap, wrap, wrap, Int.mul_bmod_bmod]
    push_cast
    ring_nf
  | struct packed fields =>
    rw [getTypeSize, Except.ok.injEq] at sized
    rw [← sized, allocSize_struct]

theorem eight_dvd_wrap (n : Int) : 8 ∣ wrap 64 (8 * n) := by
  have same := Int.modEq_iff_dvd.mp (wrap_modEq 64 (8 * n)).symm
  omega

theorem getTypeSizeInBytes_eq {t : Ty} {size : Int} (sized : getTypeSizeInBytes dl t = .ok size) :
    8 * size = wrap 64 (8 * allocSize dl t) := by
  obtain ⟨bits, sizedBits, rfl⟩ := Fallible.map_eq_ok.mp sized
  rw [getTypeSize_eq sizedBits]
  exact Int.mul_tdiv_cancel' (eight_dvd_wrap _)

theorem bytes_modEq {t : Ty} {size : Int} (sized : getTypeSizeInBytes dl t = .ok size) :
    size ≡ allocSize dl t [ZMOD 2 ^ 61] := by
  have same := wrap_modEq 64 (8 * allocSize dl t)
  rw [← getTypeSizeInBytes_eq sized] at same
  have modulus : (2 : Int) ^ 64 = 8 * 2 ^ 61 := by norm_num
  rw [modulus] at same
  exact Int.ModEq.mul_left_cancel' (by norm_num) same

/-- A type whose size in bits is a positive `int64_t` has its size. -/
theorem bytes_eq {t : Ty} {size : Int} (sized : getTypeSizeInBytes dl t = .ok size)
    (small : 8 * allocSize dl t < 2 ^ 63) :
    size = allocSize dl t := by
  have same := getTypeSizeInBytes_eq sized
  rw [wrap_eq (w := 64) (Int.ModEq.refl _) ⟨by norm_num; omega, by norm_num; omega⟩] at same
  omega

theorem fieldOffset_modEq (offset : Nat) :
    ((8 * offset : Nat) : Int) % 2 ^ 64 / 8 ≡ offset [ZMOD 2 ^ 61] := by
  rw [Int.modEq_iff_dvd]
  omega

/-! ## Structs -/

theorem Expr.eval_wrapped (w : Nat) (ρ : Nat → Int) (e : Expr) :
    wrap w (e.eval w ρ) = e.eval w ρ := by
  cases e <;> exact Int.bmod_bmod

/-- For a type of at most 64 bits, a constant is what it is congruent to. -/
theorem const_modEq {w : Nat} (narrow : w ≤ 61) {val n : Int} (same : val ≡ n [ZMOD 2 ^ 61])
    (ρ : Nat → Int) :
    (Expr.const val).eval w ρ ≡ n [ZMOD 2 ^ w] := by
  have small : (2 : Int) ^ w ∣ 2 ^ 61 := pow_dvd_pow 2 narrow
  have wide : (2 : Int) ^ w ∣ 2 ^ 64 := pow_dvd_pow 2 (by omega)
  calc (Expr.const val).eval w ρ ≡ val % 2 ^ 64 [ZMOD 2 ^ w] := wrap_modEq w _
    _ ≡ val [ZMOD 2 ^ w] := (Int.mod_modEq val (2 ^ 64)).of_dvd wide
    _ ≡ n [ZMOD 2 ^ w] := same.of_dvd small

theorem limited_modEq {w : Nat} (narrow : w ≤ 61) (v : Int) :
    (limited w v : Int) ≡ wrap w v [ZMOD 2 ^ w] := by
  have positive : (0 : Int) < 2 ^ w := by positivity
  have bound : v % 2 ^ w < 2 ^ 61 :=
    (Int.emod_lt_of_pos v positive).trans_le (pow_le_pow_right₀ (by norm_num) narrow)
  have nonneg := Int.emod_nonneg v positive.ne'
  have same : (limited w v : Int) = v % 2 ^ w := by
    unfold limited
    rw [Nat.min_eq_left (by omega), Int.toNat_of_nonneg nonneg]
  rw [same]
  exact (Int.mod_modEq v _).trans (wrap_modEq w v).symm

/-- An index of an array adds its product with the size of the elements. -/
theorem scaled_modEq {w : Nat} (narrow : w ≤ 61) {t : Ty} {size : Int}
    (sized : getTypeSizeInBytes dl t = .ok size) (ρ : Nat → Int) (operand : Atom) :
    (Expr.mul (.const size) (.index operand)).eval w ρ ≡ allocSize dl t * wrap w (operand.value ρ)
      [ZMOD 2 ^ w] := by
  refine (wrap_modEq w _).trans ((const_modEq narrow (bytes_modEq sized) ρ).mul_right _)

/-- Nothing can be indexed that is neither a struct nor an array. -/
theorem indices_nil {t : Ty} {is : List Index} (typed : (getIndexedType t is).isSome = true)
    (scalar : t.isAggregate = false) : is = [] := by
  cases is with
  | nil => rfl
  | cons i is =>
    cases t with
    | int w => cases typed
    | ptr => cases typed
    | array n t => cases scalar
    | struct packed fields => cases scalar

/-- The index of a field. -/
theorem typed_struct {packed : Bool} {fields : List Ty} {i : Index} {is : List Index}
    (typed : (getIndexedType (.struct packed fields) (i :: is)).isSome = true) :
    ∃ v t, i = ⟨32, .const v⟩ ∧ fields[limited 32 v]? = some t ∧
      (getIndexedType t is).isSome = true := by
  obtain ⟨width, v | id⟩ := i
  · simp only [getIndexedType] at typed
    split_ifs at typed with bits
    · cases field : fields[limited 32 v]? with
      | none =>
        rw [field] at typed
        cases typed
      | some t =>
        rw [field] at typed
        exact ⟨v, t, by rw [bits], field, typed⟩
    · cases typed
  · cases typed

@[simp] theorem indexedOffset_nil (ρ : Nat → Int) (t : Ty) : indexedOffset dl ρ t [] = 0 := by
  cases t <;> rfl

theorem next_type {t currType : Ty} {is : List Index}
    (typed : (getIndexedType t is).isSome = true) :
    (if t.isAggregate then t else currType) = t ∨ is = [] := by
  cases kind : t.isAggregate with
  | true => exact Or.inl rfl
  | false => exact Or.inr (indices_nil typed kind)

theorem structStep_spec {w : Nat} (narrow : w ≤ 61) {currType currType' : Ty}
    {i : Index} {is : List Index} {addend : Expr}
    (width : i.width = w) (step : structStep dl currType i = .ok (addend, currType'))
    (typed : (getIndexedType currType (i :: is)).isSome = true) (ρ : Nat → Int) :
    ∃ t, (getIndexedType t is).isSome = true ∧ (currType' = t ∨ is = []) ∧
      addend.eval w ρ + indexedOffset dl ρ t is ≡ indexedOffset dl ρ currType (i :: is)
        [ZMOD 2 ^ w] := by
  obtain ⟨width', operand⟩ := i
  subst width
  cases currType with
  | int _ => cases typed
  | ptr => cases typed
  | array n t =>
    cases operand with
    | const v =>
      obtain ⟨val, computed, step⟩ := Fallible.bind_eq_ok.mp step
      obtain ⟨tmp, found, step⟩ := Fallible.bind_eq_ok.mp step
      cases found
      cases step
      refine ⟨t, typed, next_type typed, (Int.ModEq.add_right _ ?_)⟩
      rw [computeOffsetInBytes] at computed
      split_ifs at computed
      obtain ⟨size, sized, rfl⟩ := Fallible.map_eq_ok.mp computed
      have product :
          wrap 64 (limited width' v * size) ≡ limited width' v * allocSize dl t [ZMOD 2 ^ 61] :=
        ((wrap_modEq 64 _).of_dvd (pow_dvd_pow 2 (by decide))).trans
          ((bytes_modEq sized).mul_left _)
      refine (const_modEq narrow product ρ).trans ?_
      rw [mul_comm]
      exact (limited_modEq narrow v).mul_left _
    | var id =>
      obtain ⟨size, sized, step⟩ := Fallible.bind_eq_ok.mp step
      cases step
      exact ⟨t, typed, next_type typed, (scaled_modEq narrow sized ρ (.var id)).add_right _⟩
  | struct packed fields =>
    obtain ⟨v, t, isConst, field, typed'⟩ := typed_struct typed
    cases isConst
    obtain ⟨val, computed, step⟩ := Fallible.bind_eq_ok.mp step
    obtain ⟨tmp, found, step⟩ := Fallible.bind_eq_ok.mp step
    rw [findTypeAtIndex, field] at found
    cases found
    cases step
    refine ⟨t, typed', next_type typed', ?_⟩
    rw [computeOffsetInBytes] at computed
    split_ifs at computed
    cases computed
    simp only [indexedOffset, field, Option.elim_some]
    exact (const_modEq narrow (fieldOffset_modEq _) ρ).add_right _

theorem structLoop_spec {w : Nat} (narrow : w ≤ 61) {currType : Ty}
    {is : List Index} {vCnt e : Expr} (ran : structLoop dl w currType is vCnt = .ok e)
    (typed : (getIndexedType currType is).isSome = true) (ρ : Nat → Int) :
    e.eval w ρ ≡ vCnt.eval w ρ + indexedOffset dl ρ currType is [ZMOD 2 ^ w] := by
  induction is generalizing currType vCnt with
  | nil =>
    cases ran
    simp
  | cons i is ih =>
    obtain ⟨⟨addend, next⟩, step, ran⟩ := Fallible.bind_eq_ok.mp ran
    obtain ⟨vCnt', created, ran⟩ := Fallible.bind_eq_ok.mp ran
    rw [createAdd] at created
    split_ifs at created with width
    cases created
    obtain ⟨t, typed', same, offset⟩ := structStep_spec narrow width step typed ρ
    have rest :
        e.eval w ρ ≡ (Expr.add vCnt addend).eval w ρ + indexedOffset dl ρ t is [ZMOD 2 ^ w] := by
      rcases same with rfl | rfl
      · exact ih ran typed'
      · cases ran
        simp
    calc e.eval w ρ ≡ (Expr.add vCnt addend).eval w ρ + indexedOffset dl ρ t is [ZMOD 2 ^ w] := rest
      _ ≡ vCnt.eval w ρ + addend.eval w ρ + indexedOffset dl ρ t is [ZMOD 2 ^ w] :=
        (wrap_modEq w _).add_right _
      _ = vCnt.eval w ρ + (addend.eval w ρ + indexedOffset dl ρ t is) := add_assoc _ _ _
      _ ≡ vCnt.eval w ρ + indexedOffset dl ρ currType (i :: is) [ZMOD 2 ^ w] := offset.add_left _

/-- A field of the struct that is cast to has an index of 32 bits, and so have all other indices. -/
theorem struct_width {packed : Bool} {fields : List Ty} {w : Nat} {i : Index} {is : List Index}
    {vCnt e : Expr} (ran : structLoop dl w (.struct packed fields) (i :: is) vCnt = .ok e)
    (typed : (getIndexedType (.struct packed fields) (i :: is)).isSome = true) : w = 32 := by
  obtain ⟨⟨addend, next⟩, -, ran⟩ := Fallible.bind_eq_ok.mp ran
  obtain ⟨vCnt', created, -⟩ := Fallible.bind_eq_ok.mp ran
  rw [createAdd] at created
  split_ifs at created with width
  obtain ⟨v, t, rfl, -, -⟩ := typed_struct typed
  exact width.symm

/-- Where the offset fits into the type of the indices, the rewritten access to a struct has the
offset of the data layout. Only the product with the size in bits is an `int64_t`, which matters
for a single index of more than 61 bits. -/
theorem processGEPI_struct_offset {underlying : Option Underlying}
    {packed : Bool} {fields : List Ty} {first : Index} {rest : List Index}
    {e : Expr} (typed : (getIndexedType (.struct packed fields) rest).isSome = true)
    (rewritten : processGEPI dl underlying (.struct packed fields) first rest = .ok (some e))
    (bits : 61 < first.width → 8 * allocSize dl (.struct packed fields) < 2 ^ 63) (ρ : Nat → Int)
    (range : InRange first.width (layoutOffset dl ρ (.struct packed fields) first rest)) :
    e.eval first.width ρ = layoutOffset dl ρ (.struct packed fields) first rest := by
  have ran : processStruct dl packed fields first rest = .ok e := by
    unfold processGEPI at rewritten
    split at rewritten
    · cases rewritten
    · cases rewritten
    · obtain ⟨e', ran, same⟩ := Fallible.map_eq_ok.mp rewritten
      cases same
      exact ran
  obtain ⟨size, sized, ran⟩ := Fallible.bind_eq_ok.mp ran
  split_ifs at ran with zero
  rw [← Expr.eval_wrapped]
  refine wrap_eq ?_ range
  by_cases narrow : first.width ≤ 61
  · exact (structLoop_spec narrow ran typed ρ).trans
      ((scaled_modEq narrow sized ρ first.operand).add_right _)
  · have small := bits (by omega)
    cases rest with
    | cons i is =>
      have width := struct_width ran typed
      omega
    | nil =>
      cases ran
      have constant : (Expr.const size).eval first.width ρ ≡ allocSize dl (.struct packed fields)
          [ZMOD 2 ^ first.width] := by
        rw [Expr.eval, bytes_eq sized small, Int.emod_eq_of_lt (by omega) (by omega)]
        exact wrap_modEq _ _
      rw [layoutOffset, indexedOffset_nil, add_zero]
      exact (wrap_modEq _ _).trans (constant.mul_right _)

end

/-- Integers are aligned to their size. -/
def natural : DataLayout where
  align w := w.bits / 8
  align_pos w := by cases w <;> decide
  align_dvd w := Nat.dvd_refl _
  pointerBytes := 8
  pointerAlign := 8
  pointerAlign_pos := by decide

/-- A byte, and two numbers of 32 bits behind the padding. -/
def padded : List Ty := [.int .w8, .array 2 (.int .w32)]

/-- What is emitted for a variable element of the struct that stands before. -/
def paddedOffset : Expr := .add (.add (.mul (.const 12) (.index (.const (-1)))) (.const 4))
    (.mul (.const 4) (.index (.var 0)))

theorem processGEPI_bytes (dl : DataLayout) (packed : Bool) (fields : List Ty) (first : Index)
    (rest : List Index) :
    processGEPI dl (some .bytes) (.struct packed fields) first rest =
      (processStruct dl packed fields first rest).map some := rfl

theorem processGEPI_struct_offset_padded :
    processGEPI natural (some .bytes) (.struct false padded) ⟨32, .const (-1)⟩ [⟨32, .const 1⟩,
      ⟨32, .var 0⟩] =
      .ok (some paddedOffset) ∧
    paddedOffset.eval 32 (fun _ => 1) =
      layoutOffset natural (fun _ => 1) (.struct false padded) ⟨32, .const (-1)⟩ [⟨32, .const 1⟩,
        ⟨32, .var 0⟩] := by
  have twelve : recordSize false (extents natural padded) = 12 := rfl
  have size : getTypeSizeInBytes natural (.struct false padded) = .ok 12 := by
    rw [getTypeSizeInBytes, getTypeSize, twelve]
    rfl
  have loop : structLoop natural 32 (.struct false padded) [⟨32, .const 1⟩, ⟨32, .var 0⟩]
      (.mul (.const 12) (.index (.const (-1)))) =
      .ok paddedOffset := rfl
  have ran : processStruct natural false padded ⟨32, .const (-1)⟩ [⟨32, .const 1⟩, ⟨32, .var 0⟩] =
      .ok paddedOffset := by
    unfold processStruct
    rw [size, Fallible.ok_bind, if_neg (by decide), loop]
  have rewritten :=
    (processGEPI_bytes natural false padded ⟨32, .const (-1)⟩ [⟨32, .const 1⟩, ⟨32, .var 0⟩]).trans
    (congrArg (Except.map some) ran)
  exact ⟨rewritten, processGEPI_struct_offset rfl rewritten (by decide) _ (by decide)⟩

end PrepareGeps
