import ClamBC.FunctionReplacements
import ClamBC.IndexNarrowing
import Mathlib.Data.Int.ModEq

/-!
# Lowering pointer arithmetic

`lowerIntrinsics` walks over the instructions of a function in the order of its blocks. An addition
to a `ptrtoint` is computed as an address instead, and the `ptrtoint` of an address as an addition.
On the way the indices of every getelementptr are brought to 32 bits.

The builder creates instructions in front of the instruction where it was put last. An addition,
a getelementptr and a comparison put it in front of themselves; a `ptrtoint` does not.

Pointers have 64 bits. The IR does not record the types of constants, which getelementptr counts in
bytes and which pointers are byte pointers; they are parameters, like what the builder folds.
Assertions are off.
-/

namespace PointerLowering

open Ir FunctionEdits

def isConst : Value → Bool
  | .const _ => true
  | _ => false

/-- The builder folds an instruction exactly if it reads only constants. -/
structure Llvm where
  fold : Op Value → Ty → Option Const
  sourceIsInt8 : Nat → Bool
  isInt8Ptr : Value → Bool
  constTy : Const → Ty
  folds : ∀ op ty, op.operands ≠ [] → (fold op ty).isSome = op.operands.all isConst

section
variable (llvm : Llvm)

/-! ## The walk -/

def typeOf (f : Function) : Value → Ty
  | .inst d => ((f.blocks.flatMap Block.defs).lookup d).getD .void
  | .arg i => (f.args[i]?).getD .void
  | .const (.int bits _) => .int bits
  | .const c => llvm.constTy c

/-- The instruction that a value is, if it is one. -/
def definition (f : Function) : Value → Option Inst
  | .inst d => (f.blocks.flatMap Block.body).find? fun i => i.id = d
  | _ => none

/-- The pointer, if the value is a `ptrtoint` instruction. -/
def ptrToIntOperand (f : Function) (v : Value) : Option Value :=
  match (definition f v).map Inst.op with
  | some (.cast .ptrToInt _ p) => some p
  | _ => none

/-- One instruction of the builder, or the constant that it folds to. -/
def create (id : Nat) (ty : Ty) (op : Op Value) : Value × List Inst :=
  match llvm.fold op ty with
  | some c => (.const c, [])
  | none => (.inst id, [⟨id, ty, op⟩])

/-- The function, and where the builder stands. -/
structure State where
  f : Function
  point : Option Nat

/-- The pointer and the index of an addition that is rewritten. -/
def matchAdd (f : Function) (lhs rhs : Value) : Option (Value × Value) :=
  let found :=
    match ptrToIntOperand f lhs with
    | some p => some (p, rhs)
    | none => (ptrToIntOperand f rhs).map fun p => (p, lhs)
  found.filter fun x =>
    match typeOf llvm f x.2 with
    | .int w => w ≠ 64 && (ptrToIntOperand f x.2).isNone
    | _ => false

/-- `ptrtoint (getelementptr (i8*) p, idx)`; the element type is the type of the pointer. -/
def createAdd (f : Function) (p idx : Value) (ty : Ty) : Value × List Inst :=
  let bytes := if llvm.isInt8Ptr p then (p, []) else
    create llvm f.nextId .ptr (.cast .bitCast .ptr p)
  let address := create llvm (f.nextId + 1) .ptr (.getElementPtr bytes.1 [idx])
  let sum := create llvm (f.nextId + 2) ty (.cast .ptrToInt .ptr address.1)
  (sum.1, bytes.2 ++ address.2 ++ sum.2)

/-- All uses of the instruction read the new value; the instruction itself stays. -/
def lowerAdd (st : State) (n w : Nat) (p idx : Value) : State :=
  let new := createAdd llvm st.f p idx (.int w)
  ⟨(Edit.replace (some n) new.2 none n new.1).apply 3 st.f, some n⟩

def getPrimitiveSizeInBits : Ty → Nat
  | .int w => w
  | .float bits => bits
  | _ => 0

def resize (f : Function) (id : Nat) (v : Value) : Value × List Inst :=
  if getPrimitiveSizeInBits (typeOf llvm f v) < 32 then
    create llvm id (.int 32) (.cast .zext (typeOf llvm f v) v)
  else if getPrimitiveSizeInBits (typeOf llvm f v) = 32 then (v, [])
  else create llvm id (.int 32) (.cast .trunc (typeOf llvm f v) v)

def narrowIndex (f : Function) (id : Nat) (v : Value) : Value × List Inst :=
  match typeOf llvm f v, (definition f v).map Inst.op with
  | .int 32, _ => (v, [])
  | _, some (.binary .sub _ _) => (v, [])
  | _, some (.binary .mul _ _) => (v, [])
  | _, some (.cast _ _ u) => resize llvm f id u
  | _, _ => resize llvm f id v

def narrowIndices (f : Function) : Nat → List Value → List Value × List Inst
  | _, [] => ([], [])
  | id, v :: vs =>
    let first := narrowIndex llvm f id v
    let rest := narrowIndices f (id + 1) vs
    (first.1 :: rest.1, first.2 ++ rest.2)

def lowerGetElementPtr (st : State) (n : Nat) (indices : List Value) : State :=
  let new := narrowIndices llvm st.f st.f.nextId indices
  ⟨(Edit.reindex n new.2 new.1).apply indices.length st.f, some n⟩

def createICmp (f : Function) (pred : Predicate) (lhs : Value) (rhs : Const) (ty : Ty) :
    Value × List Inst :=
  let address := create llvm f.nextId (typeOf llvm f (.const rhs)) (.cast .ptrToInt .ptr lhs)
  let result := create llvm (f.nextId + 1) ty (.icmp pred address.1 (.const rhs))
  (result.1, address.2 ++ result.2)

def lowerICmp (st : State) (n w : Nat) (pred : Predicate) (lhs : Value) (rhs : Const) : State :=
  let new := createICmp llvm st.f pred lhs rhs (.int w)
  ⟨(Edit.replace (some n) new.2 none n new.1).apply 2 st.f, some n⟩

/-- The base and the index of a byte address. -/
def matchAddress (f : Function) (v : Value) : Option (Value × Value) :=
  match definition f v with
  | some ⟨g, _, .getElementPtr base [idx]⟩ => if llvm.sourceIsInt8 g then some (base, idx) else none
  | _ => none

/-- `add (ptrtoint base), idx` in the type of the index, and a `zext` if that is another type. -/
def createSum (f : Function) (base idx : Value) (w w₁ : Nat) : Value × List Inst :=
  let P0 := create llvm f.nextId (.int w₁) (.cast .ptrToInt .ptr base)
  let A := create llvm (f.nextId + 1) (.int w₁) (.binary .add P0.1 idx)
  let Z := if w₁ = w then (A.1, []) else
    create llvm (f.nextId + 2) (.int w) (.cast .zext (.int w₁) A.1)
  (Z.1, P0.2 ++ A.2 ++ Z.2)

/-- The instruction is erased. The builder stays where it is. -/
def lowerPtrToInt (st : State) (n w w₁ : Nat) (base idx : Value) : State :=
  let new := createSum llvm st.f base idx w w₁
  ⟨(Edit.replace st.point new.2 (some n) n new.1).apply 3 st.f, st.point⟩

/-- What is done about one instruction. -/
inductive Action where
  | add (w w₁ : Nat) (p idx : Value)
  | narrow (indices : List Value)
  | compare (w : Nat) (pred : Predicate) (lhs : Value) (rhs : Const)
  | ptrToInt (w w₁ : Nat) (base idx : Value)

def action (f : Function) (i : Inst) : Option Action :=
  match i.op, i.ty with
  | .binary .add lhs rhs, .int w =>
    (matchAdd llvm f lhs rhs).bind fun x =>
      match typeOf llvm f x.2 with
      | .int w₁ => some (.add w w₁ x.1 x.2)
      | _ => none
  | .getElementPtr _ indices, _ => some (.narrow indices)
  | .icmp pred lhs (.const (.castExpr .intToPtr rhs)), .int w =>
    match typeOf llvm f (.const rhs) with
    | .int _ => some (.compare w pred lhs rhs)
    | _ => none
  | .cast .ptrToInt _ v, .int w =>
    (matchAddress llvm f v).bind fun x =>
      match typeOf llvm f x.2 with
      | .int w₁ => some (.ptrToInt w w₁ x.1 x.2)
      | _ => none
  | _, _ => none

def perform (st : State) (n : Nat) : Action → State
  | .add w _ p idx => lowerAdd llvm st n w p idx
  | .narrow indices => lowerGetElementPtr llvm st n indices
  | .compare w pred lhs rhs => lowerICmp llvm st n w pred lhs rhs
  | .ptrToInt w w₁ base idx => lowerPtrToInt llvm st n w w₁ base idx

def actionAt (st : State) (n : Nat) : Option Action :=
  (definition st.f (.inst n)).bind (action llvm st.f)

def visit (st : State) (n : Nat) : State :=
  match actionAt llvm st n with
  | some a => perform llvm st n a
  | none => st

/-- New instructions stand in front of the one that is visited, so they are not visited. -/
def order (f : Function) : List Nat := f.blocks.flatMap fun B => B.body.map Inst.id

/-- After the first `k` instructions. -/
def walk (f : Function) (k : Nat) : State := ((order f).take k).foldl (visit llvm) ⟨f, none⟩

def lowerIntrinsics (f : Function) : Function := (walk llvm f (order f).length).f

end

/-! ## Values -/

/-- An address of 64 bits, elements of `size` bytes and an index of `w` bits, which is signed. -/
def elementAddress (size p w i : Nat) : Nat :=
  ((p + size * IndexNarrowing.signed w i) % 2 ^ 64).toNat

/-- `ptrtoint` to `w` bits. -/
def ptrToInt (w p : Nat) : Nat := p % 2 ^ w

/-- What an instruction of the builder computes, given the widths of the indices. An element of the
addresses that it creates is an `i8*`. -/
def compute (width value : Value → Nat) (ty : Ty) : Op Value → Option Nat
  | .cast .ptrToInt _ v => some (ptrToInt (getPrimitiveSizeInBits ty) (value v))
  | .cast .bitCast _ v => some (value v)
  | .cast .zext _ v => some (value v)
  | .getElementPtr base [idx] => some (elementAddress 8 (value base) (width idx) (value idx))
  | .binary .add lhs rhs => some ((value lhs + value rhs) % 2 ^ getPrimitiveSizeInBits ty)
  | _ => none

section
variable (llvm : Llvm) (f : Function) (value : Value → Nat)

def widthOf (v : Value) : Nat := getPrimitiveSizeInBits (typeOf llvm f v)

/-- The constants have their values, those that the builder folds instructions to included. -/
structure Reads : Prop where
  literal : ∀ bits n, value (.const (.int bits n)) = n % 2 ^ bits
  folded : ∀ op ty c x, llvm.fold op ty = some c →
    compute (widthOf llvm f) value ty op = some x → value (.const c) = x

/-- The new instructions have the values that they compute. -/
def Computed (news : List Inst) : Prop :=
  ∀ j ∈ news, ∀ x, compute (widthOf llvm f) value j.ty j.op = some x → value (.inst j.id) = x

end

namespace Action

def pointer : Action → Value
  | .add _ _ p _ => p
  | .ptrToInt _ _ base _ => base
  | _ => .const .null

/-- The index and its width. -/
def index : Action → Value × Nat
  | .add _ w₁ _ idx => (idx, w₁)
  | .ptrToInt _ w₁ _ idx => (idx, w₁)
  | _ => (.const .null, 0)

/-- The value that the uses read afterwards, and the instructions that are created for it. -/
def created (llvm : Llvm) (f : Function) : Action → Option (Value × List Inst)
  | .add w _ p idx => some (createAdd llvm f p idx (.int w))
  | .ptrToInt w w₁ base idx => some (createSum llvm f base idx w w₁)
  | _ => none

/-- The integer that is read before the rewrite, for an address and an index. -/
def before (p i : Nat) : Action → Nat
  | .add w _ _ _ => (PointerLowering.ptrToInt w p + i) % 2 ^ w
  | .ptrToInt w w₁ _ _ => PointerLowering.ptrToInt w (elementAddress 1 p w₁ i)
  | _ => 0

/-- The operands of an addition have its type, and a `zext` makes wider. -/
def Valid : Action → Prop
  | .add w w₁ _ _ => w₁ = w
  | .ptrToInt w w₁ _ _ => w₁ ≤ w
  | _ => True

/-- The address has 64 bits, and the index has its width. -/
structure Operands (llvm : Llvm) (f : Function) (value : Value → Nat) (a : Action) : Prop where
  reads : Reads llvm f value
  address : value a.pointer < 2 ^ 64
  index : value a.index.1 < 2 ^ a.index.2

/-- Every use reads the same integer, for every address and every index: what the new instructions
compute is what the old ones did. -/
def KeepsValue (llvm : Llvm) (f : Function) (a : Action) : Prop :=
  a.Valid ∧ ∀ new, a.created llvm f = some new → ∀ value, a.Operands llvm f value →
    Computed llvm f value new.2 → value new.1 = a.before (value a.pointer) (value a.index.1)

/-- The index of an addition is 0. The address fits into the type of the sum, or the sum into an
address. -/
def Fits (p i : Nat) : Action → Prop
  | .add _ _ _ _ => i = 0
  | .ptrToInt w w₁ _ _ =>
    if w₁ ≤ 64 then PointerLowering.ptrToInt w (elementAddress 1 p w₁ i) < 2 ^ w₁
    else (p + i) % 2 ^ w₁ < 2 ^ 64
  | _ => True

/-- The operands fit, whatever their values are. -/
def Exact (llvm : Llvm) (f : Function) (a : Action) : Prop :=
  a.Valid ∧ ∀ value, a.Operands llvm f value → a.Fits (value a.pointer) (value a.index.1)

end Action

/-! ## When a rewrite keeps the value -/

theorem elementAddress_lt (size p w i : Nat) : elementAddress size p w i < 2 ^ 64 := by
  have bound :=
    Int.emod_lt_of_pos (p + size * IndexNarrowing.signed w i) (show (0 : Int) < 2 ^ 64 by decide)
  have nonneg :=
    Int.emod_nonneg (p + size * IndexNarrowing.signed w i) (show (2 ^ 64 : Int) ≠ 0 by decide)
  unfold elementAddress
  omega

theorem signed_modEq {k w : Nat} (narrow : k ≤ w) (i : Nat) :
    IndexNarrowing.signed w i ≡ i [ZMOD 2 ^ k] := by
  unfold IndexNarrowing.signed
  split_ifs
  · rfl
  · refine (Int.modEq_iff_dvd.mpr ?_)
    rw [sub_sub_cancel]
    exact pow_dvd_pow 2 narrow

/-- The lower bits of an address do not depend on the sign of the index. -/
theorem elementAddress_mod {k w : Nat} (narrow : k ≤ w) (address : k ≤ 64) (size p i : Nat) :
    elementAddress size p w i % 2 ^ k = (p + size * i) % 2 ^ k := by
  have nonneg :=
    Int.emod_nonneg (p + size * IndexNarrowing.signed w i) (show (2 ^ 64 : Int) ≠ 0 by decide)
  have value :
      ((elementAddress size p w i : Nat) : Int) = (p + size * IndexNarrowing.signed w i) % 2 ^ 64 :=
    Int.toNat_of_nonneg nonneg
  have goal : ((elementAddress size p w i % 2 ^ k : Nat) : Int) =
      ((p + size * i) % 2 ^ k : Nat) := by
    push_cast
    rw [value, Int.emod_emod_of_dvd _ (pow_dvd_pow 2 address)]
    exact ((signed_modEq narrow i).mul_left _).add_left _
  exact_mod_cast goal

theorem elementAddress_wide {w : Nat} (wide : 64 ≤ w) (size p i : Nat) :
    elementAddress size p w i = (p + size * i) % 2 ^ 64 := by
  have lower := elementAddress_mod wide (Nat.le_refl 64) size p i
  rwa [Nat.mod_eq_of_lt (elementAddress_lt size p w i)] at lower

/-- Eight elements count for one only at 0. -/
theorem dvd_of_eight_mul {k i : Nat} (same : 8 * i ≡ i [MOD 2 ^ k]) : 2 ^ k ∣ i := by
  have dvd : 2 ^ k ∣ 8 * i - i := (Nat.modEq_iff_dvd' (by omega)).mp same.symm
  rw [show 8 * i - i = i * 7 by omega] at dvd
  have coprime : Nat.Coprime (2 ^ k) 7 := Nat.Coprime.pow_left k (by decide)
  exact coprime.dvd_of_dvd_mul_right dvd

/-- The same for a sum of more bits than the address, which is too small to wrap around. -/
theorem zero_of_eight_mul {k w p i : Nat} (wide : k ≤ w) (small : p < 2 ^ k) (index : i < 2 ^ w)
    (same : (p + 8 * i) % 2 ^ k = (p + i) % 2 ^ w) : i = 0 := by
  have bound : (p + i) % 2 ^ w < 2 ^ k := same ▸ Nat.mod_lt _ (Nat.two_pow_pos k)
  have lower : p + 8 * i ≡ p + i [MOD 2 ^ k] :=
    calc (p + 8 * i) % 2 ^ k = (p + i) % 2 ^ w := same
      _ = (p + i) % 2 ^ w % 2 ^ k := (Nat.mod_eq_of_lt bound).symm
      _ = (p + i) % 2 ^ k := Nat.mod_mod_of_dvd _ (pow_dvd_pow 2 wide)
  obtain ⟨m, rfl⟩ := dvd_of_eight_mul (Nat.ModEq.add_left_cancel' p lower)
  obtain ⟨n, power⟩ : 2 ^ k ∣ 2 ^ w := pow_dvd_pow 2 wide
  have less : m + 1 ≤ n := Nat.lt_of_mul_lt_mul_left (power ▸ index)
  have fits : 2 ^ k * m + 2 ^ k ≤ 2 ^ w := by
    rw [power, ← Nat.mul_succ]
    exact Nat.mul_le_mul_left _ less
  rw [Nat.mod_eq_of_lt (by omega)] at bound
  rcases Nat.eq_zero_or_pos m with rfl | positive
  · exact Nat.mul_zero _
  · have := Nat.le_mul_of_pos_right (2 ^ k) positive
    omega

/-- An addition that is computed as an address. -/
theorem address_eq_add_iff {w p i : Nat} (small : p < 2 ^ 64) (index : i < 2 ^ w) :
    ptrToInt w (elementAddress 8 p w i) = (ptrToInt w p + i) % 2 ^ w ↔ i = 0 := by
  unfold ptrToInt
  rw [Nat.mod_add_mod]
  rcases Nat.le_total w 64 with narrow | wide
  · rw [elementAddress_mod (Nat.le_refl w) narrow]
    constructor
    · intro same
      have times := dvd_of_eight_mul (Nat.ModEq.add_left_cancel' p same)
      exact Nat.eq_zero_of_dvd_of_lt times index
    · rintro rfl
      rfl
  · have below : 2 ^ 64 ≤ 2 ^ w := Nat.pow_le_pow_right (by decide) wide
    have address := elementAddress_lt 8 p w i
    rw [Nat.mod_eq_of_lt (address.trans_le below), elementAddress_wide wide]
    constructor
    · exact zero_of_eight_mul wide small index
    · rintro rfl
      rw [Nat.mul_zero, Nat.add_zero, Nat.mod_eq_of_lt small,
        Nat.mod_eq_of_lt (small.trans_le below)]

/-- An address that is computed as a sum of `w₁` bits. -/
theorem add_eq_address_iff {w w₁ p i : Nat} {base idx : Value} (valid : w₁ ≤ w) :
    (ptrToInt w₁ p + i) % 2 ^ w₁ = ptrToInt w (elementAddress 1 p w₁ i) ↔
      (Action.ptrToInt w w₁ base idx).Fits p i := by
  change _ ↔ if w₁ ≤ 64 then ptrToInt w (elementAddress 1 p w₁ i) < 2 ^ w₁
    else (p + i) % 2 ^ w₁ < 2 ^ 64
  by_cases narrow : w₁ ≤ 64
  · rw [if_pos narrow]
    have lower : (ptrToInt w₁ p + i) % 2 ^ w₁ =
        ptrToInt w (elementAddress 1 p w₁ i) % 2 ^ w₁ := by
      unfold ptrToInt
      rw [Nat.mod_mod_of_dvd _ (pow_dvd_pow 2 valid), elementAddress_mod (Nat.le_refl w₁) narrow,
        Nat.mod_add_mod, Nat.one_mul]
    rw [lower]
    exact Nat.mod_eq_iff_lt (Nat.two_pow_pos w₁).ne'
  · rw [if_neg narrow]
    have wide : 64 ≤ w₁ := by omega
    have below : 2 ^ 64 ≤ 2 ^ w := Nat.pow_le_pow_right (by decide) (wide.trans valid)
    have address : ptrToInt w (elementAddress 1 p w₁ i) = (p + i) % 2 ^ w₁ % 2 ^ 64 := by
      unfold ptrToInt
      rw [Nat.mod_eq_of_lt ((elementAddress_lt 1 p w₁ i).trans_le below), elementAddress_wide wide,
        Nat.one_mul, Nat.mod_mod_of_dvd _ (pow_dvd_pow 2 wide)]
    rw [address]
    unfold ptrToInt
    rw [Nat.mod_add_mod]
    exact eq_comm.trans (Nat.mod_eq_iff_lt (by decide))

/-! ## What the new instructions compute -/

section
variable {llvm : Llvm} {f : Function} {value : Value → Nat}

theorem value_create (reads : Reads llvm f value) {news : List Inst}
    (computed : Computed llvm f value news) (id : Nat) (ty : Ty) (op : Op Value)
    (sub : ∀ j ∈ (create llvm id ty op).2, j ∈ news) {x : Nat}
    (result : compute (widthOf llvm f) value ty op = some x) :
    value (create llvm id ty op).1 = x := by
  unfold create at sub ⊢
  cases folded : llvm.fold op ty with
  | some c => exact reads.folded op ty c x folded result
  | none =>
    rw [folded] at sub
    exact computed ⟨id, ty, op⟩ (sub _ (List.mem_singleton_self _)) x result

/-- The builder counts elements of the size of a pointer. -/
theorem value_createAdd (reads : Reads llvm f value) {w w₁ : Nat} {p idx : Value}
    (ty : typeOf llvm f idx = .int w₁)
    (computed : Computed llvm f value (createAdd llvm f p idx (.int w)).2) :
    value (createAdd llvm f p idx (.int w)).1 =
      ptrToInt w (elementAddress 8 (value p) w₁ (value idx)) := by
  have width : widthOf llvm f idx = w₁ := by rw [widthOf, ty]; rfl
  have bytes : value (if llvm.isInt8Ptr p then (p, []) else
      create llvm f.nextId .ptr (.cast .bitCast .ptr p)).1 = value p := by
    by_cases isBytes : llvm.isInt8Ptr p = true
    · rw [if_pos isBytes]
    · rw [if_neg isBytes]
      refine value_create reads computed f.nextId .ptr (.cast .bitCast .ptr p) (fun j hj => ?_) rfl
      refine List.mem_append_left _ (List.mem_append_left _ ?_)
      rw [if_neg isBytes]
      exact hj
  have address := value_create reads computed (f.nextId + 1) .ptr (.getElementPtr _ [idx])
    (fun j hj => List.mem_append_left _ (List.mem_append_right _ hj)) rfl
  refine (value_create reads computed (f.nextId + 2) (.int w) _
    (fun j hj => List.mem_append_right _ hj) rfl).trans ?_
  rw [address, bytes, width]
  rfl

theorem value_createSum (reads : Reads llvm f value) {w w₁ : Nat} {base idx : Value}
    (computed : Computed llvm f value (createSum llvm f base idx w w₁).2) :
    value (createSum llvm f base idx w w₁).1 =
      (ptrToInt w₁ (value base) + value idx) % 2 ^ w₁ := by
  have P0 := value_create reads computed f.nextId (.int w₁) (.cast .ptrToInt .ptr base)
    (fun j hj => List.mem_append_left _ (List.mem_append_left _ hj)) rfl
  have A := value_create reads computed (f.nextId + 1) (.int w₁) (.binary .add _ idx)
    (fun j hj => List.mem_append_left _ (List.mem_append_right _ hj)) rfl
  rw [P0] at A
  unfold createSum at computed ⊢
  by_cases same : w₁ = w
  · simp only [if_pos same]
    exact A
  · simp only [if_neg same] at computed ⊢
    exact (value_create reads computed (f.nextId + 2) (.int w) _
      (fun j hj => List.mem_append_right _ hj) rfl).trans A

/-! Values for the new instructions. -/

theorem compute_congr {width width' value value' : Value → Nat} {ty : Ty} {op : Op Value}
    (widths : ∀ v ∈ op.operands, width v = width' v)
    (agree : ∀ v ∈ op.operands, value v = value' v) :
    compute width value ty op = compute width' value' ty op := by
  cases op with
  | cast op src v =>
    have same := agree v List.mem_cons_self
    cases op <;> simp only [compute, same]
  | binary op lhs rhs =>
    have left := agree lhs List.mem_cons_self
    have right := agree rhs (List.mem_cons_of_mem _ (List.mem_singleton_self _))
    cases op <;> simp only [compute, left, right]
  | getElementPtr base indices =>
    have address := agree base List.mem_cons_self
    cases indices with
    | nil => rfl
    | cons idx rest =>
      cases rest with
      | nil =>
        have inside : idx ∈ (Op.getElementPtr base [idx]).operands :=
          List.mem_cons_of_mem _ (List.mem_singleton_self _)
        simp only [compute, address, agree idx inside, widths idx inside]
      | cons _ _ => rfl
  | _ => rfl

/-- What an instruction of no operands computes is left open. -/
theorem operands_of_compute {width : Value → Nat} {ty : Ty} {op : Op Value} {x : Nat}
    (result : compute width value ty op = some x) : op.operands ≠ [] := by
  intro none
  cases op with
  | cast op src v => cases none
  | binary op lhs rhs => cases none
  | getElementPtr base indices => cases none
  | _ => cases result

/-- Only the values of constants matter. -/
theorem Reads.congr {value' : Value → Nat} (reads : Reads llvm f value)
    (agree : ∀ c, value' (.const c) = value (.const c)) : Reads llvm f value' where
  literal := fun bits n => (agree _).trans (reads.literal bits n)
  folded := by
    intro op ty c x folded result
    have all := llvm.folds op ty (operands_of_compute result)
    rw [folded] at all
    have same : compute (widthOf llvm f) value' ty op = compute (widthOf llvm f) value ty op := by
      refine compute_congr (fun _ _ => rfl) fun v hv => ?_
      have const := List.all_eq_true.mp all.symm v hv
      cases v with
      | const c => exact agree c
      | inst d => cases const
      | arg i => cases const
    exact (agree c).trans (reads.folded op ty c x folded (same.symm.trans result))

theorem elementAddress_zero (size p w : Nat) : elementAddress size p w 0 = p % 2 ^ 64 := by
  have none : IndexNarrowing.signed w 0 = 0 := if_pos (Nat.two_pow_pos _)
  unfold elementAddress
  rw [none, mul_zero, add_zero]
  norm_cast

/-- Operands that are no constants can have any values. -/
theorem Reads.choose (reads : Reads llvm f value) {base idx : Value}
    (varBase : isConst base = false) (varIdx : isConst idx = false) (ne : base ≠ idx) (p i : Nat) :
    ∃ value', Reads llvm f value' ∧ value' base = p ∧ value' idx = i := by
  classical
  refine ⟨Function.update (Function.update value base p) idx i, reads.congr fun c => ?_, ?_, ?_⟩
  · have notIdx : .const c ≠ idx := by
      rintro rfl
      cases varIdx
    have notBase : .const c ≠ base := by
      rintro rfl
      cases varBase
    rw [Function.update_of_ne notIdx, Function.update_of_ne notBase]
  · rw [Function.update_of_ne ne, Function.update_self]
  · exact Function.update_self ..

/-- For such operands the widths have to be right. -/
theorem Action.exact_ptrToInt_iff {w w₁ : Nat} {base idx : Value}
    (some : ∃ value, Reads llvm f value) (varBase : isConst base = false)
    (varIdx : isConst idx = false) (ne : base ≠ idx) :
    (Action.ptrToInt w w₁ base idx).Exact llvm f ↔ (w₁ = w ∧ w ≤ 64) ∨ (w₁ = 64 ∧ 64 ≤ w) := by
  constructor
  · rintro ⟨valid, fits⟩
    have fits : ∀ p < 2 ^ 64, ∀ i < 2 ^ w₁, (Action.ptrToInt w w₁ base idx).Fits p i := by
      intro p address i index
      obtain ⟨value, reads⟩ := some
      obtain ⟨value', reads', rfl, rfl⟩ := reads.choose varBase varIdx ne p i
      exact fits value' ⟨reads', address, index⟩
    have valid : w₁ ≤ w := valid
    rcases Nat.lt_trichotomy w₁ 64 with short | rfl | wide
    · rcases Nat.lt_or_eq_of_le valid with narrow | same
      · -- the carry into the next bit
        have below : 2 ^ w₁ < 2 ^ 64 := Nat.pow_lt_pow_right (by decide) short
        have carry := fits (2 ^ w₁) below 0 (Nat.two_pow_pos w₁)
        rw [Fits, if_pos short.le, elementAddress_zero, PointerLowering.ptrToInt,
          Nat.mod_eq_of_lt below,
          Nat.mod_eq_of_lt (Nat.pow_lt_pow_right (by decide) narrow)] at carry
        exact absurd carry (Nat.lt_irrefl _)
      · exact .inl ⟨same, same ▸ short.le⟩
    · exact .inr ⟨rfl, valid⟩
    · -- a sum above all addresses
      have below : 2 ^ 64 < 2 ^ w₁ := Nat.pow_lt_pow_right (by decide) wide
      have sum := fits 0 (Nat.two_pow_pos 64) (2 ^ 64) below
      rw [Fits, if_neg (by omega), Nat.zero_add, Nat.mod_eq_of_lt below] at sum
      exact absurd sum (Nat.lt_irrefl _)
  · rintro (⟨rfl, narrow⟩ | ⟨rfl, wide⟩)
    · refine ⟨Nat.le_refl _, fun value _ => ?_⟩
      rw [Fits, if_pos narrow]
      exact Nat.mod_lt _ (Nat.two_pow_pos _)
    · refine ⟨wide, fun value _ => ?_⟩
      rw [Fits, if_pos (Nat.le_refl 64)]
      exact (Nat.mod_le _ _).trans_lt (elementAddress_lt 1 _ 64 _)

end

end PointerLowering
