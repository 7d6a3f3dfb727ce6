import ClamBC.Ir
import Mathlib.Algebra.GroupWithZero.Nat

/-!
# Printing the initializers of globals

`printConstant` writes a global's initializer as a sequence of numbers. The
loader knows the type of the global only: it takes one number for an integer
component and two, an offset and a global id, for a pointer component, and a
lone 0 for an all-zero global. Below, `components` lists the numbers that a
constant owes to its type, and a constant keeps its shape when each part of it
is printed as its components.

`none` stands for every way in which the writer gives up: `ClamBCStop`, a failed
assertion, or the use of an index that is not an integer constant.
-/

namespace GlobalInitializers

open Ir

def isZeroIndex : Const → Bool
  | .int _ value => value = 0
  | _ => false

/-- Looks through casts and through element addresses with zero indices. -/
def stripPointerCasts : Const → Const
  | .castExpr .bitCast v => stripPointerCasts v
  | .castExpr .addrSpaceCast v => stripPointerCasts v
  | .getElementPtrExpr v indices =>
    if indices.all isZeroIndex then stripPointerCasts v else .getElementPtrExpr v indices
  | c => c

/-- `getZExtValue` asserts that the value fits into 64 bits. -/
def getZExtValue : Const → Option Nat
  | .int _ value => if value < 2 ^ 64 then some value else none
  | _ => none

/-- `ConstantInt`, `ConstantFP`, `ConstantPointerNull` and `ConstantAggregateZero`
can be null values. -/
def isNullValue : Const → Bool
  | .int _ value => value = 0
  | .fp posZero => posZero
  | .null => true
  | .aggregateZero _ => true
  | _ => false

def isConstantExpr : Const → Bool
  | .castExpr _ _ => true
  | .getElementPtrExpr _ _ => true
  | .otherExpr _ => true
  | _ => false

def exprOperands : Const → List Const
  | .castExpr _ v => [v]
  | .getElementPtrExpr base indices => base :: indices
  | .otherExpr operands => operands
  | _ => []

/-- The global whose address the first operand of an expression is. -/
def baseGlobal (expr : Const) : Option GlobalId :=
  match (exprOperands expr).head?.map stripPointerCasts with
  | some (.global g) => some g
  | _ => none

section
variable (getGlobalID : GlobalId → Option Nat)

def printAddress (offset : Const) (g : GlobalId) : Option (List Nat) := do
  let v ← getZExtValue offset
  let id ← getGlobalID g
  some [v, id]

/-- The last of the three tests: the expression itself is a cast. -/
def printCast (expr : Const) (g : GlobalId) : Option (List Nat) :=
  match expr with
  | .castExpr .bitCast _ => (getGlobalID g).map fun id => [0, id]
  | _ => none

/-- The three tests on the expression `vce` under the casts of `expr`. -/
def printInner (expr vce : Const) (g : GlobalId) : Option (List Nat) :=
  match vce, exprOperands vce with
  | .getElementPtrExpr _ _, [_, c1] => printAddress getGlobalID c1 g
  | _, [_, .int _ 0, c1] => printAddress getGlobalID c1 g
  | _, [_, .int _ _, _] => printCast getGlobalID expr g
  | _, [_, _, _] => none
  | _, _ => printCast getGlobalID expr g

/-- The constant expressions that stand for an address. When nothing is left under
the casts but a global, the expression itself is inspected. -/
def printExpr (expr : Const) : Option (List Nat) :=
  let stripped := stripPointerCasts expr
  let vce := if isConstantExpr stripped then stripped else expr
  (baseGlobal vce).bind (printInner getGlobalID expr vce)

mutual

def printConstant : Const → Option (List Nat)
  | .castExpr op v => printExpr getGlobalID (.castExpr op v)
  | .getElementPtrExpr base indices => printExpr getGlobalID (.getElementPtrExpr base indices)
  | .otherExpr operands => printExpr getGlobalID (.otherExpr operands)
  | .int bits value =>
    if value = 0 then some [0] else (getZExtValue (.int bits value)).map fun v => [v]
  | .fp posZero => if posZero then some [0] else none
  | .null => some [0]
  | .aggregateZero _ => some [0]
  | .array elements => if elements.isEmpty then none else printElements elements
  | .struct elements => if elements.isEmpty then none else printElements elements
  | .data bits elements =>
    if elements.isEmpty then none
    else elements.mapM fun e => getZExtValue (.int bits e)
  | .undef => none
  | .global _ => none
  | .function _ => none

def printElements : List Const → Option (List Nat)
  | [] => some []
  | c :: cs => do
    let first ← printConstant c
    let rest ← printElements cs
    some (first ++ rest)

end

/-! What a constant owes to its type. -/

mutual

/-- The components of an all-zero value of a type, one 0 for an integer and two for a pointer. -/
def zeroComponents : Ty → List Nat
  | .void => []
  | .int _ => [0]
  | .float _ => [0]
  | .ptr => [0, 0]
  | .array length element => (List.replicate length (zeroComponents element)).flatten
  | .struct fields => zeroFields fields

def zeroFields : List Ty → List Nat
  | [] => []
  | t :: ts => zeroComponents t ++ zeroFields ts

end

/-- The number of components that the loader expects for a type. -/
def slots (ty : Ty) : Nat := (zeroComponents ty).length

/-- The element of a global that an address expression points to. -/
def elementAddress (expr : Const) : Option (GlobalId × Const) :=
  match stripPointerCasts expr with
  | .global g => some (g, .int 64 0)
  | .getElementPtrExpr base [offset] =>
    match stripPointerCasts base with
    | .global g => some (g, offset)
    | _ => none
  | .getElementPtrExpr base [.int _ 0, offset] =>
    match stripPointerCasts base with
    | .global g => some (g, offset)
    | _ => none
  | _ => none

def addressComponents (expr : Const) : Option (List Nat) :=
  (elementAddress expr).bind fun (g, offset) => printAddress getGlobalID offset g

mutual

def components : Const → Option (List Nat)
  | .int _ value => some [value]
  | .fp _ => some [0]
  | .null => some [0, 0]
  | .aggregateZero ty => some (zeroComponents ty)
  | .array elements => elementComponents elements
  | .struct elements => elementComponents elements
  | .data _ elements => some elements
  | .castExpr op v => addressComponents getGlobalID (.castExpr op v)
  | .getElementPtrExpr base indices =>
    addressComponents getGlobalID (.getElementPtrExpr base indices)
  | .otherExpr operands => addressComponents getGlobalID (.otherExpr operands)
  | .undef => none
  | .global _ => none
  | .function _ => none

def elementComponents : List Const → Option (List Nat)
  | [] => some []
  | c :: cs => do
    let first ← components c
    let rest ← elementComponents cs
    some (first ++ rest)

end

mutual

def HasType : Const → Ty → Prop
  | .int bits _, ty => ty = .int bits
  | .fp _, ty => ∃ bits, ty = .float bits
  | .null, ty => ty = .ptr
  | .undef, _ => True
  | .global _, ty => ty = .ptr
  | .function _, ty => ty = .ptr
  | .castExpr op _, ty =>
    if op = .bitCast ∨ op = .addrSpaceCast ∨ op = .intToPtr then ty = .ptr else
      ∃ bits, ty = .int bits
  | .getElementPtrExpr _ _, ty => ty = .ptr
  | .otherExpr _, _ => True
  | .aggregateZero ty', ty => ty = ty'
  | .array elements, ty => ∃ element, ty = .array elements.length element ∧
      AllHaveType elements element
  | .struct elements, ty => ∃ fields, ty = .struct fields ∧ HaveTypes elements fields
  | .data bits elements, ty => ty = .array elements.length (.int bits)

def AllHaveType : List Const → Ty → Prop
  | [], _ => True
  | c :: cs, ty => HasType c ty ∧ AllHaveType cs ty

def HaveTypes : List Const → List Ty → Prop
  | [], tys => tys = []
  | c :: cs, tys => ∃ t ts, tys = t :: ts ∧ HasType c t ∧ HaveTypes cs ts

end

/-- The constants that `printConstant` is called with while it prints one constant. -/
inductive Part : Const → Const → Prop
  | refl (c : Const) : Part c c
  | array {elements : List Const} {c e : Const} (member : c ∈ elements) (part : Part c e) :
      Part (.array elements) e
  | struct {elements : List Const} {c e : Const} (member : c ∈ elements) (part : Part c e) :
      Part (.struct elements) e

theorem part_trans {c d e : Const} (first : Part c d) (second : Part d e) : Part c e := by
  induction first with
  | refl => exact second
  | array member _ ih => exact .array member (ih second)
  | struct member _ ih => exact .struct member (ih second)

/-- Either the whole constant is zero and a single 0 is printed, or the numbers are
those the type asks for: each part is printed as its own components. -/
def ShapeKept (c : Const) (ty : Ty) : Prop :=
  (isNullValue c ∧ printConstant getGlobalID c = some [0]) ∨
    ((printConstant getGlobalID c).map List.length = some (slots ty) ∧
      ∀ e, Part c e → printConstant getGlobalID e = components getGlobalID e)

/-- A part that the null-value shortcut and the cast test leave intact: not a null
pointer, no zero aggregate unless it has one component, and no expression other
than the address of an element of a global. -/
def Intact (e : Const) : Prop :=
  match e with
  | .null => False
  | .aggregateZero ty => slots ty = 1
  | .castExpr _ _ | .getElementPtrExpr _ _ | .otherExpr _ => (elementAddress e).isSome
  | _ => True

mutual

theorem zeroComponents_eq_zero : ∀ (ty : Ty), ∀ n ∈ zeroComponents ty, n = 0
  | .void => by simp [zeroComponents]
  | .int _ => by simp [zeroComponents]
  | .float _ => by simp [zeroComponents]
  | .ptr => by simp [zeroComponents]
  | .array length element => by
    intro n member
    simp only [zeroComponents, List.mem_flatten, List.mem_replicate] at member
    obtain ⟨l, ⟨-, rfl⟩, hn⟩ := member
    exact zeroComponents_eq_zero element n hn
  | .struct fields => by
    intro n member
    exact zeroFields_eq_zero fields n (by simpa only [zeroComponents] using member)

theorem zeroFields_eq_zero : ∀ (fields : List Ty), ∀ n ∈ zeroFields fields, n = 0
  | [] => by simp [zeroFields]
  | t :: ts => by
    intro n member
    rcases List.mem_append.mp (by simpa only [zeroFields] using member) with h | h
    · exact zeroComponents_eq_zero t n h
    · exact zeroFields_eq_zero ts n h

end

theorem zeroComponents_singleton_iff (ty : Ty) : zeroComponents ty = [0] ↔ slots ty = 1 := by
  constructor
  · intro h
    rw [slots, h]
    rfl
  · intro h
    obtain ⟨n, hn⟩ := List.length_eq_one_iff.mp h
    rw [hn, zeroComponents_eq_zero ty n (by simp [hn])]

@[simp] theorem slots_int (bits : Nat) : slots (.int bits) = 1 := by simp [slots, zeroComponents]

@[simp] theorem slots_float (bits : Nat) : slots (.float bits) = 1 := by
  simp [slots, zeroComponents]

@[simp] theorem slots_ptr : slots .ptr = 2 := by simp [slots, zeroComponents]

@[simp] theorem slots_array (length : Nat) (element : Ty) :
    slots (.array length element) = length * slots element := by
  simp [slots, zeroComponents]

theorem printAddress_length {offset : Const} {g : GlobalId} {ns : List Nat}
    (h : printAddress getGlobalID offset g = some ns) : ns.length = 2 := by
  unfold printAddress at h
  cases hv : getZExtValue offset with
  | none => simp [hv] at h
  | some v =>
    cases hid : getGlobalID g with
    | none => simp [hv, hid] at h
    | some id =>
      have same : [v, id] = ns := by simpa [hv, hid] using h
      rw [← same]
      rfl

theorem addressComponents_length {expr : Const} {ns : List Nat}
    (h : addressComponents getGlobalID expr = some ns) : ns.length = 2 := by
  obtain ⟨⟨g, offset⟩, -, hp⟩ := Option.bind_eq_some_iff.mp h
  exact printAddress_length getGlobalID hp

theorem elementAddress_cast {op : CastOp} {v : Const}
    (h : (elementAddress (.castExpr op v)).isSome) :
    op = .bitCast ∨ op = .addrSpaceCast := by
  cases op <;> simp_all [elementAddress, stripPointerCasts]

mutual

/-- A constant owes as many numbers as its type has components. -/
theorem components_length : ∀ (c : Const) (ty : Ty) (ns : List Nat), HasType c ty →
    components getGlobalID c = some ns → ns.length = slots ty
  | .int bits value, ty, ns, typed, h => by
    rw [HasType] at typed
    have same : [value] = ns := by simpa [components] using h
    rw [typed, ← same, slots_int]
    rfl
  | .fp posZero, ty, ns, typed, h => by
    rw [HasType] at typed
    obtain ⟨bits, rfl⟩ := typed
    have same : [0] = ns := by simpa [components] using h
    rw [← same, slots_float]
    rfl
  | .null, ty, ns, typed, h => by
    rw [HasType] at typed
    have same : [0, 0] = ns := by simpa [components] using h
    rw [typed, ← same, slots_ptr]
    rfl
  | .aggregateZero ty', ty, ns, typed, h => by
    rw [HasType] at typed
    have same : zeroComponents ty' = ns := by simpa [components] using h
    rw [typed, ← same]
    rfl
  | .array elements, ty, ns, typed, h => by
    rw [HasType] at typed
    obtain ⟨element, rfl, all⟩ := typed
    rw [slots_array]
    exact arrayComponents_length elements element ns all (by simpa only [components] using h)
  | .struct elements, ty, ns, typed, h => by
    rw [HasType] at typed
    obtain ⟨fields, rfl, all⟩ := typed
    rw [slots, zeroComponents]
    exact structComponents_length elements fields ns all (by simpa only [components] using h)
  | .data bits elements, ty, ns, typed, h => by
    rw [HasType] at typed
    have same : elements = ns := by simpa [components] using h
    rw [typed, slots_array, slots_int, Nat.mul_one, same]
  | .castExpr op v, ty, ns, typed, h => by
    rw [components] at h
    obtain ⟨address, ha, -⟩ := Option.bind_eq_some_iff.mp h
    have looked : op = .bitCast ∨ op = .addrSpaceCast :=
      elementAddress_cast (v := v) (by rw [ha]; rfl)
    rw [HasType, if_pos (by tauto)] at typed
    rw [typed, slots_ptr]
    exact addressComponents_length getGlobalID h
  | .getElementPtrExpr base indices, ty, ns, typed, h => by
    rw [components] at h
    rw [HasType] at typed
    rw [typed, slots_ptr]
    exact addressComponents_length getGlobalID h
  | .otherExpr operands, ty, ns, typed, h => by
    simp [components, addressComponents, elementAddress, stripPointerCasts] at h
  | .undef, ty, ns, typed, h => by simp [components] at h
  | .global g, ty, ns, typed, h => by simp [components] at h
  | .function f, ty, ns, typed, h => by simp [components] at h

theorem arrayComponents_length : ∀ (cs : List Const) (element : Ty) (ns : List Nat),
    AllHaveType cs element → elementComponents getGlobalID cs = some ns →
    ns.length = cs.length * slots element
  | [], element, ns, typed, h => by
    have same : [] = ns := by simpa [elementComponents] using h
    simp [← same]
  | c :: cs, element, ns, typed, h => by
    rw [AllHaveType] at typed
    rw [elementComponents] at h
    obtain ⟨first, hf, h⟩ := Option.bind_eq_some_iff.mp h
    obtain ⟨rest, hr, h⟩ := Option.bind_eq_some_iff.mp h
    have same : first ++ rest = ns := Option.some.inj h
    have one := components_length c element first typed.1 hf
    have others := arrayComponents_length cs element rest typed.2 hr
    rw [← same, List.length_append, one, others, List.length_cons, Nat.add_mul, Nat.one_mul,
      Nat.add_comm]

theorem structComponents_length : ∀ (cs : List Const) (fields : List Ty) (ns : List Nat),
    HaveTypes cs fields → elementComponents getGlobalID cs = some ns →
    ns.length = (zeroFields fields).length
  | [], fields, ns, typed, h => by
    rw [HaveTypes] at typed
    have same : [] = ns := by simpa [elementComponents] using h
    simp [← same, typed, zeroFields]
  | c :: cs, fields, ns, typed, h => by
    rw [HaveTypes] at typed
    obtain ⟨t, ts, rfl, typedHead, typedTail⟩ := typed
    rw [elementComponents] at h
    obtain ⟨first, hf, h⟩ := Option.bind_eq_some_iff.mp h
    obtain ⟨rest, hr, h⟩ := Option.bind_eq_some_iff.mp h
    have same : first ++ rest = ns := Option.some.inj h
    have one := components_length c t first typedHead hf
    have others := structComponents_length cs ts rest typedTail hr
    rw [← same, List.length_append, one, others, zeroFields, List.length_append, slots]

end

/-! Address expressions. -/

theorem isZeroIndex_value {c : Const} (h : isZeroIndex c) : getZExtValue c = some 0 := by
  cases c with
  | int bits value =>
    have zero : value = 0 := by simpa [isZeroIndex] using h
    simp [getZExtValue, zero]
  | _ => simp [isZeroIndex] at h

theorem printAddress_zero {c : Const} (h : isZeroIndex c) (g : GlobalId) :
    printAddress getGlobalID c g = (getGlobalID g).map fun id => [0, id] := by
  unfold printAddress
  rw [isZeroIndex_value h]
  cases getGlobalID g <;> rfl

/-- Nothing but a global is left under the casts: the number printed is 0. -/
theorem printExpr_global {expr : Const} {g : GlobalId} {out : List Nat}
    (stripped : stripPointerCasts expr = .global g) (h : printExpr getGlobalID expr = some out) :
    (getGlobalID g).map (fun id => [0, id]) = some out := by
  simp only [printExpr, stripped, isConstantExpr, Bool.false_eq_true, if_false] at h
  obtain ⟨g', base, inner⟩ := Option.bind_eq_some_iff.mp h
  cases expr with
  | castExpr op v =>
    cases op with
    | bitCast =>
      have same : g = g' := by
        simpa [baseGlobal, exprOperands, show stripPointerCasts v = .global g by
          simpa [stripPointerCasts] using stripped] using base
      rw [same]
      simpa [printInner, exprOperands, printCast] using inner
    | _ => simp [printInner, exprOperands, printCast] at inner
  | getElementPtrExpr v indices =>
    rw [stripPointerCasts] at stripped
    split_ifs at stripped with zero
    have same : g = g' := by simpa [baseGlobal, exprOperands, stripped] using base
    rw [same]
    rcases indices with _ | ⟨c0, _ | ⟨c1, _ | ⟨c2, rest⟩⟩⟩
    · simp [printInner, exprOperands, printCast] at inner
    · rw [← printAddress_zero getGlobalID (c := c0) (by simpa using zero)]
      simpa [printInner, exprOperands] using inner
    · have both : isZeroIndex c0 ∧ isZeroIndex c1 := by simpa using zero
      rw [← printAddress_zero getGlobalID both.2]
      cases c0 with
      | int bits value =>
        have isZero : value = 0 := by simpa [isZeroIndex] using both.1
        subst isZero
        simpa [printInner, exprOperands] using inner
      | _ => simp [isZeroIndex] at both
    · simp [printInner, exprOperands, printCast] at inner
  | otherExpr operands => simp [stripPointerCasts] at stripped
  | _ => simp [printInner, exprOperands, printCast] at inner

/-- An accepted expression that is the address of an element prints that address. -/
theorem printExpr_eq_address {expr : Const} {out : List Nat}
    (h : printExpr getGlobalID expr = some out) (address : (elementAddress expr).isSome) :
    addressComponents getGlobalID expr = some out := by
  cases stripped : stripPointerCasts expr with
  | global g =>
    have printed := printExpr_global getGlobalID stripped h
    rw [addressComponents, elementAddress, stripped]
    exact (printAddress_zero getGlobalID (c := .int 64 0) rfl g).trans printed
  | getElementPtrExpr base indices =>
    simp only [printExpr, stripped, isConstantExpr, if_true] at h
    obtain ⟨g, hbase, inner⟩ := Option.bind_eq_some_iff.mp h
    have base_eq : stripPointerCasts base = .global g := by
      revert hbase
      cases hb : stripPointerCasts base <;> simp [baseGlobal, exprOperands, hb]
    simp only [elementAddress, stripped] at address
    simp only [addressComponents, elementAddress, stripped]
    rcases indices with _ | ⟨c0, _ | ⟨c1, _ | ⟨c2, rest⟩⟩⟩
    · simp at address
    · simpa [printInner, exprOperands, base_eq] using inner
    · cases c0 with
      | int bits value =>
        cases value with
        | zero => simpa [printInner, exprOperands, base_eq] using inner
        | succ n => simp at address
      | _ => simp at address
    · simp at address
  | _ => simp [elementAddress, stripped] at address

/-- The elements of a data array are printed one by one. -/
theorem data_eq (bits : Nat) (elements out : List Nat)
    (h : elements.mapM (fun e => getZExtValue (.int bits e)) = some out) : elements = out := by
  induction elements generalizing out with
  | nil => simpa using h
  | cons e elements ih =>
    rw [List.mapM_cons] at h
    obtain ⟨v, hv, h⟩ := Option.bind_eq_some_iff.mp h
    obtain ⟨rest, hr, h⟩ := Option.bind_eq_some_iff.mp h
    have same : v :: rest = out := Option.some.inj h
    rw [getZExtValue] at hv
    split_ifs at hv
    rw [← same, ← Option.some.inj hv, ih rest hr]

mutual

/-- When every part is intact, the numbers printed are the components. -/
theorem printConstant_eq_components : ∀ (c : Const) (out : List Nat),
    printConstant getGlobalID c = some out → (∀ e, Part c e → Intact e) →
    components getGlobalID c = some out
  | .int bits value, out, h, _ => by
    rw [components, ← h, printConstant]
    split_ifs with zero
    · rw [zero]
    · rw [printConstant, if_neg zero] at h
      obtain ⟨v, hv, -⟩ := Option.map_eq_some_iff.mp h
      rw [getZExtValue] at hv ⊢
      split_ifs at hv ⊢ with fits
      rfl
  | .fp posZero, out, h, _ => by
    rw [printConstant] at h
    split_ifs at h
    rw [components, ← h]
  | .null, out, h, intact => (intact .null (.refl _)).elim
  | .aggregateZero ty, out, h, intact => by
    have one : zeroComponents ty = [0] :=
      (zeroComponents_singleton_iff ty).mpr (intact (.aggregateZero ty) (.refl _))
    rw [components, one, ← h, printConstant]
  | .array elements, out, h, intact => by
    rw [printConstant] at h
    split_ifs at h
    rw [components]
    exact printElements_eq_components elements out h
      (fun c hc e he => intact e (.array hc he))
  | .struct elements, out, h, intact => by
    rw [printConstant] at h
    split_ifs at h
    rw [components]
    exact printElements_eq_components elements out h
      (fun c hc e he => intact e (.struct hc he))
  | .data bits elements, out, h, _ => by
    rw [printConstant] at h
    split_ifs at h
    rw [components, data_eq bits elements out h]
  | .castExpr op v, out, h, intact => by
    rw [printConstant] at h
    rw [components]
    exact printExpr_eq_address getGlobalID h (intact (.castExpr op v) (.refl _))
  | .getElementPtrExpr base indices, out, h, intact => by
    rw [printConstant] at h
    rw [components]
    exact printExpr_eq_address getGlobalID h (intact (.getElementPtrExpr base indices) (.refl _))
  | .otherExpr operands, out, h, intact => by
    rw [printConstant] at h
    rw [components]
    exact printExpr_eq_address getGlobalID h (intact (.otherExpr operands) (.refl _))
  | .undef, out, h, _ => by simp [printConstant] at h
  | .global g, out, h, _ => by simp [printConstant] at h
  | .function f, out, h, _ => by simp [printConstant] at h

theorem printElements_eq_components : ∀ (cs : List Const) (out : List Nat),
    printElements getGlobalID cs = some out → (∀ c ∈ cs, ∀ e, Part c e → Intact e) →
    elementComponents getGlobalID cs = some out
  | [], out, h, _ => by simpa [elementComponents, printElements] using h
  | c :: cs, out, h, intact => by
    rw [printElements] at h
    obtain ⟨first, hf, h⟩ := Option.bind_eq_some_iff.mp h
    obtain ⟨rest, hr, h⟩ := Option.bind_eq_some_iff.mp h
    have one := printConstant_eq_components c first hf (intact c List.mem_cons_self)
    have others := printElements_eq_components cs rest hr
      (fun d hd => intact d (List.mem_cons_of_mem c hd))
    rw [elementComponents, one, others]
    exact h

end

theorem printElements_mem {cs : List Const} (h : (printElements getGlobalID cs).isSome) {c : Const}
    (member : c ∈ cs) : (printConstant getGlobalID c).isSome := by
  induction cs with
  | nil => cases member
  | cons d cs ih =>
    obtain ⟨out, hout⟩ := Option.isSome_iff_exists.mp h
    rw [printElements] at hout
    obtain ⟨first, hf, hout⟩ := Option.bind_eq_some_iff.mp hout
    obtain ⟨rest, hr, -⟩ := Option.bind_eq_some_iff.mp hout
    rcases List.mem_cons.mp member with rfl | member
    · rw [hf]; rfl
    · exact ih (by rw [hr]; rfl) member

/-- A constant is accepted only when all its parts are. -/
theorem part_accepted {c e : Const} (part : Part c e) (h : (printConstant getGlobalID c).isSome) :
    (printConstant getGlobalID e).isSome := by
  induction part with
  | refl c => exact h
  | array member _ ih =>
    rw [printConstant] at h
    split_ifs at h with empty
    · cases h
    · exact ih (printElements_mem getGlobalID h member)
  | struct member _ ih =>
    rw [printConstant] at h
    split_ifs at h with empty
    · cases h
    · exact ih (printElements_mem getGlobalID h member)

theorem printConstant_null {c : Const} (h : isNullValue c) :
    printConstant getGlobalID c = some [0] := by
  cases c with
  | int bits value =>
    have zero : value = 0 := by simpa [isNullValue] using h
    rw [printConstant, if_pos zero]
  | fp posZero =>
    have zero : posZero = true := by simpa [isNullValue] using h
    rw [printConstant, if_pos zero]
  | null => rw [printConstant]
  | aggregateZero ty => rw [printConstant]
  | _ => simp [isNullValue] at h

/-- A part that is accepted and printed as its components is intact. -/
theorem intact_of_printed {e : Const} (accepted : (printConstant getGlobalID e).isSome)
    (same : printConstant getGlobalID e = components getGlobalID e) : Intact e := by
  have address : ∀ expr, (addressComponents getGlobalID expr).isSome →
      (elementAddress expr).isSome := by
    intro expr h
    obtain ⟨ns, hns⟩ := Option.isSome_iff_exists.mp h
    obtain ⟨a, ha, -⟩ := Option.bind_eq_some_iff.mp hns
    rw [ha]
    rfl
  cases e with
  | null => simp [printConstant, components] at same
  | aggregateZero ty =>
    rw [printConstant, components] at same
    exact (zeroComponents_singleton_iff ty).mp (Option.some.inj same).symm
  | castExpr op v => exact address _ (by rwa [same, components] at accepted)
  | getElementPtrExpr base indices => exact address _ (by rwa [same, components] at accepted)
  | otherExpr operands => exact address _ (by rwa [same, components] at accepted)
  | _ => trivial

/-- An accepted initializer keeps its shape exactly when it is zero as a whole or all
its parts are intact. -/
theorem shapeKept_iff_intact (c : Const) (ty : Ty) (typed : HasType c ty)
    (accepted : (printConstant getGlobalID c).isSome) :
    ShapeKept getGlobalID c ty ↔ isNullValue c ∨ ∀ e, Part c e → Intact e := by
  constructor
  · rintro (⟨null, -⟩ | ⟨-, parts⟩)
    · exact Or.inl null
    · exact Or.inr fun e part =>
        intact_of_printed getGlobalID (part_accepted getGlobalID part accepted) (parts e part)
  · rintro (null | intact)
    · exact Or.inl ⟨null, printConstant_null getGlobalID null⟩
    · obtain ⟨out, hout⟩ := Option.isSome_iff_exists.mp accepted
      have whole := printConstant_eq_components getGlobalID c out hout intact
      refine Or.inr ⟨?_, ?_⟩
      · rw [hout, Option.map_some, components_length getGlobalID c ty out typed whole]
      · intro e part
        obtain ⟨outE, hE⟩ := Option.isSome_iff_exists.mp (part_accepted getGlobalID part accepted)
        have inner : ∀ d, Part e d → Intact d := fun d hd => intact d (part_trans part hd)
        rw [hE, printConstant_eq_components getGlobalID e outE hE inner]

end

/-- A table of two numbers and the addresses of its entries. -/
theorem shapeKept_table :
    let address (k : Nat) : Const := .getElementPtrExpr (.global 0) [.int 64 0, .int 64 k]
    let table : Const := .struct [.data 32 [3, 4], .array [address 0, address 1]]
    let ty : Ty := .struct [.array 2 (.int 32), .array 2 .ptr]
    printConstant some table = some [3, 4, 0, 0, 1, 0] ∧ ShapeKept some table ty := by
  intro address table ty
  have printed : printConstant some table = some [3, 4, 0, 0, 1, 0] := by rfl
  have typed : HasType table ty := by
    simp [table, address, ty, HasType, HaveTypes, AllHaveType]
  refine ⟨printed,
    (shapeKept_iff_intact some table ty typed (by rw [printed]; rfl)).mpr (Or.inr ?_)⟩
  intro e part
  change Part (.struct [.data 32 [3, 4], .array [address 0, address 1]]) e at part
  cases part with
  | refl => trivial
  | struct member part =>
    simp only [List.mem_cons, List.not_mem_nil, or_false] at member
    rcases member with rfl | rfl
    · cases part
      trivial
    · cases part with
      | refl => trivial
      | array member part =>
        simp only [List.mem_cons, List.not_mem_nil, or_false] at member
        rcases member with rfl | rfl
        · cases part
          rfl
        · cases part
          rfl

/-- A zero array beside a number is printed as one number where the type asks for two. -/
theorem zero_array_field_shape_lost :
    let table : Const := .struct [.int 32 5, .aggregateZero (.array 2 (.int 32))]
    let ty : Ty := .struct [.int 32, .array 2 (.int 32)]
    HasType table ty ∧ printConstant some table = some [5, 0] ∧ ¬ ShapeKept some table ty := by
  intro table ty
  have printed : printConstant some table = some [5, 0] := by rfl
  refine ⟨by simp [table, ty, HasType, HaveTypes], printed, ?_⟩
  rintro (⟨zero, -⟩ | ⟨count, -⟩)
  · cases zero
  · rw [printed] at count
    simp [ty, slots, zeroComponents, zeroFields] at count

end GlobalInitializers
