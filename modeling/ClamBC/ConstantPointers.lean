import ClamBC.GlobalIdsExact
import ClamBC.GlobalInitializers

/-!
# Helpers for addresses in globals

The analyzer writes an element address as a cast of a byte offset from a cast of the global,
and `printConstant` takes the initializer of the helper apart again. An address in a global
is followed from its place in the module through all the replacements to the initializer that
is written in the end.

LLVM folds constants while they are built. What it makes of a cast of a global, of a byte
offset from it and of a cast of that is taken to be an expression of the same kind; a byte
offset of 0 is no expression of its own.
-/

namespace GlobalIds

open Fallible

namespace Expr

def stripPointerCasts : Expr → Expr
  | .bitcast value _ => value.stripPointerCasts
  | .getElementPtr source base indices ty =>
    if indices.all (fun i => i = some 0) then base.stripPointerCasts else
      .getElementPtr source base indices ty
  | e => e

/-- The type of a constant expression. -/
def ty? : Expr → Option Nat
  | .bitcast _ ty => some ty
  | .getElementPtr _ _ _ ty => some ty
  | _ => none

def isBitcast : Expr → Bool
  | .bitcast _ _ => true
  | _ => false

/-- `printConstant` knows an element address that is all zero by its one or two indices. -/
def fits : Expr → Bool
  | .getElementPtr _ _ indices _ => indices.length = 1 || indices.length = 2
  | _ => true

/-- The constant as the writer sees it. Indices have 64 bits. -/
def toConst : Expr → Ir.Const
  | .global ref => .global ref
  | .function ref => .function ref
  | .null => .null
  | .bitcast value _ => .castExpr .bitCast value.toConst
  | .getElementPtr _ base indices _ =>
    .getElementPtrExpr base.toConst
      (indices.map fun i => (i.map fun n => Ir.Const.int 64 n).getD (.otherExpr []))
  | .other _ first second third => .otherExpr [first.toConst, second.toConst, third.toConst]

end Expr

/-- A bitcast or an element address whose operand is a global variable, under casts. -/
def Over (r : Nat) : Expr → Prop
  | .bitcast value _ => value.stripPointerCasts = .global r
  | .getElementPtr _ base _ _ => base.stripPointerCasts = .global r
  | _ => False

/-- A pointer to bytes has no elements that could be indexed. -/
def Indexed (llvm : Llvm) : Expr → Prop
  | .getElementPtr _ base indices _ => 2 ≤ indices.length → base.ty? ≠ some llvm.i8Ptr
  | _ => True

/-- The byte offset under the data layout. -/
def offset (llvm : Llvm) : Expr → Nat
  | .getElementPtr source _ indices _ => llvm.getIndexedOffset source indices
  | _ => 0

/-- What stands in the end in an instruction that uses a constant. Nothing else looks at the
instructions during the analysis. -/
def Becomes (llvm : Llvm) (order : AddressOrder) (m st : State) (e E : Expr) : Prop :=
  ∃ fuel, turns llvm order fuel 0 { m with insts := [[e]], ces := [], ceMap := [] } =
    .ok { st with insts := [[E]] }

/-- A helper global has the expression as its initializer, and this is what is written for it. -/
def Written (st : State) (ids : Ids) (e : Expr) (numbers : List Nat) : Prop :=
  ∃ g ∈ st.globals, (e, g.ref) ∈ st.ceMap ∧ g.init = some ⟨0, [e]⟩ ∧
    GlobalInitializers.printConstant (fun r => ids.globals.lookup r) e.toConst = some numbers

/-- The helper of the expression is written as its byte offset and the id of its global. -/
def KeepsTarget (llvm : Llvm) (order : AddressOrder) (m st : State) (ids : Ids) (e : Expr)
    (r : Nat) : Prop :=
  ∃ E id, Becomes llvm order m st e E ∧ ids.globals.lookup r = some id ∧
    Written st ids E [offset llvm e, id]

/-- The global itself, or one byte offset from it. -/
inductive Points (source bytes r : Nat) : Nat → Expr → Prop
  | whole {e : Expr} (stripped : e.stripPointerCasts = .global r) : Points source bytes r 0 e
  | element {e base : Expr} {n : Nat} (stripped : e.stripPointerCasts =
      .getElementPtr source base [some n] bytes)
      (ne : n ≠ 0) (global : base.stripPointerCasts = .global r) : Points source bytes r n e

/-- What LLVM makes of casts of a global and of byte offsets from it; `source` and `bytes` are
the types of such an offset. A cast to bytes forgets how the address of the global was written, so
the way back depends on the global and on the type only. -/
structure Llvm.ByteAddresses (llvm : Llvm) (source bytes : Nat) : Prop where
  pointerCast : ∀ r n e ty, Points source bytes r n e →
    Points source bytes r n (llvm.pointerCast e ty)
  fold : ∀ r n e, Points source bytes r n e → Points source bytes r n (llvm.fold e)
  getElementPtr : ∀ e n, llvm.getElementPtr e n = if n = 0 then e else
    .getElementPtr source e [some n] bytes
  castType : ∀ e ty, (llvm.pointerCast e ty).isConstantExpr = true →
    (llvm.pointerCast e ty).ty? = some ty
  castIndexed : ∀ r n e ty, Points source bytes r n e → Indexed llvm (llvm.pointerCast e ty)
  castFits : ∀ r e ty, e.stripPointerCasts = .global r → e.ty? ≠ some llvm.i8Ptr →
    (llvm.pointerCast (llvm.pointerCast e llvm.i8Ptr) ty).fits =
      (llvm.pointerCast (.global r) ty).fits
  foldType : ∀ e, (llvm.fold e).ty? = none ∨ (llvm.fold e).ty? = e.ty?
  zeroOffset : ∀ source indices, indices.all (fun i => i = some 0) = true →
    llvm.getIndexedOffset source indices = 0
  offset_lt : ∀ source indices, llvm.getIndexedOffset source indices < 2 ^ 64

section
variable {llvm : Llvm} {source bytes r n : Nat}

/-! ## Replacing keeps the target -/

theorem points_whole {e : Expr} (points : Points source bytes r 0 e) :
    e.stripPointerCasts = .global r := by
  cases points with
  | whole stripped => exact stripped
  | element _ ne _ => exact absurd rfl ne

theorem points_bitcast {value : Expr} {ty : Nat} :
    Points source bytes r n (.bitcast value ty) ↔ Points source bytes r n value := by
  constructor <;> intro h
  · cases h with
    | whole stripped => exact .whole stripped
    | element stripped ne global => exact .element stripped ne global
  · cases h with
    | whole stripped => exact .whole stripped
    | element stripped ne global => exact .element stripped ne global

theorem strip_zero {source' : Nat} {base : Expr} {indices : List (Option Nat)} {ty : Nat}
    (zero : indices.all (fun i => i = some 0) = true) :
    (Expr.getElementPtr source' base indices ty).stripPointerCasts =
      base.stripPointerCasts := if_pos zero

theorem strip_other {source' : Nat} {base : Expr} {indices : List (Option Nat)} {ty : Nat}
    (other : ¬ indices.all (fun i => i = some 0) = true) :
    (Expr.getElementPtr source' base indices ty).stripPointerCasts =
      .getElementPtr source' base indices ty := if_neg other

theorem points_zero {source' : Nat} {base : Expr} {indices : List (Option Nat)} {ty : Nat}
    (zero : indices.all (fun i => i = some 0) = true) :
    Points source bytes r n (.getElementPtr source' base indices ty) ↔
      Points source bytes r n base := by
  constructor <;> intro h
  · cases h with
    | whole stripped => exact .whole ((strip_zero zero).symm.trans stripped)
    | element stripped ne global => exact .element ((strip_zero zero).symm.trans stripped) ne global
  · cases h with
    | whole stripped => exact .whole ((strip_zero zero).trans stripped)
    | element stripped ne global => exact .element ((strip_zero zero).trans stripped) ne global

/-- An element address that is not all zero points when it is a byte offset from the global. -/
theorem points_other {source' : Nat} {base : Expr} {indices : List (Option Nat)} {ty : Nat}
    (other : ¬ indices.all (fun i => i = some 0) = true) :
    Points source bytes r n (.getElementPtr source' base indices ty) ↔
      source' = source ∧ indices = [some n] ∧ ty = bytes ∧ n ≠ 0 ∧
        base.stripPointerCasts = .global r := by
  constructor
  · intro h
    cases h with
    | whole stripped => cases (strip_other other).symm.trans stripped
    | element stripped ne global =>
      cases (strip_other other).symm.trans stripped
      exact ⟨rfl, rfl, rfl, ne, global⟩
  · rintro ⟨rfl, rfl, rfl, ne, global⟩
    exact .element (strip_other other) ne global

theorem points_unique (ours : llvm.ByteAddresses source bytes)
    {pool : List Expr} {moved : Bool} {e : Expr} (points : Points source bytes r n e) :
    Points source bytes r n (unique llvm pool moved e).1 := by
  rcases @unique_fst llvm pool moved e with eq | eq
  · rw [eq]
    exact points
  · rw [eq]
    exact ours.fold r n e points

/-- Replacing an address by one with the same target keeps the targets of all addresses. -/
theorem rebuild_points (ours : llvm.ByteAddresses source bytes) {pool : List Expr} {old new : Expr}
    (same : ∀ r n, Points source bytes r n old → Points source bytes r n new)
    {e : Expr} {r n : Nat} (points : Points source bytes r n e) :
    Points source bytes r n (rebuild llvm pool old new e).1 := by
  induction e generalizing n with
  | global s | function s | null =>
    unfold rebuild
    split
    · rename_i isOld
      exact same r n (isOld ▸ points)
    · exact points
  | bitcast value ty ih =>
    unfold rebuild
    split
    · rename_i isOld
      exact same r n (isOld ▸ points)
    · exact points_unique ours (points_bitcast.mpr (ih (points_bitcast.mp points)))
  | getElementPtr source' base indices ty ih =>
    unfold rebuild
    split
    · rename_i isOld
      exact same r n (isOld ▸ points)
    · refine points_unique ours ?_
      by_cases zero : indices.all (fun i => i = some 0) = true
      · exact (points_zero zero).mpr (ih ((points_zero zero).mp points))
      · obtain ⟨rfl, rfl, rfl, ne, global⟩ := (points_other zero).mp points
        exact (points_other zero).mpr ⟨rfl, rfl, rfl, ne, points_whole (ih (.whole global))⟩
  | other opcode first second third ih1 ih2 ih3 =>
    cases points with
    | whole stripped => cases stripped
    | element stripped ne global => cases stripped

theorem unique_type (ours : llvm.ByteAddresses source bytes) {pool : List Expr}
    {moved : Bool} {e : Expr} :
    (unique llvm pool moved e).1.ty? = none ∨ (unique llvm pool moved e).1.ty? = e.ty? := by
  rcases @unique_fst llvm pool moved e with eq | eq
  · exact .inr (by rw [eq])
  · rw [eq]
    exact ours.foldType e

/-- A constant gets no new type; a global has none of its own. -/
theorem rebuild_type (ours : llvm.ByteAddresses source bytes) (pool : List Expr) {old new : Expr}
    (same : new.ty? = old.ty?) (e : Expr) :
    (rebuild llvm pool old new e).1.ty? = none ∨ (rebuild llvm pool old new e).1.ty? = e.ty? := by
  unfold rebuild
  split
  · rename_i isOld
    rw [isOld]
    exact .inr same
  · split
    · exact unique_type ours
    · exact unique_type ours
    · exact unique_type ours
    · exact .inr rfl

/-! ## What an element address becomes -/

section
variable {source' : Nat} {base : Expr} {indices : List (Option Nat)} {ty : Nat}

theorem byteOffset_zero (ours : llvm.ByteAddresses source bytes)
    (zero : llvm.getIndexedOffset source' indices = 0) :
    (byteOffset llvm source' base indices ty).2.2 =
      llvm.pointerCast (llvm.pointerCast base llvm.i8Ptr) ty := by
  simp only [byteOffset, zero, ours.getElementPtr, if_true]

/-- The byte offset from the global. -/
theorem byteOffset_points (ours : llvm.ByteAddresses source bytes)
    (global : base.stripPointerCasts = .global r) :
    Points source bytes r (llvm.getIndexedOffset source' indices)
      (byteOffset llvm source' base indices ty).2.1 := by
  have cast := ours.pointerCast r 0 base llvm.i8Ptr (.whole global)
  by_cases zero : llvm.getIndexedOffset source' indices = 0
  · simp only [byteOffset, ours.getElementPtr, zero, if_true]
    exact cast
  · have other : ¬ [some (llvm.getIndexedOffset source' indices)].all (fun i => i = some 0) =
      true := by simpa using zero
    simp only [byteOffset, ours.getElementPtr, if_neg zero]
    exact (points_other other).mpr ⟨rfl, rfl, rfl, zero, points_whole cast⟩

theorem zero_of_points (long : 2 ≤ indices.length)
    (points : Points source bytes r n (.getElementPtr source' base indices ty)) :
    indices.all (fun i => i = some 0) = true := by
  by_contra other
  obtain ⟨-, rfl, -⟩ := (points_other other).mp points
  simp at long

/-- An element address of several indices that already points is all zero and is cast anew. -/
theorem byteOffset_same (ours : llvm.ByteAddresses source bytes) (long : 2 ≤ indices.length)
    (points : Points source bytes r n (.getElementPtr source' base indices ty)) :
    Points source bytes r n (byteOffset llvm source' base indices ty).2.1 := by
  have zero := zero_of_points long points
  simp only [byteOffset, ours.getElementPtr, ours.zeroOffset _ _ zero, if_true]
  exact ours.pointerCast r n _ _ ((points_zero zero).mp points)

theorem byteOffset_fits (ours : llvm.ByteAddresses source bytes)
    (zero : llvm.getIndexedOffset source' indices = 0) (global : base.stripPointerCasts = .global r)
    (notBytes : base.ty? ≠ some llvm.i8Ptr) :
    (byteOffset llvm source' base indices ty).2.2.fits =
      (llvm.pointerCast (.global r) ty).fits := by
  rw [byteOffset_zero ours zero]
  exact ours.castFits r base ty global notBytes

theorem byteOffset_type (ours : llvm.ByteAddresses source bytes)
    (isExpr : (byteOffset llvm source' base indices ty).2.2.isConstantExpr = true) :
    (byteOffset llvm source' base indices ty).2.2.ty? = some ty := ours.castType _ ty isExpr

theorem processExpr_long {name : String} {st st' : State}
    (ok : processExpr llvm name st (.getElementPtr source' base indices ty) = .ok st') :
    2 ≤ indices.length := by
  unfold processExpr at ok
  split at ok
  · rename_i eq
    cases eq
  · rename_i eq
    cases eq
    simp
  · cases ok
  · cases ok

theorem unique_inPlace {pool : List Expr} {moved : Bool} {e : Expr}
    (kept : (unique llvm pool moved e).2 = false) :
    (unique llvm pool moved e).1 = e := by
  unfold unique at kept ⊢
  split at kept
  · cases kept
  · rename_i stays
    rw [if_neg stays]

/-- What stays where it is keeps its kind, its indices and its type. -/
theorem rebuild_bitcast_inPlace
    {pool : List Expr} {old new value : Expr} (other : .bitcast value ty ≠ old)
    (kept : (rebuild llvm pool old new (.bitcast value ty)).2 = false) :
    (rebuild llvm pool old new (.bitcast value ty)).1 =
      .bitcast (rebuild llvm pool old new value).1 ty := by
  have eq : rebuild llvm pool old new (.bitcast value ty) =
      unique llvm pool (rebuild llvm pool old new value).2
        (.bitcast (rebuild llvm pool old new value).1 ty) := by
    rw [rebuild, if_neg other]
  rw [eq] at kept ⊢
  exact unique_inPlace kept

theorem rebuild_getElementPtr_inPlace {pool : List Expr}
    {old new : Expr} (other : .getElementPtr source' base indices ty ≠ old)
    (kept : (rebuild llvm pool old new (.getElementPtr source' base indices ty)).2 = false) :
    (rebuild llvm pool old new (.getElementPtr source' base indices ty)).1 =
      .getElementPtr source' (rebuild llvm pool old new base).1 indices ty := by
  have eq : rebuild llvm pool old new (.getElementPtr source' base indices ty) =
      unique llvm pool (rebuild llvm pool old new base).2
        (.getElementPtr source' (rebuild llvm pool old new base).1 indices ty) := by
    rw [rebuild, if_neg other]
  rw [eq] at kept ⊢
  exact unique_inPlace kept

end

end

section
variable {source bytes r n : Nat} {e : Expr}

/-! ## What is written -/

theorem toConst_zero (indices : List (Option Nat)) :
    (indices.map fun i => (i.map fun n => Ir.Const.int 64 n).getD (.otherExpr [])).all
      GlobalInitializers.isZeroIndex =
      indices.all fun i => i = some 0 := by
  rw [List.all_map]
  refine congrArg indices.all (funext fun i => ?_)
  cases i with
  | none => rfl
  | some n => simp [GlobalInitializers.isZeroIndex]

theorem toConst_strip (e : Expr) :
    e.stripPointerCasts.toConst = GlobalInitializers.stripPointerCasts e.toConst := by
  induction e with
  | bitcast value ty ih => exact ih
  | getElementPtr source base indices ty ih =>
    simp only [Expr.toConst, GlobalInitializers.stripPointerCasts, toConst_zero]
    by_cases zero : indices.all (fun i => i = some 0) = true
    · rw [strip_zero zero, if_pos zero]
      exact ih
    · rw [strip_other zero, if_neg zero]
      rfl
  | global s | function s | null | other opcode first second third => rfl

theorem baseGlobal_over (overGlobal : Over r e) :
    GlobalInitializers.baseGlobal e.toConst = some r := by
  have base : ∀ {v : Expr}, v.stripPointerCasts = .global r →
      GlobalInitializers.stripPointerCasts v.toConst = .global r := by
    intro v stripped
    rw [← toConst_strip, stripped]
    rfl
  cases e with
  | bitcast value ty =>
    simp [GlobalInitializers.baseGlobal, Expr.toConst, GlobalInitializers.exprOperands,
      base overGlobal]
  | getElementPtr source base' indices ty =>
    simp [GlobalInitializers.baseGlobal, Expr.toConst, GlobalInitializers.exprOperands,
      base overGlobal]
  | global s | function s | null | other opcode first second third => cases overGlobal

section
variable (getGlobalID : Nat → Option Nat)

theorem printConstant_expr (isExpr : e.isConstantExpr = true) :
    GlobalInitializers.printConstant getGlobalID e.toConst =
      GlobalInitializers.printExpr getGlobalID e.toConst := by
  cases e with
  | bitcast value ty | getElementPtr source base indices ty | other opcode first second third =>
    unfold Expr.toConst GlobalInitializers.printConstant
    rfl
  | global s | function s | null => cases isExpr

theorem printAddress_int (small : n < 2 ^ 64) :
    GlobalInitializers.printAddress getGlobalID (.int 64 n) r =
      (getGlobalID r).map fun id => [n, id] := by
  unfold GlobalInitializers.printAddress GlobalInitializers.getZExtValue
  dsimp only
  rw [if_pos small]
  cases getGlobalID r <;> rfl

/-- One byte offset from a global is printed as it is. -/
theorem print_element (isExpr : e.isConstantExpr = true) {base : Expr} (small : n < 2 ^ 64)
    (stripped : e.stripPointerCasts = .getElementPtr source base [some n] bytes)
    (global : base.stripPointerCasts = .global r) :
    GlobalInitializers.printConstant getGlobalID e.toConst =
      (getGlobalID r).map fun id => [n, id] := by
  have under : GlobalInitializers.stripPointerCasts e.toConst =
      (Expr.getElementPtr source base [some n] bytes).toConst := by
    rw [← toConst_strip, stripped]
  have overGlobal : Over r (.getElementPtr source base [some n] bytes) := global
  rw [printConstant_expr getGlobalID isExpr, ← printAddress_int getGlobalID small]
  unfold GlobalInitializers.printExpr
  rw [under]
  show (GlobalInitializers.baseGlobal (Expr.getElementPtr source base [some n] bytes).toConst).bind
    _ = _
  rw [baseGlobal_over overGlobal]
  rfl

/-- Nothing but casts and zero indices. -/
theorem over_of_whole (isExpr : e.isConstantExpr = true)
    (stripped : e.stripPointerCasts = .global r) : Over r e := by
  cases e with
  | bitcast value ty => exact stripped
  | getElementPtr source base indices ty =>
    unfold Expr.stripPointerCasts at stripped
    split at stripped
    · exact stripped
    · cases stripped
  | global s | function s | null => cases isExpr
  | other opcode first second third => cases stripped

theorem print_whole (isExpr : e.isConstantExpr = true)
    (stripped : e.stripPointerCasts = .global r) :
    GlobalInitializers.printConstant getGlobalID e.toConst =
      if e.fits = true then (getGlobalID r).map fun id => [0, id] else none := by
  have under : GlobalInitializers.stripPointerCasts e.toConst = .global r := by
    rw [← toConst_strip, stripped]
    rfl
  have inner : GlobalInitializers.printConstant getGlobalID e.toConst =
      GlobalInitializers.printInner getGlobalID e.toConst e.toConst r := by
    rw [printConstant_expr getGlobalID isExpr]
    unfold GlobalInitializers.printExpr
    rw [under]
    show (GlobalInitializers.baseGlobal e.toConst).bind _ = _
    rw [baseGlobal_over (over_of_whole isExpr stripped)]
    rfl
  rw [inner]
  cases e with
  | bitcast value ty => rfl
  | getElementPtr source' base indices ty =>
    have zero : indices.all (fun i => i = some 0) = true := by
      by_contra other
      rw [strip_other other] at stripped
      cases stripped
    -- the patterns know one index and two indices
    rcases indices with _ | ⟨i, _ | ⟨j, _ | ⟨k, rest⟩⟩⟩
    · rfl
    · cases (by simpa using zero : i = some 0)
      exact printAddress_int getGlobalID (by decide)
    · obtain ⟨rfl, rfl⟩ : i = some 0 ∧ j = some 0 := by simpa using zero
      exact printAddress_int getGlobalID (by decide)
    · rfl
  | global s | function s | null => cases isExpr
  | other opcode first second third => cases stripped

theorem print_points (isExpr : e.isConstantExpr = true) (small : n < 2 ^ 64)
    (points : Points source bytes r n e) :
    GlobalInitializers.printConstant getGlobalID e.toConst =
      if n ≠ 0 ∨ e.fits = true then (getGlobalID r).map fun id => [n, id] else none := by
  cases points with
  | whole stripped => simpa using print_whole getGlobalID isExpr stripped
  | element stripped ne global =>
    rw [if_pos (.inl ne)]
    exact print_element getGlobalID isExpr small stripped global

end

end

end GlobalIds
