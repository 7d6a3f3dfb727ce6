import ClamBC.Fallible
import Mathlib.Algebra.Order.Ring.Int

/-!
# Narrowing the indices of getelementptr

`lowerIntrinsics` replaces the indices of a getelementptr by values of 32 bits. A cast
that an index comes from is taken off first, whatever it does; then what is left is
zero-extended, passed on or truncated by its own size. Differences and products are kept.

A run gives the bits of arguments, of instructions and of what casts are applied to.
Building a cast that is not valid and passing on a value that is no integer are faults.
-/

namespace IndexNarrowing

/-- The type of what a cast is applied to; a vector has the bits of all its elements. -/
inductive SrcTy where
  | int (w : Nat)
  | ptr
  | float (bits : Nat)
  | vector (bits : Nat)
  deriving DecidableEq

def SrcTy.getPrimitiveSizeInBits : SrcTy → Nat
  | .int w => w
  | .ptr => 0
  | .float bits => bits
  | .vector bits => bits

/-- The casts to an integer of `w` bits. -/
inductive Cast (w : Nat) where
  | trunc (src : Nat) (wider : w < src)
  | zext (src : Nat) (narrower : src < w)
  | sext (src : Nat) (narrower : src < w)
  | bitCast (src : SrcTy) (size : src.getPrimitiveSizeInBits = w) (noPointer : src ≠ .ptr)
  | ptrToInt
  | fpToInt (signed : Bool) (bits : Nat)

def Cast.src {w : Nat} : Cast w → SrcTy
  | .trunc src _ => .int src
  | .zext src _ => .int src
  | .sext src _ => .int src
  | .bitCast src _ _ => src
  | .ptrToInt => .ptr
  | .fpToInt _ bits => .float bits

inductive Opcode where
  | sub | mul | other
  deriving DecidableEq

/-- An index of `w` bits; the last number names the argument, the instruction or the operand of the
cast. -/
inductive Index where
  | constant (w : Nat) (v : Nat)
  | argument (w : Nat) (i : Nat)
  | instruction (opcode : Opcode) (w : Nat) (id : Nat)
  | cast (w : Nat) (c : Cast w) (id : Nat)

def Index.width : Index → Nat
  | .constant w _ => w
  | .argument w _ => w
  | .instruction _ w _ => w
  | .cast w _ _ => w

/-! ## Values -/

/-- The bits of arguments and registers, and what the conversions of floating point numbers give. -/
structure Run where
  args : Nat → Nat
  regs : Nat → Nat
  fpToInt : Bool → Nat → Nat → Nat

def signed (w bits : Nat) : Int := if bits < 2 ^ (w - 1) then bits else bits - 2 ^ w

def Cast.bits {w : Nat} (r : Run) (id : Nat) : Cast w → Nat
  | .trunc _ _ => r.regs id % 2 ^ w
  | .zext src _ => r.regs id % 2 ^ src
  | .sext src _ =>
    if r.regs id % 2 ^ src < 2 ^ (src - 1) then r.regs id % 2 ^ src else
      r.regs id % 2 ^ src + 2 ^ w - 2 ^ src
  | .bitCast _ _ _ => r.regs id % 2 ^ w
  | .ptrToInt => r.regs id % 2 ^ 64 % 2 ^ w
  | .fpToInt isSigned bits => r.fpToInt isSigned bits (r.regs id) % 2 ^ w

def Index.bits (r : Run) : Index → Nat
  | .constant w v => v % 2 ^ w
  | .argument w i => r.args i % 2 ^ w
  | .instruction _ w id => r.regs id % 2 ^ w
  | .cast _ c id => c.bits r id

/-- The index as the address computation reads it. -/
def Index.value (r : Run) (i : Index) : Int := signed i.width (i.bits r)

/-! ## The replacement -/

inductive Fault where
  | invalidCast
  | noInteger
  deriving DecidableEq

/-- What an index is replaced by: nothing, or the value or the operand of its cast, brought to 32
bits. -/
inductive Narrowed where
  | kept (i : Index)
  | zext (w : Nat) (v : Index)
  | pass (v : Index)
  | trunc (w : Nat) (v : Index)

/-- The operand of a cast, as an index of its own. -/
def stripped : Index → SrcTy × Index
  | .cast _ c id => (c.src, .instruction .other c.src.getPrimitiveSizeInBits id)
  | i => (.int i.width, i)

def isSubOrMul : Index → Bool
  | .instruction .sub _ _ => true
  | .instruction .mul _ _ => true
  | _ => false

def narrow (i : Index) : Except Fault Narrowed :=
  if i.width = 32 ∨ isSubOrMul i then .ok (.kept i)
  else
    let (ty, v) := stripped i
    let size := ty.getPrimitiveSizeInBits
    match ty with
    | .int w => .ok (if size < 32 then .zext w v else if size = 32 then .pass v else .trunc w v)
    | _ => .error (if size = 32 then .noInteger else .invalidCast)

def Narrowed.value (r : Run) : Narrowed → Int
  | .kept i => i.value r
  | .zext _ v => signed 32 (v.bits r)
  | .pass v => signed 32 (v.bits r)
  | .trunc _ v => signed 32 (v.bits r % 2 ^ 32)

/-- The loop over the indices. -/
def narrowIndices (is : List Index) : Except Fault (List Narrowed) := is.mapM narrow

/-! ## Which indices keep their value -/

def Index.InRange (r : Run) (i : Index) : Prop := 0 ≤ i.value r ∧ i.value r ≤ 2 ^ 31 - 1

/-- In every run in which all indices are in the range, the new ones have the values of the old
ones. -/
def Keeps (is : List Index) : Prop :=
  ∃ ns, narrowIndices is = .ok ns ∧
    ∀ r, (∀ i ∈ is, i.InRange r) → List.Forall₂ (fun i n => Narrowed.value r n = i.value r) is ns

/-- The index has 32 bits, or is neither truncated to fewer nor cast from something else than an
integer. -/
def Index.Good : Index → Prop
  | .cast w (.trunc _ _) _ => 32 ≤ w
  | .cast _ (.zext _ _) _ => True
  | .cast _ (.sext _ _) _ => True
  | .cast w (.bitCast src _ _) _ => w = 32 ∨ src = .int w
  | .cast w .ptrToInt _ => w = 32
  | .cast w (.fpToInt _ _) _ => w = 32
  | _ => True

theorem signed_of_lt {b : Nat} (small : b < 2 ^ 31) : signed 32 b = b := if_pos small

/-- An index in the range is not negative and has 31 bits. -/
theorem Index.InRange.bits {r : Run} {i : Index} (range : i.InRange r)
    (bounded : i.bits r < 2 ^ i.width) :
    i.value r = i.bits r ∧ i.bits r < 2 ^ (i.width - 1) ∧ i.bits r < 2 ^ 31 := by
  obtain ⟨nonneg, small⟩ := range
  unfold Index.value signed at *
  split_ifs at * with positive
  · exact ⟨rfl, positive, by omega⟩
  · have bound : (i.bits r : Int) < 2 ^ i.width := by exact_mod_cast bounded
    omega

theorem pow_le {a b : Nat} (le : a ≤ b) : 2 ^ a ≤ 2 ^ b := Nat.pow_le_pow_right (by decide) le

theorem Index.bits_lt (r : Run) (i : Index) : i.bits r < 2 ^ i.width := by
  have mod (n w : Nat) : n % 2 ^ w < 2 ^ w := Nat.mod_lt _ (Nat.two_pow_pos w)
  cases i with
  | constant w v => exact mod v w
  | argument w i => exact mod _ w
  | instruction _ w id => exact mod _ w
  | cast w c id =>
    cases c with
    | trunc src wider => exact mod _ w
    | zext src narrower => exact (mod _ src).trans_le (pow_le narrower.le)
    | sext src narrower =>
      have source := mod (r.regs id) src
      have wider := pow_le narrower.le
      simp only [Index.bits, Cast.bits, Index.width]
      split_ifs <;> omega
    | bitCast src size noPointer => exact mod _ w
    | ptrToInt => exact mod _ w
    | fpToInt isSigned bits => exact mod _ w

theorem narrow_resized {i v : Index} {w : Nat} (resized : ¬ (i.width = 32 ∨ isSubOrMul i = true))
    (source : stripped i = (.int w, v)) :
    narrow i = .ok (if w < 32 then .zext w v else if w = 32 then .pass v else .trunc w v) := by
  rw [narrow, if_neg resized, source]
  rfl

/-- An integer is brought to 32 bits without a change if its lower bits are those of the index. -/
theorem narrow_int {i v : Index} {w : Nat} (resized : ¬ (i.width = 32 ∨ isSubOrMul i = true))
    (source : stripped i = (.int w, v)) :
    ∃ n, narrow i = .ok n ∧ ∀ r, (w ≤ 32 → v.bits r = i.bits r) →
      (32 < w → v.bits r % 2 ^ 32 = i.bits r) → i.InRange r →
      n.value r = i.value r := by
  refine ⟨_, narrow_resized resized source, fun r narrower wider range => ?_⟩
  obtain ⟨value, -, small⟩ := range.bits (i.bits_lt r)
  rw [value]
  split_ifs
  · rw [Narrowed.value, narrower (by omega), signed_of_lt small]
  · rw [Narrowed.value, narrower (by omega), signed_of_lt small]
  · rw [Narrowed.value, wider (by omega), signed_of_lt small]

/-- What is sign-extended is not changed where the result is not negative. -/
theorem sext_nonneg {w src : Nat} (narrower : src < w) {r : Run} {id : Nat}
    (nonneg : Index.bits r (.cast w (.sext src narrower) id) < 2 ^ (w - 1)) :
    r.regs id % 2 ^ src = Index.bits r (.cast w (.sext src narrower) id) := by
  simp only [Index.bits, Cast.bits] at nonneg ⊢
  split_ifs at nonneg ⊢ with positive
  · rfl
  · have bounded := Nat.mod_lt (r.regs id) (Nat.two_pow_pos src)
    have half : 2 ^ (w - 1) + 2 ^ (w - 1) = 2 ^ w := by
      rw [← Nat.two_mul, ← Nat.pow_succ', Nat.succ_eq_add_one, Nat.sub_add_cancel (by omega)]
    have sourceHalf : 2 ^ src ≤ 2 ^ (src - 1) + 2 ^ (src - 1) := by
      rw [← Nat.two_mul, ← Nat.pow_succ']
      exact pow_le (by omega)
    have smaller : 2 ^ (src - 1) ≤ 2 ^ (w - 1) := pow_le (by omega)
    omega

/-- A good index keeps its value. -/
theorem Index.Good.narrow {i : Index} (good : i.Good) :
    ∃ n, narrow i = .ok n ∧ ∀ r, i.InRange r → n.value r = i.value r := by
  by_cases resized : i.width = 32 ∨ isSubOrMul i = true
  · exact ⟨.kept i, if_pos resized, fun r _ => rfl⟩
  · have plain (source : stripped i = (.int i.width, i)) : ∃ n, IndexNarrowing.narrow i = .ok n ∧
        ∀ r, i.InRange r → n.value r = i.value r := by
      obtain ⟨n, narrowed, keeps⟩ := narrow_int resized source
      refine ⟨n, narrowed, fun r range => keeps r (fun _ => rfl) (fun _ => ?_) range⟩
      exact Nat.mod_eq_of_lt ((range.bits (i.bits_lt r)).2.2.trans (by decide))
    cases i with
    | constant w v => exact plain rfl
    | argument w a => exact plain rfl
    | instruction opcode w id => exact plain rfl
    | cast w c id =>
      cases c with
      | trunc src wider =>
        have large : 32 < w := lt_of_le_of_ne good fun same => resized (Or.inl same.symm)
        obtain ⟨n, narrowed, keeps⟩ := narrow_int resized
          (rfl : stripped (.cast w (.trunc src wider) id) = (.int src, .instruction .other src id))
        refine ⟨n, narrowed, fun r range => keeps r (fun _ => by omega) (fun _ => ?_) range⟩
        have small : r.regs id % 2 ^ w < 2 ^ 31 := (range.bits (Index.bits_lt r _)).2.2
        calc r.regs id % 2 ^ src % 2 ^ 32 = r.regs id % 2 ^ 32 :=
          Nat.mod_mod_of_dvd _ (Nat.pow_dvd_pow 2 (by omega))
          _ = r.regs id % 2 ^ w % 2 ^ 32 := (Nat.mod_mod_of_dvd _ (Nat.pow_dvd_pow 2 large.le)).symm
          _ = r.regs id % 2 ^ w := Nat.mod_eq_of_lt (small.trans (by decide))
      | zext src narrower =>
        obtain ⟨n, narrowed, keeps⟩ := narrow_int resized (rfl : stripped
          (.cast w (.zext src narrower) id) = (.int src, .instruction .other src id))
        refine ⟨n, narrowed, fun r range => keeps r (fun _ => rfl) (fun _ => ?_) range⟩
        exact Nat.mod_eq_of_lt ((range.bits (Index.bits_lt r _)).2.2.trans (by decide))
      | sext src narrower =>
        obtain ⟨n, narrowed, keeps⟩ := narrow_int resized (rfl : stripped
          (.cast w (.sext src narrower) id) = (.int src, .instruction .other src id))
        refine ⟨n, narrowed, fun r range => ?_⟩
        obtain ⟨-, nonneg, small⟩ := range.bits (Index.bits_lt r _)
        -- a negative number stays negative, so the range excludes it
        have same : r.regs id % 2 ^ src = Index.bits r (.cast w (.sext src narrower) id) :=
          sext_nonneg narrower nonneg
        exact keeps r (fun _ => same)
          (fun _ => (Nat.mod_eq_of_lt ((same ▸ small).trans (by decide))).trans same) range
      | bitCast src size noPointer =>
        obtain rfl : src = .int w := good.resolve_left fun same => resized (Or.inl same)
        obtain ⟨n, narrowed, keeps⟩ := narrow_int resized
          (rfl : stripped (.cast w (.bitCast (.int w) size noPointer) id) =
            (.int w, .instruction .other w id))
        refine ⟨n, narrowed, fun r range => keeps r (fun _ => rfl) (fun _ => ?_) range⟩
        exact Nat.mod_eq_of_lt ((range.bits (Index.bits_lt r _)).2.2.trans (by decide))
      | ptrToInt => exact absurd (Or.inl good) resized
      | fpToInt isSigned bits => exact absurd (Or.inl good) resized

theorem narrowIndices_single {i : Index} {ns : List Narrowed}
    (narrowed : narrowIndices [i] = .ok ns) :
    ∃ n, narrow i = .ok n ∧ ns = [n] := by
  cases Fallible.forall₂_of_mapM narrowed with
  | cons first rest =>
    cases rest
    exact ⟨_, first, rfl⟩

theorem signed_ne_zero {b : Nat} (positive : 0 < b) (small : b < 2 ^ 32) : signed 32 b ≠ 0 := by
  unfold signed
  split_ifs <;> omega

/-- A truncation to fewer than 32 bits drops bits that come back. -/
theorem trunc_lost {w src : Nat} (wider : w < src) (id : Nat) (few : w < 32) :
    ¬ Keeps [.cast w (.trunc src wider) id] := by
  rintro ⟨ns, narrowed, keeps⟩
  obtain ⟨n, single, rfl⟩ := narrowIndices_single narrowed
  have resized : ¬ ((Index.cast w (.trunc src wider) id).width = 32 ∨
      isSubOrMul (.cast w (.trunc src wider) id) = true) := by
    simp only [Index.width, isSubOrMul, Bool.false_eq_true, or_false]
    omega
  have source :
    stripped (.cast w (.trunc src wider) id) = (.int src, .instruction .other src id) := rfl
  rw [narrow_resized resized source, Except.ok.injEq] at single
  let r : Run := ⟨fun _ => 0, fun _ => 2 ^ w, fun _ _ _ => 0⟩
  have zero : Index.value r (.cast w (.trunc src wider) id) = 0 := by
    simp [Index.value, Index.bits, Cast.bits, signed, r]
  have range : Index.InRange r (.cast w (.trunc src wider) id) := by
    rw [Index.InRange, zero]
    decide
  have same : n.value r = 0 := by
    cases keeps r (by simpa using range) with
    | cons first _ => exact first.trans zero
  have kept : 2 ^ w % 2 ^ src = 2 ^ w := Nat.mod_eq_of_lt (Nat.pow_lt_pow_right (by decide) wider)
  have bits : Index.bits r (.instruction .other src id) = 2 ^ w := kept
  have fits : 2 ^ w < 2 ^ 32 := Nat.pow_lt_pow_right (by decide) few
  have other := signed_ne_zero (Nat.two_pow_pos w) fits
  subst single
  split_ifs at same
  · rw [Narrowed.value, bits] at same
    exact other same
  · rw [Narrowed.value, bits] at same
    exact other same
  · rw [Narrowed.value, bits, Nat.mod_eq_of_lt fits] at same
    exact other same

/-- A cast from something else than an integer cannot be taken off. -/
theorem other_lost {w : Nat} {c : Cast w} {id : Nat} (resized : w ≠ 32)
    (other : ∀ n, c.src ≠ .int n) : ¬ Keeps [.cast w c id] := by
  rintro ⟨ns, narrowed, -⟩
  obtain ⟨n, single, rfl⟩ := narrowIndices_single narrowed
  have same : ¬ ((Index.cast w c id).width = 32 ∨ isSubOrMul (.cast w c id) = true) := by
    simpa [Index.width, isSubOrMul] using resized
  unfold narrow at single
  rw [if_neg same] at single
  simp only [stripped] at single
  cases single

theorem keeps_of_good {is : List Index} (good : ∀ i ∈ is, i.Good) : Keeps is := by
  induction is with
  | nil => exact ⟨[], rfl, fun r _ => .nil⟩
  | cons i is ih =>
    obtain ⟨n, first, keepsFirst⟩ := (good i List.mem_cons_self).narrow
    obtain ⟨ns, rest, keepsRest⟩ := ih fun j hj => good j (List.mem_cons_of_mem i hj)
    refine ⟨n :: ns, ?_, fun r range => ?_⟩
    · rw [narrowIndices, List.mapM_cons, first]
      rw [narrowIndices] at rest
      rw [rest]
      rfl
    · exact .cons (keepsFirst r (range i List.mem_cons_self)) (keepsRest r fun j hj =>
        range j (List.mem_cons_of_mem i hj))

/-- Good indices keep their values together, and each index alone keeps its value only if it is
good. -/
theorem narrowing_exact (is : List Index) :
    ((∀ i ∈ is, i.Good) → Keeps is) ∧ ∀ i ∈ is, (Keeps [i] ↔ i.Good) := by
  refine ⟨keeps_of_good,
    fun i _ => ⟨fun keeps => ?_, fun good => keeps_of_good (by simpa using good)⟩⟩
  cases i with
  | constant w v => trivial
  | argument w a => trivial
  | instruction opcode w id => trivial
  | cast w c id =>
    cases c with
    | trunc src wider => exact not_lt.mp fun few => trunc_lost wider id few keeps
    | zext src narrower => trivial
    | sext src narrower => trivial
    | bitCast src size noPointer =>
      by_contra bad
      obtain ⟨resized, notInt⟩ := not_or.mp bad
      refine other_lost resized (fun n isInt => notInt ?_) keeps
      have same : src = .int n := isInt
      subst same
      exact congrArg SrcTy.int size
    | ptrToInt =>
        exact by_contra fun resized => other_lost resized (fun n same => by cases same) keeps
    | fpToInt isSigned bits =>
        exact by_contra fun resized => other_lost resized (fun n same => by cases same) keeps

/-- The 16 bits that are left of a number become 32 of it. -/
theorem halfword_not_kept : ¬ Keeps [.cast 16 (.trunc 64 (by decide)) 0] ∧
    Index.value ⟨fun _ => 0, fun _ => 65536, fun _ _ _ => 0⟩ (.cast 16 (.trunc 64 (by decide)) 0) =
      0 :=
  ⟨trunc_lost (by decide) 0 (by decide), by decide⟩

end IndexNarrowing
