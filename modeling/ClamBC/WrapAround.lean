import Mathlib.Data.Int.ModEq
import Mathlib.Algebra.BigOperators.Group.Finset.Piecewise
import Mathlib.Algebra.Order.Ring.Int
import Mathlib.Tactic.Ring

/-!
# Signed numbers of a width, and sums of products

A number of `w` bits is read as a signed one. Two integers that are congruent modulo
`2 ^ w` have the same bits, and they are equal if both are in the range of the signed
numbers.

A linear term is a factor with a constant or a variable. What a sum of such terms is
depends on the sum of its constants and on the factor of each variable only.
-/

namespace WrapAround

def wrap (w : Nat) (x : Int) : Int := x.bmod (2 ^ w)

def InRange (w : Nat) (x : Int) : Prop := -(2 ^ w / 2) ≤ x ∧ x < (2 ^ w + 1) / 2

instance (w : Nat) (x : Int) : Decidable (InRange w x) := inferInstanceAs (Decidable (_ ∧ _))

theorem wrap_modEq (w : Nat) (x : Int) : wrap w x ≡ x [ZMOD 2 ^ w] := by
  have dvd : ((2 ^ w : Nat) : Int) ∣ x - wrap w x := Int.dvd_self_sub_bmod
  push_cast at dvd
  exact Int.modEq_iff_dvd.mpr dvd

/-- Numbers with the same bits are equal if one is wrapped and the other one needs no wrapping. -/
theorem wrap_eq {w : Nat} {x y : Int} (same : x ≡ y [ZMOD 2 ^ w]) (range : InRange w y) :
    wrap w x = y := by
  have positive : 0 < 2 ^ w := Nat.two_pow_pos w
  refine (Int.bmod_eq_iff positive).mpr ⟨?_, ?_, ?_⟩
  · simpa using range.1
  · simpa using range.2
  · have dvd := Int.modEq_iff_dvd.mp same
    simpa using dvd

/-! ## Linear terms -/

inductive Atom where
  | const (v : Int)
  | var (id : Nat)

def Atom.value (σ : Nat → Int) : Atom → Int
  | .const v => v
  | .var id => σ id

/-- The sum of the products. -/
def total (σ : Nat → Int) : List (Int × Atom) → Int
  | [] => 0
  | (factor, atom) :: terms => factor * atom.value σ + total σ terms

def constantPart : List (Int × Atom) → Int
  | [] => 0
  | (factor, .const v) :: terms => factor * v + constantPart terms
  | (_, .var _) :: terms => constantPart terms

def coefficient (id : Nat) : List (Int × Atom) → Int
  | [] => 0
  | (_, .const _) :: terms => coefficient id terms
  | (factor, .var other) :: terms => (if other = id then factor else 0) + coefficient id terms

theorem total_append (σ : Nat → Int) (a b : List (Int × Atom)) :
    total σ (a ++ b) = total σ a + total σ b := by
  induction a with
  | nil => simp [total]
  | cons term terms ih => rw [List.cons_append, total, total, ih, add_assoc]

theorem total_single (id : Nat) (u : Int) (terms : List (Int × Atom)) :
    total (fun other => if other = id then u else 0) terms =
      constantPart terms + coefficient id terms * u := by
  induction terms with
  | nil => simp [total, constantPart, coefficient]
  | cons term terms ih =>
    obtain ⟨factor, v | other⟩ := term
    · simp only [total, constantPart, coefficient, Atom.value, ih]
      ring
    · simp only [total, constantPart, coefficient, Atom.value, ih]
      split_ifs <;> ring

def largest : List (Int × Atom) → Nat
  | [] => 0
  | (_, .const _) :: terms => largest terms
  | (_, .var id) :: terms => max id (largest terms)

theorem total_eq_sum (σ : Nat → Int) {terms : List (Int × Atom)} {n : Nat}
    (bound : largest terms < n) :
    total σ terms = constantPart terms + ∑ id ∈ Finset.range n, coefficient id terms * σ id := by
  induction terms with
  | nil => simp [total, constantPart, coefficient]
  | cons term terms ih =>
    obtain ⟨factor, v | other⟩ := term
    · simp only [total, constantPart, coefficient, Atom.value, ih bound]
      ring
    · have inside : other ∈ Finset.range n :=
        Finset.mem_range.mpr ((le_max_left _ _).trans_lt bound)
      have split : ∑ id ∈ Finset.range n, coefficient id ((factor, .var other) :: terms) * σ id =
          factor * σ other + ∑ id ∈ Finset.range n, coefficient id terms * σ id := by
        simp only [coefficient, add_mul, Finset.sum_add_distrib, ite_mul, zero_mul,
          Finset.sum_ite_eq, inside, if_true]
      simp only [total, constantPart, Atom.value, split, ih ((le_max_right _ _).trans_lt bound)]
      ring

/-- The constants and the factors of the variables decide. -/
theorem total_congr {a b : List (Int × Atom)} (constants : constantPart a = constantPart b)
    (factors : ∀ id, coefficient id a = coefficient id b) (σ : Nat → Int) :
    total σ a = total σ b := by
  have boundA : largest a < max (largest a) (largest b) + 1 := by omega
  have boundB : largest b < max (largest a) (largest b) + 1 := by omega
  rw [total_eq_sum σ boundA, total_eq_sum σ boundB, constants]
  simp only [factors]

end WrapAround
