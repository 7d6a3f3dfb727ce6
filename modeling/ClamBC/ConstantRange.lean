import Mathlib.Data.BitVec

/-!
# Ranges of machine words

Half-open intervals of 32-bit words that may wrap around, as LLVM's `ConstantRange`
has them: equal bounds mean all words when they are the largest word, and no word
when they are zero.
-/

namespace ConstantRange

structure Range where
  lower : BitVec 32
  upper : BitVec 32
  deriving DecidableEq

def empty : Range := ⟨0, 0⟩

/-- `makeSatisfyingICmpRegion(ICMP_ULT, {v})`. -/
def below (v : BitVec 32) : Range := if v = 0 then empty else ⟨0, v⟩

/-- `makeSatisfyingICmpRegion(ICMP_UGT, {v})`. -/
def above (v : BitVec 32) : Range := if v = ~~~0 then empty else ⟨v + 1, 0⟩

def Range.isFullSet (r : Range) : Bool := r.lower = r.upper && r.upper = ~~~0

def Range.subtract (r : Range) (v : BitVec 32) : Range :=
  if r.lower = r.upper then r else ⟨r.lower - v, r.upper - v⟩

def Range.getUnsignedMin (r : Range) : BitVec 32 :=
  if r.isFullSet || (r.upper < r.lower && r.upper != 0) then 0 else r.lower

def Range.getUnsignedMax (r : Range) : BitVec 32 :=
  if r.isFullSet || r.upper < r.lower then ~~~0 else r.upper - 1

/-- A range that does not wrap around: it is the interval between its least and greatest word. -/
def Range.Straight (r : Range) : Prop := r.lower < r.upper ∨ (r.upper = 0 ∧ r.lower ≠ 0)

theorem Range.Straight.hull {r : Range} (h : r.Straight) (x : BitVec 32) :
    r.getUnsignedMin ≤ x ∧ x ≤ r.getUnsignedMax ↔ r.lower ≤ x ∧ (r.upper = 0 ∨ x < r.upper) := by
  obtain ⟨l, u⟩ := r
  have ne : l ≠ u := by
    rcases h with h | ⟨h, h'⟩
    · intro same
      simp only [same] at h
      bv_omega
    · intro same
      exact h' (same.trans h)
  have notFull : (⟨l, u⟩ : Range).isFullSet = false := by
    simp only [Range.isFullSet, ne, decide_false, Bool.false_and]
  rcases h with h | ⟨h, h'⟩
  · simp only at h
    have up : ¬ u < l := by bv_omega
    simp only [Range.getUnsignedMin, Range.getUnsignedMax, notFull, up, decide_false,
      Bool.false_and, Bool.or_self,
      Bool.false_eq_true, if_false]
    bv_omega
  · simp only at h h'
    subst h
    have up : 0 < l := by bv_omega
    simp only [Range.getUnsignedMin, Range.getUnsignedMax, notFull, up, decide_true,
      bne_self_eq_false, Bool.and_false, Bool.or_false,
      Bool.false_or, Bool.false_eq_true, if_false, if_true]
    refine ⟨fun hx => ⟨hx.1, Or.inl trivial⟩, fun hx => ⟨hx.1, ?_⟩⟩
    bv_omega

theorem Range.Straight.min_le_max {r : Range} (h : r.Straight) :
    r.getUnsignedMin ≤ r.getUnsignedMax := by
  have inside : r.lower ≤ r.lower ∧ (r.upper = 0 ∨ r.lower < r.upper) := by
    refine ⟨BitVec.le_refl _, ?_⟩
    rcases h with h | ⟨h, -⟩
    · exact Or.inr h
    · exact Or.inl h
  obtain ⟨low, high⟩ := (h.hull r.lower).mpr inside
  exact BitVec.le_trans low high

/-- The hull of a range that wraps around is the set of all words, and so is that of the empty one.
-/
theorem Range.hull_of_not_straight {r : Range} (proper : r.lower ≠ r.upper ∨ r = empty)
    (h : ¬ r.Straight) :
    r.getUnsignedMin = 0 ∧ r.getUnsignedMax = ~~~0 := by
  rcases proper with ne | rfl
  · obtain ⟨l, u⟩ := r
    simp only at ne
    simp only [Range.Straight, not_or, not_and, ne_eq] at h
    have down : u < l := by
      obtain ⟨le, -⟩ := h
      bv_omega
    have inside : u ≠ 0 := by
      rintro rfl
      have zero : l = 0 := by simpa using h.2
      exact ne zero
    constructor
    · simp only [Range.getUnsignedMin, down, decide_true, bne_iff_ne.mpr inside, Bool.and_self,
        Bool.or_true, if_true]
    · simp only [Range.getUnsignedMax, down, decide_true, Bool.or_true, if_true]
  · decide

theorem below_proper {u v : BitVec 32} (some : v ≠ 0) :
    ((below v).subtract u).lower ≠ ((below v).subtract u).upper ∨ (below v).subtract u = empty := by
  left
  unfold below Range.subtract
  rw [if_neg some, if_neg some.symm]
  simp only
  bv_omega

theorem above_proper {u v : BitVec 32} :
    ((above v).subtract u).lower ≠ ((above v).subtract u).upper ∨ (above v).subtract u = empty := by
  by_cases max : v = ~~~0
  · right
    unfold above
    rw [if_pos max]
    rfl
  · left
    have ne : v + 1 ≠ 0 := by
      intro zero
      apply max
      bv_omega
    unfold above Range.subtract
    rw [if_neg max, if_neg ne]
    simp only
    bv_omega

/-- The words that are below `v` after adding `u`. -/
theorem below_shift {u v x : BitVec 32} (some : v ≠ 0) (h : ((below v).subtract u).Straight) :
    ((below v).subtract u).getUnsignedMin ≤ x ∧ x ≤ ((below v).subtract u).getUnsignedMax ↔
      u + x < v := by
  rw [h.hull]
  have shifted : (below v).subtract u = ⟨0 - u, v - u⟩ := by
    unfold below Range.subtract
    rw [if_neg some, if_neg some.symm]
  rw [shifted] at h ⊢
  simp only [Range.Straight] at h
  simp only
  bv_omega

/-- The words that are above `v` after adding `u`. -/
theorem above_shift {u v x : BitVec 32} (h : ((above v).subtract u).Straight) :
    ((above v).subtract u).getUnsignedMin ≤ x ∧ x ≤ ((above v).subtract u).getUnsignedMax ↔
      v < u + x := by
  rw [h.hull]
  by_cases max : v = ~~~0
  · have none : (above v).subtract u = empty := by
      unfold above
      rw [if_pos max]
      rfl
    rw [none] at h
    rcases h with h | ⟨-, h⟩
    · exact absurd h (by decide)
    · exact absurd rfl h
  · have ne : v + 1 ≠ 0 := by
      intro zero
      apply max
      bv_omega
    have shifted : (above v).subtract u = ⟨v + 1 - u, 0 - u⟩ := by
      unfold above Range.subtract
      rw [if_neg max, if_neg ne]
    rw [shifted] at h ⊢
    simp only [Range.Straight] at h
    simp only
    bv_omega
end ConstantRange
