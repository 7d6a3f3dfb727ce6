import Mathlib.Algebra.Order.Group.Nat
import Mathlib.Algebra.Order.Monoid.NatCast

/-!
# Functions of the bytecode headers

`memchr` compares a plain `char` with an `unsigned char`. Both are promoted to `int`, and where
plain `char` is signed the bytes from 128 on are negative then, so they are never found.

`ilog2_compat` scales its arguments to the 2049 entries of a table. Unsigned numbers have 32 bits
and wrap around.
-/

namespace HeaderFunctions

/-! ## Looking for a byte -/

section
variable (mem : Nat → BitVec 8)

/-- `*p == cc` -/
def sameChar (char cc : BitVec 8) : Bool := char.toInt = cc.toNat

/-- The loop from `p` on, with `left` bytes in front of `end`. -/
def scan (cc : BitVec 8) : Nat → Nat → Option Nat
  | _, 0 => none
  | p, left + 1 => if sameChar (mem p) cc then some p else scan cc (p + 1) left

def memchr (s : Nat) (c : BitVec 32) (n : Nat) : Option Nat := scan mem (c.setWidth 8) s n

/-- The first of `n` bytes that is `b`. -/
structure First (b : BitVec 8) (s n q : Nat) : Prop where
  inside : s ≤ q ∧ q < s + n
  here : mem q = b
  before : ∀ r, s ≤ r → r < q → mem r ≠ b

/-- None of `n` bytes is `b`. -/
def Absent (b : BitVec 8) (s n : Nat) : Prop := ∀ q, s ≤ q → q < s + n → mem q ≠ b

/-- What `memchr` promises. -/
def Finds (s : Nat) (c : BitVec 32) (n : Nat) : Prop :=
  (∀ q, memchr mem s c n = some q ↔ First mem (c.setWidth 8) s n q) ∧
    (memchr mem s c n = none ↔ Absent mem (c.setWidth 8) s n)

variable {mem}

theorem scan_some_iff {cc : BitVec 8} {p left q : Nat} :
    scan mem cc p left = some q ↔
      (p ≤ q ∧ q < p + left) ∧ sameChar (mem q) cc = true ∧ ∀ r, p ≤ r → r < q →
        sameChar (mem r) cc = false := by
  induction left generalizing p with
  | zero =>
    refine ⟨nofun, ?_⟩
    rintro ⟨⟨above, below⟩, -⟩
    omega
  | succ left ih =>
    rw [scan]
    split_ifs with here
    · constructor
      · intro eq
        cases eq
        refine ⟨by omega, here, fun r above below => ?_⟩
        omega
      · rintro ⟨⟨above, below⟩, found, before⟩
        rcases Nat.lt_or_eq_of_le above with later | rfl
        · rw [before p (Nat.le_refl p) later] at here
          cases here
        · rfl
    · rw [ih]
      constructor
      · rintro ⟨⟨above, below⟩, found, before⟩
        refine ⟨by omega, found, fun r above' below' => ?_⟩
        rcases Nat.lt_or_eq_of_le above' with later | rfl
        · exact before r later below'
        · exact Bool.eq_false_iff.mpr here
      · rintro ⟨⟨above, below⟩, found, before⟩
        have later : p ≠ q := by
          rintro rfl
          exact here found
        exact ⟨by omega, found, fun r above' below' => before r (by omega) below'⟩

theorem scan_none_iff {cc : BitVec 8} {p left : Nat} :
    scan mem cc p left = none ↔ ∀ q, p ≤ q → q < p + left → sameChar (mem q) cc = false := by
  induction left generalizing p with
  | zero =>
    refine ⟨fun _ q above below => ?_, fun _ => rfl⟩
    omega
  | succ left ih =>
    rw [scan]
    split_ifs with here
    · refine ⟨nofun, fun absent => ?_⟩
      rw [absent p (Nat.le_refl p) (by omega)] at here
      cases here
    · rw [ih]
      constructor
      · intro absent q above below
        rcases Nat.lt_or_eq_of_le above with later | rfl
        · exact absent q later (by omega)
        · exact Bool.eq_false_iff.mpr here
      · exact fun absent q above below => absent q (by omega) (by omega)

/-- A byte below 128 is compared as it is. -/
theorem sameChar_low {char cc : BitVec 8} (low : cc.toNat < 128) :
    sameChar char cc = true ↔ char = cc := by
  have bound := char.isLt
  rw [sameChar, decide_eq_true_iff, BitVec.toInt_eq_toNat_cond]
  constructor
  · intro same
    apply BitVec.eq_of_toNat_eq
    split_ifs at same <;> omega
  · rintro rfl
    rw [if_pos (by omega)]

/-- The other bytes are equal to no `char`. -/
theorem sameChar_high {char cc : BitVec 8} (high : ¬ cc.toNat < 128) :
    sameChar char cc = false := by
  have bound := char.isLt
  rw [sameChar, decide_eq_false_iff_not, BitVec.toInt_eq_toNat_cond]
  split_ifs <;> omega

theorem memchr_finds_iff (s : Nat) (c : BitVec 32) (n : Nat) :
    Finds mem s c n ↔ (c.setWidth 8).toNat < 128 ∨ Absent mem (c.setWidth 8) s n := by
  by_cases low : (c.setWidth 8).toNat < 128
  · refine ⟨fun _ => .inl low, fun _ => ⟨fun q => ?_, ?_⟩⟩
    · rw [memchr, scan_some_iff]
      simp only [sameChar_low low, ← Bool.not_eq_true]
      exact ⟨fun ⟨inside, here, before⟩ => ⟨inside, here, before⟩,
        fun first => ⟨first.inside, first.here, first.before⟩⟩
    · rw [memchr, scan_none_iff]
      simp only [← Bool.not_eq_true, sameChar_low low]
      rfl
  · have none : memchr mem s c n = none := scan_none_iff.mpr fun q _ _ => sameChar_high low
    constructor
    · rintro ⟨-, nothing⟩
      exact .inr (nothing.mp none)
    · rintro (below | absent)
      · exact absurd below low
      · refine ⟨fun q => ⟨fun found => ?_, fun first => absurd first.here
          (absent q first.inside.1 first.inside.2)⟩, fun _ => absent, fun _ => none⟩
        rw [none] at found
        cases found

end

/-- The byte 0x80 is in the buffer and is not found. -/
theorem memchr_high_lost : ¬ Finds (fun _ => 0x80#8) 1 0x80#32 1 := by
  rintro ⟨-, nothing⟩
  exact nothing.mp rfl 1 (by decide) (by decide) rfl

/-! ## Logarithms -/

inductive Fault where
  | divideByZero | outsideTable

def divide (a b : UInt32) : Except Fault UInt32 :=
  if b = 0 then .error .divideByZero else .ok (a / b)

def larger (a b : UInt32) : UInt32 := if a > b then a else b

/-- Both arguments scaled into the table. -/
def scaled (a b : UInt32) : Except Fault (UInt32 × UInt32) :=
  let c := larger a b
  if c < 2048 then do
    let scale ← divide 2048 c
    pure (a * scale, b * scale)
  else do
    let scale := (c + 2047) / 2048
    let a ← divide a scale
    let b ← divide b scale
    pure (a, b)

section
variable (ilogTable : Vector Int 2049)

def entry (i : UInt32) : Except Fault Int :=
  match ilogTable[i.toNat]? with
  | some x => .ok x
  | none => .error .outsideTable

def ilog2Compat (a b : UInt32) : Except Fault Int := do
  let (a, b) ← scaled a b
  let x ← entry ilogTable a
  let y ← entry ilogTable b
  pure (x - y)

end

/-- Nothing is divided by zero, no multiplication overflows and both indices are in the table. -/
structure Safe (a b : UInt32) : Prop where
  divisor : larger a b < 2048 → larger a b ≠ 0
  scale : ¬ larger a b < 2048 → (larger a b + 2047) / 2048 ≠ 0
  product : larger a b < 2048 →
    a.toNat * (2048 / larger a b).toNat < 2 ^ 32 ∧ b.toNat * (2048 / larger a b).toNat < 2 ^ 32
  index : ∃ i j, scaled a b = .ok (i, j) ∧ i.toNat ≤ 2048 ∧ j.toNat ≤ 2048

theorem le_larger (a b : UInt32) : a.toNat ≤ (larger a b).toNat ∧ b.toNat ≤ (larger a b).toNat := by
  unfold larger
  split_ifs with greater
  · exact ⟨Nat.le_refl _, (UInt32.lt_iff_toNat_lt.mp greater).le⟩
  · exact ⟨Nat.not_lt.mp fun lt => greater (UInt32.lt_iff_toNat_lt.mpr lt), Nat.le_refl _⟩

/-! Scaling up: the larger argument stays within the table. -/

theorem mul_scale_le {x c : Nat} (le : x ≤ c) : x * (2048 / c) ≤ 2048 :=
  (Nat.mul_le_mul_right _ le).trans (Nat.mul_div_le 2048 c)

theorem toNat_scaleUp (c : UInt32) : (2048 / c).toNat = 2048 / c.toNat := UInt32.toNat_div 2048 c

theorem toNat_mul_scaleUp {x c : UInt32} (le : x.toNat ≤ c.toNat) :
    (x * (2048 / c)).toNat = x.toNat * (2048 / c.toNat) := by
  rw [UInt32.toNat_mul, toNat_scaleUp]
  exact Nat.mod_eq_of_lt ((mul_scale_le le).trans_lt (by decide))

/-! Scaling down: the scale is rounded up, and it is 0 if the rounding overflows. -/

theorem toNat_scaleDown {c : UInt32} (fits : c.toNat + 2047 < 2 ^ 32) :
    ((c + 2047) / 2048).toNat = (c.toNat + 2047) / 2048 := by
  rw [UInt32.toNat_div, UInt32.toNat_add]
  exact congrArg (· / 2048) (Nat.mod_eq_of_lt fits)

theorem scaleDown_wraps {c : UInt32} (wraps : ¬ c.toNat + 2047 < 2 ^ 32) :
    (c + 2047) / 2048 = 0 := by
  have bound := c.toNat_lt
  apply UInt32.toNat_inj.mp
  rw [UInt32.toNat_div, UInt32.toNat_add]
  show (c.toNat + 2047) % 2 ^ 32 / 2048 = 0
  omega

theorem div_scaleDown_le {x c : UInt32} (fits : c.toNat + 2047 < 2 ^ 32) (le : x.toNat ≤ c.toNat) :
    (x / ((c + 2047) / 2048)).toNat ≤ 2048 := by
  rw [UInt32.toNat_div, toNat_scaleDown fits]
  apply Nat.div_le_of_le_mul
  omega

theorem scaled_small {a b : UInt32} (small : larger a b < 2048) (positive : larger a b ≠ 0) :
    scaled a b = .ok (a * (2048 / larger a b), b * (2048 / larger a b)) := by
  unfold scaled
  simp only [if_pos small, divide, if_neg positive]
  rfl

theorem scaled_large {a b : UInt32} (large : ¬ larger a b < 2048)
    (positive : (larger a b + 2047) / 2048 ≠ 0) :
    scaled a b = .ok (a / ((larger a b + 2047) / 2048), b / ((larger a b + 2047) / 2048)) := by
  unfold scaled
  simp only [if_neg large, divide, if_neg positive]
  rfl

/-- At least one argument is not 0, and rounding up the larger one does not overflow. -/
theorem ilog2Compat_safe_iff (a b : UInt32) :
    Safe a b ↔ 0 < (larger a b).toNat ∧ (larger a b).toNat + 2047 < 2 ^ 32 := by
  obtain ⟨leA, leB⟩ := le_larger a b
  by_cases small : larger a b < 2048
  · have below : (larger a b).toNat < 2048 := UInt32.lt_iff_toNat_lt.mp small
    constructor
    · intro safe
      have positive : (larger a b).toNat ≠ 0 :=
        fun zero => safe.divisor small (UInt32.toNat_inj.mp zero)
      omega
    · rintro ⟨positive, -⟩
      have notZero : larger a b ≠ 0 := by
        intro zero
        rw [zero] at positive
        exact absurd positive (by decide)
      refine ⟨fun _ => notZero, fun large => absurd small large, fun _ => ?_, _, _,
        scaled_small small notZero, ?_⟩
      · rw [toNat_scaleUp]
        exact ⟨(mul_scale_le leA).trans_lt (by decide), (mul_scale_le leB).trans_lt (by decide)⟩
      · rw [toNat_mul_scaleUp leA, toNat_mul_scaleUp leB]
        exact ⟨mul_scale_le leA, mul_scale_le leB⟩
  · have above : 2048 ≤ (larger a b).toNat :=
      Nat.not_lt.mp fun lt => small (UInt32.lt_iff_toNat_lt.mpr lt)
    constructor
    · intro safe
      refine ⟨by omega, ?_⟩
      by_contra wraps
      exact safe.scale small (scaleDown_wraps wraps)
    · rintro ⟨-, fits⟩
      have notZero : (larger a b + 2047) / 2048 ≠ 0 := by
        intro zero
        have value := toNat_scaleDown fits
        rw [zero] at value
        have zero' : (0 : UInt32).toNat = 0 := rfl
        omega
      exact ⟨fun small' => absurd small' small, fun _ => notZero, fun small' => absurd small' small,
        _, _, scaled_large small notZero,
        div_scaleDown_le fits leA, div_scaleDown_le fits leB⟩

/-- A safe call returns, whatever the table holds. -/
theorem Safe.returns {a b : UInt32} (safe : Safe a b) (ilogTable : Vector Int 2049) :
    ∃ x, ilog2Compat ilogTable a b = .ok x := by
  obtain ⟨i, j, eq, hi, hj⟩ := safe.index
  have inside : ∀ k : UInt32, k.toNat ≤ 2048 → ∃ x, entry ilogTable k = .ok x := by
    intro k le
    refine ⟨ilogTable.get ⟨k.toNat, by omega⟩, ?_⟩
    rw [entry, Vector.getElem?_eq_getElem (by omega)]
    rfl
  obtain ⟨x, atI⟩ := inside i hi
  obtain ⟨y, atJ⟩ := inside j hj
  refine ⟨x - y, ?_⟩
  rw [ilog2Compat, eq]
  show (do let x ← entry ilogTable i; let y ← entry ilogTable j; pure (x - y)) = _
  rw [atI, atJ]
  rfl

/-- Two zeros, and the largest number. -/
theorem ilog2Compat_unsafe : ¬ Safe 0 0 ∧ ¬ Safe 0xffffffff 1 :=
  ⟨fun safe => safe.divisor (by decide) (by decide), fun safe => safe.scale (by decide) (by decide)⟩

end HeaderFunctions
