import Mathlib.Algebra.Order.Group.Nat
import Mathlib.Algebra.GroupWithZero.Nat
import Mathlib.Tactic.Common

/-!
# Placing the fields of a record

The fields have a size and an alignment and are placed one behind the other, each at the
next multiple of its alignment unless the record is packed. The size of the record is
rounded up to its own alignment.
-/

namespace RecordLayout

def roundUp (n a : Nat) : Nat := (n + a - 1) / a * a

theorem dvd_roundUp (n a : Nat) : a ∣ roundUp n a := Nat.dvd_mul_left _ _

theorem roundUp_of_dvd {n a : Nat} (positive : 0 < a) (dvd : a ∣ n) : roundUp n a = n := by
  obtain ⟨k, rfl⟩ := dvd
  have quotient : (a * k + a - 1) / a = k := by
    rw [Nat.add_sub_assoc positive, Nat.mul_add_div positive,
      Nat.div_eq_of_lt (by omega), Nat.add_zero]
  rw [roundUp, quotient, Nat.mul_comm]

/-- The offsets of the fields and where the last one ends. -/
def place (packed : Bool) : List (Nat × Nat) → Nat → List Nat × Nat
  | [], position => ([], position)
  | (size, align) :: rest, position =>
    let start := if packed then position else roundUp position align
    let (offsets, done) := place packed rest (start + size)
    (start :: offsets, done)

def recordAlign (packed : Bool) (fields : List (Nat × Nat)) : Nat :=
  if packed then 1 else fields.foldr (fun field align => max field.2 align) 1

def recordSize (packed : Bool) (fields : List (Nat × Nat)) : Nat :=
  roundUp (place packed fields 0).2 (recordAlign packed fields)

def fieldOffset (packed : Bool) (fields : List (Nat × Nat)) (i : Nat) : Nat :=
  (place packed fields 0).1.getD i 0

theorem recordAlign_pos (packed : Bool) (fields : List (Nat × Nat)) :
    0 < recordAlign packed fields := by
  unfold recordAlign
  split_ifs
  · exact Nat.one_pos
  · induction fields with
    | nil => exact Nat.one_pos
    | cons field fields ih => exact ih.trans_le (le_max_right _ _)

theorem le_roundUp {n a : Nat} (positive : 0 < a) : n ≤ roundUp n a := by
  have division := Nat.div_add_mod (n + a - 1) a
  have remainder := Nat.mod_lt (n + a - 1) positive
  rw [roundUp, Nat.mul_comm]
  omega

/-- No field begins behind the end. -/
theorem place_le {packed : Bool} {fields : List (Nat × Nat)}
    (positive : ∀ field ∈ fields, 0 < field.2) (position : Nat) :
    position ≤ (place packed fields position).2 ∧
      ∀ offset ∈ (place packed fields position).1, offset ≤ (place packed fields position).2 := by
  induction fields generalizing position with
  | nil => exact ⟨Nat.le_refl _, nofun⟩
  | cons field fields ih =>
    obtain ⟨size, align⟩ := field
    have start : position ≤ if packed then position else roundUp position align := by
      split_ifs
      · exact Nat.le_refl _
      · exact le_roundUp (positive _ List.mem_cons_self)
    obtain ⟨behind, inside⟩ := ih (fun field h => positive field (List.mem_cons_of_mem _ h))
      ((if packed then position else roundUp position align) + size)
    simp only [place]
    refine ⟨by omega, fun offset here => ?_⟩
    rcases List.mem_cons.mp here with rfl | here
    · omega
    · exact inside offset here

theorem fieldOffset_le (packed : Bool) {fields : List (Nat × Nat)}
    (positive : ∀ field ∈ fields, 0 < field.2) (i : Nat) :
    fieldOffset packed fields i ≤ recordSize packed fields := by
  have done : (place packed fields 0).2 ≤ recordSize packed fields :=
    le_roundUp (recordAlign_pos packed fields)
  unfold fieldOffset
  rw [List.getD_eq_getElem?_getD]
  cases here : (place packed fields 0).1[i]? with
  | none => exact Nat.zero_le _
  | some offset => exact ((place_le positive 0).2 offset (List.mem_of_getElem? here)).trans done

/-- A record does not get larger where it stands in an array. -/
theorem roundUp_recordSize (packed : Bool) (fields : List (Nat × Nat)) :
    roundUp (recordSize packed fields) (recordAlign packed fields) = recordSize packed fields :=
  roundUp_of_dvd (recordAlign_pos packed fields) (dvd_roundUp _ _)

/-! ## Records without padding -/

/-- Every field begins at a multiple of its alignment. -/
def Aligned : List (Nat × Nat) → Nat → Prop
  | [], _ => True
  | (size, align) :: rest, position => align ∣ position ∧ Aligned rest (position + size)

theorem roundUp_eq_iff {n a : Nat} (positive : 0 < a) : roundUp n a = n ↔ a ∣ n :=
  ⟨fun same => same ▸ dvd_roundUp n a, roundUp_of_dvd positive⟩

theorem recordSize_packed (fields : List (Nat × Nat)) :
    recordSize true fields = (place true fields 0).2 :=
  roundUp_of_dvd Nat.one_pos (Nat.one_dvd _)

theorem place_eq_packed_iff {fields : List (Nat × Nat)} (positive : ∀ field ∈ fields, 0 < field.2)
    (position : Nat) :
    place false fields position = place true fields position ↔ Aligned fields position := by
  induction fields generalizing position with
  | nil => exact iff_of_true rfl trivial
  | cons field fields ih =>
    obtain ⟨size, align⟩ := field
    have here : 0 < align := positive _ List.mem_cons_self
    have later := ih (fun field h => positive field (List.mem_cons_of_mem _ h)) (position + size)
    constructor
    · intro same
      have starts := congrArg Prod.fst same
      have ends := congrArg Prod.snd same
      simp only [place, Bool.false_eq_true, if_false, if_true] at starts ends
      obtain ⟨first, rest⟩ := List.cons.inj starts
      rw [first] at rest ends
      exact ⟨(roundUp_eq_iff here).mp first, later.mp (Prod.ext rest ends)⟩
    · rintro ⟨dvd, aligned⟩
      simp only [place, Bool.false_eq_true, if_false, if_true, roundUp_of_dvd here dvd,
        later.mpr aligned]

/-- A record is laid out like a packed one exactly if there is nothing to fill in. -/
theorem like_packed_iff {packed : Bool} {fields : List (Nat × Nat)}
    (positive : ∀ field ∈ fields, 0 < field.2) :
    (place packed fields 0 = place true fields 0 ∧
      recordSize packed fields = recordSize true fields) ↔
    (packed = false → Aligned fields 0) ∧ recordAlign packed fields ∣ (place true fields 0).2 := by
  cases packed with
  | true =>
    exact iff_of_true ⟨rfl, rfl⟩ ⟨fun h => Bool.noConfusion h, Nat.one_dvd _⟩
  | false =>
    rw [place_eq_packed_iff positive, recordSize_packed]
    simp only [true_implies]
    refine and_congr_right fun aligned => ?_
    rw [recordSize, (place_eq_packed_iff positive 0).mpr aligned]
    exact roundUp_eq_iff (recordAlign_pos false fields)

/-- A field is of the same size and needs no larger alignment. -/
def Finer (a b : Nat × Nat) : Prop := a.1 = b.1 ∧ a.2 ∣ b.2

theorem Finer.sizes {as bs : List (Nat × Nat)} (finer : List.Forall₂ Finer as bs) :
    as.map Prod.fst = bs.map Prod.fst := by
  induction finer with
  | nil => rfl
  | cons head _ ih => rw [List.map_cons, List.map_cons, head.1, ih]

theorem Finer.aligned {as bs : List (Nat × Nat)} (finer : List.Forall₂ Finer as bs)
    {position : Nat} (aligned : Aligned bs position) : Aligned as position := by
  induction finer generalizing position with
  | nil => trivial
  | cons head _ ih =>
    refine ⟨Nat.dvd_trans head.2 aligned.1, ih ?_⟩
    rw [head.1]
    exact aligned.2

/-- In a packed record only the sizes matter. -/
theorem place_sizes {as bs : List (Nat × Nat)} (same : as.map Prod.fst = bs.map Prod.fst)
    (position : Nat) : place true as position = place true bs position := by
  induction as generalizing bs position with
  | nil =>
    cases bs with
    | nil => rfl
    | cons b bs => cases same
  | cons a as ih =>
    cases bs with
    | nil => cases same
    | cons b bs =>
      obtain ⟨first, rest⟩ := List.cons.inj same
      rw [place, place, first, ih rest]
      rfl

end RecordLayout
