import Mathlib.Algebra.GroupWithZero.Nat
import Mathlib.Data.List.Count
import Mathlib.Tactic.Common

/-!
# Fields with a separator

Fields that are joined with a separator are read back by splitting exactly if none of them has the
separator in it; every separator in a field makes one field more.
-/

namespace TextFields

universe u
variable {α : Type u} {sep : α}

/-- `[sep].intercalate`, read from the left. -/
def joined (sep : α) : List (List α) → List α
  | [] => []
  | [field] => field
  | field :: next :: rest => field ++ sep :: joined sep (next :: rest)

theorem joined_cons (field : List α) {rest : List (List α)} (more : rest ≠ []) :
    joined sep (field :: rest) = field ++ sep :: joined sep rest := by
  cases rest with
  | nil => exact absurd rfl more
  | cons next rest => rfl

theorem joined_append {front back : List (List α)} (more : back ≠ []) :
    joined sep (front ++ back) = front.flatMap (· ++ [sep]) ++ joined sep back := by
  induction front with
  | nil => rfl
  | cons field front ih =>
    have some : front ++ back ≠ [] := List.append_ne_nil_of_right_ne_nil front more
    rw [List.cons_append, joined_cons field some, ih, List.flatMap_cons]
    simp only [List.append_assoc, List.cons_append, List.nil_append]

theorem joined_eq_intercalate (fields : List (List α)) :
    joined sep fields = [sep].intercalate fields := by
  induction fields with
  | nil => rfl
  | cons field rest ih =>
    cases rest with
    | nil => simp [joined]
    | cons next rest =>
      rw [joined_cons field (List.cons_ne_nil next rest), ih]
      simp

theorem not_mem_joined {c : α} (other : c ≠ sep) {fields : List (List α)} :
    c ∉ joined sep fields ↔ ∀ field ∈ fields, c ∉ field := by
  induction fields with
  | nil => simp [joined]
  | cons field rest ih =>
    cases rest with
    | nil => simp [joined]
    | cons next rest =>
      rw [joined_cons field (List.cons_ne_nil next rest), List.forall_mem_cons, ← ih]
      simp [other]

variable [DecidableEq α]

theorem joined_splitOn (text : List α) : joined sep (text.splitOn sep) = text := by
  rw [joined_eq_intercalate, List.intercalate_splitOn]

theorem length_splitOn (text : List α) : (text.splitOn sep).length = text.count sep + 1 := by
  induction text with
  | nil => rfl
  | cons c text ih =>
    rw [List.splitOn_cons_eq_if_modifyHead, List.count_cons]
    by_cases here : c = sep
    · rw [if_pos (beq_iff_eq.mpr here), if_pos (beq_iff_eq.mpr here), List.length_cons, ih]
    · have other : ¬ (c == sep) = true := fun same => here (beq_iff_eq.mp same)
      rw [if_neg other, if_neg other, List.length_modifyHead, ih, Nat.add_zero]

theorem splitOn_joined {fields : List (List α)} (some : fields ≠ []) :
    (joined sep fields).splitOn sep = fields.flatMap (List.splitOn sep) := by
  induction fields with
  | nil => exact absurd rfl some
  | cons field rest ih =>
    cases rest with
    | nil => simp [joined]
    | cons next rest =>
      have more := List.cons_ne_nil next rest
      rw [joined_cons field more, List.splitOn_append_cons_self, ih more]
      exact List.flatMap_cons.symm

theorem length_flatMap_splitOn (fields : List (List α)) :
    (fields.flatMap (List.splitOn sep)).length =
      fields.length + (fields.map (List.count sep)).sum := by
  induction fields with
  | nil => rfl
  | cons field rest ih =>
    rw [List.flatMap_cons, List.length_append, ih, length_splitOn, List.length_cons, List.map_cons,
      List.sum_cons]
    omega

/-- As many fields are read as were written. -/
theorem length_splitOn_joined_iff {fields : List (List α)} (some : fields ≠ []) :
    ((joined sep fields).splitOn sep).length = fields.length ↔ ∀ field ∈ fields, sep ∉ field := by
  rw [splitOn_joined some, length_flatMap_splitOn]
  have zero : (fields.map (List.count sep)).sum = 0 ↔ ∀ field ∈ fields, sep ∉ field := by
    clear some
    induction fields with
    | nil => simp
    | cons field rest ih =>
      rw [List.map_cons, List.sum_cons, List.forall_mem_cons, ← ih, ← List.count_eq_zero]
      omega
  rw [← zero]
  omega

/-- The fields that were written are read. -/
theorem splitOn_joined_iff {fields : List (List α)} (some : fields ≠ []) :
    (joined sep fields).splitOn sep = fields ↔ ∀ field ∈ fields, sep ∉ field := by
  constructor
  · exact fun same => (length_splitOn_joined_iff some).mp (congrArg List.length same)
  · intro clean
    rw [splitOn_joined some]
    clear some
    induction fields with
    | nil => rfl
    | cons field rest ih =>
      rw [List.flatMap_cons, List.splitOn_eq_singleton (clean field List.mem_cons_self),
        ih fun other hother => clean other (List.mem_cons_of_mem field hother)]
      rfl

end TextFields
