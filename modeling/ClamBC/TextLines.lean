import Mathlib.Data.List.Basic
import Mathlib.Tactic.Common

/-!
# The lines of a text

A text is cut behind every newline, so that every line keeps its own; the last line can be without.
-/

namespace TextLines

universe u
variable {α : Type u} [DecidableEq α] (newline : α)

def lines : List α → List (List α)
  | [] => []
  | c :: text =>
    if c = newline then [c] :: lines text
    else
      match lines text with
      | [] => [[c]]
      | line :: rest => (c :: line) :: rest

variable {newline}

theorem lines_eq_nil {text : List α} : lines newline text = [] ↔ text = [] := by
  cases text with
  | nil => simp [lines]
  | cons c text =>
    rw [lines]
    split
    · simp
    · split <;> simp

theorem flatten_lines (text : List α) : (lines newline text).flatten = text := by
  induction text with
  | nil => rfl
  | cons c text ih =>
    rw [lines]
    split
    · rw [List.flatten_cons, ih, List.singleton_append]
    · split
      · next empty => rw [lines_eq_nil.mp empty]; rfl
      · next line rest cut =>
        rw [cut, List.flatten_cons] at ih
        rw [List.flatten_cons, List.cons_append, ih]

theorem ne_nil_of_mem_lines {text line : List α} (h : line ∈ lines newline text) : line ≠ [] := by
  induction text generalizing line with
  | nil => cases h
  | cons c text ih =>
    rw [lines] at h
    split at h
    · rcases List.mem_cons.mp h with rfl | h
      · exact List.cons_ne_nil _ _
      · exact ih h
    · split at h
      · exact List.mem_singleton.mp h ▸ List.cons_ne_nil _ _
      · next first rest cut =>
        rcases List.mem_cons.mp h with rfl | h
        · exact List.cons_ne_nil _ _
        · exact ih (cut ▸ List.mem_cons_of_mem _ h)

/-- A text that ends with a newline ends a line. -/
theorem lines_append (text rest : List α) :
    lines newline (text ++ [newline] ++ rest) =
      lines newline (text ++ [newline]) ++ lines newline rest := by
  induction text with
  | nil => simp [lines]
  | cons c text ih =>
    rw [List.cons_append, List.cons_append, lines, lines, ih]
    split
    · rfl
    · obtain ⟨line, others, h⟩ := List.exists_cons_of_ne_nil
        (mt lines_eq_nil.mp (List.append_ne_nil_of_right_ne_nil text (List.cons_ne_nil newline [])))
      rw [h]
      rfl

theorem lines_flatten {ts : List (List α)} (ended : ∀ t ∈ ts, ∃ text, t = text ++ [newline]) :
    lines newline ts.flatten = ts.flatMap (lines newline) := by
  induction ts with
  | nil => rfl
  | cons t ts ih =>
    obtain ⟨text, rfl⟩ := ended t List.mem_cons_self
    rw [List.flatten_cons, List.flatMap_cons, lines_append,
      ih fun t ht => ended t (List.mem_cons_of_mem _ ht)]

/-- A text without newlines is a line. -/
theorem lines_of_not_mem {text : List α} (h : newline ∉ text) :
    lines newline (text ++ [newline]) = [text ++ [newline]] := by
  induction text with
  | nil => simp [lines]
  | cons c text ih =>
    obtain ⟨different, rest⟩ := not_or.mp (mt List.mem_cons.mpr h)
    rw [List.cons_append, lines, if_neg (Ne.symm different), ih rest]

theorem line_length_le {text line : List α} (h : line ∈ lines newline text) :
    line.length ≤ text.length := by
  have shorter := (List.sublist_flatten_of_mem h).length_le
  rwa [flatten_lines] at shorter

end TextLines
