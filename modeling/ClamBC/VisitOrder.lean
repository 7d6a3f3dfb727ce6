import ClamBC.Worklist
import Mathlib.Data.List.Nodup

/-!
# The order in which nodes are visited

The traversal of a worklist as a list of the nodes in their order. A node is taken from a stack. If
it has been seen it is dropped, otherwise it is visited and its successors go onto the stack. Some
nodes count as seen from the beginning.
-/

namespace VisitOrder

open Worklist (weight weight_see)

universe u
variable {α : Type u} (next : α → List α) (base : α → Prop)

/-- The nodes that are visited, in this order. `fuel` bounds how often a node is taken. -/
def visit [DecidableEq α] [DecidablePred base] : Nat → List α → List α → Option (List α)
  | _, visited, [] => some visited
  | 0, _, _ :: _ => none
  | fuel + 1, visited, x :: stack =>
    if base x ∨ x ∈ visited then visit fuel visited stack
    else visit fuel (visited ++ [x]) (next x ++ stack)

/-- What is behind a node is only looked at if it does not count as seen. -/
inductive Reached (roots : List α) : α → Prop
  | root {x : α} : x ∈ roots → Reached roots x
  | next {x y : α} : Reached roots x → ¬base x → y ∈ next x → Reached roots y

/-- Nothing that can be reached is forgotten. -/
structure Inv (roots visited stack : List α) : Prop where
  nodup : visited.Nodup
  fresh : ∀ x ∈ visited, ¬base x
  reached : ∀ x, x ∈ visited ∨ x ∈ stack → Reached next base roots x
  roots : ∀ x ∈ roots, base x ∨ x ∈ visited ∨ x ∈ stack
  successors : ∀ x ∈ visited, ∀ y ∈ next x, base y ∨ y ∈ visited ∨ y ∈ stack

variable {next base} {roots visited stack : List α}

theorem inv_start (roots : List α) : Inv next base roots [] roots where
  nodup := List.nodup_nil
  fresh := by simp
  reached := by
    rintro x (h | h)
    · cases h
    · exact .root h
  roots := fun x h => .inr (.inr h)
  successors := by simp

theorem Inv.drop {x : α} (inv : Inv next base roots visited (x :: stack))
    (seen : base x ∨ x ∈ visited) : Inv next base roots visited stack := by
  have kept : ∀ y, (base y ∨ y ∈ visited ∨ y ∈ x :: stack) → base y ∨ y ∈ visited ∨ y ∈ stack := by
    rintro y (h | h | h)
    · exact .inl h
    · exact .inr (.inl h)
    · rcases List.mem_cons.mp h with rfl | h
      · exact seen.imp_right .inl
      · exact .inr (.inr h)
  refine ⟨inv.nodup, inv.fresh, ?_, fun y h => kept y (inv.roots y h),
    fun z hz y h => kept y (inv.successors z hz y h)⟩
  exact fun y h => inv.reached y (h.imp_right (List.mem_cons_of_mem x))

theorem Inv.visit {x : α} (inv : Inv next base roots visited (x :: stack))
    (unseen : ¬(base x ∨ x ∈ visited)) :
    Inv next base roots (visited ++ [x]) (next x ++ stack) := by
  obtain ⟨notBase, notVisited⟩ := not_or.mp unseen
  have here : Reached next base roots x := inv.reached x (.inr List.mem_cons_self)
  have kept : ∀ y, (base y ∨ y ∈ visited ∨ y ∈ x :: stack) →
      base y ∨ y ∈ visited ++ [x] ∨ y ∈ next x ++ stack := by
    intro y h
    simp only [List.mem_append, List.mem_cons] at h ⊢
    tauto
  constructor
  · rw [List.nodup_append]
    exact ⟨inv.nodup, List.nodup_singleton x, fun y hy z hz => by
      rw [List.mem_singleton.mp hz]
      rintro rfl
      exact notVisited hy⟩
  · intro y h
    rcases List.mem_append.mp h with h | h
    · exact inv.fresh y h
    · rw [List.mem_singleton.mp h]
      exact notBase
  · intro y h
    simp only [List.mem_append, List.mem_singleton] at h
    rcases h with (h | rfl) | h | h
    · exact inv.reached y (.inl h)
    · exact here
    · exact .next here notBase h
    · exact inv.reached y (.inr (List.mem_cons_of_mem x h))
  · exact fun y h => kept y (inv.roots y h)
  · intro z hz y hy
    rcases List.mem_append.mp hz with hz | hz
    · exact kept y (inv.successors z hz y hy)
    · rw [List.mem_singleton.mp hz] at hy
      exact .inr (.inr (List.mem_append_left _ hy))

variable [DecidableEq α] [DecidablePred base]

theorem Inv.result {order : List α} {fuel : Nat} (inv : Inv next base roots visited stack)
    (done : VisitOrder.visit next base fuel visited stack = some order) :
    Inv next base roots order [] := by
  induction fuel generalizing visited stack with
  | zero =>
    cases stack with
    | nil =>
      cases done
      exact inv
    | cons x stack => cases done
  | succ fuel ih =>
    cases stack with
    | nil =>
      cases done
      exact inv
    | cons x stack =>
      rw [VisitOrder.visit] at done
      split_ifs at done with seen
      · exact ih (inv.drop seen) done
      · exact ih (inv.visit seen) done

/-- The nodes that are visited are exactly those that can be reached and are not seen before. -/
theorem mem_result {order : List α} {fuel : Nat}
    (done : VisitOrder.visit next base fuel [] roots = some order) (x : α) :
    x ∈ order ↔ Reached next base roots x ∧ ¬base x := by
  have inv := (inv_start roots).result done
  refine ⟨fun h => ⟨inv.reached x (.inl h), inv.fresh x h⟩, ?_⟩
  have closed : ∀ y, (base y ∨ y ∈ order ∨ y ∈ ([] : List α)) → ¬base y → y ∈ order := by
    rintro y (h | h | h) fresh
    · exact absurd h fresh
    · exact h
    · cases h
  rintro ⟨reached, fresh⟩
  induction reached with
  | root h => exact closed _ (inv.roots _ h) fresh
  | next _ notBase h ih => exact closed _ (inv.successors _ (ih notBase) _ h) fresh

/-- With enough fuel the stack is empty in the end. -/
theorem visit_finishes {nodes : List α} (closed : ∀ x ∈ nodes, ¬base x → ∀ y ∈ next x, y ∈ nodes)
    {fuel : Nat} (inside : ∀ x ∈ stack, x ∈ nodes)
    (enough : stack.length + weight next nodes visited ≤ fuel) :
    ∃ order, VisitOrder.visit next base fuel visited stack = some order := by
  induction fuel generalizing visited stack with
  | zero =>
    cases stack with
    | nil => exact ⟨visited, rfl⟩
    | cons x stack => simp at enough
  | succ fuel ih =>
    cases stack with
    | nil => exact ⟨visited, rfl⟩
    | cons x stack =>
      have here := inside x List.mem_cons_self
      have later : ∀ y ∈ stack, y ∈ nodes := fun y h => inside y (List.mem_cons_of_mem x h)
      rw [List.length_cons] at enough
      rw [VisitOrder.visit]
      split_ifs with seen
      · exact ih later (by omega)
      · obtain ⟨notBase, notVisited⟩ := not_or.mp seen
        have fewer := weight_see next here notVisited
        refine ih (fun y h => ?_) ?_
        · rcases List.mem_append.mp h with h | h
          · exact closed x here notBase y h
          · exact later y h
        · rw [List.length_append]
          omega

end VisitOrder
