import Mathlib.Data.List.Basic
import Mathlib.Algebra.GroupWithZero.Nat

/-!
# Everything that can be reached

A traversal that keeps what it has seen and what is still to be looked at. With enough fuel its
result is closed under the neighbour function; the bound counts the neighbours of all points
of a finite set that the traversal cannot leave.
-/

namespace Worklist

universe u
variable {α : Type u} [DecidableEq α] (next : α → List α)

def close : Nat → List α → List α → List α
  | 0, seen, _ => seen
  | _ + 1, seen, [] => seen
  | fuel + 1, seen, x :: pending =>
    if x ∈ seen then close fuel seen pending else close fuel (seen ++ [x]) (next x ++ pending)

/-- The neighbours of the points that have not been seen. -/
def weight (points seen : List α) : Nat :=
  (points.map fun x => if x ∈ seen then 0 else (next x).length).sum

/-- All points that can be reached from `start` inside the given ones. -/
def reach (points : List α) (start : α) : List α :=
  close next (1 + weight next points []) [] [start]

theorem weight_anti (points seen : List α) (x : α) :
    weight next points (seen ++ [x]) ≤ weight next points seen := by
  unfold weight
  induction points with
  | nil => exact Nat.le_refl _
  | cons y points ih =>
    simp only [List.map_cons, List.sum_cons]
    refine Nat.add_le_add ?_ ih
    by_cases known : y ∈ seen
    · simp [known]
    · rw [if_neg known]
      split
      · exact Nat.zero_le _
      · exact Nat.le_refl _

theorem weight_see {points seen : List α} {x : α} (member : x ∈ points) (fresh : x ∉ seen) :
    weight next points (seen ++ [x]) + (next x).length ≤ weight next points seen := by
  induction points with
  | nil => cases member
  | cons y points ih =>
    unfold weight at ih ⊢
    simp only [List.map_cons, List.sum_cons]
    by_cases same : y = x
    · subst same
      have rest := weight_anti next points seen y
      unfold weight at rest
      rw [if_neg fresh, if_pos (List.mem_append_right _ (List.mem_singleton_self _))]
      omega
    · have later : x ∈ points := by
        rcases List.mem_cons.mp member with eq | later
        · exact absurd eq.symm same
        · exact later
      have rest := ih later
      have head : (if y ∈ seen ++ [x] then 0 else (next y).length) ≤ if y ∈ seen then 0 else
          (next y).length := by
        by_cases known : y ∈ seen
        · simp [known]
        · simp [known, same]
      omega

variable {next}

/-- The invariant rule: what is seen has its neighbours seen or pending. -/
theorem close_spec {points : List α} (closed : ∀ x ∈ points, ∀ y ∈ next x, y ∈ points)
    {fuel : Nat} {seen pending : List α} (inside : ∀ x ∈ pending, x ∈ points)
    (known : ∀ x ∈ seen, x ∈ points) (explored : ∀ x ∈ seen, ∀ y ∈ next x, y ∈ seen ∨ y ∈ pending)
    (enough : pending.length + weight next points seen ≤ fuel) :
    (∀ x ∈ seen, x ∈ close next fuel seen pending) ∧
      (∀ x ∈ pending, x ∈ close next fuel seen pending) ∧
      (∀ x ∈ close next fuel seen pending, x ∈ points) ∧
      ∀ x ∈ close next fuel seen pending, ∀ y ∈ next x, y ∈ close next fuel seen pending := by
  induction fuel generalizing seen pending with
  | zero =>
    have empty : pending = [] := List.length_eq_zero_iff.mp (by omega)
    subst empty
    refine ⟨fun x hx => hx, nofun, known, fun x hx y hy => ?_⟩
    rcases explored x hx y hy with h | h
    · exact h
    · cases h
  | succ fuel ih =>
    cases pending with
    | nil =>
      refine ⟨fun x hx => hx, nofun, known, fun x hx y hy => ?_⟩
      rcases explored x hx y hy with h | h
      · exact h
      · cases h
    | cons p pending =>
      unfold close
      by_cases old : p ∈ seen
      · rw [if_pos old]
        obtain ⟨all, rest, inPoints, done⟩ :=
          ih (fun x hx => inside x (List.mem_cons_of_mem _ hx)) known
          (fun x hx y hy => by
            rcases explored x hx y hy with h | h
            · exact .inl h
            · rcases List.mem_cons.mp h with rfl | h
              · exact .inl old
              · exact .inr h)
          (by rw [List.length_cons] at enough; omega)
        refine ⟨all, fun x hx => ?_, inPoints, done⟩
        rcases List.mem_cons.mp hx with rfl | hx
        · exact all x old
        · exact rest x hx
      · rw [if_neg old]
        have here := inside p List.mem_cons_self
        have spent := weight_see next here old
        obtain ⟨all, rest, inPoints, done⟩ := @ih (seen ++ [p]) (next p ++ pending)
          (fun x hx => by
            rcases List.mem_append.mp hx with hx | hx
            · exact closed p here x hx
            · exact inside x (List.mem_cons_of_mem _ hx))
          (fun x hx => by
            rcases List.mem_append.mp hx with hx | hx
            · exact known x hx
            · rw [List.mem_singleton.mp hx]
              exact here)
          (fun x hx y hy => by
            rcases List.mem_append.mp hx with hx | hx
            · rcases explored x hx y hy with h | h
              · exact .inl (List.mem_append_left _ h)
              · rcases List.mem_cons.mp h with rfl | h
                · exact .inl (List.mem_append_right _ (List.mem_singleton_self _))
                · exact .inr (List.mem_append_right _ h)
            · rw [List.mem_singleton.mp hx] at hy
              exact .inr (List.mem_append_left _ hy))
          (by rw [List.length_append]; rw [List.length_cons] at enough; omega)
        refine ⟨fun x hx => all x (List.mem_append_left _ hx), fun x hx => ?_, inPoints, done⟩
        rcases List.mem_cons.mp hx with rfl | hx
        · exact all x (List.mem_append_right _ (List.mem_singleton_self _))
        · exact rest x (List.mem_append_right _ hx)

theorem reach_spec {points : List α} (closed : ∀ x ∈ points, ∀ y ∈ next x, y ∈ points) {start : α}
    (member : start ∈ points) :
    start ∈ reach next points start ∧ (∀ x ∈ reach next points start, x ∈ points) ∧
      ∀ x ∈ reach next points start, ∀ y ∈ next x, y ∈ reach next points start := by
  obtain ⟨-, rest, inPoints, done⟩ :=
    @close_spec α _ next points closed (1 + weight next points []) [] [start]
    (fun x hx => (List.mem_singleton.mp hx) ▸ member) nofun nofun (Nat.le_refl _)
  exact ⟨rest start (List.mem_singleton_self _), inPoints, done⟩

theorem seen_mem_close {fuel : Nat} {seen pending : List α} {x : α} (member : x ∈ seen) :
    x ∈ close next fuel seen pending := by
  induction fuel generalizing seen pending with
  | zero => exact member
  | succ fuel ih =>
    cases pending with
    | nil => exact member
    | cons p pending =>
      unfold close
      split
      · exact ih member
      · exact ih (List.mem_append_left _ member)

/-- What holds of the start and passes to reached neighbours holds of everything reached. -/
theorem reach_induct {points : List α} {start : α} {P : α → Prop} (first : P start)
    (step : ∀ x ∈ reach next points start, P x → ∀ y ∈ next x, y ∈ reach next points start → P y) :
    ∀ x ∈ reach next points start, P x := by
  have all : ∀ (fuel : Nat) (seen pending : List α),
      (∀ x ∈ close next fuel seen pending, x ∈ reach next points start) →
      (∀ x ∈ seen, P x) → (∀ x ∈ pending, x ∈ reach next points start → P x) →
        ∀ x ∈ close next fuel seen pending, P x := by
    intro fuel
    induction fuel with
    | zero => exact fun seen pending _ known _ x hx => known x hx
    | succ fuel ih =>
      intro seen pending inside known waiting
      cases pending with
      | nil => exact known
      | cons p pending =>
        unfold close at inside ⊢
        split at inside
        · rename_i old
          rw [if_pos old]
          exact ih seen pending inside known fun x hx => waiting x (List.mem_cons_of_mem _ hx)
        · rename_i fresh
          rw [if_neg fresh]
          have reached :=
            inside p (seen_mem_close (List.mem_append_right _ (List.mem_singleton_self p)))
          have holds := waiting p List.mem_cons_self reached
          refine ih _ _ inside (fun x hx => ?_) (fun x hx => ?_)
          · rcases List.mem_append.mp hx with hx | hx
            · exact known x hx
            · rw [List.mem_singleton.mp hx]
              exact holds
          · rcases List.mem_append.mp hx with hx | hx
            · exact step p reached holds x hx
            · exact waiting x (List.mem_cons_of_mem _ hx)
  exact all _ [] [start] (fun x hx => hx) nofun fun x hx _ => (List.mem_singleton.mp hx) ▸ first

end Worklist
