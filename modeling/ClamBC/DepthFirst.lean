import Mathlib.Data.Finset.Card
import Mathlib.Data.Fintype.Card
import Mathlib.Logic.Relation

/-!
# Depth-first search

What a recursive search with a list of visited points has done when it returns: everything that it
has added was reached, has been checked, and has its neighbours in the list. The rules follow the
two loops of such a search, and the number of points that are left bounds its depth.
-/

namespace DepthFirst

open Relation

universe u
variable {α : Type u} (next : α → List α) (checked : α → Prop)

def Edge (a b : α) : Prop := b ∈ next a

/-- The loop over the neighbours `ys` went from the list `seen` to the list `seen'`. -/
structure Loop (ys seen seen' : List α) : Prop where
  grows : seen ⊆ seen'
  all : ys ⊆ seen'
  reached : ∀ z ∈ seen', z ∈ seen ∨ ∃ y ∈ ys, ReflTransGen (Edge next) y z
  passed : ∀ z ∈ seen', z ∈ seen ∨ checked z ∧ next z ⊆ seen'

/-- The search from `x` went from the list `seen` to the list `seen'`. -/
abbrev Visit (x : α) (seen seen' : List α) : Prop := Loop next checked [x] seen seen'

variable {next checked}

theorem Loop.nil (seen : List α) : Loop next checked [] seen seen :=
  ⟨List.Subset.refl _, List.nil_subset _, fun _ hz => .inl hz, fun _ hz => .inl hz⟩

theorem Loop.append {xs ys seen mid seen' : List α} (first : Loop next checked xs seen mid)
    (rest : Loop next checked ys mid seen') : Loop next checked (xs ++ ys) seen seen' := by
  refine ⟨List.Subset.trans first.grows rest.grows,
    List.append_subset.mpr ⟨List.Subset.trans first.all rest.grows, rest.all⟩, fun z hz => ?_,
    fun z hz => ?_⟩
  · rcases rest.reached z hz with hz | ⟨y, hy, path⟩
    · rcases first.reached z hz with hz | ⟨x, hx, path⟩
      · exact .inl hz
      · exact .inr ⟨x, List.mem_append_left _ hx, path⟩
    · exact .inr ⟨y, List.mem_append_right _ hy, path⟩
  · rcases rest.passed z hz with hz | done
    · rcases first.passed z hz with hz | ⟨ok, inside⟩
      · exact .inl hz
      · exact .inr ⟨ok, List.Subset.trans inside rest.grows⟩
    · exact .inr done

/-- The same neighbours, listed once more or in another order. -/
theorem Loop.congr {xs ys seen seen' : List α} (loop : Loop next checked xs seen seen')
    (same : ∀ z, z ∈ xs ↔ z ∈ ys) : Loop next checked ys seen seen' :=
  ⟨loop.grows, fun z hz => loop.all ((same z).mpr hz), fun z hz =>
    (loop.reached z hz).imp_right fun ⟨y, hy, path⟩ => ⟨y, (same y).mp hy, path⟩, loop.passed⟩

theorem Visit.known {x : α} {seen : List α} (known : x ∈ seen) : Visit next checked x seen seen :=
  ⟨List.Subset.refl _, List.cons_subset.mpr ⟨known, List.nil_subset _⟩, fun _ hz => .inl hz,
    fun _ hz => .inl hz⟩

/-- A new point is marked before its neighbours are searched. -/
theorem Visit.enter {x : α} {seen marked seen' : List α} (mark : ∀ z, z ∈ marked ↔ z = x ∨ z ∈ seen)
    (ok : checked x) (loop : Loop next checked (next x) marked seen') :
    Visit next checked x seen seen' := by
  have here : x ∈ seen' := loop.grows ((mark x).mpr (.inl rfl))
  refine ⟨fun z hz => loop.grows ((mark z).mpr (.inr hz)),
    List.cons_subset.mpr ⟨here, List.nil_subset _⟩, fun z hz => ?_, fun z hz => ?_⟩
  · rcases loop.reached z hz with hz | ⟨y, hy, path⟩
    · rcases (mark z).mp hz with rfl | hz
      · exact .inr ⟨z, List.mem_cons_self, .refl⟩
      · exact .inl hz
    · exact .inr ⟨x, List.mem_cons_self, .head hy path⟩
  · rcases loop.passed z hz with hz | done
    · rcases (mark z).mp hz with rfl | hz
      · exact .inr ⟨ok, loop.all⟩
      · exact .inl hz
    · exact .inr done

/-- A search from an empty list finds exactly the points that can be reached. -/
theorem Visit.mem_iff {x : α} {seen : List α} (visit : Visit next checked x [] seen) {z : α} :
    z ∈ seen ↔ ReflTransGen (Edge next) x z := by
  constructor
  · intro hz
    rcases visit.reached z hz with hz | ⟨y, hy, path⟩
    · cases hz
    · rwa [List.mem_singleton.mp hy] at path
  · intro path
    induction path with
    | refl => exact visit.all List.mem_cons_self
    | tail _ edge ih =>
      rcases visit.passed _ ih with known | ⟨-, inside⟩
      · cases known
      · exact inside edge

theorem Visit.checks {x : α} {seen : List α} (visit : Visit next checked x [] seen) {z : α}
    (path : ReflTransGen (Edge next) x z) : checked z := by
  rcases visit.passed z (visit.mem_iff.mpr path) with known | ⟨ok, -⟩
  · cases known
  · exact ok

/-! ## How deep the search can get -/

variable [Fintype α] [DecidableEq α]

/-- The number of points that have not been visited. -/
def left (seen : List α) : Nat := (Finset.univ.filter (· ∉ seen)).card

theorem left_nil : left ([] : List α) = Fintype.card α := by
  simp [left, Finset.card_univ]

theorem left_anti {seen seen' : List α} (grows : seen ⊆ seen') : left seen' ≤ left seen :=
  Finset.card_le_card fun z hz => by
    rw [Finset.mem_filter] at hz ⊢
    exact ⟨hz.1, fun known => hz.2 (grows known)⟩

theorem left_mark {x : α} {seen marked : List α} (fresh : x ∉ seen)
    (mark : ∀ z, z ∈ marked ↔ z = x ∨ z ∈ seen) : left marked < left seen := by
  refine Finset.card_lt_card (Finset.ssubset_iff_subset_ne.mpr ⟨fun z hz => ?_, fun same => ?_⟩)
  · rw [Finset.mem_filter] at hz ⊢
    exact ⟨hz.1, fun known => hz.2 ((mark z).mpr (.inr known))⟩
  · have here : x ∈ Finset.univ.filter (· ∉ marked) := by
      rw [same]
      exact Finset.mem_filter.mpr ⟨Finset.mem_univ _, fresh⟩
    exact (Finset.mem_filter.mp here).2 ((mark x).mpr (.inl rfl))

end DepthFirst
