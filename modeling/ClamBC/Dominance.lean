import Mathlib.Logic.Relation

/-!
# Strict dominance in a rooted graph

A vertex strictly dominates another when every path from the root to the second
has left the first one before. No finiteness is needed, and everything dominates
a vertex that is not reachable.
-/

namespace Dominance

open Relation

universe u
variable {α : Type u} {E : α → α → Prop} {root : α}

/-- Edges that do not start in the given vertex. -/
def Avoids (E : α → α → Prop) (d : α) (a b : α) : Prop := E a b ∧ a ≠ d

def StrictDom (E : α → α → Prop) (root d x : α) : Prop := ¬ ReflTransGen (Avoids E d) root x

/-- A path either stays outside a set or has a first vertex in it. -/
theorem first_arrival (P : α → Prop) {x : α} (path : ReflTransGen E root x) :
    ReflTransGen (fun a b => E a b ∧ ¬ P a) root x ∨
      ∃ y, P y ∧ ReflTransGen (fun a b => E a b ∧ ¬ P a) root y := by
  induction path with
  | refl => exact Or.inl .refl
  | @tail y z _ edge ih =>
    rcases ih with outside | arrived
    · by_cases inside : P y
      · exact Or.inr ⟨y, inside, outside⟩
      · exact Or.inl (outside.tail ⟨edge, inside⟩)
    · exact Or.inr arrived

theorem StrictDom.irrefl {x : α} (reach : ReflTransGen E root x) : ¬ StrictDom E root x x := by
  intro dom
  rcases first_arrival (fun a => a = x) reach with path | ⟨y, rfl, path⟩
  · exact dom path
  · exact dom path

theorem StrictDom.asymm {x y : α} (reach : ReflTransGen E root y) (dom : StrictDom E root x y) :
    ¬ StrictDom E root y x := by
  intro back
  have toX : ∀ {z}, ReflTransGen (fun a b => E a b ∧ ¬ (a = x ∨ a = y)) root z →
      ReflTransGen (Avoids E x) root z :=
    fun path => ReflTransGen.mono (fun _ _ h => ⟨h.1, fun eq => h.2 (Or.inl eq)⟩) _ _ path
  have toY : ∀ {z}, ReflTransGen (fun a b => E a b ∧ ¬ (a = x ∨ a = y)) root z →
      ReflTransGen (Avoids E y) root z :=
    fun path => ReflTransGen.mono (fun _ _ h => ⟨h.1, fun eq => h.2 (Or.inr eq)⟩) _ _ path
  rcases first_arrival (fun a => a = x ∨ a = y) reach with path | ⟨z, rfl | rfl, path⟩
  · exact dom (toX path)
  · exact back (toY path)
  · exact dom (toX path)

theorem StrictDom.trans {x y z : α} (first : StrictDom E root x y) (second : StrictDom E root y z) :
    StrictDom E root x z := by
  intro path
  rcases first_arrival (fun a => a = y) path with outside | ⟨w, rfl, arrived⟩
  · exact second (ReflTransGen.mono (fun _ _ h => ⟨h.1.1, h.2⟩) _ _ outside)
  · exact first (ReflTransGen.mono (fun _ _ h => h.1) _ _ arrived)

/-- What dominates the end of an edge is its start or dominates its start. -/
theorem StrictDom.of_edge {d x y : α} (dom : StrictDom E root d y) (edge : E x y) :
    x = d ∨ StrictDom E root d x := by
  by_cases same : x = d
  · exact Or.inl same
  · exact Or.inr fun path => dom (path.tail ⟨edge, same⟩)

theorem StrictDom.root_left {x : α} (other : x ≠ root) : StrictDom E root root x := by
  intro path
  rcases path.cases_head with same | ⟨y, ⟨-, stays⟩, -⟩
  · exact other same.symm
  · exact stays rfl

end Dominance
