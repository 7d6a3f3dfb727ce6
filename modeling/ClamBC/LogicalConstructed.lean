import ClamBC.LogicalMap
import ClamBC.LogicalNormal
import ClamBC.LogicalSelection

/-!
# The nodes of a compilation

Whatever function is compiled, the compiler gets its nodes from the constructors only: the
entries of its map, and the node of the function, are nodes that some calls have made.
-/

namespace LogicalConstructed

open Ir LogicalNode LogicalCompiler LogicalShape LogicalMap LogicalNormal LogicalPhi
  LogicalSelection Fallible

/-- Whatever goes wrong. -/
def Anything (_ : Fault) : Prop := True

theorem meets_of_ok {α : Type} {P : α → Prop} {x : Except Fault α} (h : ∀ a, x = .ok a → P a) :
    Meets Anything P x := by
  cases x with
  | error e => trivial
  | ok a => exact h a rfl

theorem joined_constructed (o : PtrOrder) : Joined o Anything Constructed where
  and := fun left right =>
    .and o (List.cons_ne_nil _ _) (by simp [left, right])
  or := fun left right =>
    .or o (List.cons_ne_nil _ _) (by simp [left, right])
  nullNode := trivial
  missingEntry := trivial
  emptyRoute := trivial
  badCast := trivial

/-- All nodes in the map have been constructed. -/
def ConstructedMap (map : Nat → Option Ptr) : Prop := ∀ d n, map d = some (some n) → Constructed n

theorem ConstructedMap.update {map : Nat → Option Ptr} (all : ConstructedMap map) {d : Nat}
    {p : Ptr} (here : Held Constructed p) : ConstructedMap (Function.update map d (some p)) := by
  intro e n found
  by_cases same : e = d
  · subst same
    rw [Function.update_self] at found
    exact here n (Option.some.inj found)
  · rw [Function.update_of_ne same] at found
    exact all e n found

section
variable {o : PtrOrder} {gv : GlobalId} {map : Nat → Option Ptr}

theorem getNot_constructed {n : Node} (constructed : Constructed n) :
    Meets Anything Constructed (getNot o n) := meets_of_ok fun _ => .not o constructed

theorem compares_constructed {pred : Predicate} {n : Node} {rhs : Word}
    (constructed : Constructed n) : Compares o Anything Constructed pred n rhs := by
  have equal : Meets Anything Constructed (getEQ n rhs) := meets_of_ok fun _ => .eq rhs constructed
  cases pred with
  | eq => exact equal
  | ne => exact equal.mono fun m => getNot_constructed
  | ugt => exact meets_of_ok fun _ => .gt o rhs constructed
  | uge => exact fun _ => meets_of_ok fun _ => .gt o _ constructed
  | ult => exact meets_of_ok fun _ => .lt o rhs constructed
  | ule => exact fun _ => meets_of_ok fun _ => .lt o _ constructed
  | _ => trivial

theorem processLoad_constructed {ptr : Value} :
    Meets Anything (Binds Constructed) (processLoad gv ptr) := by
  unfold processLoad
  split
  · split_ifs
    · exact binds_flag _
    · split
      · exact meets_of_ok fun st ran => by
          obtain ⟨k, -, ran⟩ := bind_eq_ok.mp ran
          cases ran
          exact binds_some (.subsig _)
      · trivial
      · exact binds_flag _
      · trivial
  · exact binds_flag _
  · exact binds_flag _
  · exact binds_flag _
  · exact binds_some (.subsig 0)

variable (all : ConstructedMap map)
include all

theorem ConstructedMap.found {v : Value} {n : Node} (found : lookup map v = some (some n)) :
    Constructed n := by
  cases v with
  | inst d => exact all d n found
  | arg i => cases found
  | const c => cases found

theorem ConstructedMap.held {v : Value} {p : Ptr} (found : lookup map v = some p) :
    Held Constructed p := fun _ same => all.found (same ▸ found)

theorem processICmp_constructed {pred : Predicate} {lhs rhs : Value} :
    Meets Anything (Binds Constructed) (processICmp o (lookup map) pred lhs rhs) := by
  have compared : ∀ op0 op1,
      Meets Anything (Binds Constructed) (compareWith o (lookup map) pred op0 op1) := by
    intro op0 op1
    refine meets_of_ok fun st ran => ?_
    unfold compareWith at ran
    split at ran
    · obtain ⟨v, -, ran⟩ := bind_eq_ok.mp ran
      split_ifs at ran
      · cases ran
        exact binds_flag _
      · split at ran
        · cases ran
          exact binds_flag _
        · next p found =>
          refine (compareNode_meets (joined_constructed o) fun n same => ?_).of_ok ran
          exact compares_constructed (all.held found n same)
    · cases ran
      exact binds_flag _
  unfold processICmp
  split_ifs
  · exact compared rhs lhs
  · exact compared lhs rhs

theorem processAdd_constructed {lhs rhs : Value} :
    Meets Anything (Binds Constructed) (processAdd (lookup map) lhs rhs) := by
  have follow : ∀ {v : Value} {p : Ptr}, lookup map v = some p →
      Meets Anything Constructed (deref p) :=
    fun found => deref_meets (joined_constructed .inOrder) (all.held found)
  unfold processAdd
  split
  · exact binds_reject _
  · next l foundL =>
    split
    · refine (meets_of_ok fun _ _ => trivial : Meets Anything (fun _ => True) _).bind
        fun u _ _ => (follow foundL).bind fun n _ left => ?_
      exact binds_some (.addOff _ left)
    · split
      · exact binds_reject _
      · next r foundR =>
        refine (follow foundL).bind fun a _ left => (follow foundR).bind fun b _ right => ?_
        refine meets_of_ok fun st ran => ?_
        obtain ⟨sum, added, ran⟩ := bind_eq_ok.mp ran
        cases sum with
        | none =>
          cases ran
          exact binds_reject _
        | some m =>
          dsimp only at ran
          split_ifs at ran <;> cases ran
          · exact binds_some (.add left right added)
          · exact binds_reject _

/-- An instruction is bound to a node that has been constructed. -/
theorem processInst_constructed {i : Inst} :
    Meets Anything (Binds Constructed) (processInst o gv (lookup map) i) := by
  have joined := joined_constructed o
  unfold processInst
  split
  · exact binds_skip
  · exact binds_skip
  · exact processLoad_constructed
  · exact processICmp_constructed all
  · refine processSelect_meets joined (fun n found => ?_) (fun n => all.found) fun n => all.found
    exact ⟨all.found found, getNot_constructed (all.found found)⟩
  · exact processAdd_constructed all
  · split
    · next left right =>
      exact (getAndPtr_meets joined (all.held left) (all.held right)).bind fun m _ => binds_some
    · exact binds_reject _
  · split
    · next left right =>
      exact (getOrPtr_meets joined (all.held left) (all.held right)).bind fun m _ => binds_some
    · exact binds_reject _
  · unfold processXor
    split
    · split
      · exact binds_reject _
      · next found =>
        refine (getNotPtr_meets joined fun n same => ?_).bind fun m _ => binds_some
        exact getNot_constructed (all.held found n same)
    · exact binds_reject _
  · unfold processZExt
    split
    · exact binds_reject _
    · next found =>
      split_ifs
      · exact binds_reject _
      · exact (deref_meets joined (all.held found)).bind fun n _ constructed =>
          binds_some (.unique constructed)
  · exact binds_reject _

theorem processPHI_constructed {f : Function} {l : Label} {p : Phi} :
    Meets Anything (Held Constructed) (processPHI o (lookup map) f l p) := by
  refine processPHI_meets (joined_constructed o) fun B _ e _ _ => ⟨fun n => all.found, ?_⟩
  intro r _ _ hop _ c n _ found
  exact ⟨all.found found, fun _ => getNot_constructed (all.found found)⟩

end

section
variable {o : PtrOrder} {gv : GlobalId} {f : Function} {s : State} {node : Node}

theorem compile_constructedMap (compiled : compile o (some gv) f = .ok (s, some node)) :
    ConstructedMap s.map := by
  refine compile_map (P := ConstructedMap) ?_ ?_ nofun compiled
  · intro B _ p _ m n all ran
    exact all.update ((processPHI_constructed all).of_ok ran)
  · intro B _ i _ m n all ran
    exact all.update ((processInst_constructed all).of_ok ran n rfl)

/-- What is or-ed is FALSE or the conjunction of a single node. -/
theorem exits_constructed {map : Nat → Option Ptr} (all : ConstructedMap map) {n : Node}
    (h : n ∈ f.blocks.flatMap fun B => exitOr o map B.term) : Constructed n := by
  obtain ⟨B, -, hn⟩ := List.mem_flatMap.mp h
  unfold exitOr at hn
  split at hn
  · split_ifs at hn
    · rw [List.mem_singleton.mp hn]
      exact .const false
    · cases hn
  · split at hn
    · next found =>
      rw [List.mem_singleton.mp hn]
      exact .and o (List.cons_ne_nil _ _) (by simpa using all.found found)
    · cases hn
  · cases hn

/-- The nodes in the map of an accepted function, and the node of the function, have been
constructed. -/
theorem compile_constructed (wf : f.WellFormed)
    (compiled : compile o (some gv) f = .ok (s, some node)) :
    ConstructedMap s.map ∧ Constructed node := by
  have all := compile_constructedMap compiled
  have settled := compile_settled wf compiled
  refine ⟨all, ?_⟩
  have trues : ∀ n ∈ f.blocks.flatMap (fun B => exitAnd B.term), Constructed n := by
    intro n hn
    obtain ⟨B, -, hn⟩ := List.mem_flatMap.mp hn
    unfold exitAnd at hn
    split at hn
    · split_ifs at hn
      · cases hn
      · rw [List.mem_singleton.mp hn]
        exact .const true
    · cases hn
  have either :
      Constructed (getOrExits o (f.blocks.flatMap fun B => exitOr o s.map B.term)) := by
    unfold getOrExits
    split_ifs with empty
    · exact .const true
    · exact .or o empty fun n => exits_constructed all
  have both : Constructed (getAnd o (f.blocks.flatMap fun B => exitAnd B.term)) := by
    by_cases empty : (f.blocks.flatMap fun B => exitAnd B.term) = []
    · rw [empty, getAnd_nil]
      exact .const true
    · exact .and o empty trues
  rw [settled.node]
  exact .and o (List.cons_ne_nil _ _) (by simp [either, both])

end

end LogicalConstructed
