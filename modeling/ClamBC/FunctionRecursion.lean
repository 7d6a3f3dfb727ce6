import ClamBC.DepthFirst
import ClamBC.Fallible

/-!
# Recursive functions

`functionRecurses` looks for a chain of calls from a function back to itself. Its list of visited
functions is shared by all branches of the search, so that a function which did not lead back when
it was searched is never searched again, also when that search was not complete at the time.
-/

namespace FunctionRecursion

open Relation DepthFirst Fallible

/-- For a call, the function that `getCalledFunction` returns: null for a function pointer. -/
inductive Instruction (F : Type) where
  | call (calledFunction : Option F)
  | other
  deriving DecidableEq

/-- The blocks of every function; a declaration has none. -/
structure Module (F : Type) where
  blocks : F → List (List (Instruction F))

inductive Fault where
  | stop (msg : String)
  | fuel
  deriving DecidableEq

section
variable {F : Type} [DecidableEq F]

/-- The loops over the instructions, given the search of a called function. -/
def searchCalls (recurses : F → List F → Except Fault (Bool × List F)) (orig : F) :
    List (Instruction F) → List F → Except Fault (Bool × List F)
  | [], visited => .ok (false, visited)
  | .other :: insts, visited => searchCalls recurses orig insts visited
  | .call none :: _, _ => .error (.stop "Calls to function pointers not allowed")
  | .call (some callee) :: insts, visited =>
    if callee = orig then .ok (true, visited)
    else do
      let found ← recurses callee visited
      if found.1 then return found else searchCalls recurses orig insts found.2

/-- The search with a list of visited functions. -/
def functionRecursesFrom (m : Module F) (orig : F) :
    Nat → F → List F → Except Fault (Bool × List F)
  | 0, _, _ => .error .fuel
  | fuel + 1, pFunc, visited =>
    if pFunc ∈ visited then .ok (false, visited)
    else
      searchCalls (functionRecursesFrom m orig fuel) orig (m.blocks pFunc).flatten
        (visited ++ [pFunc])

def functionRecurses (m : Module F) (fuel : Nat) (pFunc : F) : Except Fault Bool :=
  (functionRecursesFrom m pFunc fuel pFunc []).map Prod.fst

end

/-! ## Chains of calls -/

variable {F : Type}

def Instruction.callee : Instruction F → Option F
  | .call calledFunction => calledFunction
  | .other => none

namespace Module

def callees (m : Module F) (f : F) : List F := (m.blocks f).flatten.filterMap Instruction.callee

def Calls (m : Module F) (f g : F) : Prop := ∃ block ∈ m.blocks f, .call (some g) ∈ block

def NoIndirectCalls (m : Module F) : Prop := ∀ f, ∀ block ∈ m.blocks f, .call none ∉ block

theorem calls_iff {m : Module F} {f g : F} : m.Calls f g ↔ Edge m.callees f g := by
  simp only [Calls, Edge, callees, List.mem_filterMap, List.mem_flatten]
  constructor
  · rintro ⟨block, hblock, call⟩
    exact ⟨.call (some g), ⟨block, hblock, call⟩, rfl⟩
  · rintro ⟨inst, ⟨block, hblock, hinst⟩, callee⟩
    cases inst with
    | other => cases callee
    | call called =>
      cases callee
      exact ⟨block, hblock, hinst⟩

end Module

variable [DecidableEq F] {m : Module F} {orig : F}

/-- What is known of the search of `callees` that went from `visited` to the result. -/
def Searched (m : Module F) (orig : F) (callees : List F) (visited : List F)
    (found : Bool × List F) : Prop :=
  if found.1 then ∃ f ∈ callees, f = orig ∨ TransGen m.Calls f orig
  else orig ∉ callees ∧ Loop m.callees (fun f => ¬ m.Calls f orig) callees visited found.2

theorem searchCalls_spec {recurses : F → List F → Except Fault (Bool × List F)}
    {insts : List (Instruction F)} (direct : .call none ∉ insts) {visited : List F}
    (each : ∀ f seen, visited ⊆ seen →
      Yields (recurses f seen) fun found => if found.1 then TransGen m.Calls f orig
        else Visit m.callees (fun f => ¬ m.Calls f orig) f seen found.2) :
    Yields (searchCalls recurses orig insts visited)
      (Searched m orig (insts.filterMap Instruction.callee) visited) := by
  induction insts generalizing visited with
  | nil => exact .ok ⟨List.not_mem_nil, Loop.nil visited⟩
  | cons inst insts ih =>
    have rest : .call none ∉ insts := fun mem => direct (List.mem_cons_of_mem _ mem)
    cases inst with
    | other => exact ih rest each
    | call called =>
      cases called with
      | none => exact absurd List.mem_cons_self direct
      | some callee =>
        rw [searchCalls]
        by_cases back : callee = orig
        · rw [if_pos back]
          exact .ok ⟨callee, List.mem_cons_self, .inl back⟩
        · rw [if_neg back]
          refine (each callee visited (List.Subset.refl _)).bind fun found first => ?_
          obtain ⟨leads, visited'⟩ := found
          cases leads with
          | true => exact .ok ⟨callee, List.mem_cons_self, .inr first⟩
          | false =>
            have first : Visit m.callees (fun f => ¬ m.Calls f orig) callee visited visited' := first
            refine (ih rest fun f seen grows =>
              each f seen (List.Subset.trans first.grows grows)).mono fun found later => ?_
            obtain ⟨leads, visited''⟩ := found
            cases leads with
            | true =>
              obtain ⟨f, hf, path⟩ := later
              exact ⟨f, List.mem_cons_of_mem _ hf, path⟩
            | false =>
              obtain ⟨absent, loop⟩ := later
              refine ⟨fun mem => ?_, first.append loop⟩
              rcases List.mem_cons.mp mem with same | mem
              · exact back same.symm
              · exact absent mem

variable [Fintype F]

/-- One level of fuel for every function that has not been visited. -/
theorem functionRecursesFrom_spec (direct : m.NoIndirectCalls) {fuel : Nat} {pFunc : F}
    {visited : List F} (enough : left visited < fuel) :
    Yields (functionRecursesFrom m orig fuel pFunc visited) fun found =>
      if found.1 then TransGen m.Calls pFunc orig
      else Visit m.callees (fun f => ¬ m.Calls f orig) pFunc visited found.2 := by
  induction fuel generalizing pFunc visited with
  | zero => omega
  | succ fuel ih =>
    rw [functionRecursesFrom]
    by_cases known : pFunc ∈ visited
    · rw [if_pos known]
      exact .ok (Visit.known known)
    · rw [if_neg known]
      have mark : ∀ z, z ∈ visited ++ [pFunc] ↔ z = pFunc ∨ z ∈ visited := by
        intro z
        rw [List.mem_append, List.mem_singleton, or_comm]
      have fewer := left_mark known mark
      refine Yields.mono (searchCalls_spec ?_ fun f seen grows => ih ?_) fun found searched => ?_
      · intro mem
        obtain ⟨block, hblock, call⟩ := List.mem_flatten.mp mem
        exact direct pFunc block hblock call
      · have := left_anti grows
        omega
      · obtain ⟨leads, visited'⟩ := found
        cases leads with
        | true =>
          obtain ⟨f, hf, path⟩ := searched
          have edge : m.Calls pFunc f := Module.calls_iff.mpr hf
          rcases path with rfl | path
          · exact .single edge
          · exact .head edge path
        | false =>
          obtain ⟨absent, loop⟩ := searched
          exact Visit.enter mark (fun call => absent (Module.calls_iff.mp call)) loop

/-- The search ends, and finds a chain of calls exactly if there is one. -/
theorem functionRecurses_iff (m : Module F) (direct : m.NoIndirectCalls) (f : F) {fuel : Nat}
    (enough : Fintype.card F < fuel) :
    ∃ b, functionRecurses m fuel f = .ok b ∧ (b = true ↔ TransGen m.Calls f f) := by
  have start : left ([] : List F) < fuel := by rwa [left_nil]
  have search : Yields (functionRecursesFrom m f fuel f []) _ :=
    functionRecursesFrom_spec direct start
  obtain ⟨⟨leads, visited⟩, ran, found⟩ := search
  refine ⟨leads, by rw [functionRecurses, ran]; rfl, ?_⟩
  cases leads with
  | true => exact ⟨fun _ => found, fun _ => rfl⟩
  | false =>
    have visit : Visit m.callees (fun g => ¬ m.Calls g f) f [] visited := found
    refine ⟨nofun, fun path => ?_⟩
    obtain ⟨g, before, last⟩ := TransGen.tail'_iff.mp path
    have reached : ReflTransGen (Edge m.callees) f g :=
      ReflTransGen.mono (fun _ _ call => Module.calls_iff.mp call) _ _ before
    exact absurd last (visit.checks reached)

/-- Function 0 calls 1, and 1 and 2 call each other. -/
def besideCycle : Module (Fin 3) where
  blocks
    | 0 => [[.other, .call (some 1)]]
    | 1 => [[.call (some 2)], [.other]]
    | 2 => [[.call (some 1)]]

theorem besideCycle_searched : ∃ b, functionRecurses besideCycle 4 0 = .ok b ∧
    (b = true ↔ TransGen besideCycle.Calls 0 0) :=
  functionRecurses_iff besideCycle (by unfold Module.NoIndirectCalls; decide) 0 (by decide)

example : functionRecurses besideCycle 4 0 = .ok false := by decide

example : functionRecurses besideCycle 4 1 = .ok true := by decide

end FunctionRecursion
