import ClamBC.DepthFirst
import ClamBC.Fallible

/-!
# The incoming blocks of an index

A pointer phi is replaced by a phi of the index. For every getelementptr that moves the pointer on,
the index phi gets a value and a predecessor of its block, which `findPredecessor` looks for behind
the block of the getelementptr. Blocks that have been given before are omitted.

Of a block only the branch is kept. A block without one, such as one that ends in a switch, has no
successors here.
-/

namespace FindPredecessor

open Relation DepthFirst Fallible

structure Cfg (B : Type) where
  findBranch : B → Option (List B)

def Cfg.successors {B : Type} (cfg : Cfg B) (b : B) : List B := (cfg.findBranch b).getD []

inductive Fault where
  | assertion (text : String)
  | fuel
  deriving DecidableEq

section
variable {B : Type} [DecidableEq B] (cfg : Cfg B) (dst : B) (omitNodes : List B)

/-- The loop over the successors of `src`, given the search behind one of them. -/
def searchSuccessors (search : B → List B → Except Fault (Option B × List B)) (src : B) :
    List B → List B → Except Fault (Option B × List B)
  | [], visited => .ok (none, visited)
  | bb :: rest, visited =>
    if bb = dst ∧ src ∉ omitNodes then .ok (some src, visited)
    else do
      let res ← search bb visited
      if res.1.isSome then return res else searchSuccessors search src rest res.2

/-- The search with a list of visited blocks. -/
def findPredecessorFrom : Nat → B → List B → Except Fault (Option B × List B)
  | 0, _, _ => .error .fuel
  | fuel + 1, src, visited =>
    if src ∈ visited then .ok (none, visited)
    else
      match cfg.findBranch src with
      | none => .ok (none, visited ++ [src])
      | some successors =>
        searchSuccessors dst omitNodes (findPredecessorFrom fuel) src successors (visited ++ [src])

variable [Fintype B]

def findPredecessor (src : B) : Except Fault (Option B) :=
  (findPredecessorFrom cfg dst omitNodes (Fintype.card B + 1) src []).map Prod.fst

/-- The loop over the getelementptrs, by their blocks. The result are the incoming blocks of the
index phi, beginning with those that it has. -/
def addIncomings : List B → List B → Except Fault (List B)
  | omitNodes, [] => .ok omitNodes
  | omitNodes, src :: rest => do
    match ← findPredecessor cfg dst omitNodes src with
    | none => throw (.assertion "Could not find predecessor")
    | some pred => addIncomings (omitNodes ++ [pred]) rest

end

variable {B : Type}

/-- Control gets from the first block to the second one, and from there to the block of the phi. -/
structure LeadsTo (cfg : Cfg B) (dst src pred : B) : Prop where
  reached : ReflTransGen (Edge cfg.successors) src pred
  last : dst ∈ cfg.successors pred

variable {cfg : Cfg B} {dst : B} {omitNodes : List B}

theorem LeadsTo.before {src bb pred : B} (edge : bb ∈ cfg.successors src)
    (leads : LeadsTo cfg dst bb pred) : LeadsTo cfg dst src pred :=
  ⟨.head edge leads.reached, leads.last⟩

/-- A block in front of the phi is of no use if it is omitted. -/
def Useless (cfg : Cfg B) (dst : B) (omitNodes : List B) (b : B) : Prop :=
  dst ∈ cfg.successors b → b ∈ omitNodes

variable [DecidableEq B]

theorem searchSuccessors_spec {search : B → List B → Except Fault (Option B × List B)} {src : B}
    {rest visited : List B} (successors : rest ⊆ cfg.successors src)
    (each : ∀ bb seen, visited ⊆ seen → Yields (search bb seen) fun res =>
      match res.1 with
      | some pred => LeadsTo cfg dst bb pred ∧ pred ∉ omitNodes
      | none => Visit cfg.successors (Useless cfg dst omitNodes) bb seen res.2) :
    Yields (searchSuccessors dst omitNodes search src rest visited) fun res =>
      match res.1 with
      | some pred => LeadsTo cfg dst src pred ∧ pred ∉ omitNodes
      | none => (dst ∈ rest → src ∈ omitNodes) ∧
        Loop cfg.successors (Useless cfg dst omitNodes) rest visited res.2 := by
  induction rest generalizing visited with
  | nil => exact .ok ⟨fun h => absurd h List.not_mem_nil, Loop.nil visited⟩
  | cons bb rest ih =>
    have edge : bb ∈ cfg.successors src := successors List.mem_cons_self
    have later : rest ⊆ cfg.successors src := fun b h => successors (List.mem_cons_of_mem bb h)
    rw [searchSuccessors]
    by_cases hit : bb = dst ∧ src ∉ omitNodes
    · rw [if_pos hit]
      exact .ok ⟨⟨.refl, hit.1 ▸ edge⟩, hit.2⟩
    · rw [if_neg hit]
      refine (each bb visited (List.Subset.refl _)).bind fun res first => ?_
      obtain ⟨found, visited'⟩ := res
      cases found with
      | some pred => exact .ok ⟨first.1.before edge, first.2⟩
      | none =>
        have first : Visit cfg.successors (Useless cfg dst omitNodes) bb visited visited' := first
        refine (ih later fun b seen grows =>
          each b seen (List.Subset.trans first.grows grows)).mono fun res others => ?_
        obtain ⟨found, visited''⟩ := res
        cases found with
        | some pred => exact others
        | none =>
          obtain ⟨useless, loop⟩ := others
          refine ⟨fun mem => ?_, first.append loop⟩
          rcases List.mem_cons.mp mem with same | mem
          · exact not_not.mp fun kept => hit ⟨same.symm, kept⟩
          · exact useless mem

variable [Fintype B]

/-- One level of fuel for every block that has not been visited. -/
theorem findPredecessorFrom_spec {fuel : Nat} {src : B} {visited : List B}
    (enough : left visited < fuel) :
    Yields (findPredecessorFrom cfg dst omitNodes fuel src visited) fun res =>
      match res.1 with
      | some pred => LeadsTo cfg dst src pred ∧ pred ∉ omitNodes
      | none => Visit cfg.successors (Useless cfg dst omitNodes) src visited res.2 := by
  induction fuel generalizing src visited with
  | zero => omega
  | succ fuel ih =>
    rw [findPredecessorFrom]
    by_cases known : src ∈ visited
    · rw [if_pos known]
      exact .ok (Visit.known known)
    · rw [if_neg known]
      have mark : ∀ z, z ∈ visited ++ [src] ↔ z = src ∨ z ∈ visited := by
        intro z
        rw [List.mem_append, List.mem_singleton, or_comm]
      have fewer := left_mark known mark
      cases branch : cfg.findBranch src with
      | none =>
        have none : cfg.successors src = [] := by rw [Cfg.successors, branch]; rfl
        refine .ok (Visit.enter mark (fun last => ?_) ?_)
        · rw [none] at last
          cases last
        · rw [none]
          exact Loop.nil _
      | some successors =>
        have same : cfg.successors src = successors := by rw [Cfg.successors, branch]; rfl
        have deeper : ∀ bb seen, visited ++ [src] ⊆ seen →
            Yields (findPredecessorFrom cfg dst omitNodes fuel bb seen) fun res =>
              match res.1 with
              | some pred => LeadsTo cfg dst bb pred ∧ pred ∉ omitNodes
              | none => Visit cfg.successors (Useless cfg dst omitNodes) bb seen res.2 := by
          intro bb seen grows
          have := left_anti grows
          exact ih (by omega)
        have inside : successors ⊆ cfg.successors src := same ▸ List.Subset.refl _
        have loop := searchSuccessors_spec inside deeper
        refine loop.mono fun res searched => ?_
        obtain ⟨found, visited'⟩ := res
        cases found with
        | some pred => exact searched
        | none =>
          obtain ⟨useless, loop⟩ := searched
          refine Visit.enter mark (fun last => useless (same ▸ last)) ?_
          rw [same]
          exact loop

/-- A predecessor is found exactly if there is one that has not been given before. -/
theorem findPredecessor_spec (cfg : Cfg B) (dst : B) (omitNodes : List B) (src : B) :
    Yields (findPredecessor cfg dst omitNodes src) fun found =>
      match found with
      | some pred => LeadsTo cfg dst src pred ∧ pred ∉ omitNodes
      | none => ∀ pred, LeadsTo cfg dst src pred → pred ∈ omitNodes := by
  have start : left ([] : List B) < Fintype.card B + 1 := by
    rw [left_nil]
    exact Nat.lt_succ_self _
  refine (findPredecessorFrom_spec start).map fun res searched => ?_
  obtain ⟨found, visited⟩ := res
  cases found with
  | some pred => exact searched
  | none => exact fun pred leads => Visit.checks searched leads.reached leads.last

/-- The incoming blocks of the index phi are distinct, and each is a predecessor that control
reaches from the getelementptr it is for. The assertion fails at the first getelementptr behind
which all predecessors have been given. -/
theorem addIncomings_spec (cfg : Cfg B) (dst : B) (srcs omitNodes : List B) :
    match addIncomings cfg dst omitNodes srcs with
    | .ok blocks => ∃ preds, blocks = omitNodes ++ preds ∧
        List.Forall₂ (LeadsTo cfg dst) srcs preds ∧ preds.Nodup ∧ ∀ pred ∈ preds, pred ∉ omitNodes
    | .error fault => fault = .assertion "Could not find predecessor" ∧
        ∃ before src after preds, srcs = before ++ src :: after ∧
          addIncomings cfg dst omitNodes before = .ok (omitNodes ++ preds) ∧
          ∀ pred, LeadsTo cfg dst src pred → pred ∈ omitNodes ++ preds := by
  induction srcs generalizing omitNodes with
  | nil => exact ⟨[], by simp, .nil, List.nodup_nil, fun _ h => by cases h⟩
  | cons src srcs ih =>
    obtain ⟨found, eq, spec⟩ := findPredecessor_spec cfg dst omitNodes src
    have step : ∀ rest, addIncomings cfg dst omitNodes (src :: rest) =
        found.elim (.error (.assertion "Could not find predecessor"))
          fun pred => addIncomings cfg dst (omitNodes ++ [pred]) rest := by
      intro rest
      clear spec
      rw [addIncomings, eq]
      cases found <;> rfl
    rw [step]
    cases found with
    | none => exact ⟨rfl, [], src, srcs, [], rfl, by simp [addIncomings], by simpa using spec⟩
    | some pred =>
      obtain ⟨leads, fresh⟩ := spec
      have later := ih (omitNodes ++ [pred])
      rw [Option.elim_some]
      cases rest : addIncomings cfg dst (omitNodes ++ [pred]) srcs with
      | ok blocks =>
        rw [rest] at later
        obtain ⟨preds, rfl, all, distinct, new⟩ := later
        refine ⟨pred :: preds, by simp, .cons leads all, List.nodup_cons.mpr ⟨?_, distinct⟩, ?_⟩
        · exact fun again => new pred again (List.mem_append_right _ List.mem_cons_self)
        · intro p h
          rcases List.mem_cons.mp h with rfl | h
          · exact fresh
          · exact fun old => new p h (List.mem_append_left _ old)
      | error fault =>
        rw [rest] at later
        obtain ⟨same, before, last, after, preds, rfl, ran, none⟩ := later
        refine ⟨same, src :: before, last, after, pred :: preds, rfl, ?_, ?_⟩
        · rw [step before, Option.elim_some, ran]
          simp
        · simpa using none

/-- A loop of the blocks 1 and 2 behind block 0. -/
def simpleLoop : Cfg (Fin 4) where
  findBranch
    | 0 => some [1]
    | 1 => some [2, 3]
    | 2 => some [1]
    | 3 => none

example : addIncomings simpleLoop 1 [0] [2] = .ok [0, 2] := by decide

/-- Two getelementptrs in one latch cannot both have it. -/
example : addIncomings simpleLoop 1 [0] [2, 2] =
    .error (.assertion "Could not find predecessor") := by decide

end FindPredecessor
