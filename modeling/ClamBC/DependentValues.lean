import ClamBC.DepthFirst
import ClamBC.Fallible

/-!
# Dependent values

`getDependentValues` follows the users of a value, their users, and so on. From a constant
expression it also goes down to the first operand, for some operators twice. The value that the
search starts from is recognized by nothing having been visited yet; it is not recorded, and its
operand is not searched.
-/

namespace DependentValues

open Relation DepthFirst Fallible

inductive Opcode where
  | getElementPtr | bitCast | ptrToInt | zext | other
  deriving DecidableEq

/-- The classes of values that are told apart. A constant expression comes with its operand 0. -/
inductive Kind (V : Type) where
  | instruction
  | globalVariable
  | constantExpr (opcode : Opcode) (operand : V)
  | other

structure UseGraph (V : Type) where
  kind : V → Kind V
  users : V → List V

structure Search (V : Type) where
  insts : List V
  globs : List V
  ces : List V
  visited : List V

def Search.empty {V : Type} : Search V := ⟨[], [], [], []⟩

inductive Fault where
  | fuel
  deriving DecidableEq

section
variable {V : Type} [DecidableEq V] (g : UseGraph V)

/-- A value that is not the first one is recorded. -/
def enter (dependents : V → Search V → Except Fault (Search V)) (pv : V) (s : Search V) :
    Except Fault (Search V) :=
  match g.kind pv with
  | .instruction => .ok { s with insts := s.insts.insert pv }
  | .globalVariable => .ok { s with globs := s.globs.insert pv }
  | .constantExpr opcode operand => do
    -- Four operators have a branch of their own, and then also the one for all of them.
    let s ← (if opcode = .other then .ok s else dependents operand s)
    dependents operand { s with ces := s.ces.insert pv }
  | .other => .ok s

def getDependentValues : Nat → V → Search V → Except Fault (Search V)
  | 0, _, _ => .error .fuel
  | fuel + 1, pv, s =>
    if pv ∈ s.visited then .ok s
    else do
      let marked := { s with visited := s.visited.insert pv }
      let s ← if s.visited.isEmpty then .ok marked
        else enter g (getDependentValues fuel) pv marked
      (g.users pv).foldlM (fun s user => getDependentValues fuel user s) s

end

/-! ## The values that depend on a value -/

variable {V : Type}

/-- An edge of the search from `pv`. -/
inductive Step (g : UseGraph V) (pv : V) : V → V → Prop
  | user {x user : V} (uses : user ∈ g.users x) : Step g pv x user
  | operand {x operand : V} {opcode : Opcode} (other : x ≠ pv)
      (expr : g.kind x = .constantExpr opcode operand) : Step g pv x operand

def Depends (g : UseGraph V) (pv x : V) : Prop := x ≠ pv ∧ ReflTransGen (Step g pv) pv x

inductive Class where
  | insts | globs | ces

/-- Where a value is recorded. -/
def Kind.class : Kind V → Option Class
  | .instruction => some .insts
  | .globalVariable => some .globs
  | .constantExpr _ _ => some .ces
  | .other => none

theorem class_insts {kind : Kind V} : kind.class = some .insts ↔ kind = .instruction := by
  cases kind <;> simp [Kind.class]

theorem class_globs {kind : Kind V} : kind.class = some .globs ↔ kind = .globalVariable := by
  cases kind <;> simp [Kind.class]

theorem class_ces {kind : Kind V} :
    kind.class = some .ces ↔ ∃ opcode operand, kind = .constantExpr opcode operand := by
  cases kind <;> simp [Kind.class]

def Search.members (s : Search V) : Class → List V
  | .insts => s.insts
  | .globs => s.globs
  | .ces => s.ces

/-- The operand of a constant expression. -/
def Kind.operand : Kind V → List V
  | .constantExpr _ operand => [operand]
  | _ => []

variable [DecidableEq V] {g : UseGraph V} {pv : V}

def neighbours (g : UseGraph V) (pv x : V) : List V :=
  (if x = pv then [] else (g.kind x).operand) ++ g.users x

theorem step_iff {x y : V} : Step g pv x y ↔ Edge (neighbours g pv) x y := by
  rw [Edge, neighbours, List.mem_append]
  constructor
  · rintro (uses | ⟨other, expr⟩)
    · exact .inr uses
    · rw [if_neg other, expr]
      exact .inl List.mem_cons_self
  · rintro (inside | uses)
    · split_ifs at inside with first
      · cases inside
      · cases expr : g.kind x with
        | constantExpr opcode operand =>
          rw [expr] at inside
          rw [List.mem_singleton.mp inside]
          exact .operand first expr
        | _ =>
          rw [expr] at inside
          cases inside
    · exact .user uses

/-- What was recorded on the way to the second state: what was visited that is not in `seen`, by
its class. -/
def Recorded (g : UseGraph V) (seen : List V) (s s' : Search V) : Prop :=
  ∀ c z, z ∈ s'.members c ↔
    z ∈ s.members c ∨ z ∉ seen ∧ z ∈ s'.visited ∧ (g.kind z).class = some c

def Search.record (s : Search V) (x : V) : Class → Search V
  | .insts => { s with insts := s.insts.insert x }
  | .globs => { s with globs := s.globs.insert x }
  | .ces => { s with ces := s.ces.insert x }

theorem visited_record (s : Search V) (x : V) (c : Class) : (s.record x c).visited = s.visited := by
  cases c <;> rfl

theorem mem_record {s : Search V} {x z : V} {c c' : Class} :
    z ∈ (s.record x c).members c' ↔ z ∈ s.members c' ∨ z = x ∧ c = c' := by
  cases c <;> cases c' <;> simp [Search.record, Search.members, or_comm]

omit [DecidableEq V] in
theorem Recorded.trans {seen : List V} {s mid s' : Search V} (first : Recorded g seen s mid)
    (rest : Recorded g mid.visited mid s') (before : seen ⊆ mid.visited)
    (after : mid.visited ⊆ s'.visited) : Recorded g seen s s' := by
  intro c z
  rw [rest c z, first c z]
  constructor
  · rintro ((old | ⟨fresh, known, isClass⟩) | ⟨fresh, known, isClass⟩)
    · exact .inl old
    · exact .inr ⟨fresh, after known, isClass⟩
    · exact .inr ⟨fun old => fresh (before old), known, isClass⟩
  · rintro (old | ⟨fresh, known, isClass⟩)
    · exact .inl (.inl old)
    · by_cases mid : z ∈ mid.visited
      · exact .inl (.inr ⟨fresh, mid, isClass⟩)
      · exact .inr ⟨mid, known, isClass⟩

section
variable {seen : List V} {x : V} {s s' : Search V} (mark : ∀ z, z ∈ s.visited ↔ z = x ∨ z ∈ seen)
include mark

/-- A marked value may be recorded after a search. -/
theorem Recorded.record {c : Class} (recorded : Recorded g s.visited s s')
    (grows : s.visited ⊆ s'.visited) (fresh : x ∉ seen) (isClass : (g.kind x).class = some c) :
    Recorded g seen s (s'.record x c) := by
  intro c' z
  rw [mem_record, visited_record, recorded c' z, mark z]
  constructor
  · rintro ((old | ⟨new, known, isClass⟩) | ⟨rfl, rfl⟩)
    · exact .inl old
    · exact .inr ⟨fun old => new (.inr old), known, isClass⟩
    · exact .inr ⟨fresh, grows ((mark z).mpr (.inl rfl)), isClass⟩
  · rintro (old | ⟨new, known, isClass'⟩)
    · exact .inl (.inl old)
    · by_cases same : z = x
      · subst same
        exact .inr ⟨rfl, Option.some.inj (isClass.symm.trans isClass')⟩
      · exact .inl (.inr ⟨fun h => h.elim same new, known, isClass'⟩)

omit [DecidableEq V] in
theorem Recorded.skip (noClass : (g.kind x).class = none) : Recorded g seen s s := by
  intro c z
  refine ⟨.inl, fun h => h.elim id fun ⟨new, known, isClass⟩ => ?_⟩
  rcases (mark z).mp known with rfl | old
  · rw [noClass] at isClass
    cases isClass
  · exact absurd old new

end

/-- The search of the values `xs` went from one state to the other. -/
structure Searched (g : UseGraph V) (pv : V) (xs : List V) (s s' : Search V) : Prop where
  loop : Loop (neighbours g pv) (fun _ => True) xs s.visited s'.visited
  recorded : Recorded g s.visited s s'

omit [DecidableEq V] in
theorem Recorded.refl (s : Search V) : Recorded g s.visited s s :=
  fun _ _ => ⟨.inl, fun h => h.elim id fun ⟨fresh, known, _⟩ => absurd known fresh⟩

theorem Searched.nil (s : Search V) : Searched g pv [] s s := ⟨.nil _, .refl s⟩

theorem Searched.append {xs ys : List V} {s mid s' : Search V} (first : Searched g pv xs s mid)
    (rest : Searched g pv ys mid s') : Searched g pv (xs ++ ys) s s' :=
  ⟨first.loop.append rest.loop,
    first.recorded.trans rest.recorded first.loop.grows rest.loop.grows⟩

/-- What the search of a value has to do in every state that has visited `seen`. -/
def Searches (g : UseGraph V) (pv : V) (seen : List V)
    (dependents : V → Search V → Except Fault (Search V)) : Prop :=
  ∀ x s, seen ⊆ s.visited → Yields (dependents x s) (Searched g pv [x] s)

section
variable {seen : List V} {dependents : V → Search V → Except Fault (Search V)}

/-- The loop over the users. -/
theorem users_spec (each : Searches g pv seen dependents) (users : List V) {s : Search V}
    (grows : seen ⊆ s.visited) :
    Yields (users.foldlM (fun s user => dependents user s) s) (Searched g pv users s) := by
  induction users generalizing s with
  | nil => exact .ok (.nil s)
  | cons user users ih =>
    rw [List.foldlM_cons]
    refine (each user s grows).bind fun mid first => ?_
    exact (ih (List.Subset.trans grows first.loop.grows)).mono fun s' rest => first.append rest

/-- A marked value is recorded, and its operand is searched. -/
theorem enter_spec {x : V} {s : Search V} (mark : ∀ z, z ∈ s.visited ↔ z = x ∨ z ∈ seen)
    (fresh : x ∉ seen) (each : Searches g pv s.visited dependents) :
    Yields (enter g dependents x s) fun s' => Recorded g seen s s' ∧
      Loop (neighbours g pv) (fun _ => True) (g.kind x).operand s.visited s'.visited := by
  have start : Recorded g s.visited s s := .refl s
  unfold enter
  cases kind : g.kind x with
  | instruction =>
    have isClass : (g.kind x).class = some .insts := by rw [kind]; rfl
    exact .ok ⟨start.record mark (List.Subset.refl _) fresh isClass, .nil _⟩
  | globalVariable =>
    have isClass : (g.kind x).class = some .globs := by rw [kind]; rfl
    exact .ok ⟨start.record mark (List.Subset.refl _) fresh isClass, .nil _⟩
  | other => exact .ok ⟨.skip mark (by rw [kind]; rfl), .nil _⟩
  | constantExpr opcode operand =>
    have isClass : (g.kind x).class = some .ces := by rw [kind]; rfl
    have first : Yields (if opcode = .other then .ok s else dependents operand s) fun mid =>
        ∃ xs ⊆ [operand], Searched g pv xs s mid := by
      split_ifs
      · exact .ok ⟨[], List.nil_subset _, .nil s⟩
      · exact (each operand s (List.Subset.refl _)).mono fun mid done =>
          ⟨_, List.Subset.refl _, done⟩
    refine first.bind fun mid ⟨xs, sub, before⟩ => ?_
    have recorded : Recorded g seen s (mid.record x .ces) :=
      before.recorded.record mark before.loop.grows fresh isClass
    refine (each operand (mid.record x .ces) before.loop.grows).mono fun s' after => ?_
    refine ⟨recorded.trans after.recorded
      (fun z hz => before.loop.grows ((mark z).mpr (.inr hz))) after.loop.grows, ?_⟩
    exact (before.loop.append after.loop).congr fun z =>
      ⟨fun mem => (List.mem_append.mp mem).elim (fun h => sub h) id, List.mem_append_right _⟩

end

theorem mem_insert {x z : V} {seen : List V} : z ∈ seen.insert x ↔ z = x ∨ z ∈ seen :=
  List.mem_insert_iff

/-- The search of a value that is not the first one. -/
theorem getDependentValues_spec [Fintype V] {fuel : Nat} {x : V} {s : Search V}
    (started : pv ∈ s.visited) (enough : left s.visited < fuel) :
    Yields (getDependentValues g fuel x s) (Searched g pv [x] s) := by
  induction fuel generalizing x s with
  | zero => omega
  | succ fuel ih =>
    rw [getDependentValues]
    by_cases known : x ∈ s.visited
    · rw [if_pos known]
      exact .ok ⟨Visit.known known, .refl s⟩
    · rw [if_neg known]
      have later : s.visited.isEmpty = false := by
        cases visited : s.visited with
        | nil =>
          rw [visited] at started
          cases started
        | cons y ys => rfl
      have fewer : left (s.visited.insert x) < left s.visited := left_mark known fun z => mem_insert
      have each : Searches g pv (s.visited.insert x) (getDependentValues g fuel) := by
        intro y t grows
        have := left_anti grows
        exact ih (grows (mem_insert.mpr (.inr started))) (by omega)
      simp only [later, Bool.false_eq_true, if_false]
      refine (enter_spec (s := { s with visited := s.visited.insert x }) (fun z => mem_insert) known
        each).bind fun entered ⟨recorded, loop⟩ => ?_
      refine (users_spec each (g.users x) loop.grows).mono fun s' users => ?_
      have neighbours_x : neighbours g pv x = (g.kind x).operand ++ g.users x := by
        rw [neighbours, if_neg]
        rintro rfl
        exact known started
      refine ⟨Visit.enter (fun z => mem_insert) trivial ?_, ?_⟩
      · rw [neighbours_x]
        exact loop.append users.loop
      · exact recorded.trans users.recorded
          (fun z hz => loop.grows (mem_insert.mpr (.inr hz))) users.loop.grows

/-- The search ends, and finds the instructions, the global variables and the constant expressions
that depend on the value. -/
theorem getDependentValues_iff [Fintype V] (g : UseGraph V) (pv : V) {fuel : Nat}
    (enough : Fintype.card V < fuel) :
    ∃ s, getDependentValues g fuel pv .empty = .ok s ∧ ∀ x,
      (x ∈ s.insts ↔ Depends g pv x ∧ g.kind x = .instruction) ∧
      (x ∈ s.globs ↔ Depends g pv x ∧ g.kind x = .globalVariable) ∧
      (x ∈ s.ces ↔ Depends g pv x ∧ ∃ opcode operand, g.kind x = .constantExpr opcode operand) := by
  obtain ⟨n, rfl⟩ : ∃ n, fuel = n + 1 := ⟨fuel - 1, by omega⟩
  have fresh : pv ∉ ([] : List V) := List.not_mem_nil
  have mark : ∀ z, z ∈ [pv] ↔ z = pv ∨ z ∈ ([] : List V) := fun z => List.mem_cons
  have each : Searches g pv [pv] (getDependentValues g n) := by
    intro x s grows
    have fewer := left_mark fresh mark
    have := left_anti grows
    rw [left_nil] at fewer
    exact getDependentValues_spec (grows List.mem_cons_self) (by omega)
  obtain ⟨s, ran, searched⟩ :=
    users_spec each (g.users pv) (s := ⟨[], [], [], [pv]⟩) (List.Subset.refl _)
  have visit : Visit (neighbours g pv) (fun _ => True) pv [] s.visited := by
    refine Visit.enter mark trivial ?_
    rw [neighbours, if_pos rfl]
    exact searched.loop
  have same : Edge (neighbours g pv) = Step g pv := by
    funext x y
    exact propext step_iff.symm
  have members : ∀ c x, x ∈ s.members c ↔ Depends g pv x ∧ (g.kind x).class = some c := by
    intro c x
    have nothing : x ∉ (Search.mk [] [] [] [pv]).members c := by cases c <;> exact List.not_mem_nil
    rw [searched.recorded c x, or_iff_right nothing, visit.mem_iff, same, List.mem_singleton,
      ← and_assoc]
    rfl
  refine ⟨s, ran, fun x => ⟨?_, ?_, ?_⟩⟩
  · exact (members .insts x).trans (and_congr_right fun _ => class_insts)
  · exact (members .globs x).trans (and_congr_right fun _ => class_globs)
  · exact (members .ces x).trans (and_congr_right fun _ => class_ces)

/-- A global variable 0 with the constant expression 1, which a phi 2 in a loop with 3 uses. The
constant expression 5 with the same operand has no users. -/
def phiInLoop : UseGraph (Fin 6) where
  kind
    | 0 => .globalVariable
    | 1 => .constantExpr .getElementPtr 0
    | 2 | 3 => .instruction
    | 4 => .other
    | 5 => .constantExpr .other 0
  users
    | 0 => [1, 5]
    | 1 => [2]
    | 2 => [3, 3]
    | 3 => [2]
    | _ => []

theorem phiInLoop_searched : ∃ s, getDependentValues phiInLoop 7 1 .empty = .ok s ∧ ∀ x,
    (x ∈ s.insts ↔ Depends phiInLoop 1 x ∧ phiInLoop.kind x = .instruction) ∧
    (x ∈ s.globs ↔ Depends phiInLoop 1 x ∧ phiInLoop.kind x = .globalVariable) ∧
    (x ∈ s.ces ↔ Depends phiInLoop 1 x ∧
      ∃ opcode operand, phiInLoop.kind x = .constantExpr opcode operand) :=
  getDependentValues_iff phiInLoop 1 (by decide)

example : (getDependentValues phiInLoop 7 0 .empty).map Search.insts = .ok [3, 2] := by decide

end DependentValues
