import ClamBC.LogicalShape

/-!
# The form of the nodes in the set

Whatever constructors are called, and in whatever order the pointer sets are walked, the
connectives in the set are flat: they have two different members or more, and among these
are neither constants nor connectives of the same kind. One level of flattening is enough
for a disjunction because its members come from disjunctions that are flat already.
-/

namespace LogicalNormal

open LogicalNode LogicalShape Fallible

/-- A node of the set after some calls. The calls that a constructor makes itself are calls too. -/
inductive Constructed : Node → Prop
  | const (b : Bool) : Constructed (.const b)
  | subsig (id : Word) : Constructed (.subsig id)
  | eq {n m : Node} (v : Word) : Constructed n → getEQ n v = .ok m → Constructed m
  | range {n m : Node} (o : PtrOrder) (min max : Word) : Constructed n →
      getRange o (getGT o n) (getLT o n) min max = .ok m → Constructed m
  | lt {n m : Node} (o : PtrOrder) (v : Word) : Constructed n → getLT o n v = .ok m → Constructed m
  | gt {n m : Node} (o : PtrOrder) (v : Word) : Constructed n → getGT o n v = .ok m → Constructed m
  | unique {n : Node} : Constructed n → Constructed (getUniqueSigs n)
  | and {V : List Node} (o : PtrOrder) : V ≠ [] → (∀ n ∈ V, Constructed n) →
      Constructed (getAnd o V)
  | or {V : List Node} (o : PtrOrder) : V ≠ [] → (∀ n ∈ V, Constructed n) → Constructed (getOr o V)
  | not {n m : Node} (o : PtrOrder) : Constructed n → getNot o n = .ok m → Constructed m
  | addOff {n : Node} (off : Word) : Constructed n → Constructed (getAddOff n off)
  | add {l r m : Node} : Constructed l → Constructed r → getAdd l r = .ok (some m) → Constructed m
  | child {n c : Node} : Constructed n → some c ∈ n.children → Constructed c

/-- The members of a connective: several different ones, no constant, and none of the excluded kind.
-/
structure Flat (excluded : Node → Prop) (cs : List Node) : Prop where
  wide : 2 ≤ cs.length
  nodup : cs.Nodup
  notConst : ∀ c ∈ cs, ∀ b, c ≠ .const b
  notExcluded : ∀ c ∈ cs, ¬ excluded c

def IsAnd (n : Node) : Prop := ∃ cs, n = .and cs

def IsOr (n : Node) : Prop := ∃ cs, n = .or cs

/-- All connectives at and below the node are flat, and no sum is empty. -/
inductive Normal : Node → Prop
  | subsig (i : Word) : Normal (.subsig i)
  | const (b : Bool) : Normal (.const b)
  | and {cs : List Node} : Flat IsAnd cs → (∀ c ∈ cs, Normal c) → Normal (.and cs)
  | or {cs : List Node} : Flat IsOr cs → (∀ c ∈ cs, Normal c) → Normal (.or cs)
  | eq {x y : Word} {c : Node} : Normal c → Normal (.eq x y c)
  | gt {x : Word} {c : Node} : Normal c → Normal (.gt x c)
  | lt {x : Word} {c : Node} : Normal c → Normal (.lt x c)
  | sums {k : SumKind} {cs : List Node} : cs ≠ [] → (∀ c ∈ cs, Normal c) → Normal (.sums k cs)
  | not {c : Node} : Normal c → Normal (.not c)
  | add {u : Word} {c : Option Node} : (∀ d, c = some d → Normal d) → Normal (.add u c)

theorem Normal.children {n : Node} (normal : Normal n) : ∀ c, some c ∈ n.children → Normal c := by
  have listed : ∀ {cs : List Node}, (∀ c ∈ cs, Normal c) → ∀ c, some c ∈ cs.map some →
      Normal c := by
    intro cs each c hc
    obtain ⟨d, hd, same⟩ := List.mem_map.mp hc
    rw [← Option.some.inj same]
    exact each d hd
  have single : ∀ {d : Node}, Normal d → ∀ c, some c ∈ [some d] → Normal c := by
    intro d normal c hc
    cases List.mem_singleton.mp hc
    exact normal
  cases normal with
  | subsig i => exact nofun
  | const b => exact nofun
  | and _ each => exact listed each
  | or _ each => exact listed each
  | eq inner => exact single inner
  | gt inner => exact single inner
  | lt inner => exact single inner
  | sums _ each => exact listed each
  | not inner => exact single inner
  | add inner => exact fun c hc => inner c (List.mem_singleton.mp hc).symm

/-! ## Every constructor keeps the form -/

theorem normal_formed : Formed Normal where
  const := .const
  members := fun h => by
    cases h with
    | and _ each => exact each
  alternatives := fun h => by
    cases h with
    | or _ each => exact each
  and := fun wide nodup each origin => by
    refine .and ⟨wide, nodup, fun c hc => (origin c hc).1, ?_⟩ each
    rintro c hc ⟨ds, rfl⟩
    exact (origin _ hc).2 ds rfl
  or := fun {cs} wide nodup each origin => by
    have flat : ∀ c ∈ cs, (∀ b, c ≠ .const b) ∧ ¬ IsOr c := by
      intro c hc
      rcases origin c hc with ⟨notConst, notOr⟩ | ⟨ds, before, hc⟩
      · refine ⟨notConst, ?_⟩
        rintro ⟨ds, rfl⟩
        exact notOr ds rfl
      · cases before with
        | or flat _ => exact ⟨flat.notConst c hc, flat.notExcluded c hc⟩
    exact .or ⟨wide, nodup, fun c hc => (flat c hc).1, fun c hc => (flat c hc).2⟩ each
  pair := fun x y cs _ left _ => by
    cases left with
    | eq inner => exact .eq inner

theorem normal_compared : Compared (fun _ => True) Normal Normal where
  below := fun h => h.children _ (List.mem_singleton_self _)
  null := fun _ => trivial
  self := fun h => h
  lt := fun h _ _ => .lt h
  gt := fun h _ _ => .gt h

theorem getEQPlain_normal {n : Node} (normal : Normal n) (v : Word) : Normal (getEQPlain n v) := by
  unfold getEQPlain
  split
  · cases normal with
    | sums some each => exact .eq (.sums some each)
  · cases normal with
    | sums some each => exact .eq (.sums some each)
  · exact .eq normal

theorem getEQ_normal {n : Node} (normal : Normal n) (v : Word) :
    Meets (fun _ => True) Normal (getEQ n v) := by
  unfold getEQ
  split
  · exact getEQPlain_normal (normal.children _ (List.mem_singleton_self _)) _
  · trivial
  · exact getEQPlain_normal normal v

theorem normal_negated : Negated (fun _ => True) Normal Normal Normal where
  formed := normal_formed
  compared := normal_compared
  equal := getEQ_normal
  members := normal_formed.members
  alternatives := normal_formed.alternatives
  subsig := fun h => h
  ofEQ := fun h => h.children _ (List.mem_singleton_self _)
  ofGT := fun h => h.children _ (List.mem_singleton_self _)
  ofLT := fun h => h.children _ (List.mem_singleton_self _)
  not := fun h => h.children _ (List.mem_singleton_self _)
  sums := fun _ => trivial
  add := fun _ => trivial

theorem normal_summed : Summed (fun _ => True) Normal Normal where
  null := trivial
  count := .subsig
  members := fun h => by
    cases h with
    | sums some each => exact ⟨some, each⟩
  sums := .sums
  below := fun h => h.children _ (List.mem_singleton_self _)
  offset := .add

theorem Constructed.normal {n : Node} (constructed : Constructed n) : Normal n := by
  induction constructed with
  | const b => exact .const b
  | subsig id => exact .subsig id
  | eq v _ ran ih => exact (getEQ_normal ih v).of_ok ran
  | range o min max _ ran ih =>
    obtain ⟨lt, gt⟩ := normal_compared.getLT_getGT (o := o) normal_formed ih
    exact (normal_formed.getRange gt lt min max).of_ok ran
  | lt o v _ ran ih => exact ((normal_compared.getLT_getGT normal_formed ih).1 v).of_ok ran
  | gt o v _ ran ih => exact ((normal_compared.getLT_getGT normal_formed ih).2 v).of_ok ran
  | unique _ ih => exact .sums (List.cons_ne_nil _ _) (by simpa using ih)
  | and o _ _ ih => exact normal_formed.getAnd ih
  | or o _ _ ih => exact normal_formed.getOr ih
  | not o _ ran ih => exact (normal_negated.getNot ih).of_ok ran
  | addOff off _ ih =>
    refine .add ?_
    rintro d ⟨⟩
    exact ih
  | add _ _ ran left right => exact (normal_summed.getAdd left right).of_ok ran _ rfl
  | child _ hc ih => exact ih.children _ hc

/-- Every connective of the set is flat. -/
theorem connectives_flat {cs : List Node} :
    (Constructed (.and cs) → Flat IsAnd cs) ∧ (Constructed (.or cs) → Flat IsOr cs) := by
  constructor
  · intro constructed
    cases constructed.normal with
    | and flat _ => exact flat
  · intro constructed
    cases constructed.normal with
    | or flat _ => exact flat

theorem connectives_flat_pair : Flat IsAnd [.subsig 1, .subsig 0] := by
  refine connectives_flat.1 ?_
  have run : getAnd .inOrder [.subsig 0, .subsig 1] = .and [.subsig 1, .subsig 0] := by decide
  rw [← run]
  refine .and .inOrder (List.cons_ne_nil _ _) fun n hn => ?_
  rcases List.mem_pair.mp hn with rfl | rfl
  · exact .subsig 0
  · exact .subsig 1

end LogicalNormal
