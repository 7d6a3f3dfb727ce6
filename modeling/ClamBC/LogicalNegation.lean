import ClamBC.LogicalCompare

/-!
# Negation of comparisons of counts

On conditions made of match counts, comparisons of counts and of their sums, and the
connectives, `getNot` always has a result, the result has no negation in it, and it is the
opposite of the condition. It is such a condition again, except that `sum != 0` has
become the sum.
-/

namespace LogicalNegation

open LogicalNode LogicalShape LogicalMeaning LogicalConjunction LogicalCompare Fallible

/-- A match count or a sum of match counts. -/
inductive CountSum : Node → Prop
  | subsig (i : Word) : CountSum (.subsig i)
  | sums {k : SumKind} {is : List Word} : k ≠ .uniq → CountSum (.sums k (is.map .subsig))

/-- A condition on match counts, in which a sum may or may not stand for a condition. -/
inductive Logical (bare : Bool) : Node → Prop
  | const (b : Bool) : Logical bare (.const b)
  | subsig (i : Word) : Logical bare (.subsig i)
  | eq {x : Word} {n : Node} : CountSum n → Logical bare (.eq x maxWord n)
  | gt {x : Word} {n : Node} : CountSum n → Logical bare (.gt x n)
  | lt {x : Word} {n : Node} : CountSum n → Logical bare (.lt x n)
  | and {cs : List Node} : cs ≠ [] → (∀ c ∈ cs, Logical bare c) → Logical bare (.and cs)
  | or {cs : List Node} : cs ≠ [] → (∀ c ∈ cs, Logical bare c) → Logical bare (.or cs)
  | sum {n : Node} : bare = true → CountSum n → Logical bare n

mutual

def containsNot : Node → Bool
  | .not _ => true
  | .and cs => containsNotIn cs
  | .or cs => containsNotIn cs
  | .eq _ _ c => containsNot c
  | .gt _ c => containsNot c
  | .lt _ c => containsNot c
  | .sums _ cs => containsNotIn cs
  | .add _ (some c) => containsNot c
  | _ => false

def containsNotIn : List Node → Bool
  | [] => false
  | c :: cs => containsNot c || containsNotIn cs

end

theorem containsNotIn_eq_false {cs : List Node} (each : ∀ c ∈ cs, containsNot c = false) :
    containsNotIn cs = false := by
  induction cs with
  | nil => rfl
  | cons c cs ih =>
    rw [containsNotIn, each c List.mem_cons_self, ih fun d hd => each d (List.mem_cons_of_mem c hd)]
    rfl

section
variable {o : PtrOrder} {counts : Counts} {bare : Bool} {n m : Node}

theorem CountSum.no_not (count : CountSum n) : containsNot n = false := by
  cases count with
  | subsig i => rfl
  | sums _ =>
    refine containsNotIn_eq_false fun c hc => ?_
    obtain ⟨i, -, rfl⟩ := List.mem_map.mp hc
    rfl

theorem Logical.no_not (logical : Logical bare n) : containsNot n = false := by
  induction logical with
  | const b => rfl
  | subsig i => rfl
  | eq count => exact count.no_not
  | gt count => exact count.no_not
  | lt count => exact count.no_not
  | and _ _ ih => exact containsNotIn_eq_false ih
  | or _ _ ih => exact containsNotIn_eq_false ih
  | sum _ count => exact count.no_not

theorem CountSum.not_add (count : CountSum n) (u : Word) (c : Option Node) : n ≠ .add u c := by
  cases count <;> exact nofun

theorem CountSum.eqOk (count : CountSum n) (v : Word) : EqOk n v := by
  cases count with
  | subsig i => exact nofun
  | @sums k is notUniq =>
    intro isUniq
    cases k with
    | uniq => exact absurd rfl notUniq
    | _ => cases isUniq

theorem CountSum.lessOk (count : CountSum n) (v : Word) : LessOk n v := by
  cases count <;> trivial

theorem CountSum.moreOk (count : CountSum n) (v : Word) : MoreOk n v := by
  cases count <;> trivial

theorem CountSum.getEQ (count : CountSum n) (v : Word) :
    ∃ c, getEQ n v = .ok (.eq v maxWord c) ∧ CountSum c := by
  cases count with
  | subsig i => exact ⟨_, rfl, .subsig i⟩
  | @sums k is notUniq =>
    cases k with
    | uniq => exact absurd rfl notUniq
    | _ => exact ⟨_, rfl, @CountSum.sums .both is nofun⟩

/-- All comparisons are of totals. -/
theorem Logical.total {x y : Word} (logical : Logical bare (.eq x y n)) : y = maxWord := by
  cases logical with
  | eq _ => rfl
  | sum _ count => cases count

theorem noClash_of_logical {ns : List Node} (each : ∀ n ∈ ns, Logical bare n) : NoClash ns := by
  intro x cs notMax _ right
  exact notMax (each _ right).total

theorem logical_formed : Formed (Logical bare) where
  const := .const
  members := fun h => by
    cases h with
    | and _ each => exact each
    | sum _ count => cases count
  alternatives := fun h => by
    cases h with
    | or _ each => exact each
    | sum _ count => cases count
  and := fun wide _ each _ => .and (List.ne_nil_of_length_pos (by omega)) each
  or := fun wide _ each _ => .or (List.ne_nil_of_length_pos (by omega)) each
  pair := fun _ _ _ notMax _ right => absurd right.total notMax

theorem compared_countSum {E : Fault → Prop} : Compared E CountSum (Logical true) where
  below := fun count => absurd rfl (count.not_add _ _)
  null := fun count => absurd rfl (count.not_add _ _)
  self := .sum rfl
  lt := fun count _ _ => .lt count
  gt := fun count _ _ => .gt count

/-- Only a sum that stands for a condition cannot be negated. -/
theorem negated_logical {E : Fault → Prop} (sums : bare = true → E .invalidNegation) :
    Negated E (Logical bare) CountSum (Logical true) where
  formed := logical_formed
  compared := compared_countSum
  equal := fun count v => by
    obtain ⟨c, ran, inner⟩ := count.getEQ v
    rw [ran]
    exact .eq inner
  members := logical_formed.members
  alternatives := logical_formed.alternatives
  subsig := fun _ => .subsig _
  ofEQ := fun h => by
    cases h with
    | eq count => exact count
    | sum _ count => cases count
  ofGT := fun h => by
    cases h with
    | gt count => exact count
    | sum _ count => cases count
  ofLT := fun h => by
    cases h with
    | lt count => exact count
    | sum _ count => cases count
  not := fun h => by
    cases h with
    | sum _ count => cases count
  sums := fun h => by
    cases h with
    | sum isBare _ => exact sums isBare
  add := fun h => by
    cases h with
    | sum _ count => cases count

theorem notsOk_iff {cs : List Node} : NotsOk o cs ↔ ∀ c ∈ cs, NotOk o c := by
  induction cs with
  | nil => simp [NotsOk]
  | cons c cs ih => simp [NotsOk, ih]

/-- The comparisons that negation makes of a condition are right. -/
theorem Logical.notOk (logical : Logical bare n) : NotOk o n := by
  induction logical with
  | const b => trivial
  | subsig i => trivial
  | eq count => exact ⟨rfl, count.lessOk _, count.moreOk _⟩
  | gt count => exact ⟨count.lessOk _, count.eqOk _⟩
  | lt count => exact ⟨count.moreOk _, count.eqOk _⟩
  | and _ _ ih => exact notsOk_iff.mpr ih
  | or _ each ih =>
    refine ⟨notsOk_iff.mpr ih, fun ns negations => ?_⟩
    have negated := @negated_logical bare (fun _ => True) fun _ => trivial
    have results : ∀ n ∈ ns, Logical true n :=
      (getNots_each fun c hc => negated.getNot (each c hc)).of_ok negations
    exact andKept_of_noClash (noClash_of_logical (popped_have logical_formed.members results))
  | sum _ count => cases count <;> trivial

/-- Negation has a result without negations, which is the opposite of the condition. -/
theorem getNot_opposite (o : PtrOrder) (logical : Logical false n) :
    ∃ m, getNot o n = .ok m ∧ containsNot m = false ∧ Logical true m ∧ ∀ counts, Holds counts m ↔
      ¬ Holds counts n := by
  have negated := @negated_logical false (fun _ => False) nofun
  obtain ⟨m, ran, result⟩ := (negated.getNot (o := o) logical).yields
  exact ⟨m, ran, result.no_not, result, fun counts => holds_getNot logical.notOk ran⟩

end

theorem getNot_opposite_third :
    ∃ m, getNot .inOrder (.and [.subsig 0, .gt 3 (.sums .sum [.subsig 1, .subsig 2])]) = .ok m ∧
    containsNot m = false ∧ Logical true m ∧
    ∀ counts, Holds counts m ↔
      ¬ Holds counts (.and [.subsig 0, .gt 3 (.sums .sum [.subsig 1, .subsig 2])]) := by
  refine getNot_opposite .inOrder (.and (List.cons_ne_nil _ _) fun c hc => ?_)
  rcases List.mem_pair.mp hc with rfl | rfl
  · exact .subsig 0
  · exact .gt (@CountSum.sums .sum [1, 2] nofun)

end LogicalNegation
