import ClamBC.LogicalShape
import Mathlib.Algebra.BigOperators.Group.List.Basic

/-!
# What a node means

On a vector of match counts every node has a value, a 32-bit word. It is true when the
value is not 0; comparisons and connectives have the value 0 or 1. An `=X` compares the
total count of a group, an `=Y,Y` the number of its members that matched, and an `=X,Y`
with different operands compares both.

Conjunctions are true when all of their members are, unless an `=X` is merged with an
`=X,X` of the same group: the merged node is then read as an `=Y,Y` and the comparison
of the total is lost.
-/

namespace LogicalMeaning

open LogicalNode LogicalShape

abbrev Counts := Nat → Word

def ofBool (b : Bool) : Word := if b then 1 else 0

@[simp] theorem ofBool_ne_zero {b : Bool} : ofBool b ≠ 0 ↔ b = true := by
  cases b <;> decide

/-- The comparison of an EQ node, given the total count of the group and how many of its members
matched. -/
def holdsEq (op0 op1 total matched : Word) : Bool :=
  if op1 = maxWord then total = op0
  else if op0 = op1 then matched = op1
  else total = op0 && matched = op1

section
variable (counts : Counts)

mutual

def value : Node → Word
  | .subsig id => counts id.toNat
  | .and cs => ofBool (allTrue cs)
  | .or cs => ofBool (someTrue cs)
  | .eq op0 op1 c => ofBool (holdsEq op0 op1 (value c) (distinct c))
  | .gt op0 c => ofBool (op0 < value c)
  | .lt op0 c => ofBool (value c < op0)
  | .sums .uniq cs => matched cs
  | .sums .sum cs => total cs
  | .sums .both cs => total cs
  | .not c => ofBool (value c = 0)
  | .const b => ofBool b
  | .add op0 (some c) => op0 + value c
  | .add _ none => 0

/-- How many members of a group matched. Only sums are groups. -/
def distinct : Node → Word
  | .sums _ cs => matched cs
  | _ => 0

def total : List Node → Word
  | [] => 0
  | c :: cs => value c + total cs

def matched : List Node → Word
  | [] => 0
  | c :: cs => ofBool (value c != 0) + matched cs

def allTrue : List Node → Bool
  | [] => true
  | c :: cs => value c != 0 && allTrue cs

def someTrue : List Node → Bool
  | [] => false
  | c :: cs => value c != 0 || someTrue cs

end

def Holds (n : Node) : Prop := value counts n ≠ 0

instance (n : Node) : Decidable (Holds counts n) := inferInstanceAs (Decidable (_ ≠ _))

end

variable {counts : Counts} {o : PtrOrder}

@[simp] theorem holds_const {b : Bool} : Holds counts (.const b) ↔ b = true := ofBool_ne_zero

@[simp] theorem holds_and {cs : List Node} : Holds counts (.and cs) ↔ ∀ c ∈ cs, Holds counts c := by
  have all : allTrue counts cs = true ↔ ∀ c ∈ cs, Holds counts c := by
    induction cs with
    | nil => simp [allTrue]
    | cons c cs ih => simp [allTrue, ih, Holds]
  exact ofBool_ne_zero.trans all

@[simp] theorem holds_or {cs : List Node} : Holds counts (.or cs) ↔ ∃ c ∈ cs, Holds counts c := by
  have some : someTrue counts cs = true ↔ ∃ c ∈ cs, Holds counts c := by
    induction cs with
    | nil => simp [someTrue]
    | cons c cs ih => simp [someTrue, ih, Holds]
  exact ofBool_ne_zero.trans some

@[simp] theorem holds_gt {v : Word} {c : Node} : Holds counts (.gt v c) ↔ v < value counts c := by
  simp only [Holds, value, ofBool_ne_zero, decide_eq_true_eq]

@[simp] theorem holds_lt {v : Word} {c : Node} : Holds counts (.lt v c) ↔ value counts c < v := by
  simp only [Holds, value, ofBool_ne_zero, decide_eq_true_eq]

@[simp] theorem holds_eq {x y : Word} {c : Node} :
    Holds counts (.eq x y c) ↔ holdsEq x y (value counts c) (distinct counts c) = true :=
  ofBool_ne_zero

theorem holds_eq_total {x : Word} {c : Node} :
    Holds counts (.eq x maxWord c) ↔ value counts c = x := by
  simp [holdsEq]

theorem holds_eq_distinct {y : Word} {c : Node} (notMax : y ≠ maxWord) :
    Holds counts (.eq y y c) ↔ distinct counts c = y := by
  simp [holdsEq, notMax]

/-! Conjunction and disjunction. -/

mutual

theorem holds_conjuncts : ∀ {n : Node}, (∀ m ∈ conjuncts n, Holds counts m) ↔ Holds counts n
  | .and cs => by rw [conjuncts, holds_popped, holds_and]
  | .subsig _ => by simp [conjuncts]
  | .or _ => by simp [conjuncts]
  | .eq _ _ _ => by simp [conjuncts]
  | .gt _ _ => by simp [conjuncts]
  | .lt _ _ => by simp [conjuncts]
  | .sums _ _ => by simp [conjuncts]
  | .not _ => by simp [conjuncts]
  | .const _ => by simp [conjuncts]
  | .add _ _ => by simp [conjuncts]

theorem holds_popped : ∀ {V : List Node}, (∀ m ∈ popped V, Holds counts m) ↔ ∀ n ∈ V, Holds counts n
  | [] => by simp [popped]
  | c :: cs => by
    have first := holds_conjuncts (n := c)
    have rest := holds_popped (V := cs)
    simp only [popped, List.mem_append, List.mem_cons, forall_eq_or_imp, ← first, ← rest]
    constructor
    · exact fun h => ⟨fun m hm => h m (Or.inr hm), fun m hm => h m (Or.inl hm)⟩
    · rintro ⟨left, right⟩ m (hm | hm)
      · exact right m hm
      · exact left m hm

end

/-- No `=X` and `=X,X` of one group. -/
def NoClash (taken : List Node) : Prop :=
  ∀ x cs, x ≠ maxWord → .eq x maxWord (.sums .both cs) ∈ taken → .eq x x (.sums .both cs) ∉ taken

/-- With different numbers the merged comparison means both. -/
theorem holds_pair {x y : Word} {c : Node} (notMax : y ≠ maxWord) (ne : x ≠ y) :
    Holds counts (.eq x y c) ↔ Holds counts (.eq x maxWord c) ∧ Holds counts (.eq y y c) := by
  simp [holdsEq, notMax, ne]

/-- The merged comparison of a group means both comparisons. -/
def PairHolds (counts : Counts) (group : Node) (p : Word × Word) : Prop :=
  Holds counts (.eq p.1 p.2 group) ↔ Holds counts (.eq p.1 maxWord group) ∧
    Holds counts (.eq p.2 p.2 group)

theorem holds_merge {group : Node} {addsum adduniq : List Word}
    (pairs : ∀ p ∈ addsum.zip adduniq, PairHolds counts group p) :
    (∀ n ∈ merge group addsum adduniq, Holds counts n) ↔
      (∀ x ∈ addsum, Holds counts (.eq x maxWord group)) ∧
        ∀ y ∈ adduniq, Holds counts (.eq y y group) := by
  fun_induction merge group addsum adduniq with
  | case1 adduniq =>
    constructor
    · refine fun h => ⟨by simp, fun y hy => h _ ?_⟩
      exact List.mem_map.mpr ⟨y, List.mem_reverse.mpr hy, rfl⟩
    · rintro ⟨-, h⟩ n hn
      obtain ⟨y, hy, rfl⟩ := List.mem_map.mp hn
      exact h y (List.mem_reverse.mp hy)
  | case2 x addsum ih =>
    have rest := ih (by simp)
    rw [List.forall_mem_cons, List.forall_mem_cons, rest]
    exact and_assoc.symm
  | case3 x addsum y adduniq ih =>
    have rest := ih fun p hp => pairs p (List.mem_cons_of_mem _ hp)
    have pair := pairs (x, y) List.mem_cons_self
    unfold PairHolds at pair
    rw [List.forall_mem_cons, List.forall_mem_cons, List.forall_mem_cons, rest, pair]
    exact and_and_and_comm

/-- The operands that are merged for a group. -/
def mergedPairs (taken : List Node) (group : Node) : List (Word × Word) :=
  let same := (taken.filterMap groupComparison).filter fun a => a.1 = group
  ((same.filter fun a => a.2.2 = maxWord).map fun a => a.2.1).zip
    ((same.filter fun a => a.2.2 ≠ maxWord).map fun a => a.2.2).reverse

theorem mem_mergedPairs {taken : List Node} {group : Node} {p : Word × Word}
    (h : p ∈ mergedPairs taken group) :
    p.2 ≠ maxWord ∧ .eq p.1 maxWord group ∈ taken ∧ .eq p.2 p.2 group ∈ taken := by
  obtain ⟨left, right⟩ := List.of_mem_zip h
  obtain ⟨notMax, -, uniq⟩ := mem_adduniq.mp right
  exact ⟨notMax, (mem_addsum.mp left).2, uniq⟩

theorem pairs_of_noClash {taken : List Node} (noClash : NoClash taken) (cs : List Node) :
    ∀ p ∈ mergedPairs taken (.sums .both cs), PairHolds counts (.sums .both cs) p := by
  intro p hp
  obtain ⟨notMax, sum, uniq⟩ := mem_mergedPairs hp
  refine holds_pair notMax fun same => ?_
  rw [same] at sum
  exact noClash p.2 cs notMax sum uniq

theorem holds_conjoined {taken : List Node}
    (pairs : ∀ cs, ∀ p ∈ mergedPairs taken (.sums .both cs), PairHolds counts (.sums .both cs) p) :
    (∀ n ∈ conjoined o taken, Holds counts n) ↔ ∀ n ∈ taken, Holds counts n := by
  let adds := taken.filterMap groupComparison
  have merged : ∀ cs, (∀ n ∈ mergeGroup adds (.sums .both cs), Holds counts n) ↔
      (∀ x, .eq x maxWord (.sums .both cs) ∈ taken →
        Holds counts (.eq x maxWord (.sums .both cs))) ∧
        ∀ y, y ≠ maxWord → .eq y y (.sums .both cs) ∈ taken →
          Holds counts (.eq y y (.sums .both cs)) := by
    intro cs
    have isGroup : ∀ x y : Word, y = maxWord ∨ x = y →
        groupComparison (.eq x y (.sums .both cs)) ≠ none := by
      intro x y modifier
      rw [groupComparison_eq modifier]
      exact nofun
    simp only [mergeGroup, adds]
    rw [holds_merge (pairs cs)]
    constructor
    · rintro ⟨sums, uniqs⟩
      refine ⟨fun x hx => sums x (mem_addsum.mpr ⟨isGroup _ _ (Or.inl rfl), hx⟩), fun y ne hy => ?_⟩
      exact uniqs y (mem_adduniq.mpr ⟨ne, isGroup _ _ (Or.inr rfl), hy⟩)
    · rintro ⟨sums, uniqs⟩
      refine ⟨fun x hx => sums x (mem_addsum.mp hx).2, fun y hy => ?_⟩
      obtain ⟨ne, -, hy⟩ := mem_adduniq.mp hy
      exact uniqs y ne hy
  constructor
  · intro h n hn
    by_cases isTrue : n = .const true
    · subst isTrue
      exact holds_const.mpr rfl
    cases found : groupComparison n with
    | none =>
      refine h n (mem_inserted.mpr (List.mem_append_left _ ?_))
      exact List.mem_filter.mpr ⟨hn, by simp [isTrue, found]⟩
    | some a =>
      obtain ⟨group, x, y⟩ := a
      have member := group_mem_keys (o := o) hn found
      obtain ⟨rfl, ⟨cs, rfl⟩, modifier⟩ := groupComparison_some found
      have all := (merged cs).mp fun m hm =>
        h m (mem_inserted.mpr (List.mem_append_right _ (List.mem_flatMap.mpr ⟨_, member, hm⟩)))
      by_cases max : y = maxWord
      · subst max
        exact all.1 x hn
      · cases modifier.resolve_left max
        exact all.2 x max hn
  · intro h n hn
    simp only [conjoined, mem_inserted, List.mem_append, List.mem_flatMap] at hn
    rcases hn with plain | ⟨group, member, hn⟩
    · exact h n (List.mem_filter.mp plain).1
    · rw [(o.keys_perm _).mem_iff, mem_inserted] at member
      obtain ⟨⟨g, x, y⟩, hadd, rfl⟩ := List.mem_map.mp member
      obtain ⟨m, hm, found⟩ := List.mem_filterMap.mp hadd
      obtain ⟨rfl, ⟨cs, rfl⟩, -⟩ := groupComparison_some found
      exact (merged cs).mpr ⟨fun x hx => h _ hx, fun y _ hy => h _ hy⟩ n hn

/-- `getAnd` is the conjunction of its arguments as far as the merged comparisons are right. -/
theorem holds_getAnd_of_pairs {V : List Node} (pairs : ∀ cs,
      ∀ p ∈ mergedPairs (popped V) (.sums .both cs), PairHolds counts (.sums .both cs) p) :
    Holds counts (getAnd o V) ↔ ∀ n ∈ V, Holds counts n := by
  rw [← holds_popped]
  unfold getAnd
  split_ifs with isFalse
  · constructor
    · intro h
      exact absurd h (by simp)
    · intro h
      exact absurd (h _ isFalse) (by simp)
  · rw [← holds_conjoined (o := o) pairs]
    split
    · next empty => simp [empty]
    · next n single => simp [single]
    · rw [holds_and]
      exact forall_congr' fun n => by rw [(o.set_perm _).mem_iff]

/-- `getAnd` is the conjunction of its arguments. -/
theorem holds_getAnd {V : List Node} (noClash : NoClash (popped V)) :
    Holds counts (getAnd o V) ↔ ∀ n ∈ V, Holds counts n :=
  holds_getAnd_of_pairs (pairs_of_noClash noClash)

theorem holds_alternatives {n : Node} :
    (∃ m ∈ alternatives n, Holds counts m) ∨ n = .const true ↔ Holds counts n := by
  cases n with
  | const b => cases b <;> simp [alternatives]
  | _ => simp [alternatives]

/-- `getOr` is the disjunction of its arguments. -/
theorem holds_getOr {V : List Node} : Holds counts (getOr o V) ↔ ∃ n ∈ V, Holds counts n := by
  unfold getOr
  split_ifs with isTrue
  · exact ⟨fun _ => ⟨_, isTrue, by simp⟩, fun _ => by simp⟩
  · have alternatives : (∃ n ∈ V, Holds counts n) ↔
        ∃ m ∈ inserted (V.flatMap alternatives), Holds counts m := by
      constructor
      · rintro ⟨n, hn, h⟩
        rcases holds_alternatives.mpr h with ⟨m, hm, h⟩ | rfl
        · exact ⟨m, mem_inserted.mpr (List.mem_flatMap.mpr ⟨n, hn, hm⟩), h⟩
        · exact absurd hn isTrue
      · rintro ⟨m, hm, h⟩
        obtain ⟨n, hn, inside⟩ := List.mem_flatMap.mp (mem_inserted.mp hm)
        exact ⟨n, hn, holds_alternatives.mp (Or.inl ⟨m, inside, h⟩)⟩
    rw [alternatives]
    split
    · next empty => simp [empty]
    · next n single => simp [single]
    · rw [holds_or]
      exact exists_congr fun n => by rw [(o.set_perm _).mem_iff]

/-! Sums. -/

theorem total_eq_sum (cs : List Node) : total counts cs = (cs.map (value counts)).sum := by
  induction cs with
  | nil => rfl
  | cons c cs ih => rw [total, ih, List.map_cons, List.sum_cons]

theorem matched_eq_sum (cs : List Node) :
    matched counts cs = (cs.map fun c => ofBool (value counts c != 0)).sum := by
  induction cs with
  | nil => rfl
  | cons c cs ih => rw [matched, ih, List.map_cons, List.sum_cons]

theorem total_append (cs ds : List Node) :
    total counts (cs ++ ds) = total counts cs + total counts ds := by
  simp [total_eq_sum]

theorem matched_append (cs ds : List Node) :
    matched counts (cs ++ ds) = matched counts cs + matched counts ds := by
  simp [matched_eq_sum]

theorem total_sorted (cs : List Node) : total counts (sortChildren cs) = total counts cs := by
  rw [total_eq_sum, total_eq_sum]
  exact ((sortChildren_perm cs).map _).sum_eq

theorem matched_sorted (cs : List Node) : matched counts (sortChildren cs) = matched counts cs := by
  rw [matched_eq_sum, matched_eq_sum]
  exact ((sortChildren_perm cs).map _).sum_eq

/-- Adding a count to a node. -/
theorem value_getAddCount {id : Word} {n m : Node} (h : getAddCount id n = .ok (some m))
    (whole : Whole m) :
    value counts m = counts id.toNat + value counts n := by
  induction n using Node.induct generalizing m with
  | subsig j =>
    cases h
    simp [value, total_sorted, total]
  | sums k cs =>
    cases k with
    | sum =>
      cases h
      simp [value, total_sorted, total]
    | _ => cases h
  | add u c ih =>
    cases c with
    | none => cases h
    | some c =>
      simp only [getAddCount] at h
      obtain ⟨sum, inner, h⟩ := Fallible.bind_eq_ok.mp h
      cases h
      cases sum with
      | none => cases whole
      | some d =>
        have below := ih c rfl inner whole
        simp only [value, below]
        bv_omega
  | _ => cases h

/-- `getAdd` is the sum, if at most one side has an offset. -/
theorem value_getAdd {l r m : Node} (h : getAdd l r = .ok (some m)) (whole : Whole m)
    (offsets : (∀ u c, l ≠ .add u c) ∨ ∀ u c, r ≠ .add u c) :
    value counts m = value counts l + value counts r := by
  cases r with
  | subsig j =>
    cases l with
    | subsig i => exact value_getAddCount (n := .subsig j) h whole
    | sums k cs =>
      have sum := @value_getAddCount counts _ (.sums k cs) _ h whole
      rw [sum, BitVec.add_comm]
      rfl
    | add u c =>
      have sum := @value_getAddCount counts _ (.add u c) _ h whole
      rw [sum, BitVec.add_comm]
      rfl
    | _ => cases h
  | sums k ds =>
    cases l with
    | subsig i => exact value_getAddCount (n := .sums k ds) h whole
    | sums k' cs =>
      simp only [getAdd] at h
      split_ifs at h with same
      · obtain ⟨rfl, notBoth⟩ := same
        cases h
        cases k' with
        | both => exact absurd rfl notBoth
        | sum => simp [value, total_sorted, total_append]
        | uniq => simp [value, matched_sorted, matched_append]
      · cases h
    | _ => cases h
  | add v c =>
    cases l with
    | subsig i =>
      cases c with
      | none => cases h
      | some c => exact value_getAddCount (n := .add v (some c)) h whole
    | add u d =>
      rcases offsets with none | none
      · exact absurd rfl (none u d)
      · exact absurd rfl (none v c)
    | _ => cases c <;> cases h
  | _ => cases l <;> cases h

end LogicalMeaning
