import ClamBC.LogicalMeaning

/-!
# Conjunctions that lose nothing

`getAnd` makes one comparison of an `=X` and an `=Y,Y` of the same group. With `X = Y` the
result is an `=Y,Y` again, and the comparison of the total is gone. This does no harm if
`X` is 0, where no member matched and the total is 0 too, or if the group has fewer than
`X` members. A FALSE among the nodes is returned before anything is merged.
-/

namespace LogicalConjunction

open LogicalNode LogicalShape LogicalMeaning

/-- Losing the comparison of the total does not matter for this number of members. -/
def Harmless (x : Word) (members : Nat) : Prop := (x = 0 ∧ members < 2 ^ 32) ∨ members < x.toNat

/-- An `=X` is merged with an `=X,X` of its group only where that is harmless. -/
def MergesKept (V : List Node) : Prop :=
  ∀ cs, ∀ p ∈ mergedPairs (popped V) (.sums .both cs), p.1 = p.2 → Harmless p.1 cs.length

/-- `getAnd` loses nothing: it finds a FALSE, or what it merges is harmless. -/
def AndKept (V : List Node) : Prop := .const false ∈ popped V ∨ MergesKept V

variable {o : PtrOrder} {counts : Counts}

theorem matched_le_length (cs : List Node) : (matched counts cs).toNat ≤ cs.length := by
  induction cs with
  | nil => simp [matched]
  | cons c cs ih =>
    have first : (ofBool (value counts c != 0)).toNat ≤ 1 := by cases value counts c != 0 <;> decide
    rw [matched, BitVec.toNat_add, List.length_cons]
    have reduced :=
      Nat.mod_le ((ofBool (value counts c != 0)).toNat + (matched counts cs).toNat) (2 ^ 32)
    omega

/-- If no member matched, the total is 0. -/
theorem total_of_matched {cs : List Node} (few : cs.length < 2 ^ 32)
    (none : matched counts cs = 0) : total counts cs = 0 := by
  induction cs with
  | nil => rfl
  | cons c cs ih =>
    have bound := @matched_le_length counts cs
    rw [List.length_cons] at few
    rw [matched] at none
    by_cases zero : value counts c = 0
    · have rest : matched counts cs = 0 := by simpa [zero, ofBool] using none
      rw [total, zero, ih (by omega) rest]
      rfl
    · have one : ofBool (value counts c != 0) = 1 := by
        rw [bne_iff_ne.mpr zero]
        rfl
      rw [one] at none
      bv_omega

theorem pairHolds_of_harmless {cs : List Node} {x : Word} (notMax : x ≠ maxWord)
    (harmless : Harmless x cs.length) :
    PairHolds counts (.sums .both cs) (x, x) := by
  unfold PairHolds
  rw [holds_eq_distinct notMax, holds_eq_total]
  constructor
  · intro same
    refine ⟨?_, same⟩
    change matched counts cs = x at same
    change total counts cs = x
    rcases harmless with ⟨rfl, few⟩ | few
    · exact total_of_matched few same
    · have bound := @matched_le_length counts cs
      rw [same] at bound
      omega
  · exact And.right

/-- A conjunction with harmless merges. -/
theorem holds_getAnd_of_merges {V : List Node} (kept : MergesKept V) :
    Holds counts (getAnd o V) ↔ ∀ n ∈ V, Holds counts n := by
  refine holds_getAnd_of_pairs fun cs p hp => ?_
  obtain ⟨notMax, -, -⟩ := mem_mergedPairs hp
  by_cases same : p.1 = p.2
  · have harmless := kept cs p hp same
    obtain ⟨x, y⟩ := p
    cases same
    exact pairHolds_of_harmless notMax harmless
  · exact holds_pair notMax same

theorem holds_getAnd_of_kept {V : List Node} (kept : AndKept V) :
    Holds counts (getAnd o V) ↔ ∀ n ∈ V, Holds counts n := by
  rcases kept with isFalse | kept
  · have result : getAnd o V = .const false := if_pos isFalse
    rw [result, ← holds_popped]
    constructor
    · intro holds
      exact absurd (holds_const.mp holds) Bool.false_ne_true
    · intro all
      exact all _ isFalse
  · exact holds_getAnd_of_merges kept

theorem getAnd_true {V : List Node} (each : ∀ n ∈ V, n = .const true) :
    getAnd o V = .const true := by
  have taken : ∀ m ∈ popped V, m = .const true := popped_have nofun each
  have noFalse : .const false ∉ popped V := fun isFalse => absurd (taken _ isFalse) nofun
  unfold LogicalNode.getAnd
  rw [if_neg noFalse]
  have nothing : conjoined o (popped V) = [] := by
    refine List.eq_nil_iff_forall_not_mem.mpr fun m hm => ?_
    rcases mem_conjoined hm with ⟨hm, notTrue⟩ | ⟨x, y, cs, -, -, left, -⟩
    · exact notTrue (taken m hm)
    · exact absurd (taken _ left) nofun
  rw [nothing]

/-! Where nothing is lost. -/

theorem andKept_of_noClash {V : List Node} (noClash : NoClash (popped V)) : AndKept V := by
  right
  intro cs p hp same
  obtain ⟨notMax, sum, uniq⟩ := mem_mergedPairs hp
  rw [same] at sum
  exact absurd uniq (noClash p.2 cs notMax sum)

theorem andKept_of_false {V : List Node} (isFalse : .const false ∈ V) : AndKept V :=
  .inl (mem_popped.mpr ⟨_, isFalse, List.mem_singleton_self _⟩)

/-- A node that is not a conjunction is alone. -/
theorem andKept_single {n : Node} (notAnd : ∀ cs, n ≠ .and cs) : AndKept [n] := by
  refine andKept_of_noClash fun x cs notMax left right => ?_
  have here : popped [n] = [n] := by simp [popped, conjuncts_self notAnd]
  rw [here, List.mem_singleton] at left right
  injection left.trans right.symm with _ max
  exact notMax max.symm

/-- TRUE adds nothing. -/
theorem andKept_and_true {n : Node} (kept : AndKept [n]) : AndKept [n, .const true] := by
  have more : popped [n, .const true] = .const true :: popped [n] := by simp [popped, conjuncts]
  have pairs : ∀ group, mergedPairs (popped [n, .const true]) group =
      mergedPairs (popped [n]) group := by
    intro group
    rw [more]
    rfl
  rcases kept with isFalse | kept
  · left
    rw [more]
    exact List.mem_cons_of_mem _ isFalse
  · right
    intro cs p hp
    rw [pairs] at hp
    exact kept cs p hp

/-! A conjunction that is conjoined once more. -/

theorem zip_of_merge {group : Node} {x : Word} (notMax : x ≠ maxWord)
    {addsum adduniq : List Word} (proper : ∀ y ∈ adduniq, y ≠ maxWord)
    (sum : .eq x maxWord group ∈ merge group addsum adduniq)
    (uniq : .eq x x group ∈ merge group addsum adduniq) : (x, x) ∈ addsum.zip adduniq := by
  fun_induction merge group addsum adduniq with
  | case1 adduniq =>
    obtain ⟨y, hy, same⟩ := List.mem_map.mp sum
    injection same with _ max
    exact absurd max (proper y (List.mem_reverse.mp hy))
  | case2 x' addsum ih =>
    rcases List.mem_cons.mp uniq with same | uniq
    · injection same with _ max
      exact absurd max notMax
    · rcases mem_merge uniq with ⟨_, _, same⟩ | ⟨_, none, _⟩ | ⟨_, _, _, none, _⟩
      · injection same with _ max
        exact absurd max notMax
      · cases none
      · cases none
  | case3 x' addsum y adduniq ih =>
    have other : .eq x maxWord group ≠ Node.eq x' y group := by
      intro same
      injection same with _ max
      exact proper y List.mem_cons_self max.symm
    have sum := (List.mem_cons.mp sum).resolve_left other
    rcases List.mem_cons.mp uniq with same | uniq
    · injection same with left right
      rw [List.zip_cons_cons, left, ← right, ← left]
      exact List.mem_cons_self
    · refine List.mem_cons_of_mem _ (ih (fun z hz => ?_) sum uniq)
      exact proper z (List.mem_cons_of_mem y hz)

/-- A comparison of a group in a conjunction was made by the merges of this group. -/
theorem mem_mergeGroup {taken : List Node} {x y : Word} {cs : List Node}
    (modifier : y = maxWord ∨ x = y) (h : .eq x y (.sums .both cs) ∈ conjoined o taken) :
    .eq x y (.sums .both cs) ∈ mergeGroup (taken.filterMap groupComparison) (.sums .both cs) := by
  simp only [conjoined, mem_inserted, List.mem_append, List.mem_flatMap] at h
  rcases h with plain | ⟨group, -, merged⟩
  · have none := (of_decide_eq_true (List.mem_filter.mp plain).2).2
    rw [groupComparison_eq modifier] at none
    cases none
  · have same : group = .sums .both cs := by
      rcases mem_merge merged with ⟨_, _, same⟩ | ⟨_, _, same⟩ | ⟨_, _, _, _, same⟩ <;>
        (injection same with _ _ same; exact same.symm)
    rwa [same] at merged

theorem mem_popped_getAnd {V : List Node} (notFalse : .const false ∉ popped V) {m : Node}
    (h : m ∈ popped [getAnd o V]) : m = .const true ∨ m ∈ conjoined o (popped V) := by
  have flat : ∀ n ∈ conjoined o (popped V), conjuncts n = [n] := by
    intro n hn
    refine conjuncts_self ?_
    rcases mem_conjoined hn with ⟨taken, -⟩ | ⟨x, y, cs, -, rfl, -⟩
    · exact popped_not_and taken
    · exact nofun
  obtain ⟨n, hn, hm⟩ := mem_popped.mp h
  rw [List.mem_singleton.mp hn, getAnd, if_neg notFalse] at hm
  split at hm
  · exact .inl (List.mem_singleton.mp hm)
  · next single =>
    have member := flat _ (single ▸ List.mem_singleton_self _)
    rw [member] at hm
    exact .inr (single ▸ hm)
  · obtain ⟨c, hc, hm⟩ := mem_popped.mp hm
    have member := (o.set_perm _).mem_iff.mp hc
    rw [flat c member, List.mem_singleton] at hm
    exact .inr (hm ▸ member)

/-- What is lost when a conjunction is taken apart and conjoined again was lost the first time. -/
theorem AndKept.getAnd {V : List Node} (kept : AndKept V) : AndKept [getAnd o V] := by
  by_cases isFalse : .const false ∈ popped V
  · have result : LogicalNode.getAnd o V = .const false := if_pos isFalse
    rw [result]
    exact andKept_of_false (List.mem_singleton_self _)
  · right
    intro cs p hp same
    obtain ⟨notMax, sum, uniq⟩ := mem_mergedPairs hp
    rw [← same] at notMax uniq
    have made : ∀ {y}, (y = maxWord ∨ p.1 = y) →
        .eq p.1 y (.sums .both cs) ∈ popped [LogicalNode.getAnd o V] →
        .eq p.1 y (.sums .both cs) ∈
          mergeGroup ((popped V).filterMap groupComparison) (.sums .both cs) := by
      intro y modifier member
      refine mem_mergeGroup (o := o) modifier ?_
      exact (mem_popped_getAnd isFalse member).resolve_left nofun
    have before : (p.1, p.1) ∈ mergedPairs (popped V) (.sums .both cs) := by
      refine zip_of_merge notMax (fun y hy => ?_) (made (.inl rfl) sum) (made (.inr rfl) uniq)
      exact (mem_adduniq.mp hy).1
    exact (kept.resolve_left isFalse) cs (p.1, p.1) before rfl

/-! One node after the other. -/

/-- Each conjunction of what there is so far and the next node loses nothing. -/
def StepsKept (o : PtrOrder) : Node → List Node → Prop
  | _, [] => True
  | a, n :: ns => AndKept [a, n] ∧ StepsKept o (getAnd o [a, n]) ns

/-- Conjoined one after the other, these nodes lose nothing, or there is a FALSE among them. -/
def ChainKept (o : PtrOrder) : List Node → Prop
  | [] => True
  | a :: ns => .const false ∈ a :: ns ∨ StepsKept o a ns

/-- The conjunction of a node and these, one after the other. -/
def andAll (o : PtrOrder) (a : Node) (ns : List Node) : Node :=
  ns.foldl (fun acc n => getAnd o [acc, n]) a

theorem andAll_false (ns : List Node) : andAll o (.const false) ns = .const false := by
  induction ns with
  | nil => rfl
  | cons n ns ih =>
    have first : getAnd o [.const false, n] = .const false :=
      if_pos (mem_popped.mpr ⟨_, List.mem_cons_self, List.mem_singleton_self _⟩)
    change andAll o (getAnd o [.const false, n]) ns = _
    rw [first, ih]

theorem andAll_of_mem_false {a : Node} {ns : List Node} (isFalse : .const false ∈ a :: ns) :
    andAll o a ns = .const false := by
  induction ns generalizing a with
  | nil => exact (List.mem_singleton.mp isFalse).symm
  | cons n ns ih =>
    rcases List.mem_cons.mp isFalse with rfl | later
    · exact andAll_false _
    · refine ih ?_
      rcases List.mem_cons.mp later with rfl | later
      · have here : getAnd o [a, .const false] = .const false :=
          if_pos (mem_popped.mpr ⟨_, List.mem_cons_of_mem a List.mem_cons_self,
            List.mem_singleton_self _⟩)
        exact here ▸ List.mem_cons_self
      · exact List.mem_cons_of_mem _ later

/-- A property of the nodes that their conjunctions keep and that rules out losses. -/
theorem chainKept_of {P : Node → Prop} (step : ∀ a n, P a → P n → P (getAnd o [a, n]))
    (kept : ∀ a n, P a → P n → AndKept [a, n]) {ns : List Node} (all : ∀ n ∈ ns, P n) :
    ChainKept o ns := by
  cases ns with
  | nil => trivial
  | cons a ns =>
    right
    obtain ⟨first, rest⟩ := List.forall_mem_cons.mp all
    clear all
    induction ns generalizing a with
    | nil => trivial
    | cons n ns ih =>
      obtain ⟨second, rest⟩ := List.forall_mem_cons.mp rest
      exact ⟨kept a n first second, ih _ (step a n first second) rest⟩

/-- No comparison of a group is taken from this node. -/
def NoGroup (n : Node) : Prop := ∀ m ∈ conjuncts n, groupComparison m = none

theorem chainKept_of_noGroup {ns : List Node} (all : ∀ n ∈ ns, NoGroup n) : ChainKept o ns := by
  have taken : ∀ {a n}, NoGroup a → NoGroup n → ∀ m ∈ popped [a, n], groupComparison m = none := by
    intro a n first second m hm
    obtain ⟨c, hc, inside⟩ := mem_popped.mp hm
    rcases List.mem_pair.mp hc with rfl | rfl
    · exact first m inside
    · exact second m inside
  have group : ∀ {x : Word} {cs : List Node},
      groupComparison (.eq x maxWord (.sums .both cs)) ≠ none := by
    intro x cs
    rw [groupComparison_eq (.inl rfl)]
    exact nofun
  refine chainKept_of (P := NoGroup) ?_ ?_ all
  · intro a n first second m hm
    by_cases isFalse : .const false ∈ popped [a, n]
    · rw [getAnd, if_pos isFalse] at hm
      rw [List.mem_singleton.mp hm]
      rfl
    · have member : m ∈ popped [getAnd o [a, n]] :=
        mem_popped.mpr ⟨_, List.mem_singleton_self _, hm⟩
      rcases mem_popped_getAnd isFalse member with rfl | member
      · rfl
      · rcases mem_conjoined member with ⟨before, -⟩ | ⟨x, y, cs, -, -, sum, -⟩
        · exact taken first second m before
        · exact absurd (taken first second _ sum) group
  · intro a n first second
    exact andKept_of_noClash fun x cs _ sum => absurd (taken first second _ sum) group

theorem holds_andAll {a : Node} {ns : List Node} (kept : ChainKept o (a :: ns)) :
    Holds counts (andAll o a ns) ↔ ∀ n ∈ a :: ns, Holds counts n := by
  rcases kept with isFalse | steps
  · rw [andAll_of_mem_false isFalse]
    constructor
    · intro holds
      exact absurd (holds_const.mp holds) Bool.false_ne_true
    · intro all
      exact all _ isFalse
  · induction ns generalizing a with
    | nil => simp [andAll]
    | cons n ns ih =>
      obtain ⟨here, rest⟩ := steps
      change Holds counts (andAll o (LogicalNode.getAnd o [a, n]) ns) ↔ _
      rw [ih rest, List.forall_mem_cons, holds_getAnd_of_kept here]
      simp [and_assoc]

end LogicalConjunction
