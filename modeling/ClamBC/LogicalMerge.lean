import ClamBC.LogicalConjunction
import ClamBC.LogicalUnique

/-!
# Merged comparisons

Apart from harmful merges `getAnd` is conjunction; `getOr` is always disjunction. For an
`=X` and an `=Y,Y` of one group the condition is also necessary.
-/

namespace LogicalMerge

open LogicalNode LogicalShape LogicalMeaning LogicalConjunction LogicalUnique LogicalText

variable {o : PtrOrder} {counts : Counts}

/-! ## An `=X` and an `=X,X` -/

theorem matched_subsigs (is : List Word) :
    matched counts (is.map .subsig) = BitVec.ofNat 32 (matching counts is) := by
  induction is with
  | nil => rfl
  | cons i is ih =>
    rw [List.map_cons, matched, ih, matching_cons, BitVec.ofNat_add]
    congr 1
    have positive : 0 < natCounts counts i.toNat ↔ counts i.toNat ≠ 0 := by
      unfold natCounts
      bv_omega
    by_cases zero : counts i.toNat = 0
    · simp [value, ofBool, positive, zero]
    · rw [if_pos (positive.mpr zero), value, bne_iff_ne.mpr zero]
      rfl

theorem total_subsigs (is : List Word) :
    total counts (is.map .subsig) = BitVec.ofNat 32 (totalOf counts is) := by
  induction is with
  | nil => rfl
  | cons i is ih =>
    rw [List.map_cons, total, ih, totalOf_cons, BitVec.ofNat_add]
    simp [value, natCounts]

theorem getAnd_same {x : Word} (notMax : x ≠ maxWord) (cs : List Node) :
    getAnd o [.eq x maxWord (.sums .both cs), .eq x x (.sums .both cs)] =
      .eq x x (.sums .both cs) := by
  have keys : o.keys [.sums .both cs] = [.sums .both cs] := List.perm_singleton.mp (o.keys_perm _)
  simp [getAnd, popped, conjuncts, conjoined, groupComparison, inserted, keys, mergeGroup,
    merge, notMax]

section
variable {is : List Word} {x y : Word}

theorem mergesKept_pair (notMax : y ≠ maxWord) {cs : List Node}
    (harmless : x = y → Harmless x cs.length) :
    MergesKept [.eq x maxWord (.sums .both cs), .eq y y (.sums .both cs)] := by
  intro ds p hp same
  obtain ⟨notMax', sum, uniq⟩ := mem_mergedPairs hp
  rw [← same] at uniq notMax'
  simp only [popped, conjuncts, List.nil_append, List.cons_append, List.mem_pair] at sum uniq
  have right : p.1 = y ∧ ds = cs := by
    rcases uniq with uniq | uniq
    · cases uniq
      exact ⟨rfl, rfl⟩
    · injection uniq with _ max
      exact absurd max notMax'
  have left : p.1 = x := by
    rcases sum with sum | sum
    · injection sum with _ max
      exact absurd max.symm notMax
    · injection sum
  rw [right.2, left]
  exact harmless (left.symm.trans right.1)

/-- Two comparisons of a group are merged rightly exactly if the numbers differ or nothing is lost.
-/
theorem getAnd_pair_iff (nodup : is.Nodup) (few : is.length < 2 ^ 32) (notMax : y ≠ maxWord) :
    (∀ counts, Holds counts (getAnd o [.eq x maxWord (.sums .both (is.map .subsig)),
      .eq y y (.sums .both (is.map .subsig))]) ↔
      Holds counts (.eq x maxWord (.sums .both (is.map .subsig))) ∧
        Holds counts (.eq y y (.sums .both (is.map .subsig)))) ↔
    (x = y → Harmless x is.length) := by
  constructor
  · rintro means rfl
    by_contra harm
    have notZero : x ≠ 0 := fun zero => harm (Or.inl ⟨zero, few⟩)
    have inside : x.toNat ≤ is.length := by
      by_contra outside
      exact harm (Or.inr (by omega))
    -- the first members of the group matched twice
    have all := matching_spread nodup inside (by decide : (2 : Word) ≠ 0)
    have here := means (spread is x.toNat 2)
    rw [getAnd_same notMax, holds_eq_distinct notMax, holds_eq_total] at here
    have distinct :
        LogicalMeaning.distinct (spread is x.toNat 2) (.sums .both (is.map .subsig)) = x := by
      change matched _ _ = x
      rw [matched_subsigs, all]
      simp
    obtain ⟨wrong, -⟩ := here.mp distinct
    change total _ _ = x at wrong
    rw [total_subsigs, totalOf_spread (by decide), all] at wrong
    change BitVec.ofNat 32 (x.toNat * 2) = x at wrong
    bv_omega
  · intro harmless counts
    rw [holds_getAnd_of_merges (mergesKept_pair notMax (by simpa using harmless))]
    simp

end

/-- `getOr` is disjunction, and `getAnd` is conjunction where it finds a FALSE, or where merges lose
nothing that matters. -/
theorem connectives_mean (o : PtrOrder) :
    (∀ V counts, V ≠ [] → (Holds counts (getOr o V) ↔ ∃ n ∈ V, Holds counts n)) ∧
    (∀ V counts, V ≠ [] → AndKept V → (Holds counts (getAnd o V) ↔ ∀ n ∈ V, Holds counts n)) ∧
    ∀ (is : List Word) (x y : Word), is.Nodup → is.length < 2 ^ 32 → y ≠ maxWord →
      ((∀ counts, Holds counts (getAnd o
          [.eq x maxWord (.sums .both (is.map .subsig)), .eq y y (.sums .both (is.map .subsig))]) ↔
        Holds counts (.eq x maxWord (.sums .both (is.map .subsig))) ∧
          Holds counts (.eq y y (.sums .both (is.map .subsig)))) ↔
            (x = y → Harmless x is.length)) := by
  refine ⟨fun V counts _ => holds_getOr, fun V counts _ kept => holds_getAnd_of_kept kept, ?_⟩
  intro is x y nodup few notMax
  exact getAnd_pair_iff nodup few notMax

theorem connectives_mean_pair : ∀ counts,
    Holds counts (getAnd .inOrder [.eq 5 maxWord (.sums .both [.subsig 0, .subsig 1]),
      .eq 2 2 (.sums .both [.subsig 0, .subsig 1])]) ↔
      ∀ n ∈ [.eq 5 maxWord (.sums .both [.subsig 0, .subsig 1]),
        .eq 2 2 (.sums .both [.subsig 0, .subsig 1])], Holds counts n := by
  intro counts
  refine (connectives_mean .inOrder).2.1 _ counts (List.cons_ne_nil _ _) (.inr ?_)
  refine mergesKept_pair (by decide) fun same => ?_
  exact absurd same (by decide)

/-- Two matches of one subsignature: the total is not 1, but only the number of different
subsignatures is compared. -/
theorem merged_ones_lose_total : ∃ counts,
    Holds counts (getAnd .inOrder [.eq 1 maxWord (.sums .both [.subsig 0, .subsig 1]),
      .eq 1 1 (.sums .both [.subsig 0, .subsig 1])]) ∧
      ¬ Holds counts (.eq 1 maxWord (.sums .both [.subsig 0, .subsig 1])) := by
  refine ⟨fun k => if k = 0 then 2 else 0, ?_, ?_⟩
  · rw [getAnd_same (by decide)]
    decide
  · decide

end LogicalMerge
