import ClamBC.LogicalMeaning

/-!
# Comparisons below offsets

`getLT` and `getGT` turn the comparison of a sum with an offset into a comparison of what
is below the offset with the least and the greatest word of the shifted range. Where the
range wraps around, these are 0 and the greatest word of all, and nothing is compared.
-/

namespace LogicalOffsets

open LogicalNode LogicalShape LogicalMeaning Fallible

variable {counts : Counts} {o : PtrOrder}

def isAdd : Node → Bool
  | .add _ _ => true
  | _ => false

def isUniq : Node → Bool
  | .sums .uniq _ => true
  | _ => false

/-- `=Y,Y` cannot say that the largest word is the number of members that matched. -/
theorem holds_getEQPlain {n : Node} {v : Word} (ok : isUniq n = true → v ≠ maxWord) :
    Holds counts (getEQPlain n v) ↔ value counts n = v := by
  unfold getEQPlain
  split
  · exact holds_eq_distinct (ok rfl)
  · exact holds_eq_total
  · exact holds_eq_total

/-! What is conjoined once more. -/

/-- A conjunction is made of the conjuncts of its arguments and of merged comparisons. -/
theorem conjuncts_getAnd {V : List Node} (noClash : NoClash (popped V)) {m : Node}
    (h : m ∈ conjuncts (getAnd o V)) :
    groupComparison m = none ∨ m ∈ popped V := by
  have flat : ∀ n ∈ conjoined o (popped V), conjuncts n = [n] ∧
      (groupComparison n = none ∨ n ∈ popped V) := by
    intro n hn
    rcases mem_conjoined hn with ⟨taken, -⟩ | ⟨x, y, cs, ne, rfl, left, right⟩
    · exact ⟨conjuncts_self (popped_not_and taken), Or.inr taken⟩
    · refine ⟨rfl, Or.inl ?_⟩
      have apart : x ≠ y := by
        rintro rfl
        exact noClash x cs ne left right
      simp [groupComparison, ne, apart]
  unfold getAnd at h
  split_ifs at h with isFalse
  · rw [List.mem_singleton.mp h]
    exact Or.inl rfl
  · split at h
    · rw [List.mem_singleton.mp h]
      exact Or.inl rfl
    · next n single =>
      obtain ⟨self, origin⟩ := flat n (by simp [single])
      rw [self, List.mem_singleton] at h
      exact h ▸ origin
    · obtain ⟨n, hn, hm⟩ := mem_popped.mp h
      obtain ⟨self, origin⟩ := flat n ((o.set_perm _).mem_iff.mp hn)
      rw [self, List.mem_singleton] at hm
      exact hm ▸ origin

/-! Chains of offsets. -/

/-- `c₁ + (c₂ + ... X)`, as nested additions. -/
def chain (cs : List Word) (X : Node) : Node := cs.foldr (fun c n => .add c (some n)) X

theorem value_chain (cs : List Word) (X : Node) :
    value counts (chain cs X) = cs.foldr (· + ·) (value counts X) := by
  induction cs with
  | nil => rfl
  | cons c cs ih => simp [chain, value, ← ih]

/-- The number that a chain stands for. -/
def shifted (cs : List Word) (x : Word) : Word := cs.foldr (· + ·) x

def lessRange (c v : Word) : ConstantRange.Range := (ConstantRange.below v).subtract c

def moreRange (c v : Word) : ConstantRange.Range := (ConstantRange.above v).subtract c

mutual

/-- No range that has to keep the number out wraps around, where it is compared to be below `v`. -/
def LessKept : List Word → Word → Word → Prop
  | [], _, _ => True
  | c :: cs, v, x =>
    v = 0 ∨ c + shifted cs x < v ∨ ((lessRange c v).Straight ∧
      (shifted cs x < (lessRange c v).getUnsignedMin →
        MoreKept cs ((lessRange c v).getUnsignedMin - 1) x) ∧
      ((lessRange c v).getUnsignedMax < shifted cs x →
        LessKept cs ((lessRange c v).getUnsignedMax + 1) x))

/-- The same where it is compared to be above `v`. -/
def MoreKept : List Word → Word → Word → Prop
  | [], _, _ => True
  | c :: cs, v, x =>
    v = 0 ∨ v < c + shifted cs x ∨ ((moreRange c v).Straight ∧
      (shifted cs x < (moreRange c v).getUnsignedMin →
        MoreKept cs ((moreRange c v).getUnsignedMin - 1) x) ∧
      ((moreRange c v).getUnsignedMax < shifted cs x →
        LessKept cs ((moreRange c v).getUnsignedMax + 1) x))

end

section
variable {X : Node} (notAdd : isAdd X = false) (noClash : NoClash (popped [X]))

/-- All comparisons of groups among the conjuncts are those of the node below the offsets. -/
def Below (X n : Node) : Prop := ∀ m ∈ conjuncts n, groupComparison m = none ∨ m ∈ popped [X]

/-- A comparison of a chain: it holds where it should, and says when it holds only there. -/
def Compares (counts : Counts) (X : Node) (comparison : Except Fault Node)
    (truth kept : Prop) : Prop :=
  ∃ n, comparison = .ok n ∧ Below X n ∧ (truth → Holds counts n) ∧ ((Holds counts n → truth) ↔ kept)

include noClash in
theorem noClash_of_below {V : List Node} (below : ∀ n ∈ V, Below X n) : NoClash (popped V) := by
  intro x cs ne left right
  have here : ∀ {y}, (y = maxWord ∨ x = y) → .eq x y (.sums .both cs) ∈ popped V →
      .eq x y (.sums .both cs) ∈ popped [X] := by
    intro y modifier member
    obtain ⟨n, hn, hm⟩ := mem_popped.mp member
    rcases below n hn _ hm with none | member
    · rw [groupComparison_eq modifier] at none
      cases none
    · exact member
  exact noClash x cs ne (here (Or.inl rfl) left) (here (Or.inr rfl) right)

include noClash in
theorem getAnd_below {V : List Node} (below : ∀ n ∈ V, Below X n) :
    Below X (getAnd o V) ∧ (Holds counts (getAnd o V) ↔ ∀ n ∈ V, Holds counts n) := by
  have apart := noClash_of_below noClash below
  refine ⟨?_, holds_getAnd apart⟩
  intro m hm
  rcases conjuncts_getAnd apart hm with none | member
  · exact Or.inl none
  · obtain ⟨n, hn, hm⟩ := mem_popped.mp member
    exact below n hn m hm

theorem bound_spec {needed : Bool} {comparison : Except Fault Node} {n : Node}
    (ran : comparison = .ok n) (below : Below X n) :
    ∃ ns, bound needed comparison = .ok ns ∧ (∀ m ∈ ns, Below X m) ∧
      ((∀ m ∈ ns, Holds counts m) ↔ needed = false ∨ Holds counts n) := by
  cases needed with
  | false => exact ⟨[], rfl, nofun, by simp⟩
  | true =>
    refine ⟨[n], by rw [ran]; rfl, ?_, by simp⟩
    simpa using below

include noClash in
/-- The conjunction of the two bounds. -/
theorem getRange_spec {gt lt : Word → Except Fault Node} {min max y : Word}
    {moreKept lessKept : Prop} (more : Compares counts X (gt (min - 1)) (min - 1 < y) moreKept)
    (less : Compares counts X (lt (max + 1)) (y < max + 1) lessKept) :
    ∃ n, getRange o gt lt min max = .ok n ∧ Below X n ∧ (min ≤ y ∧ y ≤ max → Holds counts n) ∧
      (min ≤ max → ¬ (min ≤ y ∧ y ≤ max) →
        (¬ Holds counts n ↔ (y < min → moreKept) ∧ (max < y → lessKept))) := by
  obtain ⟨g, ranG, belowG, overG, exactG⟩ := more
  obtain ⟨l, ranL, belowL, overL, exactL⟩ := less
  obtain ⟨ns, first, belowNs, holdsNs⟩ := @bound_spec counts X (min != 0) _ g ranG belowG
  obtain ⟨ms, second, belowMs, holdsMs⟩ := @bound_spec counts X (max + 1 != 0) _ l ranL belowL
  rw [bne_eq_false_iff_eq] at holdsNs holdsMs
  have below : ∀ n ∈ ns ++ ms, Below X n :=
    fun n hn => (List.mem_append.mp hn).elim (belowNs n) (belowMs n)
  obtain ⟨inside, conj⟩ := @getAnd_below counts o X noClash _ below
  have holds : Holds counts (getAnd o (ns ++ ms)) ↔ (min = 0 ∨ Holds counts g) ∧
      (max + 1 = 0 ∨ Holds counts l) := by
    rw [conj, ← holdsNs, ← holdsMs]
    simp only [List.mem_append, or_imp, forall_and]
  refine ⟨getAnd o (ns ++ ms), by simp only [getRange, first, second, ok_bind]; rfl, inside, ?_, ?_⟩
  · rintro ⟨low, high⟩
    rw [holds]
    constructor
    · by_cases zero : min = 0
      · exact Or.inl zero
      · exact Or.inr (overG (by bv_omega))
    · by_cases zero : max + 1 = 0
      · exact Or.inl zero
      · exact Or.inr (overL (by bv_omega))
  · intro ordered outside
    rw [holds]
    -- on the side where the number is, the other bound holds anyway
    by_cases low : y < min
    · have notZero : min ≠ 0 := by rintro rfl; bv_omega
      have other : max + 1 = 0 ∨ Holds counts l := by
        by_cases zero : max + 1 = 0
        · exact Or.inl zero
        · exact Or.inr (overL (by bv_omega))
      have notHigh : ¬ max < y := by bv_omega
      have failed : ¬ min - 1 < y := by bv_omega
      simp only [low, notHigh, other, notZero, ← exactG, failed, true_implies, false_implies,
        false_or, and_true]
    · have high : max < y := by bv_omega
      have notZero : max + 1 ≠ 0 := by bv_omega
      have other : min = 0 ∨ Holds counts g := by
        by_cases zero : min = 0
        · exact Or.inl zero
        · exact Or.inr (overG (by bv_omega))
      have failed : ¬ y < max + 1 := by bv_omega
      simp only [low, high, other, notZero, ← exactL, failed, true_implies, false_implies,
        false_or, true_and]

include noClash in
/-- A shifted range compares exactly if it does not wrap around; otherwise nothing is compared. -/
theorem shiftedRange_compares {gt lt : Word → Except Fault Node}
    {r : ConstantRange.Range} {y : Word} {truth moreKept lessKept : Prop}
    (more : Compares counts X (gt (r.getUnsignedMin - 1)) (r.getUnsignedMin - 1 < y) moreKept)
    (less : Compares counts X (lt (r.getUnsignedMax + 1)) (y < r.getUnsignedMax + 1) lessKept)
    (proper : r.lower ≠ r.upper ∨ r = ConstantRange.empty)
    (hull : r.Straight → (r.getUnsignedMin ≤ y ∧ y ≤ r.getUnsignedMax ↔ truth)) :
    Compares counts X (getRange o gt lt r.getUnsignedMin r.getUnsignedMax) truth
      (truth ∨
        (r.Straight ∧ (y < r.getUnsignedMin → moreKept) ∧ (r.getUnsignedMax < y → lessKept))) := by
  obtain ⟨n, ran, below, enough, exact⟩ :=
    @getRange_spec counts o X noClash gt lt _ _ y _ _ more less
  refine ⟨n, ran, below, ?_, ?_⟩
  · intro isTrue
    by_cases straight : r.Straight
    · exact enough ((hull straight).mpr isTrue)
    · obtain ⟨min, max⟩ := ConstantRange.Range.hull_of_not_straight proper straight
      rw [min, max] at enough
      exact enough (by bv_omega)
  · by_cases straight : r.Straight
    · by_cases isTrue : truth
      · simp [isTrue]
      · have outside : ¬ (r.getUnsignedMin ≤ y ∧ y ≤ r.getUnsignedMax) :=
          fun h => isTrue ((hull straight).mp h)
        simp only [isTrue, imp_false, exact straight.min_le_max outside, straight,
          true_and, false_or]
    · obtain ⟨min, max⟩ := ConstantRange.Range.hull_of_not_straight proper straight
      rw [min, max] at enough
      have holds : Holds counts n := enough (by bv_omega)
      simp [holds, straight]

theorem single_below {n : Node} (alone : conjuncts n = [n]) (plain : groupComparison n = none) :
    Below X n := by
  intro m hm
  rw [alone, List.mem_singleton] at hm
  exact Or.inl (hm ▸ plain)

theorem below_self : Below X X :=
  fun _ hm => Or.inr (mem_popped.mpr ⟨X, List.mem_singleton_self X, hm⟩)

/-- Nothing is below zero. -/
theorem getLT_zero_compares (n : Node) (y : Word) :
    Compares counts X (getLT o n 0) (y < 0) True := by
  refine ⟨.const false, getLT_zero n, single_below rfl rfl, ?_, by simp⟩
  intro less
  bv_omega

/-- What is above zero is true. -/
theorem getGT_zero_compares {n : Node} (below : Below X n) :
    Compares counts X (getGT o n 0) (0 < value counts n) True := by
  have positive : 0 < value counts n ↔ Holds counts n := by
    unfold Holds
    bv_omega
  exact ⟨n, getGT_zero n, below, positive.mp, iff_true_intro positive.mpr⟩

include notAdd noClash in
/-- The comparisons of a chain hold where they should; they hold nowhere else as long as the number
is kept out. -/
theorem chain_compares (cs : List Word) :
    (∀ v, Compares counts X (getLT o (chain cs X) v) (shifted cs (value counts X) < v)
      (LessKept cs v (value counts X))) ∧
    ∀ v, Compares counts X (getGT o (chain cs X) v) (v < shifted cs (value counts X))
      (MoreKept cs v (value counts X)) := by
  have apart : ∀ u c, X ≠ .add u c := by
    rintro u c rfl
    cases notAdd
  induction cs with
  | nil =>
    constructor
    · intro v
      by_cases zero : v = 0
      · subst zero
        exact getLT_zero_compares X (value counts X)
      · exact ⟨.lt v X, getLT_plain apart zero, single_below rfl rfl,
          holds_lt.mpr, by simp [LessKept, shifted]⟩
    · intro v
      by_cases zero : v = 0
      · subst zero
        exact getGT_zero_compares below_self
      · exact ⟨.gt v X, getGT_plain apart zero, single_below rfl rfl,
          holds_gt.mpr, by simp [MoreKept, shifted]⟩
  | cons c cs ih =>
    obtain ⟨less, more⟩ := ih
    constructor
    · intro v
      by_cases zero : v = 0
      · subst zero
        simpa only [LessKept, true_or]
          using getLT_zero_compares (chain (c :: cs) X) (shifted (c :: cs) (value counts X))
      · have range := @shiftedRange_compares counts o X noClash (getGT o (chain cs X))
          (getLT o (chain cs X)) (lessRange c v)
          _ _ _ _ (more _) (less _) (ConstantRange.below_proper zero)
            (ConstantRange.below_shift zero)
        unfold lessRange at range
        rw [← getLT_add zero] at range
        simp only [LessKept, zero, false_or]
        exact range
    · intro v
      by_cases zero : v = 0
      · subst zero
        have same : value counts (chain (c :: cs) X) = shifted (c :: cs) (value counts X) :=
          value_chain _ _
        have compares := @getGT_zero_compares counts o X (chain (c :: cs) X) (single_below rfl rfl)
        rw [same] at compares
        simpa only [MoreKept, true_or] using compares
      · have range := @shiftedRange_compares counts o X noClash (getGT o (chain cs X))
          (getLT o (chain cs X)) (moreRange c v)
          _ _ _ _ (more _) (less _) ConstantRange.above_proper ConstantRange.above_shift
        unfold moreRange at range
        rw [← getGT_add zero] at range
        simp only [MoreKept, zero, false_or]
        exact range

/-- The number of different matches of a group cannot be compared with the largest word: the total
is compared in its place. -/
def SameKept (counts : Counts) (X : Node) (cs : List Word) (v : Word) : Prop :=
  ∀ ds, X = .sums .uniq ds → cs.length ≤ 1 → shifted cs maxWord = v →
    (total counts ds = maxWord ↔ matched counts ds = maxWord)

theorem getEQPlain_iff {v : Word} :
    (Holds counts (getEQPlain X v) ↔ value counts X = v) ↔
      ∀ ds, X = .sums .uniq ds → v = maxWord →
        (total counts ds = maxWord ↔ matched counts ds = maxWord) := by
  by_cases max : v = maxWord
  · subst max
    by_cases uniq : ∃ ds, X = .sums .uniq ds
    · obtain ⟨ds, rfl⟩ := uniq
      have holds : Holds counts (getEQPlain (.sums .uniq ds) maxWord) ↔ total counts ds = maxWord :=
        holds_eq_total
      rw [holds]
      constructor
      · rintro h _ same -
        cases same
        exact h
      · exact fun h => h ds rfl rfl
    · have plain : isUniq X = true → maxWord ≠ maxWord := by
        intro isUniq
        cases X with
        | sums k ds =>
          cases k with
          | uniq => exact absurd ⟨ds, rfl⟩ uniq
          | _ => cases isUniq
        | _ => cases isUniq
      refine iff_of_true (holds_getEQPlain plain) ?_
      exact fun ds same => absurd ⟨ds, same⟩ uniq
  · exact iff_of_true (holds_getEQPlain fun _ => max) fun _ _ same => absurd same max

include notAdd in
theorem getEQ_chain (cs : List Word) (v : Word) :
    ∃ n, getEQ (chain cs X) v = .ok n ∧
      ((Holds counts n ↔ shifted cs (value counts X) = v) ↔ SameKept counts X cs v) := by
  have moved : ∀ {c x : Word}, c + x = v ↔ x = v - c := by
    intro c x
    constructor <;> intro same <;> bv_omega
  rcases cs with - | ⟨c, - | ⟨d, cs⟩⟩
  · refine ⟨getEQPlain X v, ?_, ?_⟩
    · cases X with
      | add u c => cases notAdd
      | _ => rfl
    · simp only [shifted, List.foldr_nil, getEQPlain_iff, SameKept, List.length_nil,
        Nat.zero_le, true_implies,
        @eq_comm _ maxWord v]
  · refine ⟨getEQPlain X (v - c), rfl, ?_⟩
    simp only [shifted, List.foldr_cons, List.foldr_nil, moved, getEQPlain_iff, SameKept,
      List.length_cons,
      List.length_nil, Nat.zero_add, Nat.le_refl, true_implies, @eq_comm _ maxWord]
  · refine ⟨.eq (v - c) maxWord (chain (d :: cs) X), rfl, ?_⟩
    refine iff_of_true ?_ ?_
    · rw [holds_eq_total, value_chain]
      exact moved.symm
    · intro ds _ short
      simp at short

include notAdd noClash in
/-- The comparisons of a chain of offsets with a word respect wraparound exactly where no range that
has to keep the number out wraps around itself. -/
theorem chain_comparisons_iff (o : PtrOrder) (cs : List Word) (v : Word) :
    (∃ eq lt gt, getEQ (chain cs X) v = .ok eq ∧ getLT o (chain cs X) v = .ok lt ∧
      getGT o (chain cs X) v = .ok gt ∧
      (Holds counts eq ↔ shifted cs (value counts X) = v) ∧
        (Holds counts lt ↔ shifted cs (value counts X) < v) ∧
      (Holds counts gt ↔ v < shifted cs (value counts X))) ↔
    SameKept counts X cs v ∧ LessKept cs v (value counts X) ∧ MoreKept cs v (value counts X) := by
  obtain ⟨eq, ranEq, exactEq⟩ := @getEQ_chain counts X notAdd cs v
  obtain ⟨less, more⟩ := @chain_compares counts o X notAdd noClash cs
  obtain ⟨lt, ranLt, -, overLt, exactLt⟩ := less v
  obtain ⟨gt, ranGt, -, overGt, exactGt⟩ := more v
  rw [← exactEq, ← exactLt, ← exactGt]
  constructor
  · rintro ⟨eq', lt', gt', ranEq', ranLt', ranGt', holdsEq, holdsLt, holdsGt⟩
    cases ranEq.symm.trans ranEq'
    cases ranLt.symm.trans ranLt'
    cases ranGt.symm.trans ranGt'
    exact ⟨holdsEq, holdsLt.mp, holdsGt.mp⟩
  · rintro ⟨holdsEq, holdsLt, holdsGt⟩
    exact ⟨eq, lt, gt, ranEq, ranLt, ranGt, holdsEq, ⟨holdsLt, overLt⟩, ⟨holdsGt, overGt⟩⟩

end

theorem chain_comparisons_onePlusTwo :
    ∃ eq lt gt, getEQ (chain [1, 2] (.subsig 0)) 5 = .ok eq ∧
      getLT .inOrder (chain [1, 2] (.subsig 0)) 5 = .ok lt ∧
      getGT .inOrder (chain [1, 2] (.subsig 0)) 5 = .ok gt ∧
      (Holds (fun _ => 1) eq ↔ shifted [1, 2] (value (fun _ => 1) (.subsig 0)) = 5) ∧
      (Holds (fun _ => 1) lt ↔ shifted [1, 2] (value (fun _ => 1) (.subsig 0)) < 5) ∧
      (Holds (fun _ => 1) gt ↔ 5 < shifted [1, 2] (value (fun _ => 1) (.subsig 0))) := by
  have noClash : NoClash (popped [.subsig 0]) := by
    intro x cs _ left
    cases List.mem_singleton.mp left
  have inner : MoreKept [2] ((moreRange 1 5).getUnsignedMin - 1) 1 :=
    .inr (.inr ⟨.inl (by decide), fun _ => trivial, fun _ => trivial⟩)
  refine (chain_comparisons_iff rfl noClash .inOrder [1, 2] 5).mpr ⟨nofun,
    .inr (.inl (by decide)), .inr (.inr ⟨.inl (by decide), fun _ => inner, fun high => ?_⟩)⟩
  exact absurd high (by decide)

/-- `x + 1 < 2` is the words from the largest one up to 0, and becomes TRUE. -/
theorem plusOne_below_two :
    getLT .inOrder (chain [1] (.subsig 0)) 2 = .ok (.const true) ∧
      Holds (fun _ => 5) (.const true) ∧
      ¬ shifted [1] (value (fun _ => 5) (.subsig 0)) < 2 :=
  ⟨rfl, by decide, by decide⟩

end LogicalOffsets
