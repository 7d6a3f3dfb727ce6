import ClamBC.LogicalCompiler
import ClamBC.LogicalOffsets

/-!
# Additions

When the node of an addition denotes the sum of its operands. Three things go wrong in
`getAdd` below an offset: operands that cannot be added leave a null child, the offset of
the left operand is counted once more for every offset of the right one, and the search
for duplicates sees the single child of the offset only.
-/

namespace LogicalAdd

open Ir LogicalNode LogicalShape LogicalMeaning LogicalOffsets LogicalCompiler Fallible

/-- The nodes of loads, zero extensions and accepted additions. -/
inductive Built : Node → Prop
  | load (id : Word) : Built (.subsig id)
  | zext (n : Node) : Built (getUniqueSigs n)
  | offset {n : Node} (off : Word) : Built n → Built (getAddOff n off)
  | add {l r m : Node} : Built l → Built r → getAdd l r = .ok (some m) →
      checkUniq m = true → Built m

/-- The match counts and uniqueness terms that are added up, below all offsets. -/
def terms : Node → List Node
  | .subsig id => [.subsig id]
  | .sums _ cs => cs
  | .add _ (some c) => terms c
  | _ => []

/-- How many constants are added to a sum. -/
def offsetLayers : Node → Nat
  | .add _ (some c) => offsetLayers c + 1
  | _ => 0

/-- The node of an addition is what it should be. -/
structure SumOf (l r m : Node) : Prop where
  noNull : Whole m
  denotes : ∀ counts, value counts m = value counts l + value counts r
  distinct : ∀ (find : Value → Option Ptr) (lhs rhs : Value), find lhs = some (some l) →
    find rhs = some (some r) →
    isConstantInt rhs = false → processAdd find lhs rhs = .ok (.bind (some m)) → (terms m).Nodup

/-- The operands of an addition that `getAdd` gets right. -/
structure Summable (l r : Node) : Prop where
  noNullLeft : Whole l
  noNullRight : Whole r
  addable : addable l r = true
  noOffsetTwice : isAdd l = true → isAdd r = true → BitVec.ofNat 32 (offsetLayers r) * l.op0 = 0
  distinct : isAdd l = true ∨ isAdd r = true → (terms l ++ terms r).Nodup

/-! ## What an addition is made of -/

theorem subsigs_whole {k : SumKind} {cs ds : List Node} (perm : cs.Perm ds)
    (h : Whole (.sums k cs)) :
    ∀ c ∈ ds, Whole c := fun c hc => wholeAll_iff.mp h c (perm.mem_iff.mpr hc)

/-- A count and a node were added. -/
theorem getAddCount_parts {id : Word} {n m : Node} (h : getAddCount id n = .ok (some m))
    (whole : Whole m) :
    Whole n ∧ isCount (base n) = true ∧ (terms m).Perm (.subsig id :: terms n) := by
  induction n using Node.induct generalizing m with
  | subsig j =>
    cases h
    exact ⟨rfl, rfl, sortChildren_perm _⟩
  | sums k cs =>
    cases k with
    | sum =>
      cases h
      have parts := subsigs_whole (sortChildren_perm _) whole
      exact ⟨wholeAll_iff.mpr fun c hc => parts c (List.mem_cons_of_mem _ hc), rfl,
        sortChildren_perm _⟩
    | _ => cases h
  | add u c ih =>
    cases c with
    | none => cases h
    | some c =>
      obtain ⟨sum, inner, h⟩ := bind_eq_ok.mp h
      cases h
      cases sum with
      | none => cases whole
      | some d =>
        obtain ⟨wholeNode, count, perm⟩ := ih c rfl inner whole
        exact ⟨wholeNode, count, perm⟩
  | _ => cases h

/-- A node with an offset on the left: the offset is added again for every offset on the right. -/
theorem getAdd_offset_parts {u : Word} {l : Option Node} {r m : Node}
    (h : getAdd (.add u l) r = .ok (some m)) (whole : Whole m) :
    (Whole (.add u l) ∧ Whole r ∧ isCount (base (.add u l)) = true ∧ isSubsig (base r) = true) ∧
      (terms m).Perm (terms (.add u l) ++ terms r) ∧
      ∀ counts, value counts m =
        value counts (.add u l) + value counts r + BitVec.ofNat 32 (offsetLayers r) * u := by
  induction r using Node.induct generalizing m with
  | subsig j =>
    obtain ⟨wholeLeft, count, perm⟩ := @getAddCount_parts j (.add u l) m h whole
    refine ⟨⟨wholeLeft, rfl, count, rfl⟩, perm.trans (List.perm_append_singleton _ _).symm,
      fun counts => ?_⟩
    rw [@value_getAddCount counts j (.add u l) m h whole, BitVec.add_comm]
    simp [offsetLayers, value]
  | add v c ih =>
    cases c with
    | none => cases h
    | some c =>
      obtain ⟨sum, inner, h⟩ := bind_eq_ok.mp h
      cases h
      cases sum with
      | none => cases whole
      | some d =>
        obtain ⟨wholes, perm, values⟩ := ih c rfl inner whole
        refine ⟨wholes, perm, fun counts => ?_⟩
        have next : BitVec.ofNat 32 (offsetLayers c + 1) * u =
            BitVec.ofNat 32 (offsetLayers c) * u + u := by
          rw [BitVec.ofNat_add, BitVec.add_mul]
          simp
        simp only [offsetLayers, next]
        simp only [value, values counts]
        ac_rfl
  | _ => cases h

/-- What is known about the operands of an addition whose node has no null child. -/
theorem getAdd_parts {l r m : Node} (h : getAdd l r = .ok (some m)) (whole : Whole m) :
    Whole l ∧ Whole r ∧ addable l r = true ∧ (terms m).Perm (terms l ++ terms r) := by
  cases r with
  | subsig j =>
    cases l with
    | subsig i =>
      obtain ⟨-, -, perm⟩ := @getAddCount_parts i (.subsig j) m h whole
      exact ⟨rfl, rfl, rfl, perm⟩
    | sums k cs =>
      obtain ⟨wholeLeft, -, perm⟩ := @getAddCount_parts j (.sums k cs) m h whole
      exact ⟨wholeLeft, rfl, rfl, perm.trans (List.perm_append_singleton _ _).symm⟩
    | add u l =>
      obtain ⟨⟨wholeLeft, wholeRight, count, -⟩, perm, -⟩ := getAdd_offset_parts h whole
      exact ⟨wholeLeft, wholeRight, count, perm⟩
    | _ => cases h
  | sums k ds =>
    cases l with
    | subsig i =>
      obtain ⟨wholeRight, -, perm⟩ := @getAddCount_parts i (.sums k ds) m h whole
      exact ⟨rfl, wholeRight, rfl, perm⟩
    | sums k' cs =>
      simp only [getAdd] at h
      split_ifs at h with same
      · cases h
        have parts := subsigs_whole (sortChildren_perm _) whole
        refine ⟨wholeAll_iff.mpr fun c hc => ?_, wholeAll_iff.mpr fun c hc => ?_, rfl,
          sortChildren_perm _⟩
        · exact parts c (List.mem_append_left _ hc)
        · exact parts c (List.mem_append_right _ hc)
      · cases h
    | _ => cases h
  | add v c =>
    cases l with
    | subsig i =>
      cases c with
      | none => cases h
      | some c =>
        obtain ⟨wholeRight, count, perm⟩ := @getAddCount_parts i (.add v (some c)) m h whole
        exact ⟨rfl, wholeRight, count, perm⟩
    | add u l =>
      obtain ⟨⟨wholeLeft, wholeRight, count, subsig⟩, perm, -⟩ := getAdd_offset_parts h whole
      refine ⟨wholeLeft, wholeRight, ?_, perm⟩
      simp only [addable, Bool.and_eq_true]
      exact ⟨subsig, count⟩
    | _ => cases c <;> cases h
  | _ => cases l <;> cases h

/-! ## Values -/

/-- The sum is right exactly when the offset of the left operand is not counted again. -/
theorem value_getAdd_iff {l r m : Node} (h : getAdd l r = .ok (some m)) (whole : Whole m) :
    (∀ counts, value counts m = value counts l + value counts r) ↔
      (isAdd l = true → isAdd r = true → BitVec.ofNat 32 (offsetLayers r) * l.op0 = 0) := by
  by_cases left : isAdd l = true
  · by_cases right : isAdd r = true
    · cases l with
      | add u l =>
        obtain ⟨-, -, values⟩ := getAdd_offset_parts h whole
        simp only [left, right, forall_const, values, Node.op0]
        constructor
        · intro same
          have here := same fun _ => 0
          exact BitVec.add_right_eq_self.mp here
        · intro zero counts
          simp [zero]
      | _ => cases left
    · simp only [right, Bool.false_eq_true, false_implies, implies_true, iff_true]
      intro counts
      exact value_getAdd h whole (Or.inr fun u c same => right (same ▸ rfl))
  · simp only [left, Bool.false_eq_true, false_implies, iff_true]
    intro counts
    exact value_getAdd h whole (Or.inl fun u c same => left (same ▸ rfl))

/-! ## Duplicates -/

/-- An addition with a node on the right is accepted when `checkUniq` accepts its node. -/
theorem processAdd_bind {find : Value → Option Ptr} {lhs rhs : Value}
    {l r m : Node} (left : find lhs = some (some l)) (right : find rhs = some (some r))
    (notConstant : isConstantInt rhs = false) (h : getAdd l r = .ok (some m)) :
    processAdd find lhs rhs = .ok (.bind (some m)) ↔ checkUniq m = true := by
  have run : processAdd find lhs rhs =
      if checkUniq m then .ok (.bind (some m)) else .ok (.reject .addDuplicate) := by
    unfold processAdd
    rw [left]
    dsimp only
    split
    · cases notConstant
    · rw [right]
      simp only [deref, ok_bind, h]
      rfl
  rw [run]
  split_ifs with unique
  · simp [unique]
  · simp [unique]

/-- Only a sum itself is searched for duplicates. -/
theorem checkUniq_getAdd {l r m : Node} (h : getAdd l r = .ok (some m)) :
    checkUniq m = true ↔ (isAdd l = true ∨ isAdd r = true ∨ (terms m).Nodup) := by
  have sums : ∀ k cs, checkUniq (.sums k cs) = true ↔ cs.Nodup := by
    intro k cs
    exact decide_eq_true_iff.trans (List.nodup_map_iff (Option.some_injective Node))
  have offset : ∀ u c, checkUniq (.add u c) = true := by
    intro u c
    simp [checkUniq, Node.children]
  cases r with
  | subsig j =>
    cases l with
    | subsig i =>
      cases h
      simp [sums, isAdd, terms]
    | sums k cs =>
      cases k with
      | sum =>
        cases h
        simp [sums, isAdd, terms]
      | _ => cases h
    | add u c =>
      cases c with
      | none => cases h
      | some c =>
        obtain ⟨sum, -, h⟩ := bind_eq_ok.mp h
        cases h
        simp [offset, isAdd]
    | _ => cases h
  | sums k ds =>
    cases l with
    | subsig i =>
      cases k with
      | sum =>
        cases h
        simp [sums, isAdd, terms]
      | _ => cases h
    | sums k' cs =>
      simp only [getAdd] at h
      split_ifs at h with same
      · cases h
        simp [sums, isAdd, terms]
      · cases h
    | _ => cases h
  | add v c =>
    cases c with
    | none => cases l <;> cases h
    | some c =>
      cases l with
      | subsig i =>
        obtain ⟨sum, -, h⟩ := bind_eq_ok.mp h
        cases h
        simp [offset, isAdd]
      | add u l =>
        obtain ⟨sum, -, h⟩ := bind_eq_ok.mp h
        cases h
        simp [offset, isAdd]
      | _ => cases h
  | _ => cases l <;> cases h

/-! ## The sum -/

/-- The first operand and the second. -/
def pairFind (l r : Node) : Value → Option Ptr
  | .inst 0 => some (some l)
  | _ => some (some r)

/-- An addition that could be accepted has no term twice. -/
theorem SumOf.nodup {l r m : Node} (sum : SumOf l r m) (h : getAdd l r = .ok (some m))
    (unique : checkUniq m = true) :
    (terms m).Nodup := by
  have left : pairFind l r (.inst 0) = some (some l) := rfl
  have right : pairFind l r (.inst 1) = some (some r) := rfl
  have accepted :=
    (@processAdd_bind (pairFind l r) (.inst 0) (.inst 1) l r m left right rfl h).mpr unique
  exact sum.distinct (pairFind l r) (.inst 0) (.inst 1) left right rfl accepted

/-- A node that `getAdd` returns is the sum of the operands exactly when the operands are
summable. -/
theorem getAdd_sumOf_iff {l r m : Node} (h : getAdd l r = .ok (some m)) :
    SumOf l r m ↔ Summable l r := by
  constructor
  · intro sum
    obtain ⟨wholeLeft, wholeRight, add, perm⟩ := getAdd_parts h sum.noNull
    refine ⟨wholeLeft, wholeRight, add, (value_getAdd_iff h sum.noNull).mp sum.denotes,
      fun offset => ?_⟩
    have unique : checkUniq m = true := (checkUniq_getAdd h).mpr (offset.imp_right Or.inl)
    exact perm.nodup_iff.mp (sum.nodup h unique)
  · intro ok
    obtain ⟨s, run, whole⟩ := getAdd_whole ok.noNullLeft ok.noNullRight ok.addable
    cases h.symm.trans run
    have wholeSum : Whole m := whole m rfl
    refine ⟨wholeSum, (value_getAdd_iff h wholeSum).mpr ok.noOffsetTwice, ?_⟩
    intro find lhs rhs left right notConstant accepted
    have unique := (processAdd_bind left right notConstant h).mp accepted
    obtain ⟨-, -, -, perm⟩ := getAdd_parts h wholeSum
    rcases (checkUniq_getAdd h).mp unique with offset | offset | nodup
    · exact perm.nodup_iff.mpr (ok.distinct (Or.inl offset))
    · exact perm.nodup_iff.mpr (ok.distinct (Or.inr offset))
    · exact nodup

theorem getAdd_sumOf_counts : ∃ m, getAdd (.subsig 0) (getAddOff (.subsig 1) 3) = .ok (some m) ∧
    SumOf (.subsig 0) (getAddOff (.subsig 1) 3) m := by
  refine ⟨_, rfl, (getAdd_sumOf_iff rfl).mpr ⟨rfl, rfl, rfl, nofun, fun _ => ?_⟩⟩
  decide

/-- A count and a shifted uniqueness term leave a null child, `(a + 1) + (b + 1)` is one too
large, and `a + (a + 1)` is accepted. -/
theorem getAdd_not_sums :
    (∃ l r m, Built l ∧ Built r ∧ getAdd l r = .ok (some m) ∧ ¬ SumOf l r m ∧ ¬ Whole m) ∧
    (∃ l r m, Built l ∧ Built r ∧ getAdd l r = .ok (some m) ∧ ¬ SumOf l r m ∧ Whole m ∧
      (terms m).Nodup) ∧
    ∃ l r m, Built l ∧ Built r ∧ getAdd l r = .ok (some m) ∧ ¬ SumOf l r m ∧ Whole m ∧
      ∀ counts, value counts m = value counts l + value counts r := by
  refine ⟨?_, ?_, ?_⟩
  · refine ⟨.subsig 0, getAddOff (getUniqueSigs (.subsig 1)) 1, .add 1 none, .load 0,
      .offset 1 (.zext _), rfl, ?_, nofun⟩
    intro sum
    cases sum.noNull
  · have whole : Whole (.sums .sum (sortChildren [.subsig 1, .subsig 0])) :=
      sorted_whole (by simp [Whole, whole])
    refine ⟨getAddOff (.subsig 0) 1, getAddOff (.subsig 1) 1,
      .add 2 (some (.add 1 (some (.sums .sum (sortChildren [.subsig 1, .subsig 0]))))),
      .offset 1 (.load 0), .offset 1 (.load 1), rfl, ?_, whole, ?_⟩
    · intro sum
      have zero := sum.denotes fun _ => 0
      simp [value, getAddOff, total_sorted, total] at zero
    · exact (sortChildren_perm _).nodup_iff.mpr (by decide)
  · have run : getAdd (.subsig 0) (getAddOff (.subsig 0) 1) =
        .ok (some (.add 1 (some (.sums .sum (sortChildren [.subsig 0, .subsig 0]))))) := rfl
    refine ⟨_, _, _, .load 0, .offset 1 (.load 0), run, ?_, ?_, ?_⟩
    · intro sum
      have nodup := sum.nodup run (by simp [checkUniq, Node.children])
      exact absurd ((sortChildren_perm _).nodup_iff.mp nodup) (by decide)
    · exact @sorted_whole .sum _ (by simp [Whole, whole])
    · intro counts
      simp only [value, getAddOff, total_sorted, total]
      bv_omega

end LogicalAdd
