import ClamBC.LogicalConjunction
import ClamBC.LogicalOffsets

/-!
# Comparisons and negation

Under which conditions `getEQ`, `getLT`, `getGT` and `getNot` mean what they are for. A
comparison below offsets is right when no shifted range wraps around. Negation
turns an `=Y,Y` into a comparison of the total and is therefore right for comparisons of
totals only.
-/

namespace LogicalCompare

open LogicalNode LogicalShape LogicalMeaning LogicalConjunction LogicalOffsets Fallible

variable {counts : Counts} {o : PtrOrder}

/-! Equality. -/

/-- `=Y,Y` cannot say that the largest word is the number of members that matched. -/
def EqOk : Node → Word → Prop
  | .add u (some c), v => isUniq c = true → v - u ≠ maxWord
  | n, v => isUniq n = true → v ≠ maxWord

theorem holds_getEQ {n m : Node} {v : Word} (ok : EqOk n v) (h : getEQ n v = .ok m) :
    Holds counts m ↔ value counts n = v := by
  unfold getEQ at h
  split at h
  · next u c =>
    cases h
    rw [holds_getEQPlain ok]
    simp only [value]
    constructor
    · intro same
      rw [same]
      bv_omega
    · rintro rfl
      bv_omega
  · cases h
  · next notAdd notNull =>
    cases h
    refine holds_getEQPlain ?_
    unfold EqOk at ok
    split at ok
    · next u c => exact absurd rfl (notAdd u c)
    · exact ok

/-! Order. -/

/-- Below all offsets stands a node that can be conjoined with others. -/
structure Grounded (n : Node) : Prop where
  notAdd : isAdd (base n) = false
  noClash : NoClash (popped [base n])

mutual

/-- The comparison with a word is right: no range wraps around that the number below an offset is
compared with. -/
def LessOk : Node → Word → Prop
  | .add u (some c), v => v = 0 ∨ (Grounded c ∧ (lessRange u v).Straight ∧
      ((lessRange u v).getUnsignedMin ≠ 0 → MoreOk c ((lessRange u v).getUnsignedMin - 1)) ∧
      ((lessRange u v).getUnsignedMax + 1 ≠ 0 → LessOk c ((lessRange u v).getUnsignedMax + 1)))
  | _, _ => True

def MoreOk : Node → Word → Prop
  | .add u (some c), v => v = 0 ∨ (Grounded c ∧ (moreRange u v).Straight ∧
      ((moreRange u v).getUnsignedMin ≠ 0 → MoreOk c ((moreRange u v).getUnsignedMin - 1)) ∧
      ((moreRange u v).getUnsignedMax + 1 ≠ 0 → LessOk c ((moreRange u v).getUnsignedMax + 1)))
  | _, _ => True

end

/-- The offsets above the node that has none. -/
def offsets : Node → List Word
  | .add u (some c) => u :: offsets c
  | _ => []

theorem chain_offsets (n : Node) : chain (offsets n) (base n) = n := by
  induction n using Node.induct with
  | add u c ih =>
    cases c with
    | none => rfl
    | some c => exact congrArg (fun d => Node.add u (some d)) (ih c rfl)
  | _ => rfl

/-- No number is kept out by a range that wraps around. -/
theorem kept_of_ok (n : Node) : (∀ v, LessOk n v → ∀ x, LessKept (offsets n) v x) ∧
    ∀ v, MoreOk n v → ∀ x, MoreKept (offsets n) v x := by
  induction n using Node.induct with
  | add u c ih =>
    cases c with
    | none => exact ⟨fun _ _ _ => trivial, fun _ _ _ => trivial⟩
    | some c =>
      obtain ⟨less, more⟩ := ih c rfl
      constructor
      · rintro v (zero | ⟨-, straight, below, above⟩) x
        · exact .inl zero
        · refine .inr (.inr ⟨straight, fun low => more _ (below ?_) x, fun high =>
            less _ (above ?_) x⟩)
          · rintro zero
            rw [zero] at low
            bv_omega
          · bv_omega
      · rintro v (zero | ⟨-, straight, below, above⟩) x
        · exact .inl zero
        · refine .inr (.inr ⟨straight, fun low => more _ (below ?_) x, fun high =>
            less _ (above ?_) x⟩)
          · rintro zero
            rw [zero] at low
            bv_omega
          · bv_omega
  | _ => exact ⟨fun _ _ _ => trivial, fun _ _ _ => trivial⟩

theorem Grounded.compares {n : Node} (grounded : Grounded n) :
    (∀ v, Compares counts (base n) (getLT o n v) (value counts n < v)
      (LessKept (offsets n) v (value counts (base n)))) ∧
    ∀ v, Compares counts (base n) (getGT o n v) (v < value counts n)
      (MoreKept (offsets n) v (value counts (base n))) := by
  have compares :=
    @chain_compares counts o (base n) grounded.notAdd grounded.noClash (offsets n)
  have number : value counts n = shifted (offsets n) (value counts (base n)) := by
    rw [shifted, ← value_chain, chain_offsets]
  rw [chain_offsets, ← number] at compares
  exact compares

theorem Grounded.add {u : Word} {c : Node} (grounded : Grounded c) : Grounded (.add u (some c)) :=
  ⟨grounded.notAdd, grounded.noClash⟩

theorem holds_getLT {n m : Node} {v : Word} (ok : LessOk n v) (h : getLT o n v = .ok m) :
    Holds counts m ↔ value counts n < v := by
  by_cases zero : v = 0
  · subst zero
    cases (getLT_zero n).symm.trans h
    simp only [holds_const, Bool.false_eq_true, false_iff]
    bv_omega
  by_cases offset : ∃ u c, n = .add u c
  · obtain ⟨u, c, rfl⟩ := offset
    cases c with
    | none =>
      rw [getLT, if_neg zero] at h
      cases h
    | some c =>
      have grounded := (ok.resolve_left zero).1.add (u := u)
      obtain ⟨m', ran, -, bounded, keeps⟩ := (@Grounded.compares counts o _ grounded).1 v
      cases ran.symm.trans h
      exact ⟨keeps.mpr ((kept_of_ok _).1 v ok _), bounded⟩
  · cases (getLT_plain (fun u c same => offset ⟨u, c, same⟩) zero).symm.trans h
    exact holds_lt

theorem holds_getGT {n m : Node} {v : Word} (ok : MoreOk n v) (h : getGT o n v = .ok m) :
    Holds counts m ↔ v < value counts n := by
  by_cases zero : v = 0
  · subst zero
    cases (getGT_zero n).symm.trans h
    simp only [Holds]
    bv_omega
  by_cases offset : ∃ u c, n = .add u c
  · obtain ⟨u, c, rfl⟩ := offset
    cases c with
    | none =>
      rw [getGT, if_neg zero] at h
      cases h
    | some c =>
      have grounded := (ok.resolve_left zero).1.add (u := u)
      obtain ⟨m', ran, -, bounded, keeps⟩ := (@Grounded.compares counts o _ grounded).2 v
      cases ran.symm.trans h
      exact ⟨keeps.mpr ((kept_of_ok _).2 v ok _), bounded⟩
  · cases (getGT_plain (fun u c same => offset ⟨u, c, same⟩) zero).symm.trans h
    exact holds_gt

/-! Negation. -/

mutual

/-- The comparisons that negation reaches are comparisons of totals, those that it makes are
right, and no merge of them loses anything. -/
def NotOk (o : PtrOrder) : Node → Prop
  | .and cs => NotsOk o cs
  | .or cs => NotsOk o cs ∧ ∀ ns, getNots o cs = .ok ns → AndKept ns
  | .eq op0 op1 c => op1 = maxWord ∧ LessOk c op0 ∧ MoreOk c op0
  | .gt op0 c => LessOk c op0 ∧ EqOk c op0
  | .lt op0 c => MoreOk c op0 ∧ EqOk c op0
  | .subsig _ => True
  | .not _ => True
  | .const _ => True
  | .sums _ _ => True
  | .add _ _ => True

def NotsOk (o : PtrOrder) : List Node → Prop
  | [] => True
  | c :: cs => NotOk o c ∧ NotsOk o cs

end

mutual

/-- `getNot` is negation. -/
theorem holds_getNot :
    ∀ {n m : Node}, NotOk o n → getNot o n = .ok m → (Holds counts m ↔ ¬ Holds counts n)
  | .subsig id, m, _, h => by
    rw [holds_getEQ (n := .subsig id) (v := 0) nofun h]
    simp [Holds]
  | .and cs, m, ok, h => by
    obtain ⟨ns, negations, h⟩ := bind_eq_ok.mp h
    cases h
    rw [holds_getOr, holds_and, holds_getNots_some ok negations]
    simp only [not_forall, exists_prop]
  | .or cs, m, ok, h => by
    obtain ⟨ns, negations, h⟩ := bind_eq_ok.mp h
    cases h
    rw [holds_getAnd_of_kept (ok.2 ns negations), holds_or, holds_getNots_all ok.1 negations]
    simp only [not_exists, not_and]
  | .eq op0 op1 c, m, ok, h => by
    obtain ⟨less, hl, h⟩ := bind_eq_ok.mp h
    obtain ⟨more, hm, h⟩ := bind_eq_ok.mp h
    cases h
    obtain ⟨rfl, lessOk, moreOk⟩ := ok
    simp only [holds_getOr, List.mem_cons, List.not_mem_nil, or_false, exists_eq_or_imp,
      exists_eq_left,
      holds_getLT lessOk hl, holds_getGT moreOk hm, holds_eq_total]
    bv_omega
  | .gt op0 c, m, ok, h => by
    obtain ⟨less, hl, h⟩ := bind_eq_ok.mp h
    obtain ⟨same, hs, h⟩ := bind_eq_ok.mp h
    cases h
    simp only [holds_getOr, List.mem_cons, List.not_mem_nil, or_false, exists_eq_or_imp,
      exists_eq_left,
      holds_getLT ok.1 hl, holds_getEQ ok.2 hs, holds_gt]
    bv_omega
  | .lt op0 c, m, ok, h => by
    obtain ⟨more, hm, h⟩ := bind_eq_ok.mp h
    obtain ⟨same, hs, h⟩ := bind_eq_ok.mp h
    cases h
    simp only [holds_getOr, List.mem_cons, List.not_mem_nil, or_false, exists_eq_or_imp,
      exists_eq_left,
      holds_getGT ok.1 hm, holds_getEQ ok.2 hs, holds_lt]
    bv_omega
  | .not c, m, _, h => by
    cases h
    simp [Holds, value, ofBool]
  | .const b, m, _, h => by
    cases h
    simp
  | .sums _ _, m, _, h => by cases h
  | .add _ _, m, _, h => by cases h

theorem holds_getNots_some : ∀ {cs ns : List Node}, NotsOk o cs → getNots o cs = .ok ns →
    ((∃ n ∈ ns, Holds counts n) ↔ ∃ c ∈ cs, ¬ Holds counts c)
  | [], ns, _, h => by
    cases h
    simp
  | c :: cs, ns, ok, h => by
    obtain ⟨m, hm, h⟩ := bind_eq_ok.mp h
    obtain ⟨ms, hms, h⟩ := bind_eq_ok.mp h
    cases h
    simp only [List.mem_cons, exists_eq_or_imp, holds_getNot ok.1 hm, holds_getNots_some ok.2 hms]

theorem holds_getNots_all : ∀ {cs ns : List Node}, NotsOk o cs → getNots o cs = .ok ns →
    ((∀ n ∈ ns, Holds counts n) ↔ ∀ c ∈ cs, ¬ Holds counts c)
  | [], ns, _, h => by
    cases h
    simp
  | c :: cs, ns, ok, h => by
    obtain ⟨m, hm, h⟩ := bind_eq_ok.mp h
    obtain ⟨ms, hms, h⟩ := bind_eq_ok.mp h
    cases h
    simp only [List.mem_cons, forall_eq_or_imp, holds_getNot ok.1 hm, holds_getNots_all ok.2 hms]

end

end LogicalCompare
