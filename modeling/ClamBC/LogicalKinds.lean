import ClamBC.LogicalSafety
import ClamBC.LogicalSelection
import ClamBC.LogicalSteps
import ClamBC.LogicalText

/-!
# The kinds of the nodes of bits

`getNot` has no case for sums and offsets, and `node2String` none for constants and offsets.
A comparison with 0 gives back its operand, which may be a sum or an offset, and so does the
negation of `sum == 0`. In a compilation where this does not happen, and where no comparison
turns into a constant, every node of a bit can be negated and printed, and so can the result.
-/

namespace LogicalKinds

open Ir LogicalNode LogicalCompiler LogicalShape LogicalConjunction LogicalOffsets LogicalCompare
  LogicalInstructions LogicalText LogicalRoutes LogicalPhi LogicalSelection LogicalSafety
  LogicalSteps LogicalMap Fallible

/-- A node for a value of the type: it can be printed, and that of a bit can be negated. -/
def Kind (t : Ty) (n : Node) : Prop := Printable n ∧ (t = .int 1 → negatable n = true)

abbrev Condition : Node → Prop := Kind (.int 1)

/-- An offset is for the comparisons only; what is below can be printed. -/
inductive Number : Node → Prop
  | printable {n : Node} : Printable n → Number n
  | offset {u : Word} {c : Option Node} : (∀ d, c = some d → Number d) → Number (.add u c)

/-- The faults other than the negation of a sum or an offset. -/
def Elsewhere (e : Fault) : Prop := e ≠ .invalidNegation

theorem elsewhere {e : Fault} (other : decide (e = .invalidNegation) = false) : Elsewhere e :=
  of_decide_eq_false other

section
variable {o : PtrOrder} {t : Ty} {n : Node}

theorem Condition.kind (condition : Condition n) (t : Ty) : Kind t n :=
  ⟨condition.1, fun _ => condition.2 rfl⟩

theorem kind_void (printable : Printable n) : Kind .void n := by
  refine ⟨printable, fun isBit => ?_⟩
  cases isBit

theorem kind_and {cs : List Node} : Kind t (.and cs) ↔ 2 ≤ cs.length ∧ ∀ c ∈ cs, Kind t c := by
  constructor
  · rintro ⟨printable, negate⟩
    cases printable with
    | and wide each =>
        exact ⟨wide, fun c hc => ⟨each c hc, fun bit => negatableAll_iff.mp (negate bit) c hc⟩⟩
  · rintro ⟨wide, each⟩
    exact ⟨.and wide fun c hc => (each c hc).1, fun bit => negatableAll_iff.mpr fun c hc =>
      (each c hc).2 bit⟩

theorem kind_or {cs : List Node} : Kind t (.or cs) ↔ 2 ≤ cs.length ∧ ∀ c ∈ cs, Kind t c := by
  constructor
  · rintro ⟨printable, negate⟩
    cases printable with
    | or wide each =>
        exact ⟨wide, fun c hc => ⟨each c hc, fun bit => negatableAll_iff.mp (negate bit) c hc⟩⟩
  · rintro ⟨wide, each⟩
    exact ⟨.or wide fun c hc => (each c hc).1, fun bit => negatableAll_iff.mpr fun c hc =>
      (each c hc).2 bit⟩

/-! ## Connectives -/

theorem conjuncts_kind (kind : Kind t n) : ∃ m ∈ conjuncts n, Kind t m := by
  induction n using Node.induct with
  | and cs ih =>
    obtain ⟨wide, each⟩ := kind_and.mp kind
    obtain ⟨c, hc⟩ := List.exists_mem_of_length_pos (by omega : 0 < cs.length)
    obtain ⟨m, hm, kind⟩ := ih c hc (each c hc)
    exact ⟨m, mem_popped.mpr ⟨c, hc, hm⟩, kind⟩
  | _ => exact ⟨_, List.mem_singleton_self _, kind⟩

/-- A conjunction is no constant if one of its members is none. -/
theorem getAnd_kind {V : List Node} (each : ∀ n ∈ V, Kind t n ∨ n = .const true)
    (some : ∃ n ∈ V, Kind t n) :
    Kind t (getAnd o V) := by
  have taken : ∀ m ∈ popped V, Kind t m ∨ m = .const true := by
    refine popped_have (fun {cs} member c hc => ?_) each
    have kind : Kind t (.and cs) := member.resolve_right nofun
    exact Or.inl ((kind_and.mp kind).2 c hc)
  have noFalse : .const false ∉ popped V := by
    intro isFalse
    have kind : Kind t (.const false) := (taken _ isFalse).resolve_right nofun
    exact absurd rfl (kind.1.notConst false)
  have joined : ∀ m ∈ conjoined o (popped V), Kind t m := by
    intro m hm
    rcases mem_conjoined hm with ⟨hm, notTrue⟩ | ⟨x, y, cs, -, rfl, left, -⟩
    · exact (taken m hm).resolve_right notTrue
    · have kind : Kind t (.eq x maxWord (.sums .both cs)) := (taken _ left).resolve_right nofun
      cases kind.1 with
      | eq inner => exact ⟨.eq inner, fun _ => rfl⟩
  have nonempty : conjoined o (popped V) ≠ [] := by
    obtain ⟨n, hn, kind⟩ := some
    obtain ⟨m, hm, kind⟩ := conjuncts_kind kind
    exact conjoined_ne_nil (mem_popped.mpr ⟨n, hn, hm⟩) (kind.1.notConst true)
  have perm := o.set_perm (conjoined o (popped V))
  unfold LogicalNode.getAnd
  rw [if_neg noFalse]
  split
  · next empty => exact absurd empty nonempty
  · next n single => exact joined n (by rw [single]; exact List.mem_cons_self)
  · next notSingle =>
    refine kind_and.mpr ⟨?_, fun c hc => joined c (perm.mem_iff.mp hc)⟩
    rw [perm.length_eq]
    exact two_le_length nonempty notSingle

theorem alternatives_kind (kind : Kind t n) :
    (∃ m, m ∈ alternatives n) ∧ ∀ m ∈ alternatives n, Kind t m := by
  unfold alternatives
  split
  · next b => exact absurd rfl (kind.1.notConst b)
  · next cs =>
    obtain ⟨wide, each⟩ := kind_or.mp kind
    exact ⟨List.exists_mem_of_length_pos (by omega), each⟩
  · exact ⟨⟨n, List.mem_singleton_self n⟩, fun m hm => List.mem_singleton.mp hm ▸ kind⟩

theorem getOr_kind {V : List Node} (each : ∀ n ∈ V, Kind t n ∨ n = .const false)
    (some : ∃ n ∈ V, Kind t n) :
    Kind t (getOr o V) := by
  have noTrue : .const true ∉ V := by
    intro isTrue
    have kind : Kind t (.const true) := (each _ isTrue).resolve_right nofun
    exact absurd rfl (kind.1.notConst true)
  have joined : ∀ m ∈ inserted (V.flatMap alternatives), Kind t m := by
    intro m hm
    obtain ⟨n, hn, hm⟩ := List.mem_flatMap.mp (mem_inserted.mp hm)
    rcases each n hn with kind | rfl
    · exact (alternatives_kind kind).2 m hm
    · cases hm
  have nonempty : inserted (V.flatMap alternatives) ≠ [] := by
    obtain ⟨n, hn, kind⟩ := some
    obtain ⟨m, hm⟩ := (alternatives_kind kind).1
    exact List.ne_nil_of_mem (mem_inserted.mpr (List.mem_flatMap.mpr ⟨n, hn, hm⟩))
  have perm := o.set_perm (inserted (V.flatMap alternatives))
  unfold LogicalNode.getOr
  rw [if_neg noTrue]
  split
  · next empty => exact absurd empty nonempty
  · next n single => exact joined n (by rw [single]; exact List.mem_cons_self)
  · next notSingle =>
    refine kind_or.mpr ⟨?_, fun c hc => joined c (perm.mem_iff.mp hc)⟩
    rw [perm.length_eq]
    exact two_le_length nonempty notSingle

theorem joined_kind (t : Ty) : Joined o Elsewhere (Kind t) where
  and := fun left right => getAnd_kind (by simp [left, right]) ⟨_, List.mem_cons_self, left⟩
  or := fun left right => getOr_kind (by simp [left, right]) ⟨_, List.mem_cons_self, left⟩
  nullNode := elsewhere rfl
  missingEntry := elsewhere rfl
  emptyRoute := elsewhere rfl
  badCast := elsewhere rfl

theorem getOr_false {V : List Node} (each : ∀ n ∈ V, n = .const false) :
    getOr o V = .const false := by
  have noTrue : .const true ∉ V := fun isTrue => nomatch each _ isTrue
  unfold LogicalNode.getOr
  rw [if_neg noTrue]
  have nothing : inserted (V.flatMap alternatives) = [] := by
    refine List.eq_nil_iff_forall_not_mem.mpr fun m hm => ?_
    obtain ⟨n, hn, hm⟩ := List.mem_flatMap.mp (mem_inserted.mp hm)
    rw [each n hn] at hm
    cases hm
  rw [nothing]

/-! ## Negation -/

mutual

/-- Somewhere in the connectives a sum is said to be 0. -/
def zeroSum : Node → Bool
  | .and cs => zeroSumIn cs
  | .or cs => zeroSumIn cs
  | .eq x _ c => x = 0 && !negatable c
  | .lt x c => x = 0 && !negatable c
  | _ => false

def zeroSumIn : List Node → Bool
  | [] => false
  | c :: cs => zeroSum c || zeroSumIn cs

end

theorem zeroSumIn_eq_false {cs : List Node} (none : zeroSumIn cs = false) :
    ∀ c ∈ cs, zeroSum c = false := by
  induction cs with
  | nil => exact nofun
  | cons c cs ih =>
    rw [zeroSumIn, Bool.or_eq_false_iff] at none
    exact List.forall_mem_cons.mpr ⟨none.1, ih none.2⟩

theorem getNots_ne_nil {cs ns : List Node} (some : cs ≠ []) (ran : getNots o cs = .ok ns) :
    ns ≠ [] := by
  obtain ⟨c, cs, rfl⟩ := List.exists_cons_of_ne_nil some
  obtain ⟨n, -, ran⟩ := bind_eq_ok.mp ran
  obtain ⟨rest, -, ran⟩ := bind_eq_ok.mp ran
  cases ran
  exact List.cons_ne_nil _ _

theorem getEQ_printable (printable : Printable n) (v : Word) :
    ∃ y c, getEQ n v = .ok (.eq v y c) ∧ Printable c ∧ negatable c = negatable n := by
  have plain : getEQ n v = .ok (getEQPlain n v) := by
    unfold getEQ
    split
    · exact absurd rfl (printable.notAdd _ _)
    · exact absurd rfl (printable.notAdd _ _)
    · rfl
  rw [plain]
  unfold getEQPlain
  split
  · cases printable with
    | sums some each => exact ⟨_, _, rfl, .sums some each, rfl⟩
  · cases printable with
    | sums some each => exact ⟨_, _, rfl, .sums some each, rfl⟩
  · exact ⟨_, _, rfl, printable, rfl⟩

/-- The negation of a condition that calls no sum 0 is such a node again. -/
theorem getNot_condition (condition : Condition n) (hidden : zeroSum n = false) :
    Meets (fun _ => False) Condition (getNot o n) := by
  have either : ∀ {a b : Node}, Condition a ∨ a = .const false → Condition b →
      Condition (getOr o [a, b]) := by
    intro a b left right
    exact getOr_kind (by simp [left, right]) ⟨b, by simp, right⟩
  have less : ∀ {c : Node} (x : Word), Printable c →
      Meets (fun _ => False) (fun m => Condition m ∨ m = .const false) (getLT o c x) := by
    intro c x inner
    by_cases zero : x = 0
    · rw [zero, getLT_zero]
      exact Or.inr rfl
    · rw [getLT_plain inner.notAdd zero]
      exact Or.inl ⟨.lt inner, fun _ => rfl⟩
  have more : ∀ {c : Node} (x : Word), Printable c → (x = 0 → negatable c = true) →
      Meets (fun _ => False) Condition (getGT o c x) := by
    intro c x inner shown
    by_cases zero : x = 0
    · rw [zero, getGT_zero]
      exact ⟨inner, fun _ => shown zero⟩
    · rw [getGT_plain inner.notAdd zero]
      exact ⟨.gt inner, fun _ => rfl⟩
  have equal : ∀ {c : Node} (x : Word), Printable c →
      Meets (fun _ => False) Condition (getEQ c x) := by
    intro c x inner
    obtain ⟨y, d, ran, inner, -⟩ := getEQ_printable inner x
    rw [ran]
    exact ⟨.eq inner, fun _ => rfl⟩
  induction n using Node.induct with
  | subsig i => exact equal 0 (.subsig i)
  | and cs ih =>
    obtain ⟨wide, each⟩ := kind_and.mp condition
    have none := zeroSumIn_eq_false hidden
    refine (getNots_each fun c hc => ih c hc (each c hc) (none c hc)).bind fun ns ran negated => ?_
    obtain ⟨n, hn⟩ :=
      List.exists_mem_of_ne_nil ns (getNots_ne_nil (List.ne_nil_of_length_pos (by omega)) ran)
    exact getOr_kind (fun m hm => Or.inl (negated m hm)) ⟨n, hn, negated n hn⟩
  | or cs ih =>
    obtain ⟨wide, each⟩ := kind_or.mp condition
    have none := zeroSumIn_eq_false hidden
    refine (getNots_each fun c hc => ih c hc (each c hc) (none c hc)).bind fun ns ran negated => ?_
    obtain ⟨n, hn⟩ :=
      List.exists_mem_of_ne_nil ns (getNots_ne_nil (List.ne_nil_of_length_pos (by omega)) ran)
    exact getAnd_kind (fun m hm => Or.inl (negated m hm)) ⟨n, hn, negated n hn⟩
  | eq x y c =>
    cases condition.1 with
    | eq inner =>
      refine (less x inner).bind fun a _ left => (more x inner fun zero => ?_).bind fun b _ right =>
        either left right
      simpa [zeroSum, zero] using hidden
  | gt x c =>
    cases condition.1 with
    | gt inner =>
      exact (less x inner).bind fun a _ left => (equal x inner).bind fun b _ right =>
        either left right
  | lt x c =>
    cases condition.1 with
    | lt inner =>
      refine (more x inner fun zero => ?_).bind fun a _ left =>
        (equal x inner).bind fun b _ right => either (.inl left) right
      simpa [zeroSum, zero] using hidden
  | sums k cs => cases condition.2 rfl
  | not c => cases condition.1
  | const b => cases condition.1
  | add u c => cases condition.1

/-! ## Comparisons -/

/-- The bounds of a range that are compared with. -/
def Within (less more : Word → Prop) (r : ConstantRange.Range) : Prop :=
  (r.getUnsignedMin ≠ 0 → more (r.getUnsignedMin - 1)) ∧
    (r.getUnsignedMax + 1 ≠ 0 → less (r.getUnsignedMax + 1))

mutual

/-- The comparison has become TRUE: with the offset gone, neither end of the range is left. -/
def AlwaysLess : Node → Word → Prop
  | .add u (some c), v =>
      v ≠ 0 ∧ Within (AlwaysLess c) (AlwaysMore c) ((ConstantRange.below v).subtract u)
  | _, _ => False

def AlwaysMore : Node → Word → Prop
  | .add u (some c), v =>
      v ≠ 0 ∧ Within (AlwaysLess c) (AlwaysMore c) ((ConstantRange.above v).subtract u)
  | _, _ => False

end

mutual

/-- `n < v` is not `n < 0`. Below an offset no end of the range is, none gives back a sum, and one
is left. -/
def LessKept : Node → Word → Prop
  | .add u (some c), v =>
      v ≠ 0 ∧ ¬ Within (AlwaysLess c) (AlwaysMore c) ((ConstantRange.below v).subtract u) ∧
    Within (fun w => LessKept c w ∨ AlwaysLess c w) (fun w => MoreKept c w ∨ AlwaysMore c w)
      ((ConstantRange.below v).subtract u)
  | _, v => v ≠ 0

/-- `n > v` is not `n > 0`, unless `n` can be negated. -/
def MoreKept : Node → Word → Prop
  | .add u (some c), v =>
      v ≠ 0 ∧ ¬ Within (AlwaysLess c) (AlwaysMore c) ((ConstantRange.above v).subtract u) ∧
    Within (fun w => LessKept c w ∨ AlwaysLess c w) (fun w => MoreKept c w ∨ AlwaysMore c w)
      ((ConstantRange.above v).subtract u)
  | n, v => v ≠ 0 ∨ negatable n = true

end

theorem Number.plain (number : Number n) (notAdd : ∀ u c, n ≠ .add u c) : Printable n := by
  cases number with
  | printable printable => exact printable
  | offset _ => exact absurd rfl (notAdd _ _)

theorem Number.inner {u : Word} {c : Node} (number : Number (.add u (some c))) : Number c := by
  cases number with
  | printable printable => exact absurd rfl (printable.notAdd _ _)
  | offset inner => exact inner c rfl

theorem getRange_true {gt lt : Word → Except Fault Node} {r : ConstantRange.Range}
    (always : Within (fun w => lt w = .ok (.const true)) (fun w => gt w = .ok (.const true)) r) :
    getRange o gt lt r.getUnsignedMin r.getUnsignedMax = .ok (.const true) := by
  have side : ∀ {x : Except Fault Node} {w : Word}, (w ≠ 0 → x = .ok (.const true)) →
      ∃ ns, bound (w != 0) x = .ok ns ∧ ∀ n ∈ ns, n = .const true := by
    intro x w known
    by_cases zero : w = 0
    · rw [zero]
      exact ⟨[], rfl, nofun⟩
    · have needed : (w != 0) = true := bne_iff_ne.mpr zero
      exact ⟨[.const true], by simp only [bound, needed, if_true, known zero, Except.map], by simp⟩
  obtain ⟨lower, ran, left⟩ := side always.1
  obtain ⟨upper, ran', right⟩ := side always.2
  unfold getRange
  rw [ran, ran']
  exact congrArg Except.ok (getAnd_true fun n hn => (List.mem_append.mp hn).elim (left n) (right n))

theorem getRange_kept {gt lt : Word → Except Fault Node} {r : ConstantRange.Range}
    {less more alwaysLess alwaysMore : Word → Prop}
    (below : ∀ w, less w → Meets Elsewhere Condition (lt w))
    (above : ∀ w, more w → Meets Elsewhere Condition (gt w))
    (below' : ∀ w, alwaysLess w → lt w = .ok (.const true))
    (above' : ∀ w, alwaysMore w → gt w = .ok (.const true))
    (left : ¬ Within alwaysLess alwaysMore r)
    (kept : Within (fun w => less w ∨ alwaysLess w) (fun w => more w ∨ alwaysMore w) r) :
    Meets Elsewhere Condition (getRange o gt lt r.getUnsignedMin r.getUnsignedMax) := by
  have side : ∀ {k : Word → Except Fault Node} {known always : Word → Prop} (w v : Word),
      (∀ w, known w → Meets Elsewhere Condition (k w)) → (∀ w, always w → k w = .ok (.const true)) →
      (w ≠ 0 → known v ∨ always v) →
        Meets Elsewhere (fun ns => (∀ n ∈ ns, Condition n ∨ n = .const true) ∧
        (¬ (w ≠ 0 → always v) → ∃ n ∈ ns, Condition n)) (bound (w != 0) (k v)) := by
    intro k known always w v isKnown isAlways either
    by_cases zero : w = 0
    · rw [zero]
      exact ⟨nofun, fun not => absurd (fun notZero => absurd rfl notZero) not⟩
    · have needed : (w != 0) = true := bne_iff_ne.mpr zero
      simp only [bound, needed, if_true]
      by_cases constant : always v
      · rw [isAlways v constant]
        exact ⟨by simp, fun not => absurd (fun _ => constant) not⟩
      · refine (isKnown v ((either zero).resolve_right constant)).map fun n condition => ?_
        exact ⟨by simp [condition], fun _ => ⟨n, List.mem_singleton_self n, condition⟩⟩
  unfold getRange
  refine (side _ _ above above' kept.1).bind fun lower _ hl =>
    (side _ _ below below' kept.2).bind fun upper _ hu => ?_
  refine getAnd_kind (fun n hn => (List.mem_append.mp hn).elim (hl.1 n) (hu.1 n)) ?_
  by_cases constant : r.getUnsignedMin ≠ 0 → alwaysMore (r.getUnsignedMin - 1)
  · obtain ⟨n, hn, condition⟩ := hu.2 fun constant' => left ⟨constant, constant'⟩
    exact ⟨n, List.mem_append_right lower hn, condition⟩
  · obtain ⟨n, hn, condition⟩ := hl.2 constant
    exact ⟨n, List.mem_append_left upper hn, condition⟩

theorem getLT_getGT_true (n : Node) : (∀ v, AlwaysLess n v → getLT o n v = .ok (.const true)) ∧
    ∀ v, AlwaysMore n v → getGT o n v = .ok (.const true) := by
  induction n using Node.induct with
  | add u c ih =>
    cases c with
    | none => exact ⟨nofun, nofun⟩
    | some c =>
      obtain ⟨less, more⟩ := ih c rfl
      constructor
      · rintro v ⟨notZero, always⟩
        rw [getLT_add notZero]
        exact getRange_true ⟨fun needed => more _ (always.1 needed),
          fun needed => less _ (always.2 needed)⟩
      · rintro v ⟨notZero, always⟩
        rw [getGT_add notZero]
        exact getRange_true ⟨fun needed => more _ (always.1 needed),
          fun needed => less _ (always.2 needed)⟩
  | _ => exact ⟨nofun, nofun⟩

/-- The node of a comparison of a number. -/
theorem getLT_getGT_kept (number : Number n) :
    (∀ v, LessKept n v → Meets Elsewhere Condition (getLT o n v)) ∧
    ∀ v, MoreKept n v → Meets Elsewhere Condition (getGT o n v) := by
  have plain : ∀ {n : Node}, Printable n → (∀ v, v ≠ 0 → Meets Elsewhere Condition (getLT o n v)) ∧
      ∀ v, v ≠ 0 ∨ negatable n = true → Meets Elsewhere Condition (getGT o n v) := by
    intro n printable
    refine ⟨fun v notZero => ?_, fun v shown => ?_⟩
    · rw [getLT_plain printable.notAdd notZero]
      exact ⟨.lt printable, fun _ => rfl⟩
    · by_cases zero : v = 0
      · rw [zero, getGT_zero]
        exact ⟨printable, fun _ => shown.resolve_left (not_not.mpr zero)⟩
      · rw [getGT_plain printable.notAdd zero]
        exact ⟨.gt printable, fun _ => rfl⟩
  induction n using Node.induct with
  | add u c ih =>
    cases c with
    | none =>
      refine ⟨fun v notZero => ?_, fun v shown => ?_⟩
      · have notZero : v ≠ 0 := notZero
        rw [getLT, if_neg notZero]
        exact elsewhere rfl
      · have notZero : v ≠ 0 := Or.resolve_right shown (by simp [negatable])
        rw [getGT, if_neg notZero]
        exact elsewhere rfl
    | some c =>
      obtain ⟨less, more⟩ := ih c rfl number.inner
      obtain ⟨less', more'⟩ := getLT_getGT_true (o := o) c
      constructor
      · rintro v ⟨notZero, left, kept⟩
        rw [getLT_add notZero]
        exact getRange_kept less more less' more' left kept
      · rintro v ⟨notZero, left, kept⟩
        rw [getGT_add notZero]
        exact getRange_kept less more less' more' left kept
  | _ => exact plain (number.plain (by simp))

/-- Only one offset is taken off for an equality. -/
def EqKept : Node → Prop
  | .add _ (some c) => isAdd c = false
  | _ => True

/-- `n != v` is not `n != 0`, unless `n` can be negated. -/
def NeKept : Node → Word → Prop
  | .add u (some c), v => v - u ≠ 0 ∨ negatable c = true
  | n, v => v ≠ 0 ∨ negatable n = true

theorem getEQ_kept (number : Number n) (kept : EqKept n) (v : Word) :
    Meets Elsewhere (fun m => Condition m ∧ (NeKept n v → zeroSum m = false)) (getEQ n v) := by
  have plain : ∀ {n : Node} {v : Word}, Printable n →
      Meets Elsewhere (fun m => Condition m ∧ (v ≠ 0 ∨ negatable n = true → zeroSum m = false))
        (getEQ n v) := by
    intro n v printable
    obtain ⟨y, c, ran, inner, same⟩ := getEQ_printable printable v
    rw [ran]
    refine ⟨⟨.eq inner, fun _ => rfl⟩, fun shown => ?_⟩
    rcases shown with notZero | negate
    · rw [zeroSum, decide_eq_false notZero]
      rfl
    · simp [zeroSum, same, negate]
  cases n with
  | add u c =>
    cases c with
    | none => exact elsewhere rfl
    | some c =>
      have notAdd : ∀ w d, c ≠ .add w d := by
        rintro w d rfl
        cases kept
      have same : getEQ (.add u (some c)) v = getEQ c (v - u) := by
        cases c with
        | add w d => exact absurd rfl (notAdd w d)
        | _ => rfl
      rw [same]
      exact plain (number.inner.plain notAdd)
  | _ => exact plain (number.plain (by simp))

def CompareKept (pred : Predicate) (n : Node) (rhs : Word) : Prop :=
  match pred with
  | .eq => EqKept n
  | .ne => EqKept n ∧ NeKept n rhs
  | .ugt => MoreKept n rhs
  | .uge => rhs ≠ 0 → MoreKept n (rhs - 1)
  | .ult => LessKept n rhs
  | .ule => rhs ≠ maxWord → LessKept n (rhs + 1)
  | _ => True

theorem number_summed : Summed Elsewhere Printable Number where
  null := elsewhere rfl
  count := .subsig
  members := fun h => by
    cases h with
    | printable printable =>
      cases printable with
      | sums some each => exact ⟨some, each⟩
  sums := fun some each => .printable (.sums some each)
  below := Number.inner
  offset := .offset

theorem whole_of_printable (printable : Printable n) : Whole n := by
  induction printable with
  | subsig i => rfl
  | and _ _ ih => exact wholeAll_iff.mpr ih
  | or _ _ ih => exact wholeAll_iff.mpr ih
  | eq _ ih => exact ih
  | gt _ ih => exact ih
  | lt _ ih => exact ih
  | sums _ _ ih => exact wholeAll_iff.mpr ih

end

/-! ## One step -/

/-- `getNot` can negate the node, and `node2String` can print it. -/
structure Usable (o : PtrOrder) (n : Node) : Prop where
  negated : ∃ m, getNot o n = .ok m
  printed : ∀ counter, ∃ s groups, node2String n counter = .ok (s, groups)

theorem node2String_printable {n : Node} (printable : Printable n) (counter : Word) :
    ∃ s groups, node2String n counter = .ok (s, groups) := by
  rw [node2String, text_printable printable]
  exact ⟨_, _, rfl⟩

theorem Condition.usable {o : PtrOrder} {n : Node} (condition : Condition n) : Usable o n := by
  obtain ⟨m, ran, -⟩ := getNot_whole (o := o) (whole_of_printable condition.1) (condition.2 rfl)
  exact ⟨⟨m, ran⟩, node2String_printable condition.1⟩

section
variable (map : Nat → Option Ptr)

def NotOffset (v : Value) : Prop := ∀ n, lookup map v = some (some n) → isAdd n = false

/-- The negation of the value shows no sum. -/
def Conceals (v : Value) : Prop := ∀ n, lookup map v = some (some n) → zeroSum n = false

/-- The condition on a phi: no condition on a route that is taken in the false direction calls a sum
0. A phi of numbers has no offset to choose from. -/
def PhiKept (f : Function) (l : Label) (p : Phi) : Prop :=
  ∀ E, f.entry = some E → ∀ e ∈ p.incoming, isZero e.1 = false →
    (p.ty ≠ .int 1 → NotOffset map e.1) ∧
    ∀ r ∈ routesTo f E.label l, EndsIn r e.2 → ∀ hop ∈ r, ∀ c, hop.cond = some c →
      hop.isTrue = false → Conceals map c

/-- The condition on an instruction. No two bits with nodes are added, nor a constant to such a bit,
and the logical operations on numbers have no offset as operand. -/
def InstKept (i : Inst) : Prop :=
  match i.op with
  | .icmp pred lhs rhs =>
    ∀ op bits c n,
      ((lhs = op ∧ rhs = .const (.int bits c)) ∨ (rhs = op ∧ lhs = .const (.int bits c))) →
      lookup map op = some (some n) → CompareKept pred n (BitVec.ofNat 32 c)
  | .select cond ifTrue ifFalse =>
    Conceals map cond ∧ (i.ty ≠ .int 1 → NotOffset map ifTrue ∧ NotOffset map ifFalse)
  | .binary .add lhs rhs =>
    lookup map lhs ≠ none → isConstantInt rhs = true ∨ lookup map rhs ≠ none → i.ty ≠ .int 1
  | .binary .and lhs rhs => i.ty ≠ .int 1 → NotOffset map lhs ∧ NotOffset map rhs
  | .binary .or lhs rhs => i.ty ≠ .int 1 → NotOffset map lhs ∧ NotOffset map rhs
  | .binary .xor lhs _ => Conceals map lhs ∧ (i.ty ≠ .int 1 → CanNegate map lhs)
  | _ => True

/-- The condition on a return. -/
def TermKept : Term Value → Prop
  | .ret (some v) => NotOffset map v
  | _ => True

end

/-- The types of the instructions, and the typing rules for phis, branches and the instructions that
the compiler handles. -/
structure WellTyped (τ : Nat → Ty) (f : Function) : Prop where
  insts : ∀ B ∈ f.blocks, ∀ i ∈ B.body, τ i.id = i.ty ∧ Typed τ i
  phis : ∀ B ∈ f.blocks, ∀ p ∈ B.phis, τ p.id = p.ty ∧ ∀ e ∈ p.incoming, typeOf τ e.1 = p.ty
  terms : ∀ B ∈ f.blocks, ∀ c t e, B.term = .condBr c t e → typeOf τ c = .int 1

/-- The node of an instruction of the type. -/
def Bound (t : Ty) (n : Node) : Prop := Number n ∧ (t = .int 1 → Condition n)

def KindsMap (τ : Nat → Ty) (map : Nat → Option Ptr) : Prop :=
  ∀ d n, map d = some (some n) → Bound (τ d) n

theorem Kind.bound {t : Ty} {n : Node} (kind : Kind t n) : Bound t n :=
  ⟨.printable kind.1, fun bit => ⟨kind.1, fun _ => kind.2 bit⟩⟩

section
variable {o : PtrOrder} {gv : GlobalId} {f : Function} {τ : Nat → Ty} {map : Nat → Option Ptr}

theorem KindsMap.update (kinds : KindsMap τ map) {d : Nat} {p : Ptr} (here : Held (Bound (τ d)) p) :
    KindsMap τ (Function.update map d (some p)) := by
  intro e n found
  by_cases same : e = d
  · subst same
    rw [Function.update_self] at found
    exact here n (Option.some.inj found)
  · rw [Function.update_of_ne same] at found
    exact kinds e n found

theorem compares_kept {pred : Predicate} {n : Node} {rhs : Word} (number : Number n)
    (kept : CompareKept pred n rhs) :
    Compares o Elsewhere Condition pred n rhs := by
  obtain ⟨less, more⟩ := getLT_getGT_kept (o := o) number
  cases pred with
  | eq => exact (getEQ_kept number kept rhs).mono fun m made => made.1
  | ne => exact (getEQ_kept number kept.1 rhs).mono fun m made =>
      (getNot_condition made.1 (made.2 kept.2)).yields.meets
  | ugt => exact more rhs kept
  | uge => exact fun notZero => more _ (kept notZero)
  | ult => exact less rhs kept
  | ule => exact fun notMax => less _ (kept notMax)
  | _ => trivial

/-- What is negated, which shows no sum. -/
theorem getNot_value {v : Value} {n : Node} (condition : Condition n) (conceals : Conceals map v)
    (found : lookup map v = some (some n)) : Meets Elsewhere Condition (getNot o n) :=
  (getNot_condition condition (conceals n found)).yields.meets

theorem getZExtValue_kinds {v : Nat} : Meets Elsewhere (fun _ => True) (getZExtValue v) := by
  unfold getZExtValue
  split_ifs
  · trivial
  · exact elsewhere rfl

theorem processLoad_kinds {ptr : Value} :
    Meets Elsewhere (Binds Condition) (processLoad gv ptr) := by
  have count : ∀ i, Condition (.subsig i) := fun i => ⟨.subsig i, fun _ => rfl⟩
  unfold processLoad
  split
  · next g first index =>
    split_ifs
    · exact binds_flag _
    · split
      · next k => exact getZExtValue_kinds.bind fun _ _ _ => binds_some (count _)
      · exact elsewhere rfl
      · exact binds_flag _
      · exact elsewhere rfl
  · exact binds_flag _
  · exact binds_flag _
  · exact binds_flag _
  · exact binds_some (count 0)

section
variable (kinds : KindsMap τ map)
include kinds

theorem KindsMap.bound {v : Value} {n : Node} (found : lookup map v = some (some n)) :
    Bound (typeOf τ v) n := by
  cases v with
  | inst d => exact kinds d n found
  | arg i => cases found
  | const c => cases found

theorem KindsMap.condition {v : Value} {n : Node} (typed : typeOf τ v = .int 1)
    (found : lookup map v = some (some n)) :
    Condition n := (kinds.bound found).2 typed

/-- An operand that is no offset. -/
theorem KindsMap.kind {t : Ty} {v : Value} {n : Node} (typed : typeOf τ v = t)
    (plain : t ≠ .int 1 → NotOffset map v) (found : lookup map v = some (some n)) : Kind t n := by
  by_cases bit : t = .int 1
  · exact (kinds.condition (typed.trans bit) found).kind t
  · have notAdd : ∀ u c, n ≠ .add u c := by
      rintro u c rfl
      cases plain bit _ found
    exact ⟨(kinds.bound found).1.plain notAdd, fun bit' => absurd bit' bit⟩

theorem processICmp_kinds {pred : Predicate} {lhs rhs : Value} (kept : ∀ op bits c n,
      ((lhs = op ∧ rhs = .const (.int bits c)) ∨ (rhs = op ∧ lhs = .const (.int bits c))) →
      lookup map op = some (some n) → CompareKept pred n (BitVec.ofNat 32 c)) :
    Meets Elsewhere (Binds Condition) (processICmp o (lookup map) pred lhs rhs) := by
  have compared :
      ∀ op0 op1, (∀ bits c n, op1 = .const (.int bits c) → lookup map op0 = some (some n) →
      CompareKept pred n (BitVec.ofNat 32 c)) →
        Meets Elsewhere (Binds Condition) (compareWith o (lookup map) pred op0 op1) := by
    intro op0 op1 kept
    unfold compareWith
    split
    · next bits v =>
      refine getZExtValue_kinds.bind fun u read _ => ?_
      have same : u = v := by
        unfold getZExtValue at read
        split_ifs at read
        exact (Except.ok.inj read).symm
      subst same
      split_ifs
      · exact binds_flag _
      · split
        · exact binds_flag _
        · next p found =>
          refine compareNode_meets (joined_kind _) fun n same => ?_
          have found : lookup map op0 = some (some n) := same ▸ found
          exact compares_kept (kinds.bound found).1 (kept bits u n rfl found)
    · exact binds_flag _
  unfold processICmp
  split_ifs
  · exact compared rhs lhs fun bits c n same => kept rhs bits c n (Or.inr ⟨rfl, same⟩)
  · exact compared lhs rhs fun bits c n same => kept lhs bits c n (Or.inl ⟨rfl, same⟩)

theorem processAdd_kinds {t : Ty} {lhs rhs : Value} (kept : lookup map lhs ≠ none →
      isConstantInt rhs = true ∨ lookup map rhs ≠ none → t ≠ .int 1) :
    Meets Elsewhere (Binds (Bound t)) (processAdd (lookup map) lhs rhs) := by
  have follow : ∀ {v : Value} {p : Ptr}, lookup map v = some p →
      Meets Elsewhere Number (deref p) := by
    intro v p found
    cases p with
    | none => exact elsewhere rfl
    | some n => exact (kinds.bound found).1
  unfold processAdd
  split
  · exact binds_reject _
  · next l foundL =>
    have kept := kept (by simp [foundL])
    split
    · refine getZExtValue_kinds.bind fun u _ _ => (follow foundL).bind fun n _ number => ?_
      refine binds_some ⟨.offset ?_, fun bit => absurd bit (kept (.inl rfl))⟩
      rintro d ⟨⟩
      exact number
    · split
      · exact binds_reject _
      · next r foundR =>
        have kept := kept (.inr (by simp [foundR]))
        refine (follow foundL).bind fun a _ left => (follow foundR).bind fun b _ right => ?_
        refine (number_summed.getAdd left right).bind fun sum _ made => ?_
        cases sum with
        | none => exact binds_reject _
        | some n =>
          dsimp only
          split_ifs
          · exact binds_some ⟨made n rfl, fun bit => absurd bit kept⟩
          · exact binds_reject _

theorem processXor_kinds {t : Ty} {lhs rhs : Value} (typed : typeOf τ lhs = t)
    (conceals : Conceals map lhs) (kept : t ≠ .int 1 → CanNegate map lhs) :
    Meets Elsewhere (Binds Condition) (processXor o (lookup map) lhs rhs) := by
  unfold processXor
  split
  · split
    · exact binds_reject _
    · next p found =>
      refine (getNotPtr_meets (joined_kind _) fun n same => ?_).bind fun m _ => binds_some
      have found : lookup map lhs = some (some n) := same ▸ found
      have condition : Condition n := by
        by_cases bit : t = .int 1
        · exact kinds.condition (typed.trans bit) found
        · have negate := kept bit n found
          have notAdd : ∀ u c, n ≠ .add u c := by
            rintro u c rfl
            cases negate
          exact ⟨(kinds.bound found).1.plain notAdd, fun _ => negate⟩
      exact getNot_value condition conceals found
  · exact binds_reject _

theorem processZExt_kinds {m k : Nat} {v : Value} (typed : typeOf τ v = .int m) :
    Meets Elsewhere (Binds (Bound (.int k))) (processZExt (lookup map) (.int m) (.int k) v) := by
  unfold processZExt
  split
  · exact binds_reject _
  · next p found =>
    split_ifs with widths
    · exact binds_reject _
    · rw [not_or, not_not, not_not] at widths
      obtain ⟨bit, wide⟩ : m = 1 ∧ k = 32 := widths
      cases p with
      | none => exact elsewhere rfl
      | some n =>
        have condition := kinds.condition (typed.trans (congrArg Ty.int bit)) found
        refine binds_some ⟨.printable (.sums (List.cons_ne_nil _ _) (by simpa using condition.1)),
          fun isBit => ?_⟩
        rw [wide] at isBit
        cases isBit

/-- An instruction binds a node of its type, and meets no sum or offset where it negates. -/
theorem processInst_kinds {i : Inst} (typed : Typed τ i) (kept : InstKept map i) :
    Meets Elsewhere (Binds (Bound i.ty)) (processInst o gv (lookup map) i) := by
  have mono : ∀ {P : Node → Prop} {x : Except Fault Step}, (∀ n, P n → Bound i.ty n) →
      Meets Elsewhere (Binds P) x →
      Meets Elsewhere (Binds (Bound i.ty)) x := by
    intro P x imp h
    exact h.mono fun st binds p same n here => imp n (binds p same n here)
  have ofKind : ∀ n, Kind i.ty n → Bound i.ty n := fun n => Kind.bound
  have ofCondition : ∀ n, Condition n → Bound i.ty n :=
    fun n condition => (condition.kind i.ty).bound
  obtain ⟨-, typed⟩ := typed
  unfold InstKept at kept
  unfold processInst
  split
  case h_1 => exact binds_skip
  case h_2 => exact binds_skip
  case h_3 => exact mono ofCondition processLoad_kinds
  case h_4 op =>
    rw [op] at kept
    exact mono ofCondition (processICmp_kinds kinds kept)
  case h_5 cond ifTrue ifFalse op =>
    rw [op] at kept typed
    obtain ⟨conceals, plain⟩ := kept
    refine mono ofKind
      (processSelect_meets (joined_kind _) (fun n found => ?_) (fun n => ?_) fun n => ?_)
    · have condition := kinds.condition typed.1 found
      exact ⟨condition.kind _,
        (getNot_value condition conceals found).mono fun m made => made.kind _⟩
    · exact kinds.kind typed.2.1 fun number => (plain number).1
    · exact kinds.kind typed.2.2 fun number => (plain number).2
  case h_6 op =>
    rw [op] at kept
    exact processAdd_kinds kinds kept
  case h_7 lhs rhs op =>
    rw [op] at kept typed
    split
    · next a b left right =>
      refine mono ofKind ((getAndPtr_meets (joined_kind i.ty) (fun n same => ?_) fun n same =>
        ?_).bind fun m _ => binds_some)
      · exact kinds.kind typed.1 (fun number => (kept number).1) (same ▸ left)
      · exact kinds.kind typed.2 (fun number => (kept number).2) (same ▸ right)
    · exact binds_reject _
  case h_8 lhs rhs op =>
    rw [op] at kept typed
    split
    · next a b left right =>
      refine mono ofKind ((getOrPtr_meets (joined_kind i.ty) (fun n same => ?_) fun n same =>
        ?_).bind fun m _ => binds_some)
      · exact kinds.kind typed.1 (fun number => (kept number).1) (same ▸ left)
      · exact kinds.kind typed.2 (fun number => (kept number).2) (same ▸ right)
    · exact binds_reject _
  case h_9 lhs rhs op =>
    rw [op] at kept typed
    exact mono ofCondition (processXor_kinds kinds typed.1 kept.1 kept.2)
  case h_10 src v op =>
    rw [op] at typed
    obtain ⟨operand, m, k, rfl, result, -⟩ := typed
    rw [result]
    exact processZExt_kinds kinds operand
  case h_11 => exact binds_reject _

theorem processPHI_kinds (wellTyped : WellTyped τ f)
    {B : Block} (hB : B ∈ f.blocks) {p : Phi} (hp : p ∈ B.phis) (kept : PhiKept map f B.label p) :
    Meets Elsewhere (Held (Bound p.ty)) (processPHI o (lookup map) f B.label p) := by
  obtain ⟨-, inputs⟩ := wellTyped.phis B hB p hp
  refine (processPHI_meets (joined_kind p.ty) fun E entry e he notZero => ?_).mono
    fun q held n same => (held n same).bound
  obtain ⟨plain, conceals⟩ := kept E entry e he notZero
  refine ⟨fun n => kinds.kind (inputs e he) plain, fun r hr ends hop inside c n cond found => ?_⟩
  obtain ⟨last, walk⟩ := walk_of_mem_routesTo hr
  rcases walk.cond inside with none | ⟨C, hC, c', t, e', term, cond'⟩
  · cases none.symm.trans cond
  · cases cond.symm.trans cond'
    have condition := kinds.condition (wellTyped.terms C hC c t e' term) found
    refine ⟨condition.kind _, fun isFalse => ?_⟩
    exact (getNot_value condition (conceals r hr ends hop inside c cond isFalse) found).mono
      fun m made => made.kind _

end

end

/-! ## All steps -/

/-- What holds of every state of a compilation in which all steps meet their conditions. -/
structure Kinds (τ : Nat → Ty) (s : State) : Prop where
  map : KindsMap τ s.map
  stack : s.stack = []
  exitNodesOr : ∀ n ∈ s.exitNodesOr, Printable n ∨ n = .const false
  exitNodesAnd : ∀ n ∈ s.exitNodesAnd, n = .const true

/-- Every step of the compilation meets its condition in the state that it finds. -/
structure RunKept (o : PtrOrder) (gv : GlobalId) (f : Function) : Prop where
  phi : ∀ B s p ps, AtPhi o gv f B s (p :: ps) → PhiKept s.map f B.label p
  inst : ∀ B s valid i is, AtInst o gv f B s valid (i :: is) → InstKept s.map i
  term : ∀ B s valid, AtInst o gv f B s valid [] → TermKept s.map B.term

section
variable {o : PtrOrder} {gv : GlobalId} {f : Function} {τ : Nat → Ty} {B : Block}

theorem kinds_initial : Kinds τ State.initial := ⟨nofun, rfl, nofun, nofun⟩

theorem Kinds.setNode {s : State} (h : Kinds τ s) {i : Nat} {p : Ptr}
    (held : Held (Bound (τ i)) p) :
    Kinds τ (s.setNode i p) := ⟨h.map.update held, h.stack, h.exitNodesOr, h.exitNodesAnd⟩

theorem Kinds.report {s : State} (h : Kinds τ s) (m : Message) (i : Option Nat) :
    Kinds τ (s.report m i) :=
  ⟨h.map, h.stack, h.exitNodesOr, h.exitNodesAnd⟩

/-- The last instruction of a block. -/
theorem processTerm_kinds {s : State} (kinds : Kinds τ s) {t : Term Value}
    (typed : ∀ c l l', t = .condBr c l l' → typeOf τ c = .int 1) (kept : TermKept s.map t)
    (id : Nat) (valid : Bool) :
    Meets Elsewhere (fun r => Kinds τ r.1) (processTerm o id t s valid) := by
  have popped : ∀ n, (s.push n).pop = s := by
    intro n
    simp [State.push, State.pop]
  cases t with
  | br l => exact kinds
  | switch c d cases => exact kinds.report _ _
  | unreachable => exact kinds.report _ _
  | condBr c l l' =>
    simp only [processTerm]
    split
    · exact kinds.report _ _
    · next p found =>
      cases p with
      | none => exact elsewhere rfl
      | some n =>
        obtain ⟨⟨m, negation⟩, -⟩ := (kinds.map.condition (typed c l l' rfl) found).usable (o := o)
        simp only [deref, ok_bind, negation, popped]
        exact kinds
  | ret v =>
    cases v with
    | none => exact elsewhere rfl
    | some v =>
      simp only [processTerm]
      split
      · have empty : getAnd o s.stack = .const true := by rw [kinds.stack, getAnd_nil]
        simp only [empty]
        split_ifs
        · refine ⟨kinds.map, kinds.stack, fun n hn => ?_, kinds.exitNodesAnd⟩
          exact (List.mem_append.mp hn).elim (kinds.exitNodesOr n) fun hn =>
            Or.inr (List.mem_singleton.mp hn)
        · refine ⟨kinds.map, kinds.stack, kinds.exitNodesOr, fun n hn => ?_⟩
          exact (List.mem_append.mp hn).elim (kinds.exitNodesAnd n) List.mem_singleton.mp
      · split
        · exact kinds.report _ _
        · next p found =>
          cases p with
          | none => exact elsewhere rfl
          | some n =>
            have notAdd : ∀ u c, n ≠ .add u c := by
              rintro u c rfl
              cases kept _ found
            have kind := kind_void ((kinds.map.bound found).1.plain notAdd)
            have alone : Kind .void (getAnd o (s.stack ++ [n])) := by
              rw [kinds.stack]
              exact getAnd_kind (by simp [kind]) ⟨n, by simp, kind⟩
            refine ⟨kinds.map, ?_, fun m hm => ?_, kinds.exitNodesAnd⟩
            · simp [State.push, State.pop, State.pushOr, kinds.stack]
            · refine (List.mem_append.mp hm).elim (kinds.exitNodesOr m) fun hm => Or.inl ?_
              rw [List.mem_singleton.mp hm]
              exact alone.1

variable (wellTyped : WellTyped τ f) (kept : RunKept o gv f)
include wellTyped kept

/-- In such a compilation every step keeps the kinds, and negates no sum and no offset. -/
theorem RunKept.keeps : Keeps o gv f Elsewhere (Kinds τ) where
  initial := kinds_initial
  report := fun kinds => kinds.report
  phi := fun {B s p ps} reached kinds => by
    obtain ⟨hB, done, split⟩ := atPhi_split reached
    have hp : p ∈ B.phis := by simp [split]
    have step := processPHI_kinds (o := o) kinds.map wellTyped hB hp (kept.phi B s p ps reached)
    rw [← (wellTyped.phis B hB p hp).1] at step
    exact step.mono fun n held => kinds.setNode held
  inst := fun {B s valid i is} reached kinds => by
    obtain ⟨hB, done, split⟩ := atInst_split reached
    obtain ⟨same, typed⟩ := wellTyped.insts B hB i (by simp [split])
    have step : Meets Elsewhere (Binds (Bound i.ty)) (processInst o gv (lookup s.map) i) :=
      processInst_kinds kinds.map typed (kept.inst B s valid i is reached)
    rw [← same] at step
    exact step.mono fun st binds n isBind => kinds.setNode (binds n isBind)
  term := fun {B s valid} reached kinds => by
    have hB := (atInst_split reached).1
    exact processTerm_kinds kinds (wellTyped.terms B hB) (kept.term B s valid reached) _ _

end

/-- The result of a compilation: a constant, or a node that can be printed. -/
theorem exits_printable {o : PtrOrder} {τ : Nat → Ty} {s : State} (kinds : Kinds τ s)
    {n : Node} (same : n = getAnd o [getOrExits o s.exitNodesOr, getAnd o s.exitNodesAnd])
    (notConst : ∀ b, n ≠ .const b) :
    Printable n := by
  rw [getAnd_true kinds.exitNodesAnd] at same
  have exits : Printable (getOrExits o s.exitNodesOr) := by
    have each : ∀ m ∈ s.exitNodesOr, Kind .void m ∨ m = .const false :=
      fun m hm => (kinds.exitNodesOr m hm).imp_left kind_void
    unfold getOrExits at same ⊢
    split_ifs at same ⊢
    · exact absurd (same.trans (getAnd_true (by simp))) (notConst true)
    · by_cases some : ∃ m ∈ s.exitNodesOr, Kind .void m
      · exact (getOr_kind each some).1
      · push Not at some
        rw [getOr_false fun m hm => (each m hm).resolve_left (some m hm)] at same
        exact absurd (same.trans (by simp [getAnd, popped, conjuncts])) (notConst false)
  have kind := kind_void exits
  rw [same]
  exact (getAnd_kind (by simp [kind]) ⟨_, List.mem_cons_self, kind⟩).1

/-- Every node that is bound to a bit can be negated and printed, no sum or offset is negated, and
the result is a constant or can be printed. -/
structure KindsSafe (o : PtrOrder) (gv : GlobalId) (f : Function) : Prop where
  phi : ∀ B s p ps n, AtPhi o gv f B s (p :: ps) → p.ty = .int 1 →
    processPHI o (lookup s.map) f B.label p = .ok (some n) → Usable o n
  inst : ∀ B s valid i is n, AtInst o gv f B s valid (i :: is) → i.ty = .int 1 →
    processInst o gv (lookup s.map) i = .ok (.bind (some n)) → Usable o n
  negation : compile o (some gv) f ≠ .error .invalidNegation
  printing : ∀ s n, compile o (some gv) f = .ok (s, some n) → (∀ b, n ≠ .const b) →
    ∃ text groups, node2String n 0 = .ok (text, groups)

/-- If every step meets its condition, no node of an impossible kind turns up. -/
theorem kinds_safe {o : PtrOrder} {gv : GlobalId} {f : Function} {τ : Nat → Ty}
    (wellTyped : WellTyped τ f) (kept : RunKept o gv f) : KindsSafe o gv f := by
  have keeps := kept.keeps wellTyped
  refine ⟨?_, ?_, ?_, ?_⟩
  · intro B s p ps n reached bit ran
    obtain ⟨hB, done, split⟩ := atPhi_split reached
    have hp : p ∈ B.phis := by simp [split]
    have kinds := (keeps.atPhi (.next reached ran)).map
    have held := kinds p.id n (by simp [State.setNode])
    exact (held.2 ((wellTyped.phis B hB p hp).1.trans bit)).usable
  · intro B s valid i is n reached bit ran
    obtain ⟨hB, done, split⟩ := atInst_split reached
    have hi : i ∈ B.body := by simp [split]
    have kinds := (keeps.atInst (.bind reached ran)).map
    have held := kinds i.id n (by simp [State.setNode])
    exact (held.2 ((wellTyped.insts B hB i hi).1.trans bit)).usable
  · intro failed
    have checked : Meets Elsewhere (fun _ => True) (compile o (some gv) f) := by
      refine keeps.compiled.bind fun r _ _ => ?_
      split_ifs <;> trivial
    exact checked.of_error failed rfl
  · intro s n compiled notConst
    obtain ⟨⟨t, accepted⟩, ran, compiled⟩ := bind_eq_ok.mp compiled
    cases accepted with
    | false => cases compiled
    | true =>
      cases compiled
      exact node2String_printable (exits_printable (keeps.compiled.of_ok ran).1 rfl notConst) 0

theorem sumOrThird_wellTyped : WellTyped sumTypes sumOrThird where
  insts := by
    simp [sumOrThird, Typed, sumTypes, typeOf, Op.operands, LogicalInstructions.Fits]
  phis := by
    simp only [sumOrThird, List.mem_cons, List.not_mem_nil, or_false]
    rintro B (rfl | rfl | rfl | rfl) p hp
    · cases hp
    · cases hp
    · cases hp
    · cases List.mem_singleton.mp hp
      exact ⟨rfl, by simp [typeOf, sumTypes]⟩
  terms := by simp [sumOrThird, sumTypes, typeOf]

/-- The comparison of the sum is negated on the way to the phi. -/
theorem sumOrThird_kept : RunKept .inOrder 0 sumOrThird where
  phi := by
    intro B s p ps reached
    have ext := sumOrThird_closed.keeps.atPhi reached
    obtain ⟨hB, done, split⟩ := atPhi_split reached
    have hp : p ∈ B.phis := by simp [split]
    simp only [sumOrThird, List.mem_cons, List.not_mem_nil, or_false] at hB
    rcases hB with rfl | rfl | rfl | rfl
    · cases hp
    · cases hp
    · cases hp
    cases List.mem_singleton.mp hp
    intro E entry e he notZero
    cases entry
    refine ⟨fun number => absurd rfl number, fun r hr ends hop inside c cond isFalse n found => ?_⟩
    cases sumOrThird_condition hr inside cond
    cases ext 3 _ found
    rfl
  inst := by
    intro B s valid i is reached
    have ext := sumOrThird_closed.keeps.atInst reached
    obtain ⟨hB, done, split⟩ := atInst_split reached
    have hi : i ∈ B.body := by simp [split]
    simp only [sumOrThird, List.mem_cons, List.not_mem_nil, or_false] at hB
    rcases hB with rfl | rfl | rfl | rfl
    · simp only [List.mem_cons, List.not_mem_nil, or_false] at hi
      rcases hi with rfl | rfl | rfl | rfl
      · trivial
      · trivial
      · rintro - - ⟨⟩
      · rintro op bits c n (⟨rfl, same⟩ | ⟨rfl, same⟩) found
        · cases same
          cases ext 2 _ found
          exact .inl (by decide)
        · cases same
    · cases hi
    · simp only [List.mem_cons, List.not_mem_nil, or_false] at hi
      rcases hi with rfl | rfl
      · trivial
      · rintro op bits c n (⟨rfl, same⟩ | ⟨rfl, same⟩) found
        · cases same
          cases ext 6 _ found
          trivial
        · cases same
    · cases hi
  term := by
    intro B s valid reached
    have ext := sumOrThird_closed.keeps.atInst reached
    have hB := (atInst_split reached).1
    simp only [sumOrThird, List.mem_cons, List.not_mem_nil, or_false] at hB
    rcases hB with rfl | rfl | rfl | rfl
    · trivial
    · trivial
    · trivial
    · intro n found
      cases ext 9 _ found
      rfl

theorem kinds_safe_sumOrThird :
    WellTyped sumTypes sumOrThird ∧ RunKept .inOrder 0 sumOrThird ∧
      KindsSafe .inOrder 0 sumOrThird :=
  ⟨sumOrThird_wellTyped, sumOrThird_kept, kinds_safe sumOrThird_wellTyped sumOrThird_kept⟩

/-- `!(count0 + count1 > 0)`. -/
def sumAboveZero : Function where
  args := []
  nextId := 6
  blocks := [⟨0, [], [⟨0, .int 32, .load false (.const (.global 0))⟩,
    ⟨1, .int 32, .load false (.const (.getElementPtrExpr (.global 0) [.int 64 0, .int 64 1]))⟩,
    ⟨2, .int 32, .binary .add (.inst 0) (.inst 1)⟩,
    ⟨3, .int 1, .icmp .ugt (.inst 2) (.const (.int 32 0))⟩,
    ⟨4, .int 1, .binary .xor (.inst 3) (.const (.int 1 1))⟩], 5, .ret (some (.inst 4))⟩]

theorem sumAboveZero_compiled :
    compile .inOrder (some 0) sumAboveZero = .error .invalidNegation := by
  have body : processBody .inOrder 0 [⟨0, .int 32, .load false (.const (.global 0))⟩,
      ⟨1, .int 32, .load false (.const (.getElementPtrExpr (.global 0) [.int 64 0, .int 64 1]))⟩,
      ⟨2, .int 32, .binary .add (.inst 0) (.inst 1)⟩,
      ⟨3, .int 1, .icmp .ugt (.inst 2) (.const (.int 32 0))⟩,
      ⟨4, .int 1, .binary .xor (.inst 3) (.const (.int 1 1))⟩] State.initial true =
        .error .invalidNegation := by
    change (processAdd
      (lookup ((State.initial.setNode 0 (some (.subsig 0))).setNode 1 (some (.subsig 1))).map)
      (.inst 0) (.inst 1) >>= _) = _
    rw [processAdd_pair rfl rfl]
    rfl
  simp only [compile, sumAboveZero, processBlocks, processBB, processPhis, ok_bind, body]
  rfl

/-- `count + 1 > 0`. -/
def offsetAboveZero : Function where
  args := []
  nextId := 4
  blocks := [⟨0, [], [⟨0, .int 32, .load false (.const (.global 0))⟩,
    ⟨1, .int 32, .binary .add (.inst 0) (.const (.int 32 1))⟩,
    ⟨2, .int 1, .icmp .ugt (.inst 1) (.const (.int 32 0))⟩], 3, .ret (some (.inst 2))⟩]

/-- The sum is negated, and the offset is printed. -/
theorem aboveZero_not_safe :
    (SsaForm.Ssa sumAboveZero ∧ sumAboveZero.LoopFree ∧
      compile .inOrder (some 0) sumAboveZero = .error .invalidNegation ∧
        ¬ KindsSafe .inOrder 0 sumAboveZero) ∧
    SsaForm.Ssa offsetAboveZero ∧ offsetAboveZero.LoopFree ∧
      (∃ s n, compile .inOrder (some 0) offsetAboveZero = .ok (s, some n) ∧
        node2String n 0 = .error .invalidKind) ∧
      ¬ KindsSafe .inOrder 0 offsetAboveZero := by
  obtain ⟨ssa, free⟩ := SsaChecks.ssa_of_checks (f := sumAboveZero) (by decide)
  obtain ⟨ssa', free'⟩ := SsaChecks.ssa_of_checks (f := offsetAboveZero) (by decide)
  refine ⟨⟨ssa, free, sumAboveZero_compiled, fun safe => safe.negation sumAboveZero_compiled⟩, ssa',
    free',
    ⟨_, .add 1 (some (.subsig 0)), rfl, rfl⟩, fun safe => ?_⟩
  obtain ⟨text, groups, printed⟩ := safe.printing _ (.add 1 (some (.subsig 0))) rfl nofun
  cases printed

end LogicalKinds
