import ClamBC.LogicalCompiler
import ClamBC.LogicalText
import ClamBC.TriggerRun
import Mathlib.Data.List.Dedup

/-!
# Uniqueness counts

What becomes of a comparison of the number of different subsignatures that matched. Only
an equality is printed as a comparison of that number, and then together with the total;
everything else is printed as a comparison of the total count. So the text is right for
the constants at which the two numbers cannot be told apart.
-/

namespace LogicalUnique

open Ir LogicalNode LogicalShape LogicalMeaning LogicalText LogicalCompiler TriggerRun
  LdbText Fallible

/-- The results of `matches()` for some subsignatures, added up in any order. -/
inductive UniqueSum (o : PtrOrder) : Node → List Word → Prop
  | one {i : Word} {n : Node} : compareNode o .ne (some (.subsig i)) 0 = .ok (.bind (some n)) →
      UniqueSum o (getUniqueSigs n) [i]
  | add {l r m : Node} {is js : List Word} : UniqueSum o l is → UniqueSum o r js →
      getAdd l r = .ok (some m) →
      UniqueSum o m (is ++ js)

/-- How many of the subsignatures matched. -/
def matching (counts : Counts) (is : List Word) : Nat :=
  (is.filter fun i => 0 < natCounts counts i.toNat).length

def totalOf (counts : Counts) (is : List Word) : Nat :=
  (is.map fun i => natCounts counts i.toNat).sum

/-- The text of a node, read as an expression, is true. -/
def TextHolds (counts : Counts) (m : Node) : Prop :=
  ∃ s groups e, node2String m 0 = .ok (s, groups) ∧ read s.toList = some e ∧
    e.holds (natCounts counts) = true

/-- The comparison is rejected, or its text says that the number of matching subsignatures
satisfies the predicate. -/
def KeepsMeaning (o : PtrOrder) (pred : Predicate) (n : Node) (is : List Word) (v : Word) : Prop :=
  match compareNode o pred (some n) v with
  | .ok (.bind (some m)) => ∀ counts, TextHolds counts m ↔
      compareVal (matching counts is) v.toNat pred = some true
  | .ok (.flag _) => True
  | _ => False

/-- The constants for which the comparison of `k` subsignatures is right. -/
def Exact (k : Nat) (v : Word) : Predicate → Prop
  | .eq => v = 0 ∨ (k < v.toNat ∧ v ≠ maxWord)
  | .ne => v = 0
  | .ugt => v = 0 ∨ (v = maxWord ∧ k = 1)
  | .uge => v = 0 ∨ v = 1
  | .ult => v = 0 ∨ v = 1
  | .ule => v = 0 ∨ v = maxWord
  | _ => True

variable {o : PtrOrder} {counts : Counts}

/-! ## The node of the sum -/

theorem compareNode_matches (i : Word) :
    compareNode o .ne (some (.subsig i)) 0 = .ok (.bind (some (.subsig i))) := by
  have collapsed : getOr o [.const false, .subsig i] = .subsig i := by
    simp [getOr, alternatives, inserted]
  have negated : getNot o (.eq 0 maxWord (.subsig i)) = .ok (.subsig i) := by
    simp only [getNot, getLT_zero, getGT_zero, ok_bind, collapsed]
    rfl
  change (getNot o (.eq 0 maxWord (.subsig i)) >>= fun m => _) = _
  rw [negated]
  rfl

theorem UniqueSum.node {n : Node} {is : List Word} (sum : UniqueSum o n is) :
    is ≠ [] ∧ ∃ js : List Word, n = .sums .uniq (js.map .subsig) ∧ js.Perm is := by
  induction sum with
  | one ran =>
    rw [compareNode_matches] at ran
    cases ran
    exact ⟨List.cons_ne_nil _ _, [_], rfl, .refl _⟩
  | add _ _ ran left right =>
    obtain ⟨some, is, rfl, permLeft⟩ := left
    obtain ⟨-, js, rfl, permRight⟩ := right
    cases ran
    refine ⟨fun empty => some (List.append_eq_nil_iff.mp empty).1, ?_⟩
    rw [← List.map_append]
    obtain ⟨ks, sorted, perm⟩ := sortChildren_subsigs (is ++ js)
    exact ⟨ks, by rw [sorted], perm.trans (permLeft.append permRight)⟩

theorem matching_perm {is js : List Word} (perm : js.Perm is) :
    matching counts js = matching counts is :=
  (perm.filter _).length_eq

/-! ## The text of a group -/

theorem textHolds_iff {m : Node} (printable : Printable m) :
    TextHolds counts m ↔ (tree m).holds (natCounts counts) = true := by
  have printed :
      node2String m 0 = .ok (String.ofList (tree m).print, 0 + BitVec.ofNat 32 (groups m)) := by
    rw [node2String, text_printable printable]
    rfl
  have back : read (String.ofList (tree m).print).toList = some (tree m) := by
    rw [String.toList_ofList]
    exact read_print (wide_printable printable)
  constructor
  · rintro ⟨s, groups, e, ran, parsed, holds⟩
    cases printed.symm.trans ran
    cases back.symm.trans parsed
    exact holds
  · exact fun holds => ⟨_, _, _, printed, back, holds⟩

theorem not_textHolds_const (b : Bool) : ¬ TextHolds counts (.const b) := by
  rintro ⟨s, groups, e, ran, -⟩
  cases ran

section
variable {js : List Word} (some : js ≠ []) (k : SumKind)
include some

theorem printable_sums : Printable (.sums k (js.map .subsig)) := by
  refine .sums (by simpa using some) fun c hc => ?_
  obtain ⟨i, -, rfl⟩ := List.mem_map.mp hc
  exact .subsig i

theorem holds_sums :
    (tree (.sums k (js.map .subsig))).holds (natCounts counts) = true ↔ 0 < matching counts js := by
  have positive : 0 < matching counts js ↔ ∃ j ∈ js, 0 < natCounts counts j.toNat := by
    rw [matching, List.length_pos_iff_exists_mem]
    simp
  rw [positive]
  match js, some with
  | [j], _ => simp [tree, Ldb.holds]
  | j :: j' :: js, _ =>
    rw [tree_sums (by simp), Ldb.holds, Ldb.someHold_iff, trees_eq_map]
    simp [tree, Ldb.holds]

theorem total_sums :
    (tree (.sums k (js.map .subsig))).total (natCounts counts) = totalOf counts js := by
  rw [Ldb.total, ids_sums some, List.map_map]
  rfl

theorem distinct_sums (nodup : js.Nodup) :
    (tree (.sums k (js.map .subsig))).distinct (natCounts counts) = matching counts js := by
  have distinct : (js.map BitVec.toNat).Nodup :=
    nodup.map fun i j same => BitVec.eq_of_toNat_eq same
  rw [Ldb.distinct, ids_sums some, distinct.dedup, List.filter_map, List.length_map]
  rfl

end

theorem textHolds_sums {js : List Word} (some : js ≠ []) (k : SumKind) :
    TextHolds counts (.sums k (js.map .subsig)) ↔ 0 < matching counts js :=
  (textHolds_iff (printable_sums some k)).trans (holds_sums some k)

theorem textHolds_lt {js : List Word} (some : js ≠ []) (k : SumKind) (v : Word) :
    TextHolds counts (.lt v (.sums k (js.map .subsig))) ↔ totalOf counts js < v.toNat := by
  rw [textHolds_iff (.lt (printable_sums some k)), tree, Ldb.holds, total_sums some,
    decide_eq_true_eq]

theorem textHolds_gt {js : List Word} (some : js ≠ []) (k : SumKind) (v : Word) :
    TextHolds counts (.gt v (.sums k (js.map .subsig))) ↔ v.toNat < totalOf counts js := by
  rw [textHolds_iff (.gt (printable_sums some k)), tree, Ldb.holds, total_sums some,
    decide_eq_true_eq]

/-- `=Y,Y` compares the total too, and alone if `Y` is the largest word. -/
theorem textHolds_eq {js : List Word} (some : js ≠ []) (nodup : js.Nodup) (v : Word) :
    TextHolds counts (.eq v v (.sums .both (js.map .subsig))) ↔
      totalOf counts js = v.toNat ∧ (v ≠ maxWord → matching counts js = v.toNat) := by
  rw [textHolds_iff (.eq (printable_sums some .both)), tree]
  split_ifs with max
  · simp [Ldb.holds, total_sums some, max]
  · simp [Ldb.holds, total_sums some, distinct_sums some .both nodup, max]

/-- The disjunction that stands for a total other than `v`. -/
theorem textHolds_ne {js : List Word} (some : js ≠ []) {v : Word} (notZero : v ≠ 0) :
    ∃ m, getNot o (.eq v v (.sums .both (js.map .subsig))) = .ok m ∧
      ∀ counts, TextHolds counts m ↔ totalOf counts js ≠ v.toNat := by
  let less : Node := .lt v (.sums .both (js.map .subsig))
  let more : Node := .gt v (.sums .both (js.map .subsig))
  have ran : getNot o (.eq v v (.sums .both (js.map .subsig))) = .ok (getOr o [less, more]) := by
    have notAdd : ∀ u c, Node.sums .both (js.map .subsig) ≠ .add u c := nofun
    rw [getNot, getLT_plain notAdd notZero, getGT_plain notAdd notZero]
    rfl
  have made : getOr o [less, more] = .or (o.set [less, more]) := by
    have nodes : inserted ([less, more].flatMap alternatives) = [less, more] := by
      simp [alternatives, inserted, less, more]
    rw [getOr, if_neg (by simp [less, more]), nodes]
  have perm := o.set_perm [less, more]
  have members : ∀ c, c ∈ o.set [less, more] ↔ c = less ∨ c = more :=
    fun c => perm.mem_iff.trans List.mem_pair
  refine ⟨_, ran, fun counts => ?_⟩
  rw [made, textHolds_iff]
  · rw [tree, Ldb.holds, Ldb.someHold_iff, trees_eq_map]
    have either : (∃ e ∈ (o.set [less, more]).map tree, e.holds (natCounts counts) = true) ↔
        (tree less).holds (natCounts counts) = true ∨
          (tree more).holds (natCounts counts) = true := by
      simp [members]
    rw [either, ← textHolds_iff (.lt (printable_sums some .both)), ← textHolds_iff
      (.gt (printable_sums some .both)),
      textHolds_lt some, textHolds_gt some]
    omega
  · refine .or (by rw [perm.length_eq]; simp) fun c hc => ?_
    rcases (members c).mp hc with rfl | rfl
    · exact .lt (printable_sums some .both)
    · exact .gt (printable_sums some .both)

/-! ## The number of matching subsignatures and the total count -/

theorem totalOf_cons (i : Word) (is : List Word) :
    totalOf counts (i :: is) = natCounts counts i.toNat + totalOf counts is := rfl

theorem matching_cons (i : Word) (is : List Word) :
    matching counts (i :: is) =
      (if 0 < natCounts counts i.toNat then 1 else 0) + matching counts is := by
  unfold matching
  rw [List.filter_cons]
  split_ifs <;> simp_all [Nat.add_comm]

theorem matching_le_length (is : List Word) : matching counts is ≤ is.length :=
  List.length_filter_le _ _

theorem total_eq_zero_iff (is : List Word) : totalOf counts is = 0 ↔ matching counts is = 0 := by
  induction is with
  | nil => simp [matching, totalOf]
  | cons i is ih =>
    rw [matching_cons, totalOf_cons]
    split_ifs <;> omega

/-- The first `m` subsignatures have the same count and the others none. -/
def spread (js : List Word) (m : Nat) (w : Word) : Counts := fun k =>
  if k ∈ (js.take m).map BitVec.toNat then w else 0

theorem natCounts_spread (js : List Word) (m : Nat) (w i : Word) :
    natCounts (spread js m w) i.toNat = if i ∈ js.take m then w.toNat else 0 := by
  have same : i.toNat ∈ (js.take m).map BitVec.toNat ↔ i ∈ js.take m := by
    constructor
    · intro h
      obtain ⟨j, hj, equal⟩ := List.mem_map.mp h
      rwa [← BitVec.eq_of_toNat_eq equal]
    · exact fun h => List.mem_map.mpr ⟨i, h, rfl⟩
  unfold natCounts spread
  simp only [same]
  split_ifs <;> rfl

theorem totalOf_spread {js : List Word} {m : Nat} {w : Word} (notZero : w ≠ 0) (is : List Word) :
    totalOf (spread js m w) is = matching (spread js m w) is * w.toNat := by
  have positive : 0 < w.toNat := by bv_omega
  induction is with
  | nil => simp [matching, totalOf]
  | cons i is ih =>
    rw [matching_cons, totalOf_cons, natCounts_spread, ih]
    split_ifs <;> first | omega | (rw [Nat.add_mul]; omega)

theorem matching_spread {js : List Word} (nodup : js.Nodup) {m : Nat} (inside : m ≤ js.length)
    {w : Word} (notZero : w ≠ 0) :
    matching (spread js m w) js = m := by
  have positive : 0 < w.toNat := by bv_omega
  have counted : ∀ i, (0 < natCounts (spread js m w) i.toNat) ↔ i ∈ js.take m := by
    intro i
    rw [natCounts_spread]
    split_ifs with member
    · simp [member, positive]
    · simp [member]
  have apart : ∀ i ∈ js.drop m, i ∉ js.take m := by
    intro i hi hi'
    have parts := List.take_append_drop m js ▸ nodup
    exact (List.nodup_append.mp parts).2.2 i hi' i hi rfl
  have filtered : ∀ p : Word → Bool, (∀ i ∈ js.take m, p i = true) →
      (∀ i ∈ js.drop m, ¬ p i = true) →
      js.filter p = js.take m := by
    intro p first rest
    conv_lhs => rw [← List.take_append_drop m js]
    rw [List.filter_append, List.filter_eq_self.mpr first, List.filter_eq_nil_iff.mpr rest,
      List.append_nil]
  rw [matching, filtered, List.length_take]
  · exact Nat.min_eq_left inside
  · exact fun i hi => decide_eq_true ((counted i).mpr hi)
  · exact fun i hi h => apart i hi ((counted i).mp (of_decide_eq_true h))

/-! ## One predicate after the other -/

theorem keepsMeaning_bind {pred : Predicate} {n m : Node} {is : List Word} {v : Word}
    (ran : compareNode o pred (some n) v = .ok (.bind (some m))) :
    KeepsMeaning o pred n is v ↔
      ∀ counts, TextHolds counts m ↔ compareVal (matching counts is) v.toNat pred = some true := by
  unfold KeepsMeaning
  rw [ran]

theorem keepsMeaning_flag {pred : Predicate} {n : Node} {is : List Word}
    {v : Word} {message : Message} (ran : compareNode o pred (some n) v = .ok (.flag message)) :
    KeepsMeaning o pred n is v := by
  unfold KeepsMeaning
  rw [ran]
  trivial

section
variable {js : List Word} (some : js ≠ []) (nodup : js.Nodup) (v : Word)
include some nodup

/-- One subsignature matched `w` times and the others did not. -/
theorem one_spread {w : Word} (notZero : w ≠ 0) :
    matching (spread js 1 w) js = 1 ∧ totalOf (spread js 1 w) js = w.toNat := by
  have one := matching_spread nodup (List.length_pos_iff.mpr some) notZero
  exact ⟨one, by rw [totalOf_spread notZero, one, Nat.one_mul]⟩

theorem keeps_eq :
    KeepsMeaning o .eq (.sums .uniq (js.map .subsig)) js v ↔ Exact js.length v .eq := by
  have ran : compareNode o .eq (Option.some (.sums .uniq (js.map .subsig))) v =
      .ok (.bind (Option.some (.eq v v (.sums .both (js.map .subsig))))) := rfl
  rw [keepsMeaning_bind ran]
  simp only [textHolds_eq some nodup, compareVal, Option.some.injEq, decide_eq_true_eq, Exact]
  constructor
  · intro keeps
    by_contra other
    obtain ⟨notZero, small⟩ := not_or.mp other
    by_cases max : v = maxWord
    · obtain ⟨one, total⟩ := one_spread some nodup notZero
      have wrong := (keeps (spread js 1 v)).mp ⟨total, fun notMax => absurd max notMax⟩
      rw [one, max] at wrong
      cases wrong
    · -- the first subsignatures matched twice each
      have inside : v.toNat ≤ js.length := by
        by_contra outside
        exact small ⟨by omega, max⟩
      have all := matching_spread nodup inside (by decide : (2 : Word) ≠ 0)
      have wrong := ((keeps (spread js v.toNat 2)).mpr all).1
      rw [totalOf_spread (by decide), all] at wrong
      have positive : v.toNat ≠ 0 := fun zero => notZero (BitVec.eq_of_toNat_eq zero)
      change v.toNat * 2 = v.toNat at wrong
      omega
  · rintro (rfl | ⟨large, notMax⟩) counts
    · constructor
      · rintro ⟨zero, -⟩
        exact (total_eq_zero_iff js).mp zero
      · exact fun zero => ⟨(total_eq_zero_iff js).mpr zero, fun _ => zero⟩
    · have few := @matching_le_length counts js
      constructor
      · rintro ⟨-, same⟩
        exact same notMax
      · intro same
        omega

theorem keeps_ne :
    KeepsMeaning o .ne (.sums .uniq (js.map .subsig)) js v ↔ Exact js.length v .ne := by
  have step : ∀ {m}, getNot o (.eq v v (.sums .both (js.map .subsig))) = .ok m →
      compareNode o .ne (Option.some (.sums .uniq (js.map .subsig))) v =
        .ok (.bind (Option.some m)) := by
    intro m ran
    change (getNot o (.eq v v (.sums .both (js.map .subsig))) >>= fun m => _) = _
    rw [ran]
    rfl
  by_cases zero : v = 0
  · subst zero
    have collapsed : getOr o [.const false, .sums .both (js.map .subsig)] =
        .sums .both (js.map .subsig) := by
      simp [getOr, alternatives, inserted]
    have negated : getNot o (.eq 0 0 (.sums .both (js.map .subsig))) =
        .ok (.sums .both (js.map .subsig)) := by
      simp only [getNot, getLT_zero, getGT_zero, ok_bind, collapsed]
      rfl
    rw [keepsMeaning_bind (step negated)]
    simp only [textHolds_sums some, compareVal, Option.some.injEq, decide_eq_true_eq,
      Exact, iff_true]
    exact fun counts => Nat.pos_iff_ne_zero
  · obtain ⟨m, ran, reads⟩ := @textHolds_ne o js some v zero
    rw [keepsMeaning_bind (step ran)]
    simp only [reads, compareVal, Option.some.injEq, decide_eq_true_eq, Exact, zero, iff_false]
    intro keeps
    by_cases isOne : v = 1
    · subst isOne
      obtain ⟨one, total⟩ := one_spread some nodup (by decide : (2 : Word) ≠ 0)
      have wrong := keeps (spread js 1 2)
      rw [one, total] at wrong
      exact absurd wrong (by decide)
    · obtain ⟨one, total⟩ := one_spread some nodup zero
      have wrong := keeps (spread js 1 v)
      rw [one, total] at wrong
      refine wrong.mpr ?_ rfl
      bv_omega

omit nodup in
/-- `getGT` compares the total count. -/
theorem more_reads (w : Word) :
    ∃ m, getGTPtr o (Option.some (.sums .uniq (js.map .subsig))) w = .ok (Option.some m) ∧
    ∀ counts, TextHolds counts m ↔ w.toNat < totalOf counts js := by
  by_cases zero : w = 0
  · subst zero
    refine ⟨.sums .uniq (js.map .subsig), rfl, fun counts => ?_⟩
    rw [textHolds_sums some, Nat.pos_iff_ne_zero,
      ne_eq, ← total_eq_zero_iff, ← ne_eq, ← Nat.pos_iff_ne_zero]
    rfl
  · have notAdd : ∀ u c, Node.sums .uniq (js.map .subsig) ≠ .add u c := nofun
    refine ⟨.gt w (.sums .uniq (js.map .subsig)), ?_, fun counts => textHolds_gt some .uniq w⟩
    rw [getGTPtr, if_neg zero, deref, ok_bind, getGT_plain notAdd zero]
    rfl

omit nodup in
/-- So does `getLT`. -/
theorem less_reads (w : Word) : ∃ m, getLT o (.sums .uniq (js.map .subsig)) w = .ok m ∧
    ∀ counts, TextHolds counts m ↔ totalOf counts js < w.toNat := by
  by_cases zero : w = 0
  · subst zero
    refine ⟨.const false, getLT_zero _, fun counts => ?_⟩
    exact iff_of_false (not_textHolds_const false) (Nat.not_lt_zero _)
  · have notAdd : ∀ u c, Node.sums .uniq (js.map .subsig) ≠ .add u c := nofun
    exact ⟨_, getLT_plain notAdd zero, fun counts => textHolds_lt some .uniq w⟩

theorem total_more_iff (w : Word) :
    (∀ counts, w.toNat < totalOf counts js ↔ w.toNat < matching counts js) ↔
    w = 0 ∨ (w = maxWord ∧ js.length = 1) := by
  constructor
  · intro same
    by_contra other
    obtain ⟨notZero, large⟩ := not_or.mp other
    by_cases max : w = maxWord
    · -- two subsignatures are enough to exceed the largest word
      have two : 2 ≤ js.length := by
        have positive := List.length_pos_iff.mpr some
        have notOne : js.length ≠ 1 := fun one => large ⟨max, one⟩
        omega
      have both := matching_spread nodup two notZero
      have wrong := same (spread js 2 w)
      rw [totalOf_spread notZero, both, max] at wrong
      exact absurd (wrong.mp (by decide)) (by decide)
    · have next : w + 1 ≠ 0 := by
        intro zero
        refine max ?_
        unfold maxWord
        bv_omega
      obtain ⟨one, total⟩ := one_spread some nodup next
      have wrong := same (spread js 1 (w + 1))
      rw [one, total] at wrong
      bv_omega
  · rintro (rfl | ⟨rfl, one⟩) counts
    · have zero := @total_eq_zero_iff counts js
      change 0 < _ ↔ 0 < _
      omega
    · -- neither the count nor the number of one subsignature exceeds the largest word
      obtain ⟨j, rfl⟩ := List.length_eq_one_iff.mp one
      have count : totalOf counts [j] = (counts j.toNat).toNat := by simp [totalOf, natCounts]
      have few := @matching_le_length counts [j]
      have bound := (counts j.toNat).isLt
      have max : (maxWord : Word).toNat = 2 ^ 32 - 1 := rfl
      rw [count, max]
      simp only [List.length_singleton] at few
      omega

theorem total_less_iff (w : Word) :
    (∀ counts, totalOf counts js < w.toNat ↔ matching counts js < w.toNat) ↔ w = 0 ∨ w = 1 := by
  constructor
  · intro same
    by_contra other
    obtain ⟨notZero, notOne⟩ := not_or.mp other
    obtain ⟨one, total⟩ := one_spread some nodup notZero
    have wrong := same (spread js 1 w)
    rw [one, total] at wrong
    refine Nat.lt_irrefl _ (wrong.mpr ?_)
    bv_omega
  · rintro (rfl | rfl) counts
    · exact iff_of_false (Nat.not_lt_zero _) (Nat.not_lt_zero _)
    · have zero := @total_eq_zero_iff counts js
      change _ < 1 ↔ _ < 1
      omega

theorem keeps_ugt :
    KeepsMeaning o .ugt (.sums .uniq (js.map .subsig)) js v ↔ Exact js.length v .ugt := by
  obtain ⟨m, ran, reads⟩ := @more_reads o js some v
  have step : compareNode o .ugt (Option.some (.sums .uniq (js.map .subsig))) v =
      .ok (.bind (Option.some m)) := by
    rw [compareNode, ran]
    rfl
  rw [keepsMeaning_bind step]
  simp only [reads, compareVal, Option.some.injEq, decide_eq_true_eq]
  exact total_more_iff some nodup v

theorem keeps_uge :
    KeepsMeaning o .uge (.sums .uniq (js.map .subsig)) js v ↔ Exact js.length v .uge := by
  by_cases zero : v = 0
  · subst zero
    exact iff_of_true (keepsMeaning_flag rfl) (Or.inl rfl)
  · obtain ⟨m, ran, reads⟩ := @more_reads o js some (v - 1)
    have step : compareNode o .uge (Option.some (.sums .uniq (js.map .subsig))) v =
        .ok (.bind (Option.some m)) := by
      rw [compareNode, if_neg zero, ran]
      rfl
    have before : ∀ d, v.toNat ≤ d ↔ (v - 1).toNat < d := by
      intro d
      bv_omega
    rw [keepsMeaning_bind step]
    simp only [reads, compareVal, Option.some.injEq, decide_eq_true_eq, before]
    rw [total_more_iff some nodup]
    unfold maxWord Exact
    bv_omega

theorem keeps_ult :
    KeepsMeaning o .ult (.sums .uniq (js.map .subsig)) js v ↔ Exact js.length v .ult := by
  obtain ⟨m, ran, reads⟩ := @less_reads o js some v
  have step : compareNode o .ult (Option.some (.sums .uniq (js.map .subsig))) v =
      .ok (.bind (Option.some m)) := by
    rw [compareNode, deref, ok_bind, ran]
    rfl
  rw [keepsMeaning_bind step]
  simp only [reads, compareVal, Option.some.injEq, decide_eq_true_eq]
  exact total_less_iff some nodup v

theorem keeps_ule :
    KeepsMeaning o .ule (.sums .uniq (js.map .subsig)) js v ↔ Exact js.length v .ule := by
  by_cases max : v = maxWord
  · have flagged : compareNode o .ule (Option.some (.sums .uniq (js.map .subsig))) v =
        .ok (.flag .alwaysTrueLe) := by
      rw [compareNode, if_pos max]
    exact iff_of_true (keepsMeaning_flag flagged) (Or.inr max)
  · obtain ⟨m, ran, reads⟩ := @less_reads o js some (v + 1)
    have step : compareNode o .ule (Option.some (.sums .uniq (js.map .subsig))) v =
        .ok (.bind (Option.some m)) := by
      rw [compareNode, if_neg max, deref, ok_bind, ran]
      rfl
    unfold maxWord at max
    have after : ∀ d, d ≤ v.toNat ↔ d < (v + 1).toNat := by
      intro d
      bv_omega
    rw [keepsMeaning_bind step]
    simp only [reads, compareVal, Option.some.injEq, decide_eq_true_eq, after]
    rw [total_less_iff some nodup]
    unfold Exact maxWord
    bv_omega

end

/-- A comparison of the number of matching subsignatures keeps its meaning for these constants and
for no others. -/
theorem uniqueness_kept_iff {n : Node}
    {is : List Word} (sum : UniqueSum o n is) (distinct : is.Nodup) (pred : Predicate) (v : Word) :
    KeepsMeaning o pred n is v ↔ Exact is.length v pred := by
  obtain ⟨some, js, rfl, perm⟩ := sum.node
  have someNode : js ≠ [] := fun empty => some (by rw [empty] at perm; exact perm.nil_eq.symm)
  have nodup : js.Nodup := perm.nodup_iff.mpr distinct
  have same : KeepsMeaning o pred (.sums .uniq (js.map .subsig)) is v ↔
      KeepsMeaning o pred (.sums .uniq (js.map .subsig)) js v := by
    unfold KeepsMeaning
    simp only [matching_perm perm]
  rw [same, ← perm.length_eq]
  cases pred with
  | eq => exact keeps_eq someNode nodup v
  | ne => exact keeps_ne someNode nodup v
  | ugt => exact keeps_ugt someNode nodup v
  | uge => exact keeps_uge someNode nodup v
  | ult => exact keeps_ult someNode nodup v
  | ule => exact keeps_ule someNode nodup v
  | sgt => exact iff_of_true (keepsMeaning_flag rfl) trivial
  | sge => exact iff_of_true (keepsMeaning_flag rfl) trivial
  | slt => exact iff_of_true (keepsMeaning_flag rfl) trivial
  | sle => exact iff_of_true (keepsMeaning_flag rfl) trivial

/-- `matches(s0) + matches(s1) >= 1`. -/
theorem uniqueness_kept_two :
    KeepsMeaning .inOrder .uge (.sums .uniq [.subsig 0, .subsig 1]) [0, 1] 1 := by
  have added : getAdd (getUniqueSigs (.subsig 0)) (getUniqueSigs (.subsig 1)) =
      .ok (some (.sums .uniq [.subsig 0, .subsig 1])) :=
    congrArg (fun cs => Except.ok (some (Node.sums .uniq cs))) sortChildren_pair
  have sum : UniqueSum .inOrder (.sums .uniq [.subsig 0, .subsig 1]) [0, 1] :=
    .add (.one (compareNode_matches 0)) (.one (compareNode_matches 1)) added
  exact (uniqueness_kept_iff sum (by decide) .uge 1).mpr (.inr rfl)

/-- `matches(s0) == 1` is printed as `(0=1,1)`, which is false when the subsignature matched twice.
-/
theorem matches_eq_one_lost : UniqueSum .inOrder (getUniqueSigs (.subsig 0)) [0] ∧
    ¬ KeepsMeaning .inOrder .eq (getUniqueSigs (.subsig 0)) [0] 1 := by
  refine ⟨.one (compareNode_matches 0), fun keeps => ?_⟩
  have exact := (@keeps_eq .inOrder [0] (List.cons_ne_nil _ _) (by decide) 1).mp keeps
  revert exact
  unfold Exact
  decide

end LogicalUnique
