import ClamBC.LogicalNode
import ClamBC.Fallible

/-!
# What the node constructors are made of

Which nodes a conjunction or disjunction is built from, and two shapes that the compiler
depends on: a node is whole when no null pointer is below it, and it is negatable when
`getNot` does not meet a sum.
-/

namespace LogicalShape

open LogicalNode Fallible

variable {o : PtrOrder}

@[simp] theorem mem_inserted {ns : List Node} {n : Node} : n ∈ inserted ns ↔ n ∈ ns := by
  simp [inserted]

theorem inserted_nodup (ns : List Node) : (inserted ns).Nodup := by
  simpa [inserted] using List.nodup_dedup ns.reverse

theorem groupComparison_some {n group : Node} {x y : Word}
    (h : groupComparison n = some (group, x, y)) :
    n = .eq x y group ∧ (∃ cs, group = .sums .both cs) ∧ (y = maxWord ∨ x = y) := by
  unfold groupComparison at h
  split at h
  · split_ifs at h with modifier
    cases h
    exact ⟨rfl, ⟨_, rfl⟩, modifier⟩
  · cases h

theorem groupComparison_eq {x y : Word} {cs : List Node} (modifier : y = maxWord ∨ x = y) :
    groupComparison (.eq x y (.sums .both cs)) = some (.sums .both cs, x, y) := by
  simp [groupComparison, modifier]

theorem mem_merge {group n : Node} {addsum adduniq : List Word}
    (h : n ∈ merge group addsum adduniq) :
    (∃ x ∈ addsum, n = .eq x maxWord group) ∨ (∃ y ∈ adduniq, n = .eq y y group) ∨
      ∃ x ∈ addsum, ∃ y ∈ adduniq, n = .eq x y group := by
  fun_induction merge group addsum adduniq with
  | case1 adduniq =>
    obtain ⟨y, hy, rfl⟩ := List.mem_map.mp h
    exact Or.inr (Or.inl ⟨y, List.mem_reverse.mp hy, rfl⟩)
  | case2 x addsum ih =>
    rcases List.mem_cons.mp h with rfl | h
    · exact Or.inl ⟨x, List.mem_cons_self, rfl⟩
    · rcases ih h with ⟨x', hx, rfl⟩ | ⟨y, hy, -⟩ | ⟨_, _, y, hy, -⟩
      · exact Or.inl ⟨x', List.mem_cons_of_mem x hx, rfl⟩
      · cases hy
      · cases hy
  | case3 x addsum y adduniq ih =>
    rcases List.mem_cons.mp h with rfl | h
    · exact Or.inr (Or.inr ⟨x, List.mem_cons_self, y, List.mem_cons_self, rfl⟩)
    · rcases ih h with ⟨x', hx, rfl⟩ | ⟨y', hy, rfl⟩ | ⟨x', hx, y', hy, rfl⟩
      · exact Or.inl ⟨x', List.mem_cons_of_mem x hx, rfl⟩
      · exact Or.inr (Or.inl ⟨y', List.mem_cons_of_mem y hy, rfl⟩)
      · exact Or.inr (Or.inr ⟨x', List.mem_cons_of_mem x hx, y', List.mem_cons_of_mem y hy, rfl⟩)

/-- The comparisons `=X` and `=Y,Y` of one group among the nodes taken. -/
theorem mem_addsum {taken : List Node} {group : Node} {x : Word} :
    x ∈ (((taken.filterMap groupComparison).filter fun a => a.1 = group).filter fun a =>
      a.2.2 = maxWord).map
      (fun a => a.2.1) ↔ groupComparison (.eq x maxWord group) ≠ none ∧
        .eq x maxWord group ∈ taken := by
  constructor
  · intro h
    obtain ⟨⟨g, x', y⟩, member, rfl⟩ := List.mem_map.mp h
    simp only [List.mem_filter, decide_eq_true_eq, List.mem_filterMap] at member
    obtain ⟨⟨⟨n, hn, found⟩, rfl⟩, rfl⟩ := member
    obtain ⟨rfl, -, -⟩ := groupComparison_some found
    exact ⟨by simp [found], hn⟩
  · rintro ⟨isGroup, hn⟩
    obtain ⟨⟨g, x', y⟩, found⟩ := Option.ne_none_iff_exists'.mp isGroup
    obtain ⟨same, -, -⟩ := groupComparison_some found
    cases same
    refine List.mem_map.mpr ⟨(group, x, maxWord), ?_, rfl⟩
    simp only [List.mem_filter, decide_eq_true_eq, List.mem_filterMap, and_true]
    exact ⟨_, hn, found⟩

theorem mem_adduniq {taken : List Node} {group : Node} {y : Word} :
    y ∈ ((((taken.filterMap groupComparison).filter fun a => a.1 = group).filter fun a =>
      a.2.2 ≠ maxWord).map
      (fun a => a.2.2)).reverse ↔
      y ≠ maxWord ∧ groupComparison (.eq y y group) ≠ none ∧ .eq y y group ∈ taken := by
  rw [List.mem_reverse]
  constructor
  · intro h
    obtain ⟨⟨g, x, y'⟩, member, rfl⟩ := List.mem_map.mp h
    simp only [List.mem_filter, decide_eq_true_eq, List.mem_filterMap] at member
    obtain ⟨⟨⟨n, hn, found⟩, rfl⟩, ne⟩ := member
    obtain ⟨rfl, -, modifier⟩ := groupComparison_some found
    cases modifier.resolve_left ne
    exact ⟨ne, by simp [found], hn⟩
  · rintro ⟨ne, isGroup, hn⟩
    obtain ⟨⟨g, x, y'⟩, found⟩ := Option.ne_none_iff_exists'.mp isGroup
    obtain ⟨same, -, -⟩ := groupComparison_some found
    cases same
    refine List.mem_map.mpr ⟨(group, y, y), ?_, rfl⟩
    simp only [List.mem_filter, decide_eq_true_eq, List.mem_filterMap]
    exact ⟨⟨⟨_, hn, found⟩, trivial⟩, ne⟩

/-- A member of a conjunction was taken as it is, or is a `=X` and a `=Y,Y` made into one. -/
theorem mem_conjoined {taken : List Node} {n : Node} (h : n ∈ conjoined o taken) :
    (n ∈ taken ∧ n ≠ .const true) ∨ ∃ x y cs, y ≠ maxWord ∧ n = .eq x y (.sums .both cs) ∧
      .eq x maxWord (.sums .both cs) ∈ taken ∧ .eq y y (.sums .both cs) ∈ taken := by
  simp only [conjoined, mem_inserted, List.mem_append, List.mem_flatMap] at h
  rcases h with plain | ⟨group, -, merged⟩
  · obtain ⟨hn, cond⟩ := List.mem_filter.mp plain
    exact Or.inl ⟨hn, (of_decide_eq_true cond).1⟩
  · simp only [mergeGroup] at merged
    rcases mem_merge merged with ⟨x, hx, rfl⟩ | ⟨y, hy, rfl⟩ | ⟨x, hx, y, hy, rfl⟩
    · exact Or.inl ⟨(mem_addsum.mp hx).2, nofun⟩
    · exact Or.inl ⟨(mem_adduniq.mp hy).2.2, nofun⟩
    · obtain ⟨isGroup, left⟩ := mem_addsum.mp hx
      obtain ⟨ne, -, right⟩ := mem_adduniq.mp hy
      obtain ⟨⟨g, x', y'⟩, found⟩ := Option.ne_none_iff_exists'.mp isGroup
      obtain ⟨same, ⟨cs, rfl⟩, -⟩ := groupComparison_some found
      cases same
      exact Or.inr ⟨x, y, cs, ne, rfl, left, right⟩

theorem group_mem_keys {taken : List Node} {n group : Node} {x y : Word} (hn : n ∈ taken)
    (found : groupComparison n = some (group, x, y)) :
    group ∈ o.keys (inserted ((taken.filterMap groupComparison).map Prod.fst)) := by
  rw [(o.keys_perm _).mem_iff, mem_inserted]
  exact List.mem_map.mpr ⟨(group, x, y), List.mem_filterMap.mpr ⟨n, hn, found⟩, rfl⟩

theorem merge_eq_nil {group : Node} {addsum adduniq : List Word} :
    merge group addsum adduniq = [] ↔ addsum = [] ∧ adduniq = [] := by
  fun_cases merge group addsum adduniq <;> simp

/-- Whatever is taken, other than TRUE, leaves something behind. -/
theorem conjoined_ne_nil {taken : List Node} {n : Node} (hn : n ∈ taken)
    (notTrue : n ≠ .const true) :
    conjoined o taken ≠ [] := by
  intro empty
  have nothing : ∀ m, m ∉ conjoined o taken := by simp [empty]
  cases found : groupComparison n with
  | none =>
    refine nothing n (mem_inserted.mpr (List.mem_append_left _ ?_))
    exact List.mem_filter.mpr ⟨hn, by simp [notTrue, found]⟩
  | some a =>
    obtain ⟨group, x, y⟩ := a
    have merged : mergeGroup (taken.filterMap groupComparison) group = [] := by
      by_contra some
      obtain ⟨m, hm⟩ := List.exists_mem_of_ne_nil _ some
      refine nothing m (mem_inserted.mpr (List.mem_append_right _ ?_))
      exact List.mem_flatMap.mpr ⟨group, group_mem_keys hn found, hm⟩
    obtain ⟨noSum, noUniq⟩ := merge_eq_nil.mp merged
    obtain ⟨rfl, -, modifier⟩ := groupComparison_some found
    by_cases max : y = maxWord
    · subst max
      have member := mem_addsum.mpr ⟨by simp [found], hn⟩
      rw [noSum] at member
      cases member
    · cases modifier.resolve_left max
      have member := mem_adduniq.mpr ⟨max, by simp [found], hn⟩
      rw [noUniq] at member
      cases member

@[simp] theorem getAnd_nil : getAnd o [] = .const true := by
  have keys : o.keys [] = [] := (o.keys_perm []).eq_nil
  simp [getAnd, popped, conjoined, inserted, keys]

theorem two_le_length {α : Type} {xs : List α} (some : xs ≠ []) (more : ∀ x, xs ≠ [x]) :
    2 ≤ xs.length := by
  match xs with
  | [] => exact absurd rfl some
  | [x] => exact absurd rfl (more x)
  | _ :: _ :: _ => simp

/-! What is taken for a conjunction. -/

mutual

theorem conjuncts_not_and : ∀ {n m : Node}, m ∈ conjuncts n → ∀ cs, m ≠ .and cs
  | .and ds, _, h => popped_not_and h
  | .subsig _, _, h => by rw [List.mem_singleton.mp h]; exact nofun
  | .or _, _, h => by rw [List.mem_singleton.mp h]; exact nofun
  | .eq _ _ _, _, h => by rw [List.mem_singleton.mp h]; exact nofun
  | .gt _ _, _, h => by rw [List.mem_singleton.mp h]; exact nofun
  | .lt _ _, _, h => by rw [List.mem_singleton.mp h]; exact nofun
  | .sums _ _, _, h => by rw [List.mem_singleton.mp h]; exact nofun
  | .not _, _, h => by rw [List.mem_singleton.mp h]; exact nofun
  | .const _, _, h => by rw [List.mem_singleton.mp h]; exact nofun
  | .add _ _, _, h => by rw [List.mem_singleton.mp h]; exact nofun

theorem popped_not_and : ∀ {V : List Node} {m : Node}, m ∈ popped V → ∀ cs, m ≠ .and cs
  | c :: V, m, h => by
    rcases List.mem_append.mp h with h | h
    · exact popped_not_and h
    · exact conjuncts_not_and h

end

theorem conjuncts_self {n : Node} (notAnd : ∀ cs, n ≠ .and cs) : conjuncts n = [n] := by
  cases n with
  | and cs => exact absurd rfl (notAnd cs)
  | _ => rfl

theorem mem_popped {V : List Node} {m : Node} : m ∈ popped V ↔ ∃ n ∈ V, m ∈ conjuncts n := by
  induction V with
  | nil => simp [popped]
  | cons c V ih => simp [popped, ih, or_comm]

theorem conjuncts_have {P : Node → Prop} (members : ∀ {cs}, P (.and cs) → ∀ c ∈ cs, P c)
    {n : Node} (h : P n) :
    ∀ m ∈ conjuncts n, P m := by
  induction n using Node.induct with
  | and cs ih =>
    intro m hm
    obtain ⟨c, hc, hm⟩ := mem_popped.mp hm
    exact ih c hc (members h c hc) m hm
  | _ =>
    intro m hm
    rw [List.mem_singleton.mp hm]
    exact h

theorem popped_have {P : Node → Prop} (members : ∀ {cs}, P (.and cs) → ∀ c ∈ cs, P c)
    {V : List Node} (h : ∀ n ∈ V, P n) : ∀ m ∈ popped V, P m := by
  intro m hm
  obtain ⟨n, hn, hm⟩ := mem_popped.mp hm
  exact conjuncts_have members (h n hn) m hm

/-! Properties that the connectives keep. -/

/-- A member of a disjunction: neither a constant nor a disjunction, or a member before. -/
def Alternative (P : Node → Prop) (c : Node) : Prop :=
  ((∀ b, c ≠ .const b) ∧ ∀ ds, c ≠ .or ds) ∨ ∃ ds, P (.or ds) ∧ c ∈ ds

/-- A property that connectives have because of what they are formed from. -/
structure Formed (P : Node → Prop) : Prop where
  const : ∀ b, P (.const b)
  members : ∀ {cs}, P (.and cs) → ∀ c ∈ cs, P c
  alternatives : ∀ {cs}, P (.or cs) → ∀ c ∈ cs, P c
  and : ∀ {cs}, 2 ≤ cs.length → cs.Nodup → (∀ c ∈ cs, P c) →
    (∀ c ∈ cs, (∀ b, c ≠ .const b) ∧ ∀ ds, c ≠ .and ds) → P (.and cs)
  or : ∀ {cs}, 2 ≤ cs.length → cs.Nodup → (∀ c ∈ cs, P c) → (∀ c ∈ cs, Alternative P c) → P (.or cs)
  pair : ∀ x y cs, y ≠ maxWord → P (.eq x maxWord (.sums .both cs)) → P (.eq y y (.sums .both cs)) →
    P (.eq x y (.sums .both cs))

namespace Formed
variable {P : Node → Prop} (formed : Formed P)
include formed

theorem getAnd {V : List Node} (all : ∀ n ∈ V, P n) : P (getAnd o V) := by
  have taken := popped_have formed.members all
  unfold LogicalNode.getAnd
  split_ifs with isFalse
  · exact formed.const false
  · have each : ∀ n ∈ conjoined o (popped V), P n ∧ (∀ b, n ≠ .const b) ∧ ∀ ds, n ≠ .and ds := by
      intro n hn
      rcases mem_conjoined hn with ⟨hn, notTrue⟩ | ⟨x, y, cs, ne, rfl, left, right⟩
      · refine ⟨taken n hn, ?_, popped_not_and hn⟩
        rintro (- | -) rfl
        · exact isFalse hn
        · exact notTrue rfl
      · exact ⟨formed.pair x y cs ne (taken _ left) (taken _ right), nofun, nofun⟩
    have perm := o.set_perm (conjoined o (popped V))
    split
    · exact formed.const true
    · next n single => exact (each n (by rw [single]; exact List.mem_cons_self)).1
    · next notEmpty notSingle =>
      refine formed.and ?_ ?_ (fun c hc => (each c (perm.mem_iff.mp hc)).1) fun c hc =>
        (each c (perm.mem_iff.mp hc)).2
      · rw [perm.length_eq]
        exact two_le_length notEmpty notSingle
      · exact perm.nodup_iff.mpr (inserted_nodup _)

theorem getOr {V : List Node} (all : ∀ n ∈ V, P n) : P (getOr o V) := by
  have each : ∀ n ∈ inserted (V.flatMap LogicalNode.alternatives), P n ∧ Alternative P n := by
    intro n hn
    obtain ⟨m, hm, inside⟩ := List.mem_flatMap.mp (mem_inserted.mp hn)
    have here := all m hm
    unfold LogicalNode.alternatives at inside
    split at inside
    · cases inside
    · exact ⟨formed.alternatives here n inside, Or.inr ⟨_, here, inside⟩⟩
    · next notConst notOr =>
      rw [List.mem_singleton.mp inside]
      exact ⟨here, Or.inl ⟨notConst, notOr⟩⟩
  have perm := o.set_perm (inserted (V.flatMap LogicalNode.alternatives))
  unfold LogicalNode.getOr
  split_ifs
  · exact formed.const true
  · split
    · exact formed.const false
    · next n single => exact (each n (by rw [single]; exact List.mem_cons_self)).1
    · next notEmpty notSingle =>
      refine formed.or ?_ ?_ (fun c hc => (each c (perm.mem_iff.mp hc)).1) fun c hc =>
        (each c (perm.mem_iff.mp hc)).2
      · rw [perm.length_eq]
        exact two_le_length notEmpty notSingle
      · exact perm.nodup_iff.mpr (inserted_nodup _)

theorem getOrExits {V : List Node} (all : ∀ n ∈ V, P n) : P (getOrExits o V) := by
  unfold LogicalNode.getOrExits
  split_ifs
  · exact formed.const true
  · exact formed.getOr all

theorem getRange {E : Fault → Prop} {gt lt : Word → Except Fault Node}
    (above : ∀ v, Meets E P (gt v)) (below : ∀ v, Meets E P (lt v)) (min max : Word) :
    Meets E P (getRange o gt lt min max) := by
  have bounded : ∀ {needed x}, Meets E P x →
      Meets E (fun ns => ∀ n ∈ ns, P n) (bound needed x) := by
    intro needed x h
    unfold bound
    split_ifs
    · exact h.map fun n hn => by simpa using hn
    · exact List.forall_mem_nil P
  unfold LogicalNode.getRange
  refine (bounded (above _)).bind fun ns _ hns => (bounded (below _)).bind fun ms _ hms => ?_
  refine formed.getAnd fun n hn => ?_
  exact (List.mem_append.mp hn).elim (hns n) (hms n)

end Formed

/-- What `getLT` and `getGT` make of a number with the property `Q`. -/
structure Compared (E : Fault → Prop) (Q P : Node → Prop) : Prop where
  below : ∀ {u c}, Q (.add u (some c)) → Q c
  null : ∀ {u}, Q (.add u none) → E .nullChild
  self : ∀ {n}, Q n → P n
  lt : ∀ {v n}, Q n → v ≠ 0 → (∀ u c, n ≠ .add u c) → P (.lt v n)
  gt : ∀ {v n}, Q n → v ≠ 0 → (∀ u c, n ≠ .add u c) → P (.gt v n)

theorem getLT_zero (n : Node) : getLT o n 0 = .ok (.const false) := by
  unfold getLT
  rw [if_pos rfl]

theorem getGT_zero (n : Node) : getGT o n 0 = .ok n := by
  unfold getGT
  rw [if_pos rfl]

theorem getLT_add {c v : Word} {n : Node} (notZero : v ≠ 0) : getLT o (.add c (some n)) v =
    getRange o (getGT o n) (getLT o n) ((ConstantRange.below v).subtract c).getUnsignedMin
      ((ConstantRange.below v).subtract c).getUnsignedMax := by
  rw [getLT, if_neg notZero]

theorem getGT_add {c v : Word} {n : Node} (notZero : v ≠ 0) : getGT o (.add c (some n)) v =
    getRange o (getGT o n) (getLT o n) ((ConstantRange.above v).subtract c).getUnsignedMin
      ((ConstantRange.above v).subtract c).getUnsignedMax := by
  rw [getGT, if_neg notZero]

theorem getLT_plain {n : Node} (notAdd : ∀ u c, n ≠ .add u c) {v : Word} (notZero : v ≠ 0) :
    getLT o n v = .ok (.lt v n) := by
  unfold getLT
  rw [if_neg notZero]
  cases n with
  | add u c => exact absurd rfl (notAdd u c)
  | _ => rfl

theorem getGT_plain {n : Node} (notAdd : ∀ u c, n ≠ .add u c) {v : Word} (notZero : v ≠ 0) :
    getGT o n v = .ok (.gt v n) := by
  unfold getGT
  rw [if_neg notZero]
  cases n with
  | add u c => exact absurd rfl (notAdd u c)
  | _ => rfl

theorem Compared.getLT_getGT {E : Fault → Prop} {Q P : Node → Prop}
    (compared : Compared E Q P) (formed : Formed P) {n : Node} (h : Q n) :
    (∀ v, Meets E P (getLT o n v)) ∧ ∀ v, Meets E P (getGT o n v) := by
  have less : ∀ n, (∀ v, v ≠ 0 → Meets E P (getLT o n v)) → ∀ v, Meets E P (getLT o n v) := by
    intro n other v
    by_cases zero : v = 0
    · rw [zero, getLT_zero]
      exact formed.const false
    · exact other v zero
  have more : ∀ n, Q n → (∀ v, v ≠ 0 → Meets E P (getGT o n v)) → ∀ v, Meets E P (getGT o n v) := by
    intro n h other v
    by_cases zero : v = 0
    · rw [zero, getGT_zero]
      exact compared.self h
    · exact other v zero
  have plain : ∀ n, Q n → (∀ u c, n ≠ .add u c) → (∀ v, Meets E P (getLT o n v)) ∧
      ∀ v, Meets E P (getGT o n v) := by
    intro n h notAdd
    refine ⟨less n fun v notZero => ?_, more n h fun v notZero => ?_⟩
    · rw [getLT_plain notAdd notZero]
      exact compared.lt h notZero notAdd
    · rw [getGT_plain notAdd notZero]
      exact compared.gt h notZero notAdd
  induction n using Node.induct with
  | add u c ih =>
    cases c with
    | none =>
      refine ⟨less _ fun v notZero => ?_, more _ h fun v notZero => ?_⟩
      · rw [getLT, if_neg notZero]
        exact compared.null h
      · rw [getGT, if_neg notZero]
        exact compared.null h
    | some c =>
      obtain ⟨lt, gt⟩ := ih c rfl (compared.below h)
      refine ⟨less _ fun v notZero => ?_, more _ h fun v notZero => ?_⟩
      · rw [getLT_add notZero]
        exact formed.getRange gt lt _ _
      · rw [getGT_add notZero]
        exact formed.getRange gt lt _ _
  | _ => exact plain _ h nofun

/-- What `getNot` makes of a node with the property `P`, from numbers with the property `Q`. -/
structure Negated (E : Fault → Prop) (P Q R : Node → Prop) : Prop where
  formed : Formed R
  compared : Compared E Q R
  equal : ∀ {n}, Q n → ∀ v, Meets E R (getEQ n v)
  members : ∀ {cs}, P (.and cs) → ∀ c ∈ cs, P c
  alternatives : ∀ {cs}, P (.or cs) → ∀ c ∈ cs, P c
  subsig : ∀ {i}, P (.subsig i) → Q (.subsig i)
  ofEQ : ∀ {x y c}, P (.eq x y c) → Q c
  ofGT : ∀ {x c}, P (.gt x c) → Q c
  ofLT : ∀ {x c}, P (.lt x c) → Q c
  not : ∀ {c}, P (.not c) → R c
  sums : ∀ {k cs}, P (.sums k cs) → E .invalidNegation
  add : ∀ {u c}, P (.add u c) → E .invalidNegation

theorem getNots_each {E : Fault → Prop} {R : Node → Prop} {cs : List Node}
    (each : ∀ c ∈ cs, Meets E R (getNot o c)) :
    Meets E (fun ns => ∀ n ∈ ns, R n) (getNots o cs) := by
  induction cs with
  | nil => exact List.forall_mem_nil R
  | cons c cs ih =>
    refine (each c List.mem_cons_self).bind fun n _ hn => ?_
    refine (ih fun d hd => each d (List.mem_cons_of_mem c hd)).bind fun ns _ hns => ?_
    exact List.forall_mem_cons.mpr ⟨hn, hns⟩

theorem Negated.getNot {E : Fault → Prop} {P Q R : Node → Prop} (negated : Negated E P Q R)
    {n : Node} (h : P n) :
    Meets E R (getNot o n) := by
  have either : ∀ {a b : Node}, R a → R b → R (LogicalNode.getOr o [a, b]) := by
    intro a b ha hb
    exact negated.formed.getOr (by simp [ha, hb])
  induction n using Node.induct with
  | subsig i => exact negated.equal (negated.subsig h) 0
  | and cs ih =>
    exact (getNots_each fun c hc => ih c hc (negated.members h c hc)).bind
      fun ns _ hns => negated.formed.getOr hns
  | or cs ih =>
    exact (getNots_each fun c hc => ih c hc (negated.alternatives h c hc)).bind
      fun ns _ hns => negated.formed.getAnd hns
  | eq x y c =>
    obtain ⟨lt, gt⟩ := negated.compared.getLT_getGT negated.formed (negated.ofEQ h)
    exact (lt x).bind fun less _ hl => (gt x).bind fun more _ hm => either hl hm
  | gt x c =>
    obtain ⟨lt, -⟩ := negated.compared.getLT_getGT negated.formed (negated.ofGT h)
    exact (lt x).bind fun less _ hl =>
      (negated.equal (negated.ofGT h) x).bind fun same _ hs => either hl hs
  | lt x c =>
    obtain ⟨-, gt⟩ := negated.compared.getLT_getGT negated.formed (negated.ofLT h)
    exact (gt x).bind fun more _ hm =>
      (negated.equal (negated.ofLT h) x).bind fun same _ hs => either hm hs
  | not c => exact negated.not h
  | const b => exact negated.formed.const _
  | sums k cs => exact negated.sums h
  | add u c => exact negated.add h

/-- What `getAdd` makes of numbers with the property `P`, which add up nodes with the property `Q`.
-/
structure Summed (E : Fault → Prop) (Q P : Node → Prop) : Prop where
  null : E .nullNode
  count : ∀ i, Q (.subsig i)
  members : ∀ {k cs}, P (.sums k cs) → cs ≠ [] ∧ ∀ c ∈ cs, Q c
  sums : ∀ {k cs}, cs ≠ [] → (∀ c ∈ cs, Q c) → P (.sums k cs)
  below : ∀ {u c}, P (.add u (some c)) → P c
  offset : ∀ {u c}, (∀ d, c = some d → P d) → P (.add u c)

namespace Summed
variable {E : Fault → Prop} {Q P : Node → Prop} (summed : Summed E Q P)
include summed

theorem sorted {k : SumKind} {cs : List Node} (some : cs ≠ []) (each : ∀ c ∈ cs, Q c) :
    P (.sums k (sortChildren cs)) := by
  have perm : (sortChildren cs).Perm cs := List.perm_insertionSort _ cs
  refine summed.sums ?_ fun c hc => each c (perm.mem_iff.mp hc)
  intro empty
  rw [empty] at perm
  exact some perm.nil_eq.symm

theorem getAddCount {id : Word} {n : Node} (h : P n) :
    Meets E (fun r => ∀ m, r = some m → P m) (getAddCount id n) := by
  induction n using Node.induct with
  | subsig j =>
    rintro m ⟨⟩
    exact summed.sorted (List.cons_ne_nil _ _) (by simp [summed.count])
  | sums k cs =>
    cases k with
    | sum =>
      rintro m ⟨⟩
      exact summed.sorted (List.cons_ne_nil _ _)
        (List.forall_mem_cons.mpr ⟨summed.count id, (summed.members h).2⟩)
    | _ => exact nofun
  | add u c ih =>
    cases c with
    | none => exact summed.null
    | some c =>
      refine (ih c rfl (summed.below h)).bind fun r _ inner => ?_
      rintro m ⟨⟩
      exact summed.offset inner
  | _ => exact nofun

theorem getAdd {l r : Node} (left : P l) (right : P r) :
    Meets E (fun s => ∀ m, s = some m → P m) (getAdd l r) := by
  have null : Meets E (fun s => ∀ m, s = some m → P m) (.ok none) := nofun
  induction r using Node.induct with
  | subsig j =>
    cases l with
    | subsig i => exact summed.getAddCount right
    | _ => exact summed.getAddCount left
  | sums k ds =>
    cases l with
    | subsig i => exact summed.getAddCount right
    | sums k' cs =>
      simp only [LogicalNode.getAdd]
      split_ifs
      · rintro m ⟨⟩
        obtain ⟨some, each⟩ := summed.members left
        refine summed.sorted (List.append_ne_nil_of_left_ne_nil some ds) fun c hc => ?_
        exact (List.mem_append.mp hc).elim (each c) ((summed.members right).2 c)
      · exact null
    | _ => exact null
  | add v c ih =>
    cases c with
    | none =>
      cases l with
      | subsig i => exact summed.null
      | add u d => exact summed.null
      | _ => exact null
    | some c =>
      cases l with
      | subsig i => exact summed.getAddCount right
      | add u d =>
        refine (ih c rfl (summed.below right)).bind fun s _ inner => ?_
        rintro m ⟨⟩
        exact summed.offset inner
      | _ => exact null
  | _ => cases l <;> exact null

end Summed

/-- A property of nodes that conjunctions and disjunctions keep. -/
structure Kept (P : Node → Prop) : Prop where
  const : ∀ b, P (.const b)
  and : ∀ cs, P (.and cs) ↔ ∀ c ∈ cs, P c
  or : ∀ cs, P (.or cs) ↔ ∀ c ∈ cs, P c
  pair : ∀ x y cs, y ≠ maxWord → P (.eq x maxWord (.sums .both cs)) → P (.eq y y (.sums .both cs)) →
    P (.eq x y (.sums .both cs))

namespace Kept
variable {P : Node → Prop} (kept : Kept P)
include kept

theorem formed : Formed P where
  const := kept.const
  members := fun h => (kept.and _).mp h
  alternatives := fun h => (kept.or _).mp h
  and := fun _ _ each _ => (kept.and _).mpr each
  or := fun _ _ each _ => (kept.or _).mpr each
  pair := kept.pair

theorem popped {V : List Node} (h : ∀ n ∈ V, P n) : ∀ m ∈ popped V, P m :=
  popped_have kept.formed.members h

theorem getAnd {V : List Node} (all : ∀ n ∈ V, P n) : P (getAnd o V) := kept.formed.getAnd all

theorem getOr {V : List Node} (all : ∀ n ∈ V, P n) : P (getOr o V) := kept.formed.getOr all

theorem getOrExits {V : List Node} (all : ∀ n ∈ V, P n) : P (getOrExits o V) :=
  kept.formed.getOrExits all

end Kept

/-! Null pointers below a node. -/

mutual

def whole : Node → Bool
  | .subsig _ => true
  | .and cs => wholeAll cs
  | .or cs => wholeAll cs
  | .eq _ _ c => whole c
  | .gt _ c => whole c
  | .lt _ c => whole c
  | .sums _ cs => wholeAll cs
  | .not c => whole c
  | .const _ => true
  | .add _ (some c) => whole c
  | .add _ none => false

def wholeAll : List Node → Bool
  | [] => true
  | c :: cs => whole c && wholeAll cs

end

def Whole (n : Node) : Prop := whole n = true

theorem wholeAll_iff {cs : List Node} : wholeAll cs = true ↔ ∀ c ∈ cs, Whole c := by
  induction cs with
  | nil => simp [wholeAll]
  | cons c cs ih => simp [wholeAll, ih, Whole]

theorem whole_kept : Kept Whole where
  const := fun _ => rfl
  and := fun _ => wholeAll_iff
  or := fun _ => wholeAll_iff
  pair := fun _ _ _ _ h _ => h

mutual

/-- `getNot` does not reach a sum. -/
def negatable : Node → Bool
  | .and cs => negatableAll cs
  | .or cs => negatableAll cs
  | .sums _ _ => false
  | .add _ _ => false
  | .subsig _ => true
  | .eq _ _ _ => true
  | .gt _ _ => true
  | .lt _ _ => true
  | .not _ => true
  | .const _ => true

def negatableAll : List Node → Bool
  | [] => true
  | c :: cs => negatable c && negatableAll cs

end

theorem getEQ_whole {n : Node} (h : Whole n) (value : Word) :
    Yields (getEQ n value) fun m => Whole m ∧ negatable m = true := by
  have plain : ∀ m : Node, Whole m → ∀ v, Whole (getEQPlain m v) ∧
      negatable (getEQPlain m v) = true := by
    intro m hm v
    unfold getEQPlain
    split <;> exact ⟨hm, rfl⟩
  unfold getEQ
  split
  · next c => exact .ok (plain c h _)
  · cases h
  · exact .ok (plain _ h _)

theorem compared_whole : Compared (fun _ => False) Whole Whole where
  below := fun h => h
  null := fun h => by cases h
  self := fun h => h
  lt := fun h _ _ => h
  gt := fun h _ _ => h

/-- `getLT` and `getGT` meet no null pointer below a whole node. -/
theorem getLT_getGT_whole {n : Node} (h : Whole n) :
    (∀ v, Yields (getLT o n v) Whole) ∧ ∀ v, Yields (getGT o n v) Whole := by
  obtain ⟨lt, gt⟩ := compared_whole.getLT_getGT (o := o) whole_kept.formed h
  exact ⟨fun v => (lt v).yields, fun v => (gt v).yields⟩

theorem negatableAll_iff {cs : List Node} :
    negatableAll cs = true ↔ ∀ c ∈ cs, negatable c = true := by
  induction cs with
  | nil => simp [negatableAll]
  | cons c cs ih => simp [negatableAll, ih]

theorem negated_whole :
    Negated (fun _ => False) (fun n => Whole n ∧ negatable n = true) Whole Whole where
  formed := whole_kept.formed
  compared := compared_whole
  equal := fun h v => ((getEQ_whole h v).mono fun _ made => made.1).meets
  members := fun h c hc => ⟨wholeAll_iff.mp h.1 c hc, negatableAll_iff.mp h.2 c hc⟩
  alternatives := fun h c hc => ⟨wholeAll_iff.mp h.1 c hc, negatableAll_iff.mp h.2 c hc⟩
  subsig := fun h => h.1
  ofEQ := fun h => h.1
  ofGT := fun h => h.1
  ofLT := fun h => h.1
  not := fun h => h.1
  sums := fun h => by cases h.2
  add := fun h => by cases h.2

theorem getNot_whole {n : Node} (h : Whole n) (ok : negatable n = true) :
    Yields (getNot o n) Whole :=
  (negated_whole.getNot ⟨h, ok⟩).yields

/-! Additions that leave no null pointer behind. -/

/-- The node below the offsets. -/
def base : Node → Node
  | .add _ (some c) => base c
  | n => n

def isCount : Node → Bool
  | .subsig _ => true
  | .sums .sum _ => true
  | _ => false

def isSubsig : Node → Bool
  | .subsig _ => true
  | _ => false

/-- Where `getAdd` makes an offset node, there is a sum to put below it. -/
def addable : Node → Node → Bool
  | .add u l, .add v r => isSubsig (base (.add v r)) && isCount (base (.add u l))
  | .add u l, .subsig _ => isCount (base (.add u l))
  | .subsig _, .add v r => isCount (base (.add v r))
  | _, _ => true

theorem sortChildren_perm (cs : List Node) : (sortChildren cs).Perm cs :=
  List.perm_insertionSort _ cs

theorem sortChildren_pair :
    sortChildren [.subsig 0, .subsig 1] = [.subsig 0, .subsig 1] := by
  simp [sortChildren, compareLt, Node.kind, Node.op0]

theorem sortChildren_subsigs (is : List Word) :
    ∃ js : List Word, sortChildren (is.map Node.subsig) = js.map .subsig ∧ js.Perm is := by
  have perm := sortChildren_perm (is.map Node.subsig)
  have back : ((sortChildren (is.map Node.subsig)).map Node.op0).Perm is := by
    have mapped := perm.map Node.op0
    rw [List.map_map] at mapped
    exact mapped.trans (.of_eq (List.map_id is))
  refine ⟨(sortChildren (is.map Node.subsig)).map Node.op0, ?_, back⟩
  have same : ∀ c ∈ sortChildren (is.map Node.subsig), (Node.subsig ∘ Node.op0) c = id c := by
    intro c hc
    obtain ⟨i, -, rfl⟩ := List.mem_map.mp (perm.mem_iff.mp hc)
    rfl
  rw [List.map_map, List.map_congr_left same, List.map_id]

theorem sorted_whole {k : SumKind} {cs : List Node} (h : ∀ c ∈ cs, Whole c) :
    Whole (.sums k (sortChildren cs)) :=
  wholeAll_iff.mpr fun c hc => h c ((sortChildren_perm cs).mem_iff.mp hc)

theorem getAddCount_whole {n : Node} (h : Whole n) (count : isCount (base n) = true) (id : Word) :
    Yields (getAddCount id n) fun r => ∃ m, r = some m ∧ Whole m := by
  have first : Whole (.subsig id) := rfl
  induction n using Node.induct with
  | subsig j => exact .ok ⟨_, rfl, sorted_whole (by simp [Whole, whole])⟩
  | sums k cs =>
    cases k with
    | sum => exact .ok ⟨_, rfl, sorted_whole (by simpa [first] using wholeAll_iff.mp h)⟩
    | _ => cases count
  | add u c ih =>
    cases c with
    | none => cases h
    | some c =>
      refine (ih c rfl h count).bind fun r hr => .ok ⟨_, rfl, ?_⟩
      obtain ⟨m, rfl, hm⟩ := hr
      exact hm
  | _ => cases count

/-- Both sides have an offset. -/
theorem getAdd_offsets_whole {u : Word} {l : Option Node} {r : Node} (hl : Whole (.add u l))
    (hr : Whole r) (count : isCount (base (.add u l)) = true) (subsig : isSubsig (base r) = true) :
    Yields (getAdd (.add u l) r) fun s => ∃ m, s = some m ∧ Whole m := by
  induction r using Node.induct with
  | subsig j => exact getAddCount_whole hl count j
  | add v c ih =>
    cases c with
    | none => cases hr
    | some c =>
      refine (ih c rfl hr subsig).bind fun s hs => .ok ⟨_, rfl, ?_⟩
      obtain ⟨m, rfl, hm⟩ := hs
      exact hm
  | _ => cases subsig

theorem getAdd_whole {l r : Node} (hl : Whole l) (hr : Whole r) (ok : addable l r = true) :
    Yields (getAdd l r) fun s => ∀ m, s = some m → Whole m := by
  have some_whole : ∀ {x : Except Fault (Option Node)},
      Yields x (fun s => ∃ m, s = some m ∧ Whole m) →
        Yields x fun s => ∀ m, s = some m → Whole m := by
    intro x h
    refine h.mono ?_
    rintro s ⟨m, rfl, hm⟩ m' same
    cases same
    exact hm
  have null : Yields (.ok none : Except Fault (Option Node)) fun s => ∀ m, s = some m →
    Whole m := .ok nofun
  cases r with
  | subsig j =>
    cases l with
    | subsig i => exact some_whole (getAddCount_whole hr rfl i)
    | add u l => exact some_whole (getAddCount_whole hl ok j)
    | sums k cs =>
      cases k with
      | sum => exact some_whole (getAddCount_whole hl rfl j)
      | _ => exact null
    | _ => exact null
  | sums k ds =>
    cases l with
    | subsig i =>
      cases k with
      | sum => exact some_whole (getAddCount_whole hr rfl i)
      | _ => exact null
    | sums k' cs =>
      simp only [getAdd]
      split_ifs
      · refine .ok fun m same => ?_
        cases same
        refine sorted_whole fun c hc => ?_
        exact (List.mem_append.mp hc).elim (wholeAll_iff.mp hl c) (wholeAll_iff.mp hr c)
      · exact null
    | _ => exact null
  | add v r =>
    cases r with
    | none => cases hr
    | some r =>
      cases l with
      | subsig i => exact some_whole (getAddCount_whole hr ok i)
      | add u l =>
        simp only [addable, Bool.and_eq_true] at ok
        exact some_whole (getAdd_offsets_whole hl hr ok.2 ok.1)
      | _ => exact null
  | _ => cases l <;> exact null

end LogicalShape
