import ClamBC.LdbText
import ClamBC.LogicalNegation

/-!
# The text of a signature

`node2String` prints a node as an `.ldb` expression. The nodes that come from counts, their sums
and comparisons of these with constants are printed as expressions that mean the same, as long as
no sum overflows.
-/

namespace LogicalText

open LogicalNode LogicalShape LogicalMeaning LogicalCompare LogicalNegation LdbText Fallible

mutual

def text : Node → Except Fault (List Char)
  | .subsig id => .ok (Nat.toDigits 10 id.toNat)
  | .and cs => do return '(' :: (← texts '&' cs) ++ [')']
  | .or cs => do return '(' :: (← texts '|' cs) ++ [')']
  | .eq op0 op1 c => do
    if op1 = maxWord then return '(' :: (← text c) ++ '=' :: Nat.toDigits 10 op0.toNat ++ [')']
    else return '(' :: (← text c) ++ '=' :: Nat.toDigits 10 op0.toNat ++ ',' ::
      Nat.toDigits 10 op1.toNat ++ [')']
  | .gt op0 c => do return '(' :: (← text c) ++ '>' :: Nat.toDigits 10 op0.toNat ++ [')']
  | .lt op0 c => do return '(' :: (← text c) ++ '<' :: Nat.toDigits 10 op0.toNat ++ [')']
  | .sums _ [c] => text c
  | .sums _ cs => do return '(' :: (← texts '|' cs) ++ [')']
  | .not _ => .error .invalidKind
  | .const _ => .error .invalidKind
  | .add _ _ => .error .invalidKind

def texts (op : Char) : List Node → Except Fault (List Char)
  | [] => .ok []
  | [c] => text c
  | c :: d :: cs => do return (← text c) ++ op :: (← texts op (d :: cs))

end

mutual

/-- How much the counter of groups goes up. An equality is not counted. -/
def groups : Node → Nat
  | .and cs => 1 + groupsOf cs
  | .or cs => 1 + groupsOf cs
  | .eq _ _ c => groups c
  | .gt _ c => 1 + groups c
  | .lt _ c => 1 + groups c
  | .sums _ [c] => groups c
  | .sums _ cs => 1 + groupsOf cs
  | _ => 0

def groupsOf : List Node → Nat
  | [] => 0
  | c :: cs => groups c + groupsOf cs

end

/-- The counter is an `unsigned`. -/
def node2String (n : Node) (counter : Word) : Except Fault (String × Word) :=
  (text n).map fun t => (String.ofList t, counter + BitVec.ofNat 32 (groups n))

mutual

/-- The expression that is printed for a node. -/
def tree : Node → Ldb
  | .subsig id => .id id.toNat
  | .and cs => .all (trees cs)
  | .or cs => .any (trees cs)
  | .eq x y c => if y = maxWord then .compare .eq (tree c) x.toNat else
      .both (tree c) x.toNat y.toNat
  | .gt x c => .compare .gt (tree c) x.toNat
  | .lt x c => .compare .lt (tree c) x.toNat
  | .sums _ [c] => tree c
  | .sums _ cs => .any (trees cs)
  | _ => .any []

def trees : List Node → List Ldb
  | [] => []
  | c :: cs => tree c :: trees cs

end

theorem trees_eq_map (cs : List Node) : trees cs = cs.map tree := by
  induction cs with
  | nil => rfl
  | cons c cs ih => rw [trees, ih, List.map_cons]

theorem tree_sums {cs : List Node} (wide : 2 ≤ cs.length) (k : SumKind) :
    tree (.sums k cs) = .any (trees cs) := by
  match cs, wide with
  | _ :: _ :: _, _ => rfl

/-- The kinds that are printed. Connectives have two members or more, sums at least one. -/
inductive Printable : Node → Prop
  | subsig (i : Word) : Printable (.subsig i)
  | and {cs : List Node} : 2 ≤ cs.length → (∀ c ∈ cs, Printable c) → Printable (.and cs)
  | or {cs : List Node} : 2 ≤ cs.length → (∀ c ∈ cs, Printable c) → Printable (.or cs)
  | eq {x y : Word} {c : Node} : Printable c → Printable (.eq x y c)
  | gt {x : Word} {c : Node} : Printable c → Printable (.gt x c)
  | lt {x : Word} {c : Node} : Printable c → Printable (.lt x c)
  | sums {k : SumKind} {cs : List Node} : cs ≠ [] → (∀ c ∈ cs, Printable c) → Printable (.sums k cs)

theorem Printable.notConst {n : Node} (printable : Printable n) (b : Bool) : n ≠ .const b := by
  rintro rfl
  cases printable

theorem Printable.notAdd {n : Node} (printable : Printable n) (u : Word) (c : Option Node) :
    n ≠ .add u c := by
  rintro rfl
  cases printable

theorem texts_ok {op : Char} {cs : List Node} (each : ∀ c ∈ cs, text c = .ok (tree c).print) :
    texts op cs = .ok (Ldb.printList op (trees cs)) := by
  induction cs with
  | nil => rfl
  | cons c cs ih =>
    have first := each c List.mem_cons_self
    have rest := ih fun d hd => each d (List.mem_cons_of_mem _ hd)
    cases cs with
    | nil => exact first
    | cons d cs =>
      simp only [texts, first, rest]
      rfl

/-- A node is printed as its expression. -/
theorem text_printable {n : Node} (printable : Printable n) : text n = .ok (tree n).print := by
  induction printable with
  | subsig i => rfl
  | and _ _ ih =>
    simp only [text, texts_ok ih]
    rfl
  | or _ _ ih =>
    simp only [text, texts_ok ih]
    rfl
  | @eq x y c _ ih =>
    simp only [text, tree, ih]
    by_cases total : y = maxWord
    · simp only [total, if_true]
      rfl
    · simp only [total, if_false]
      rfl
  | gt _ ih =>
    simp only [text, ih]
    rfl
  | lt _ ih =>
    simp only [text, ih]
    rfl
  | @sums k cs some _ ih =>
    match cs, some with
    | [c], _ => exact ih c List.mem_cons_self
    | c :: d :: cs, _ =>
      simp only [text, texts_ok ih]
      rfl

theorem wide_trees {cs : List Node} (each : ∀ c ∈ cs, (tree c).Wide) : ∀ e ∈ trees cs, e.Wide := by
  rw [trees_eq_map]
  intro e he
  obtain ⟨c, hc, rfl⟩ := List.mem_map.mp he
  exact each c hc

theorem wide_printable {n : Node} (printable : Printable n) : (tree n).Wide := by
  induction printable with
  | subsig i => exact .id _
  | and wide _ ih => exact .all (by simpa [trees_eq_map] using wide) (wide_trees ih)
  | or wide _ ih => exact .any (by simpa [trees_eq_map] using wide) (wide_trees ih)
  | eq _ ih =>
    unfold tree
    split_ifs
    · exact .compare ih
    · exact .both ih
  | gt _ ih => exact .compare ih
  | lt _ ih => exact .compare ih
  | @sums k cs some _ ih =>
    match cs, some with
    | [c], _ => exact ih c List.mem_cons_self
    | c :: d :: cs, _ => exact .any (by simp [trees]) (wide_trees ih)

/-! ## Plain nodes -/

/-- A count or a sum of at least two counts. -/
inductive Group : Node → List Word → Prop
  | subsig (i : Word) : Group (.subsig i) [i]
  | sums {k : SumKind} {is : List Word} : k ≠ .uniq → 2 ≤ is.length →
      Group (.sums k (is.map .subsig)) is

def natCounts (counts : Counts) (k : Nat) : Nat := (counts k).toNat

def Fits (counts : Counts) (is : List Word) : Prop :=
  (is.map fun i => natCounts counts i.toNat).sum < 2 ^ 32

section
variable (counts : Counts)

/-- What is made of counts, sums that do not overflow, and comparisons of totals. -/
inductive Plain : Node → Prop
  | group {n : Node} {is : List Word} : Group n is → Fits counts is → Plain n
  | eq {x : Word} {n : Node} {is : List Word} : Group n is → Fits counts is →
      Plain (.eq x maxWord n)
  | gt {x : Word} {n : Node} {is : List Word} : Group n is → Fits counts is → Plain (.gt x n)
  | lt {x : Word} {n : Node} {is : List Word} : Group n is → Fits counts is → Plain (.lt x n)
  | and {cs : List Node} : 2 ≤ cs.length → (∀ c ∈ cs, Plain c) → Plain (.and cs)
  | or {cs : List Node} : 2 ≤ cs.length → (∀ c ∈ cs, Plain c) → Plain (.or cs)

/-- A plain node or a constant. -/
def Settles (n : Node) : Prop := (∃ b, n = .const b) ∨ Plain counts n

end

variable {counts : Counts} {o : PtrOrder}

theorem Group.printable {n : Node} {is : List Word} (group : Group n is) : Printable n := by
  cases group with
  | subsig i => exact .subsig i
  | @sums k is notUniq wide =>
    refine .sums ?_ fun c hc => ?_
    · rintro empty
      simp [List.map_eq_nil_iff.mp empty] at wide
    · obtain ⟨i, -, rfl⟩ := List.mem_map.mp hc
      exact .subsig i

theorem Plain.printable {n : Node} (plain : Plain counts n) : Printable n := by
  induction plain with
  | group group _ => exact group.printable
  | eq group _ => exact .eq group.printable
  | gt group _ => exact .gt group.printable
  | lt group _ => exact .lt group.printable
  | and wide _ ih => exact .and wide ih
  | or wide _ ih => exact .or wide ih

/-! ## Its meaning -/

theorem idsOf_subsigs (is : List Word) :
    Ldb.idsOf (trees (is.map Node.subsig)) = is.map BitVec.toNat := by
  induction is with
  | nil => rfl
  | cons i is ih =>
    simp only [List.map_cons, trees, Ldb.idsOf, ih]
    rfl

theorem ids_sums {is : List Word} (some : is ≠ []) (k : SumKind) :
    (tree (.sums k (is.map .subsig))).ids = is.map BitVec.toNat := by
  match is, some with
  | [i], _ => rfl
  | i :: j :: is, _ =>
    rw [tree_sums (by simp)]
    exact idsOf_subsigs _

theorem ids_group {n : Node} {is : List Word} (group : Group n is) :
    (tree n).ids = is.map BitVec.toNat := by
  cases group with
  | subsig i => rfl
  | sums _ wide => exact ids_sums (List.ne_nil_of_length_pos (by omega)) _

/-- Without overflow the value of a group is the total of its counts. -/
theorem value_group {n : Node} {is : List Word} (group : Group n is) (fits : Fits counts is) :
    (value counts n).toNat = (is.map fun i => natCounts counts i.toNat).sum := by
  have sums : ∀ is : List Word, Fits counts is →
      (total counts (is.map Node.subsig)).toNat =
        (is.map fun i => natCounts counts i.toNat).sum := by
    intro is fits
    induction is with
    | nil => rfl
    | cons i is ih =>
      unfold Fits at fits ih
      rw [List.map_cons, List.sum_cons] at fits
      have rest := ih (by omega)
      simp only [List.map_cons, List.sum_cons, total, value, BitVec.toNat_add, rest]
      exact Nat.mod_eq_of_lt fits
  cases group with
  | subsig i => simp [value, natCounts]
  | @sums k is notUniq _ =>
    cases k with
    | uniq => exact absurd rfl notUniq
    | sum => exact sums is fits
    | both => exact sums is fits

theorem total_group {n : Node} {is : List Word} (group : Group n is) (fits : Fits counts is) :
    (tree n).total (natCounts counts) = (value counts n).toNat := by
  rw [Ldb.total, ids_group group, value_group group fits, List.map_map]
  rfl

theorem holds_group {n : Node} {is : List Word} (group : Group n is) (fits : Fits counts is) :
    (tree n).holds (natCounts counts) = true ↔ Holds counts n := by
  have value := value_group group fits
  have nonzero : Holds counts n ↔ (LogicalMeaning.value counts n).toNat ≠ 0 := by
    unfold Holds
    constructor
    · intro h same
      exact h (BitVec.eq_of_toNat_eq same)
    · intro h same
      rw [same] at h
      exact h rfl
  rw [nonzero, value]
  cases group with
  | subsig i => simp [tree, Ldb.holds, Nat.pos_iff_ne_zero]
  | @sums k is _ wide =>
    rw [tree_sums (by simpa using wide), Ldb.holds, Ldb.someHold_iff, trees_eq_map, ne_eq,
      List.sum_eq_zero_iff_forall_eq_nat]
    simp [tree, Ldb.holds, Nat.pos_iff_ne_zero]

/-- The text of a plain node says what the node means. -/
theorem holds_tree {n : Node} (plain : Plain counts n) :
    (tree n).holds (natCounts counts) = true ↔ Holds counts n := by
  induction plain with
  | group group fits => exact holds_group group fits
  | eq group fits =>
    rw [holds_eq_total, tree, if_pos rfl, Ldb.holds, total_group group fits, decide_eq_true_eq,
      BitVec.toNat_inj]
  | gt group fits =>
      rw [holds_gt, tree, Ldb.holds, total_group group fits, decide_eq_true_eq, BitVec.lt_def]
  | lt group fits =>
      rw [holds_lt, tree, Ldb.holds, total_group group fits, decide_eq_true_eq, BitVec.lt_def]
  | and _ _ ih =>
    rw [holds_and, tree, Ldb.holds, Ldb.allHold_iff, trees_eq_map]
    simp only [List.mem_map, forall_exists_index, and_imp, forall_apply_eq_imp_iff₂]
    exact forall₂_congr ih
  | or _ _ ih =>
    rw [holds_or, tree, Ldb.holds, Ldb.someHold_iff, trees_eq_map]
    simp only [List.mem_map, exists_exists_and_eq_and]
    exact exists_congr fun c => and_congr_right fun hc => ih c hc

/-! ## What the constructors make of plain nodes -/

theorem Settles.const (b : Bool) : Settles counts (.const b) := Or.inl ⟨b, rfl⟩

theorem Plain.settles {n : Node} (plain : Plain counts n) : Settles counts n := Or.inr plain

theorem Settles.plain {n : Node} (settles : Settles counts n) (notConst : ∀ b, n ≠ .const b) :
    Plain counts n := by
  rcases settles with ⟨b, rfl⟩ | plain
  · exact absurd rfl (notConst b)
  · exact plain

theorem Group.not_const {n : Node} {is : List Word} (group : Group n is) (b : Bool) :
    n ≠ .const b := by
  cases group <;> exact nofun

theorem Plain.not_const {n : Node} (plain : Plain counts n) (b : Bool) : n ≠ .const b := by
  cases plain with
  | group group _ => exact group.not_const b
  | _ => exact nofun

/-- Comparisons are of totals. -/
theorem Settles.total {x y : Word} {n : Node} (settles : Settles counts (.eq x y n)) :
    y = maxWord := by
  have plain := settles.plain nofun
  cases plain with
  | group group _ => cases group
  | eq _ _ => rfl

/-- Comparisons of totals do not clash. -/
theorem noClash_of_settles {ns : List Node} (settles : ∀ n ∈ ns, Settles counts n) :
    NoClash ns := by
  intro x cs notMax _ right
  exact notMax (settles _ right).total

theorem Settles.members {cs : List Node} (settles : Settles counts (.and cs)) :
    ∀ c ∈ cs, Plain counts c := by
  have plain := settles.plain nofun
  cases plain with
  | group group _ => cases group
  | and _ each => exact each

theorem Settles.alternatives {cs : List Node} (settles : Settles counts (.or cs)) :
    ∀ c ∈ cs, Plain counts c := by
  have plain := settles.plain nofun
  cases plain with
  | group group _ => cases group
  | or _ each => exact each

theorem settles_formed : Formed (Settles counts) where
  const := .const
  members := fun h c hc => (h.members c hc).settles
  alternatives := fun h c hc => (h.alternatives c hc).settles
  and := fun wide _ each origin =>
    (Plain.and wide fun c hc => (each c hc).plain (origin c hc).1).settles
  or := fun wide _ each origin => by
    refine (Plain.or wide fun c hc => ?_).settles
    rcases origin c hc with ⟨notConst, -⟩ | ⟨ds, before, hc⟩
    · exact (each c hc).plain notConst
    · exact before.alternatives c hc
  pair := fun _ _ _ notMax _ right => absurd right.total notMax

theorem noClash_popped_settle {V : List Node} (settles : ∀ n ∈ V, Settles counts n) :
    NoClash (popped V) :=
  noClash_of_settles (popped_have settles_formed.members settles)

/-! Comparisons of groups. -/

theorem Group.countSum {n : Node} {is : List Word} (group : Group n is) : CountSum n := by
  cases group with
  | subsig i => exact .subsig i
  | sums notUniq _ => exact .sums notUniq

section
variable {n m : Node} {is : List Word} {v : Word} (group : Group n is) (fits : Fits counts is)
include group fits

theorem getEQ_settles (h : getEQ n v = .ok m) : Settles counts m := by
  cases group with
  | subsig i =>
    cases h
    exact (Plain.eq (.subsig i) fits).settles
  | @sums k is notUniq wide =>
    cases k with
    | uniq => exact absurd rfl notUniq
    | _ =>
      cases h
      exact (Plain.eq (@Group.sums .both is nofun wide) fits).settles

end

theorem compared_group :
    Compared (fun _ => True) (fun n => ∃ is, Group n is ∧ Fits counts is) (Settles counts) where
  below := fun ⟨_, group, _⟩ => absurd rfl (group.countSum.not_add _ _)
  null := fun _ => trivial
  self := fun ⟨_, group, fits⟩ => (Plain.group group fits).settles
  lt := fun ⟨_, group, fits⟩ _ _ => (Plain.lt group fits).settles
  gt := fun ⟨_, group, fits⟩ _ _ => (Plain.gt group fits).settles

theorem settle_pair {a b : Node} (first : Settles counts a) (second : Settles counts b) :
    ∀ n ∈ [a, b], Settles counts n := by
  simp [first, second]

theorem Settles.group {n : Node} {x y : Word} (settles : Settles counts (.eq x y n)) :
    ∃ is, Group n is ∧ Fits counts is := by
  have plain := settles.plain nofun
  cases plain with
  | group group _ => cases group
  | eq group fits => exact ⟨_, group, fits⟩

theorem negated_settles : Negated (fun _ => True) (Settles counts)
    (fun n => ∃ is, Group n is ∧ Fits counts is) (Settles counts) where
  formed := settles_formed
  compared := compared_group
  equal := by
    rintro n ⟨is, group, fits⟩ v
    cases ran : getEQ n v with
    | error e => trivial
    | ok m => exact getEQ_settles group fits ran
  members := settles_formed.members
  alternatives := settles_formed.alternatives
  subsig := fun h => by
    cases h.plain nofun with
    | group group fits => exact ⟨_, group, fits⟩
  ofEQ := Settles.group
  ofGT := fun h => by
    cases h.plain nofun with
    | group group _ => cases group
    | gt group fits => exact ⟨_, group, fits⟩
  ofLT := fun h => by
    cases h.plain nofun with
    | group group _ => cases group
    | lt group fits => exact ⟨_, group, fits⟩
  not := fun h => by
    cases h.plain nofun with
    | group group _ => cases group
  sums := fun _ => trivial
  add := fun _ => trivial

theorem getNot_settles {n m : Node} (settles : Settles counts n) (h : getNot o n = .ok m) :
    Settles counts m :=
  (negated_settles.getNot settles).of_ok h

theorem Plain.logical {n : Node} (plain : Plain counts n) : Logical true n := by
  induction plain with
  | group group _ => exact .sum rfl group.countSum
  | eq group _ => exact .eq group.countSum
  | gt group _ => exact .gt group.countSum
  | lt group _ => exact .lt group.countSum
  | and wide _ ih => exact .and (List.ne_nil_of_length_pos (by omega)) ih
  | or wide _ ih => exact .or (List.ne_nil_of_length_pos (by omega)) ih

/-- Negation is right for plain nodes and constants. -/
theorem notOk_settles {n : Node} (settles : Settles counts n) : NotOk o n := by
  rcases settles with ⟨b, rfl⟩ | plain
  · trivial
  · exact plain.logical.notOk

end LogicalText
