import ClamBC.LogicalShape
import ClamBC.PrefixOrder

/-!
# The order of nodes

`compare_lt` is meant to compare kind, operands, number of children and children, in this
order, but where the second operands differ it compares the first ones again. Two nodes that
differ there are then not ordered at all, and a sum has a different node for every order
in which they were added.
-/

namespace LogicalOrder

open LogicalNode LogicalShape PrefixOrder Fallible

/-- The nodes of one set: with a node it has the children of the node. -/
structure NodeSet where
  nodes : Set Node
  child_mem : ∀ n ∈ nodes, ∀ c, some c ∈ n.children → c ∈ nodes

/-- Nodes that differ where `compare_lt` does not look: in the second operand, or in a null
child. -/
def Confused (a b : Node) : Prop :=
  a.kind = b.kind ∧ a.op0 = b.op0 ∧
    (a.op1 ≠ b.op1 ∨ ¬(none ∈ a.children ↔ none ∈ b.children))

/-- A way to add up nodes. -/
inductive Additions where
  | node (n : Node)
  | add (lhs rhs : Additions)

namespace Additions

def nodes : Additions → List Node
  | .node n => [n]
  | .add l r => l.nodes ++ r.nodes

/-- The node of the sum; null where some nodes cannot be added. -/
def sum : Additions → Except Fault (Option Node)
  | .node n => .ok (some n)
  | .add l r => do
    match ← l.sum, ← r.sum with
    | some lhs, some rhs => getAdd lhs rhs
    | _, _ => return none

end Additions

/-- What can be added up to a sorted list of children: counts and sums of counts, or numbers of
different signatures. -/
inductive Summand : SumKind → Node → Prop
  | count (id : Word) : Summand .sum (.subsig id)
  | sum (cs : List Node) : Summand .sum (.sums .sum cs)
  | uniq (cs : List Node) : Summand .uniq (.sums .uniq cs)

/-- The comparator orders the nodes of the set, so that sorted children are canonical and equal
sums are the same node. -/
structure CanonicalOrder (S : NodeSet) : Prop where
  order : TellsApart compareLt S.nodes
  children : ∀ cs ds : List Node, (∀ c ∈ cs, c ∈ S.nodes) → Sorted compareLt cs →
    Sorted compareLt ds → cs.Perm ds → cs = ds
  sums : ∀ (k : SumKind) (s t : Additions), (∀ n ∈ s.nodes, n ∈ S.nodes ∧ Summand k n) →
    s.nodes.Perm t.nodes → s.sum = t.sum

/-! ## Nodes as words -/

theorem rank_injective : Function.Injective LogicalKind.rank := fun k l h => by
  cases k <;> cases l <;> first | rfl | cases h

/-- What a node is compared by, as one word. A null child has a rank of its own. -/
def code : Node → List Nat := Node.fold fun n cs =>
  n.kind.rank :: n.op0.toNat :: n.op1.toNat :: n.children.length ::
    cs.flatMap fun c => c.getD [13]

def childCode (c : Option Node) : List Nat := (c.map code).getD [13]

theorem code_eq (n : Node) :
    code n = n.kind.rank :: n.op0.toNat :: n.op1.toNat :: n.children.length ::
      n.children.flatMap childCode := by
  rw [code, Node.fold_eq, List.flatMap_map]
  rfl

theorem rank_lt (k : LogicalKind) : k.rank < 13 := by
  cases k <;> decide

theorem childCode_prefixFree {c : Option Node} (free : ∀ n, c = some n → PrefixFree code n) :
    PrefixFree childCode c := by
  intro d xs ys h
  cases c with
  | none =>
    cases d with
    | none => exact ⟨rfl, List.append_cancel_left h⟩
    | some d =>
      simp only [childCode, Option.map_some, Option.map_none, Option.getD_some, Option.getD_none,
        code_eq] at h
      exact absurd (List.cons.inj h).1 (rank_lt d.kind).ne'
  | some c =>
    cases d with
    | none =>
      simp only [childCode, Option.map_some, Option.map_none, Option.getD_some, Option.getD_none,
        code_eq] at h
      exact absurd (List.cons.inj h).1 (rank_lt c.kind).ne
    | some d =>
      simp only [childCode, Option.map_some, Option.getD_some] at h
      obtain ⟨rfl, rest⟩ := free c rfl d xs ys h
      exact ⟨rfl, rest⟩

/-- A node can be read back from the beginning of its word. -/
theorem code_prefixFree (n : Node) : PrefixFree code n := by
  induction n using Node.childInduct with
  | step n ih =>
    intro m xs ys h
    rw [code_eq, code_eq] at h
    simp only [List.cons_append, List.cons.injEq] at h
    obtain ⟨kind, op0, op1, length, rest⟩ := h
    have free : ∀ c ∈ n.children, PrefixFree childCode c := fun c hc =>
      childCode_prefixFree fun d hd => ih d (hd ▸ hc)
    obtain ⟨children, tails⟩ := PrefixFree.flatMap free length rest
    exact ⟨Node.ext (rank_injective kind) (BitVec.eq_of_toNat_eq op0)
      (BitVec.eq_of_toNat_eq op1) children, tails⟩

theorem code_injective : Function.Injective code := fun a b h =>
  (code_prefixFree a b [] [] (congrArg (· ++ []) h)).1

/-! ## Where nothing is confused -/

/-- `compare_lt` below the number of children. -/
def childrenLt : List (Option Node) → List (Option Node) → Bool
  | some c :: cs, some d :: ds => if c = d then childrenLt cs ds else compareLt c d
  | _, _ => false

theorem compareChildren_eq (cs : List Node) (ds : List (Option Node)) :
    compareChildren cs ds = childrenLt (cs.map some) ds := by
  induction cs generalizing ds with
  | nil => simp [compareChildren, childrenLt]
  | cons c cs ih =>
    cases ds with
    | nil => simp [compareChildren, childrenLt]
    | cons d ds =>
      cases d with
      | none => simp [compareChildren, childrenLt]
      | some d => rw [compareChildren, List.map_cons, childrenLt, ih]

theorem compareChild_eq (c : Node) {ds : List (Option Node)} (single : ds.length = 1) :
    compareChild c ds = childrenLt [some c] ds := by
  obtain ⟨d, rfl⟩ := List.length_eq_one_iff.mp single
  cases d <;> simp [compareChild, childrenLt]

theorem compareLt_eq (a b : Node) :
    compareLt a b =
      if a.kind ≠ b.kind then decide (a.kind.rank < b.kind.rank)
      else if a.op0 ≠ b.op0 then decide (a.op0 < b.op0)
      else if a.op1 ≠ b.op1 then false
      else if a.children.length ≠ b.children.length then
        decide (a.children.length < b.children.length)
      else childrenLt a.children b.children := by
  rw [compareLt.eq_def]
  split_ifs with hk h0 h1 hl
  · rfl
  · rfl
  · simp at h0
    simp [h0]
  · rfl
  · cases a with
    | sums k cs => cases k <;> exact compareChildren_eq cs _
    | and cs => exact compareChildren_eq cs _
    | or cs => exact compareChildren_eq cs _
    | eq _ _ c => exact compareChild_eq c (Decidable.not_not.mp hl).symm
    | gt _ c => exact compareChild_eq c (Decidable.not_not.mp hl).symm
    | lt _ c => exact compareChild_eq c (Decidable.not_not.mp hl).symm
    | not c => exact compareChild_eq c (Decidable.not_not.mp hl).symm
    | add _ c =>
      cases c with
      | some c => exact compareChild_eq c (Decidable.not_not.mp hl).symm
      | none => rfl
    | _ => rfl

theorem childrenLt_iff {cs ds : List (Option Node)} (length : cs.length = ds.length)
    (left : none ∉ cs) (right : none ∉ ds)
    (ih : ∀ c d, some c ∈ cs → some d ∈ ds → (compareLt c d = true ↔ code c < code d)) :
    childrenLt cs ds = true ↔ cs.flatMap childCode < ds.flatMap childCode := by
  induction cs generalizing ds with
  | nil =>
    cases List.eq_nil_of_length_eq_zero length.symm
    simp [childrenLt]
  | cons c cs rest =>
    obtain _ | ⟨d, ds⟩ := ds
    · simp at length
    · cases c with
      | none => exact absurd List.mem_cons_self left
      | some c =>
        cases d with
        | none => exact absurd List.mem_cons_self right
        | some d =>
          have free := childCode_prefixFree (c := some c) fun n _ => code_prefixFree n
          rw [free.cons_lt_cons_iff, childrenLt]
          simp only [Option.some.injEq]
          split
          · exact rest (Nat.succ.inj length) (fun h => left (List.mem_cons_of_mem _ h))
              (fun h => right (List.mem_cons_of_mem _ h))
              fun c d hc hd => ih c d (List.mem_cons_of_mem _ hc) (List.mem_cons_of_mem _ hd)
          · exact ih c d List.mem_cons_self List.mem_cons_self

theorem kind_of_none {n : Node} (h : none ∈ n.children) : n.kind = .add := by
  cases n with
  | add u c => rfl
  | sums k cs => cases k <;> simp [Node.children] at h
  | _ => simp [Node.children] at h

theorem single_of_add {n : Node} (h : n.kind = .add) : ∃ c, n.children = [c] := by
  cases n with
  | add u c => exact ⟨c, rfl⟩
  | sums k cs => cases k <;> cases h
  | const b => cases b <;> cases h
  | _ => cases h

theorem children_of_none {n : Node} (h : none ∈ n.children) : n.children = [none] := by
  obtain ⟨c, single⟩ := single_of_add (kind_of_none h)
  rw [single, List.mem_singleton] at h
  rw [single, ← h]

variable {S : NodeSet}

/-- On nodes that are not confused `compare_lt` is the lexicographic order of the words. -/
theorem compareLt_iff_code (clear : ∀ a ∈ S.nodes, ∀ b ∈ S.nodes, ¬ Confused a b) (a : Node)
    (ha : a ∈ S.nodes) (b : Node) (hb : b ∈ S.nodes) :
    compareLt a b = true ↔ code a < code b := by
  induction a using Node.childInduct generalizing b with
  | step a ih =>
    simp only [compareLt_eq, code_eq, List.cons_lt_cons_iff]
    by_cases kind : a.kind = b.kind
    · by_cases op0 : a.op0 = b.op0
      · have same := not_and.mp (not_and.mp (clear a ha b hb) kind) op0
        rw [not_or, Decidable.not_not, Decidable.not_not] at same
        obtain ⟨op1, null⟩ := same
        by_cases length : a.children.length = b.children.length
        · have children : childrenLt a.children b.children = true ↔
              a.children.flatMap childCode < b.children.flatMap childCode := by
            by_cases h : none ∈ a.children
            · rw [children_of_none h, children_of_none (null.mp h)]
              simp [childrenLt]
            · exact childrenLt_iff length h (fun h' => h (null.mpr h')) fun c d hc hd =>
                ih c hc (S.child_mem a ha c hc) d (S.child_mem b hb d hd)
          simp [kind, op0, op1, length, children]
        · simp [kind, op0, op1, length]
      · have different : a.op0.toNat ≠ b.op0.toNat := fun h => op0 (BitVec.eq_of_toNat_eq h)
        simp [kind, op0, different, BitVec.lt_def]
    · have different : a.kind.rank ≠ b.kind.rank := fun h => kind (rank_injective h)
      simp [kind, different]

theorem tellsApart (clear : ∀ a ∈ S.nodes, ∀ b ∈ S.nodes, ¬ Confused a b) :
    TellsApart compareLt S.nodes :=
  .of_key code code_injective.injOn (compareLt_iff_code clear)

theorem not_less_of_confused {a b : Node} (h : Confused a b) : compareLt a b = false := by
  obtain ⟨kind, op0, different⟩ := h
  rw [compareLt_eq]
  by_cases op1 : a.op1 = b.op1
  · have null := different.resolve_left (not_not.mpr op1)
    have add : a.kind = .add := by
      by_contra other
      have left : none ∉ a.children := fun h => other (kind_of_none h)
      have right : none ∉ b.children := fun h => other (kind.trans (kind_of_none h))
      exact null (iff_of_false left right)
    obtain ⟨c, left⟩ := single_of_add add
    obtain ⟨d, right⟩ := single_of_add (kind.symm.trans add)
    cases c with
    | none => simp [kind, op0, op1, left, right, childrenLt]
    | some c =>
      cases d with
      | none => simp [kind, op0, op1, left, right, childrenLt]
      | some d => exact absurd (by simp [left, right]) null
  · simp [kind, op0, op1]

theorem Confused.symm {a b : Node} (h : Confused a b) : Confused b a :=
  ⟨h.1.symm, h.2.1.symm, h.2.2.imp Ne.symm fun null => fun same => null same.symm⟩

theorem Confused.different {a b : Node} (h : Confused a b) : a ≠ b := by
  rintro rfl
  exact h.2.2.elim (fun h => h rfl) fun h => h Iff.rfl

/-! ## Sums -/

theorem sortChildren_sorted (clear : ∀ a ∈ S.nodes, ∀ b ∈ S.nodes, ¬ Confused a b)
    {cs : List Node} (inside : ∀ c ∈ cs, c ∈ S.nodes) : Sorted compareLt (sortChildren cs) :=
  (tellsApart clear).insertionSort_sorted inside

/-- What a summand contributes to the list of children. -/
def parts : Node → List Node
  | .sums _ cs => cs
  | n => [n]

theorem parts_mem {k : SumKind} {n : Node} (summand : Summand k n) (hn : n ∈ S.nodes) :
    ∀ c ∈ parts n, c ∈ S.nodes := by
  intro c hc
  cases summand with
  | count id => exact List.mem_singleton.mp hc ▸ hn
  | sum cs => exact S.child_mem _ hn c (List.mem_map_of_mem hc)
  | uniq cs => exact S.child_mem _ hn c (List.mem_map_of_mem hc)

/-- The sum is a summand again and has the parts of all nodes that were added. -/
def Collects (k : SumKind) (t : Additions) : Prop :=
  ∃ n, t.sum = .ok (some n) ∧ Summand k n ∧ (parts n).Perm (t.nodes.flatMap parts)

theorem getAdd_summands {k : SumKind} {a b : Node} (ha : Summand k a) (hb : Summand k b) :
    ∃ cs, cs.Perm (parts a ++ parts b) ∧ getAdd a b = .ok (some (.sums k (sortChildren cs))) ∧
      ∀ ds, Summand k (.sums k ds) := by
  cases hb with
  | count j =>
    cases ha with
    | count i => exact ⟨[.subsig i, .subsig j], .refl _, rfl, .sum⟩
    | sum cs => exact ⟨.subsig j :: cs, (List.perm_append_singleton _ cs).symm, rfl, .sum⟩
  | sum ds =>
    cases ha with
    | count i => exact ⟨.subsig i :: ds, .refl _, rfl, .sum⟩
    | sum cs => exact ⟨cs ++ ds, .refl _, rfl, .sum⟩
  | uniq ds =>
    cases ha with
    | uniq cs => exact ⟨cs ++ ds, .refl _, rfl, .uniq⟩

theorem sum_add {k : SumKind} {l r : Additions} (hl : Collects k l) (hr : Collects k r) :
    ∃ cs, cs.Perm ((l.add r).nodes.flatMap parts) ∧
      (l.add r).sum = .ok (some (.sums k (sortChildren cs))) ∧
      ∀ ds, Summand k (.sums k ds) := by
  obtain ⟨a, left, ha, permLeft⟩ := hl
  obtain ⟨b, right, hb, permRight⟩ := hr
  obtain ⟨cs, perm, sum, again⟩ := getAdd_summands ha hb
  refine ⟨cs, perm.trans ?_, ?_, again⟩
  · rw [Additions.nodes, List.flatMap_append]
    exact permLeft.append permRight
  · rw [Additions.sum, left, right]
    exact sum

theorem collects {k : SumKind} (t : Additions) (summands : ∀ n ∈ t.nodes, Summand k n) :
    Collects k t := by
  induction t with
  | node n =>
    refine ⟨n, rfl, summands n (List.mem_singleton.mpr rfl), ?_⟩
    rw [Additions.nodes, List.flatMap_singleton]
  | add l r hl hr =>
    obtain ⟨cs, perm, sum, again⟩ :=
      sum_add (hl fun n hn => summands n (List.mem_append_left _ hn))
        (hr fun n hn => summands n (List.mem_append_right _ hn))
    exact ⟨_, sum, again _, (sortChildren_perm cs).trans perm⟩

theorem nodes_length_pos (t : Additions) : 0 < t.nodes.length := by
  induction t with
  | node n => exact Nat.one_pos
  | add l r hl _ =>
    rw [Additions.nodes, List.length_append]
    exact Nat.add_pos_left hl _

theorem one_lt_nodes_length (l r : Additions) : 1 < (l.add r).nodes.length := by
  have := nodes_length_pos l
  have := nodes_length_pos r
  rw [Additions.nodes, List.length_append]
  omega

/-- Two ways to add up the same nodes. -/
theorem sum_eq (clear : ∀ a ∈ S.nodes, ∀ b ∈ S.nodes, ¬ Confused a b) {k : SumKind}
    {s t : Additions} (summands : ∀ n ∈ s.nodes, n ∈ S.nodes ∧ Summand k n)
    (perm : s.nodes.Perm t.nodes) : s.sum = t.sum := by
  have length := perm.length_eq
  have summands' : ∀ n ∈ t.nodes, n ∈ S.nodes ∧ Summand k n := fun n hn =>
    summands n (perm.mem_iff.mpr hn)
  cases s with
  | node n =>
    cases t with
    | node m =>
      rw [List.singleton_perm_singleton.mp perm]
    | add l r => exact absurd length (one_lt_nodes_length l r).ne
  | add l r =>
    cases t with
    | node m => exact absurd length (one_lt_nodes_length l r).ne'
    | add l' r' =>
      obtain ⟨cs, permParts, sum, -⟩ :=
        sum_add (k := k) (collects l fun n hn => (summands n (List.mem_append_left _ hn)).2)
          (collects r fun n hn => (summands n (List.mem_append_right _ hn)).2)
      obtain ⟨cs', permParts', sum', -⟩ :=
        sum_add (k := k) (collects l' fun n hn => (summands' n (List.mem_append_left _ hn)).2)
          (collects r' fun n hn => (summands' n (List.mem_append_right _ hn)).2)
      have inside : ∀ c ∈ cs, c ∈ S.nodes := by
        intro c hc
        obtain ⟨n, hn, hc⟩ := List.mem_flatMap.mp (permParts.mem_iff.mp hc)
        exact parts_mem (summands n hn).2 (summands n hn).1 c hc
      have same : cs.Perm cs' :=
        permParts.trans ((perm.flatMap_right parts).trans permParts'.symm)
      have sorted : sortChildren cs = sortChildren cs' :=
        (tellsApart clear).sorted_unique
          (fun c hc => inside c ((sortChildren_perm cs).mem_iff.mp hc))
          (sortChildren_sorted clear inside)
          (sortChildren_sorted clear fun c hc => inside c (same.mem_iff.mpr hc))
          ((sortChildren_perm cs).trans (same.trans (sortChildren_perm cs').symm))
      rw [sum, sum', sorted]

/-- The numbers of different signatures of confused nodes have two sums. -/
theorem sum_of_confused {a b : Node} (h : Confused a b) :
    getAdd (getUniqueSigs a) (getUniqueSigs b) ≠ getAdd (getUniqueSigs b) (getUniqueSigs a) := by
  have unsorted {c d : Node} (h : Confused c d) :
      getAdd (getUniqueSigs c) (getUniqueSigs d) = .ok (some (.sums .uniq [c, d])) := by
    simp [getUniqueSigs, getAdd, sortChildren, not_less_of_confused h.symm]
  rw [unsorted h, unsorted h.symm]
  simp [h.different]

/-- Exactly where no two nodes are confused. -/
theorem canonicalOrder_iff (S : NodeSet) :
    CanonicalOrder S ↔ ∀ a ∈ S.nodes, ∀ b ∈ S.nodes, ¬ Confused a b := by
  constructor
  · intro canonical a ha b hb confused
    exact confused.different (canonical.order.identical a ha b hb
      ⟨not_less_of_confused confused, not_less_of_confused confused.symm⟩)
  · intro clear
    exact ⟨tellsApart clear, fun cs ds inside sorted sorted' perm =>
      (tellsApart clear).sorted_unique inside sorted sorted' perm,
      fun k s t summands perm => sum_eq clear summands perm⟩

/-! ## A group of one signature -/

def group : Node := .sums .both [.subsig 0]

/-- `a == 2` for the sum of the counts in a group, and for the number of its signatures. -/
def sumIsTwo : Node := .eq 2 maxWord group
def uniqIsTwo : Node := .eq 2 2 group

def comparisons : NodeSet where
  nodes := {n | n ∈ [sumIsTwo, uniqIsTwo, group, .subsig 0]}
  child_mem := by
    intro n hn c hc
    rw [Set.mem_ofPred_eq] at hn ⊢
    simp only [List.mem_cons, List.not_mem_nil, or_false] at hn ⊢
    rcases hn with rfl | rfl | rfl | rfl <;>
      simp_all [sumIsTwo, uniqIsTwo, group, Node.children]

theorem comparisons_not_canonical : ¬ CanonicalOrder comparisons := by
  intro canonical
  have confused : Confused sumIsTwo uniqIsTwo := ⟨rfl, rfl, .inl (by decide)⟩
  exact confused.different (canonical.order.identical sumIsTwo (by simp [comparisons]) uniqIsTwo
    (by simp [comparisons]) ⟨not_less_of_confused confused, not_less_of_confused confused.symm⟩)

end LogicalOrder
