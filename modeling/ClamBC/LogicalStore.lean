import ClamBC.LogicalNode
import ClamBC.PrefixOrder

/-!
# The set of nodes

`getNode` looks for a node with the profile of the one that is asked for, and stores a new one
only when there is none. Nodes are never changed or freed after that. The hashing is not
modelled: `FoldingSet` finds the node whose complete profile is the same. Neither is the assertion
on nodes without children, so that any node can be asked for.
-/

namespace LogicalStore

open LogicalNode PrefixOrder

/-- A `LogicalNode`, with the addresses of its children. -/
structure Fields (Ptr : Type) where
  kind : LogicalKind
  op0 : Word
  op1 : Word
  children : List Ptr
  deriving DecidableEq

/-- The nodes at their addresses, the newest first. -/
abbrev LogicalNodes (Ptr : Type) := List (Ptr × Fields Ptr)

variable {Ptr : Type}

def addresses (Set : LogicalNodes Ptr) : List Ptr := Set.map Prod.fst

section Calls
variable (addPointer : Ptr → List Word)

/-- `Profile`: neither the kind nor the number of children comes first. -/
def profile (N : Fields Ptr) : List Word :=
  [N.op0, N.op1, BitVec.ofNat 32 N.kind.rank] ++ N.children.flatMap addPointer

def findNodeOrInsertPos (Set : LogicalNodes Ptr) (ID : List Word) : Option Ptr :=
  (Set.find? fun M => profile addPointer M.2 = ID).map Prod.fst

/-- The node that is returned and the set afterwards; a new node would be at the address
`new`. -/
def getNode (Set : LogicalNodes Ptr) (N : Fields Ptr) (new : Ptr) : Ptr × LogicalNodes Ptr :=
  match findNodeOrInsertPos addPointer Set (profile addPointer N) with
  | some M => (M, Set)
  | none => (new, (new, N) :: Set)

/-- The calls on one set that was empty, the last call first, each with the node that it
returned. A child is null or a node of the set, and a new node gets an address of its own. -/
inductive Run (null : Ptr) : List (Fields Ptr × Ptr) → LogicalNodes Ptr → Prop
  | empty : Run null [] []
  | getNode {calls : List (Fields Ptr × Ptr)} {Set : LogicalNodes Ptr} (run : Run null calls Set)
      (N : Fields Ptr) (new : Ptr) (children : ∀ c ∈ N.children, c = null ∨ c ∈ addresses Set)
      (allocated : findNodeOrInsertPos addPointer Set (profile addPointer N) = none →
        new ≠ null ∧ new ∉ addresses Set) :
      Run null ((N, (getNode addPointer Set N new).1) :: calls)
        (getNode addPointer Set N new).2

/-- `AddPointer` adds as many words for every pointer, and different ones. -/
structure AddsPointers : Prop where
  width : ∃ width, 0 < width ∧ ∀ p, (addPointer p).length = width
  injective : Function.Injective addPointer

end Calls

/-- What is below a node; a null child is absent. -/
inductive Tree where
  | node (kind : LogicalKind) (op0 op1 : Word) (children : List (Option Tree))

/-- The tree of the node at an address. The children are older than the node. -/
def tree [DecidableEq Ptr] : LogicalNodes Ptr → Ptr → Option Tree
  | [], _ => none
  | (M, N) :: older, p =>
    if p = M then some (.node N.kind N.op0 N.op1 (N.children.map (tree older)))
    else tree older p

/-- Equal requests get the same node, and equal trees are at the same address. -/
structure Uniqued [DecidableEq Ptr] (calls : List (Fields Ptr × Ptr)) (Set : LogicalNodes Ptr) :
    Prop where
  same : ∀ r ∈ calls, ∀ r' ∈ calls, r.2 = r'.2 ↔ r.1 = r'.1
  stored : ∀ r ∈ calls, (r.2, r.1) ∈ Set
  unfolds : ∀ M ∈ Set, tree Set M.1 =
    some (.node M.2.kind M.2.op0 M.2.op1 (M.2.children.map (tree Set)))
  trees : ∀ p ∈ addresses Set, ∀ q ∈ addresses Set, p = q ↔ tree Set p = tree Set q

variable {addPointer : Ptr → List Word} {null : Ptr}

/-! ## Profiles -/

theorem kindWord_injective :
    Function.Injective fun k : LogicalKind => BitVec.ofNat 32 k.rank := fun k l h => by
  cases k <;> cases l <;> first | rfl | exact absurd h (by decide)

/-- The number of children is the rest of the length. -/
theorem profile_injective (adds : AddsPointers addPointer) :
    Function.Injective (profile addPointer) := by
  intro N N' h
  obtain ⟨width, pos, length⟩ := adds.width
  simp only [profile, List.cons_append, List.nil_append, List.cons.injEq] at h
  obtain ⟨op0, op1, kind, children⟩ := h
  obtain ⟨k, u, v, cs⟩ := N
  obtain ⟨k', u', v', cs'⟩ := N'
  rw [Fields.mk.injEq]
  exact ⟨kindWord_injective kind, op0, op1,
    flatMap_injective pos length adds.injective children⟩

theorem findNode_some (adds : AddsPointers addPointer) {Set : LogicalNodes Ptr} {N : Fields Ptr}
    {M : Ptr} (h : findNodeOrInsertPos addPointer Set (profile addPointer N) = some M) :
    (M, N) ∈ Set := by
  obtain ⟨found, isFound, rfl⟩ := Option.map_eq_some_iff.mp h
  have same := List.find?_some isFound
  rw [decide_eq_true_eq] at same
  rw [← profile_injective adds same]
  exact List.mem_of_find?_eq_some isFound

theorem findNode_none {Set : LogicalNodes Ptr} {N : Fields Ptr}
    (h : findNodeOrInsertPos addPointer Set (profile addPointer N) = none) :
    ∀ M ∈ Set, M.2 ≠ N := by
  rintro M hM rfl
  have absent := List.find?_eq_none.mp (Option.map_eq_none_iff.mp h) M hM
  exact absent (decide_eq_true rfl)

/-! ## The set after any calls -/

/-- A set in which every address and every node is there once. -/
inductive WellFormed (null : Ptr) : LogicalNodes Ptr → Prop
  | empty : WellFormed null []
  | insert {Set : LogicalNodes Ptr} (older : WellFormed null Set) (N : Fields Ptr) (M : Ptr)
      (children : ∀ c ∈ N.children, c = null ∨ c ∈ addresses Set) (notNull : M ≠ null)
      (fresh : M ∉ addresses Set) (different : ∀ M' ∈ Set, M'.2 ≠ N) :
      WellFormed null ((M, N) :: Set)

theorem Run.wellFormed (adds : AddsPointers addPointer) {calls : List (Fields Ptr × Ptr)}
    {Set : LogicalNodes Ptr} (run : Run addPointer null calls Set) :
    WellFormed null Set ∧ ∀ r ∈ calls, (r.2, r.1) ∈ Set := by
  induction run with
  | empty => exact ⟨.empty, nofun⟩
  | getNode run N new children allocated ih =>
    obtain ⟨wellFormed, stored⟩ := ih
    unfold LogicalStore.getNode
    split
    · next M found =>
      refine ⟨wellFormed, fun r hr => ?_⟩
      rcases List.mem_cons.mp hr with rfl | hr
      · exact findNode_some adds found
      · exact stored r hr
    · next absent =>
      obtain ⟨notNull, fresh⟩ := allocated absent
      refine ⟨.insert wellFormed N new children notNull fresh (findNode_none absent),
        fun r hr => ?_⟩
      rcases List.mem_cons.mp hr with rfl | hr
      · exact List.mem_cons_self
      · exact List.mem_cons_of_mem _ (stored r hr)

theorem mem_addresses {Set : LogicalNodes Ptr} {M : Ptr × Fields Ptr} (h : M ∈ Set) :
    M.1 ∈ addresses Set := List.mem_map_of_mem h

/-- No address twice and no node twice. -/
theorem WellFormed.same {Set : LogicalNodes Ptr} (wellFormed : WellFormed null Set) :
    ∀ M ∈ Set, ∀ M' ∈ Set, M.1 = M'.1 ↔ M.2 = M'.2 := by
  induction wellFormed with
  | empty => nofun
  | insert older N M _ _ fresh different ih =>
    intro A hA B hB
    rcases List.mem_cons.mp hA with rfl | hA <;> rcases List.mem_cons.mp hB with rfl | hB
    · exact iff_of_true rfl rfl
    · have apart : M ≠ B.1 := fun h => fresh (h ▸ mem_addresses hB)
      exact iff_of_false apart fun h => different B hB h.symm
    · have apart : A.1 ≠ M := fun h => fresh (h ▸ mem_addresses hA)
      exact iff_of_false apart (different A hA)
    · exact ih A hA B hB

theorem WellFormed.null_not_mem {Set : LogicalNodes Ptr} (wellFormed : WellFormed null Set) :
    null ∉ addresses Set := by
  induction wellFormed with
  | empty => nofun
  | insert older N M _ notNull _ _ ih =>
    intro h
    exact (List.mem_cons.mp h).elim notNull.symm ih

theorem WellFormed.children {Set : LogicalNodes Ptr} (wellFormed : WellFormed null Set) :
    ∀ M ∈ Set, ∀ c ∈ M.2.children, c = null ∨ c ∈ addresses Set := by
  induction wellFormed with
  | empty => nofun
  | insert older N M children _ _ _ ih =>
    intro A hA c hc
    rcases List.mem_cons.mp hA with rfl | hA
    · exact (children c hc).imp_right (List.mem_cons_of_mem _)
    · exact (ih A hA c hc).imp_right (List.mem_cons_of_mem _)

/-! ## Trees -/

variable [DecidableEq Ptr]

theorem tree_of_not_mem {Set : LogicalNodes Ptr} {p : Ptr} (h : p ∉ addresses Set) :
    tree Set p = none := by
  induction Set with
  | nil => rfl
  | cons M older ih =>
    obtain ⟨different, outside⟩ := not_or.mp (mt List.mem_cons.mpr h)
    rw [tree, if_neg different, ih outside]

/-- A newer node is not below an older one. -/
theorem tree_cons {Set : LogicalNodes Ptr} {M : Ptr} {N : Fields Ptr} {p : Ptr}
    (fresh : M ∉ addresses Set) (notNull : M ≠ null) (h : p = null ∨ p ∈ addresses Set) :
    tree ((M, N) :: Set) p = tree Set p := by
  rw [tree, if_neg]
  rintro rfl
  exact h.elim notNull fresh

theorem WellFormed.unfolds {Set : LogicalNodes Ptr} (wellFormed : WellFormed null Set) :
    ∀ M ∈ Set, tree Set M.1 =
      some (.node M.2.kind M.2.op0 M.2.op1 (M.2.children.map (tree Set))) := by
  induction wellFormed with
  | empty => nofun
  | @insert Set older N M children notNull fresh _ ih =>
    have below {cs : List Ptr} (inside : ∀ c ∈ cs, c = null ∨ c ∈ addresses Set) :
        cs.map (tree ((M, N) :: Set)) = cs.map (tree Set) :=
      List.map_congr_left fun c hc => tree_cons fresh notNull (inside c hc)
    intro A hA
    rcases List.mem_cons.mp hA with rfl | hA
    · rw [below children, tree, if_pos rfl]
    · rw [below (older.children A hA), tree_cons fresh notNull (.inr (mem_addresses hA))]
      exact ih A hA

omit [DecidableEq Ptr] in
theorem eq_of_map_eq {β : Type} {f : Ptr → β} {cs ds : List Ptr} (h : cs.map f = ds.map f)
    (inj : ∀ c ∈ cs, ∀ d ∈ ds, f c = f d → c = d) : cs = ds := by
  induction cs generalizing ds with
  | nil => exact (List.map_eq_nil_iff.mp h.symm).symm
  | cons c cs ih =>
    obtain _ | ⟨d, ds⟩ := ds
    · cases h
    · obtain ⟨first, rest⟩ := List.cons.inj h
      rw [inj c List.mem_cons_self d List.mem_cons_self first,
        ih rest fun c hc d hd => inj c (List.mem_cons_of_mem _ hc) d (List.mem_cons_of_mem _ hd)]

/-- Trees are told apart from the oldest node on: the children of a new node are different
from those of every node that is like it otherwise, and so are their trees. -/
theorem WellFormed.tree_injective {Set : LogicalNodes Ptr} (wellFormed : WellFormed null Set) :
    ∀ p q, p = null ∨ p ∈ addresses Set → q = null ∨ q ∈ addresses Set →
      tree Set p = tree Set q → p = q := by
  induction wellFormed with
  | empty =>
    intro p q hp hq _
    rw [hp.resolve_right nofun, hq.resolve_right nofun]
  | @insert Set older N M children notNull fresh different ih =>
    have new {q : Ptr} (hq : q = null ∨ q ∈ addresses Set) :
        tree ((M, N) :: Set) M ≠ tree ((M, N) :: Set) q := by
      intro same
      rw [tree_cons fresh notNull hq, tree, if_pos rfl] at same
      rcases hq with rfl | hq
      · rw [tree_of_not_mem older.null_not_mem] at same
        cases same
      · obtain ⟨B, hB, rfl⟩ := List.mem_map.mp hq
        rw [older.unfolds B hB, Option.some.injEq, Tree.node.injEq] at same
        obtain ⟨kind, op0, op1, trees⟩ := same
        have sameChildren : N.children = B.2.children := eq_of_map_eq trees fun c hc d hd =>
          ih c d (children c hc) (older.children B hB d hd)
        refine different B hB ?_
        obtain ⟨k, u, v, cs⟩ := N
        obtain ⟨M', k', u', v', cs'⟩ := B
        rw [Fields.mk.injEq]
        exact ⟨kind.symm, op0.symm, op1.symm, sameChildren.symm⟩
    have split {p : Ptr} (hp : p = null ∨ p ∈ addresses ((M, N) :: Set)) :
        p = M ∨ p = null ∨ p ∈ addresses Set := by
      rcases hp with hp | hp
      · exact .inr (.inl hp)
      · exact (List.mem_cons.mp hp).imp_right .inr
    intro p q hp hq same
    rcases split hp with rfl | oldP <;> rcases split hq with rfl | oldQ
    · rfl
    · exact absurd same (new oldQ)
    · exact absurd same.symm (new oldP)
    · rw [tree_cons fresh notNull oldP, tree_cons fresh notNull oldQ] at same
      exact ih p q oldP oldQ same

/-- Whatever was asked for, in any order. -/
theorem getNode_uniqued (adds : AddsPointers addPointer) {calls : List (Fields Ptr × Ptr)}
    {Set : LogicalNodes Ptr} (run : Run addPointer null calls Set) : Uniqued calls Set := by
  obtain ⟨wellFormed, stored⟩ := run.wellFormed adds
  exact ⟨fun r hr r' hr' => wellFormed.same _ (stored r hr) _ (stored r' hr'), stored,
    wellFormed.unfolds, fun p hp q hq =>
      ⟨fun h => h ▸ rfl, wellFormed.tree_injective p q (.inr hp) (.inr hq)⟩⟩

/-- Both halves of an address. -/
def words (p : BitVec 64) : List Word := [p.extractLsb' 0 32, p.extractLsb' 32 32]

theorem words_addsPointers : AddsPointers words where
  width := ⟨2, Nat.two_pos, fun _ => rfl⟩
  injective := by
    intro p q h
    simp only [words, List.cons.injEq, and_true] at h
    obtain ⟨low, high⟩ := h
    have parts (p : BitVec 64) : p = p.extractLsb' 32 32 ++ p.extractLsb' 0 32 := by
      ext i hi
      rw [BitVec.getElem_append]
      split <;> simp <;> grind
    rw [parts p, parts q, low, high]

/-- The match count of a signature, and twice the same comparison of it. -/
def countOfFirst : Fields (BitVec 64) := ⟨.subsignature, 0, maxWord, []⟩
def countIsTwo : Fields (BitVec 64) := ⟨.eq, 2, maxWord, [0x1000]⟩

theorem comparison_uniqued :
    Uniqued [(countIsTwo, 0x1040), (countIsTwo, 0x1040), (countOfFirst, (0x1000 : BitVec 64))]
      [(0x1040, countIsTwo), (0x1000, countOfFirst)] := by
  have first : Run words 0 [(countOfFirst, 0x1000)] [(0x1000, countOfFirst)] :=
    .getNode .empty countOfFirst 0x1000 nofun fun _ => ⟨by decide, nofun⟩
  have second : Run words 0 [(countIsTwo, 0x1040), (countOfFirst, 0x1000)]
      [(0x1040, countIsTwo), (0x1000, countOfFirst)] := by
    have run := first.getNode countIsTwo 0x1040 (by simp [countIsTwo, addresses]) fun _ => by
      simp [addresses]
    simpa [getNode, findNodeOrInsertPos, profile, countOfFirst, countIsTwo] using run
  have third := second.getNode countIsTwo 0x1080 (by simp [countIsTwo, addresses]) fun _ => by
    simp [addresses]
  have requests : Run words 0
      [(countIsTwo, 0x1040), (countIsTwo, 0x1040), (countOfFirst, (0x1000 : BitVec 64))]
      [(0x1040, countIsTwo), (0x1000, countOfFirst)] := by
    simpa [getNode, findNodeOrInsertPos, profile, countOfFirst, countIsTwo] using third
  exact getNode_uniqued words_addsPointers requests

/-! ## Trees for addresses -/

/-- The tree of a node that has its children in place of their addresses. -/
def treeOf : Node → Tree := Node.fold fun n => .node n.kind n.op0 n.op1

theorem treeOf_eq (n : Node) :
    treeOf n = .node n.kind n.op0 n.op1 (n.children.map (Option.map treeOf)) := by
  rw [treeOf, Node.fold_eq]

theorem treeOf_injective : Function.Injective treeOf := by
  intro n
  induction n using Node.childInduct with
  | step n ih =>
    intro m h
    rw [treeOf_eq, treeOf_eq, Tree.node.injEq] at h
    obtain ⟨kind, op0, op1, trees⟩ := h
    refine Node.ext kind op0 op1 (eq_of_map_eq trees fun c hc d _ same => ?_)
    cases c with
    | none => exact (Option.map_eq_none_iff.mp same.symm).symm
    | some c =>
      cases d with
      | none => cases same
      | some d => rw [ih c hc (Option.some.inj same)]

/-- In a set, comparing the addresses of two nodes is comparing the nodes. -/
theorem address_eq_iff (adds : AddsPointers addPointer) {calls : List (Fields Ptr × Ptr)}
    {Set : LogicalNodes Ptr} (run : Run addPointer null calls Set) {p q : Ptr} {a b : Node}
    (hp : tree Set p = some (treeOf a)) (hq : tree Set q = some (treeOf b)) :
    p = q ↔ a = b := by
  have inside {p : Ptr} {t : Tree} (h : tree Set p = some t) : p ∈ addresses Set := by
    by_contra outside
    rw [tree_of_not_mem outside] at h
    cases h
  obtain ⟨wellFormed, -⟩ := run.wellFormed adds
  constructor
  · rintro rfl
    exact treeOf_injective (Option.some.inj (hp.symm.trans hq))
  · rintro rfl
    exact wellFormed.tree_injective p q (.inr (inside hp)) (.inr (inside hq)) (hp.trans hq.symm)

end LogicalStore
