import ClamBC.ConstantRange
import Mathlib.Data.List.Sort
import Mathlib.Data.List.Perm.Basic
import Mathlib.Data.List.ReduceOption

/-!
# The nodes of logical signatures

`LogicalNode`s are uniqued, so two pointers are equal exactly when the trees below
them are; the trees stand for the pointers here. A field that a kind does not use has
its default `~0u`. Where the source walks a set or a map keyed by pointers, the order
depends on addresses: it is a parameter, of which only is known that it is a
rearrangement.

A constructor that follows a null pointer or meets an assertion has no result.
-/

namespace LogicalNode

abbrev Word := BitVec 32

/-- `~0u`, which stands for an operand that is not there. -/
def maxWord : Word := ~~~0

/-- In the order of the enumeration. -/
inductive LogicalKind where
  | subsignature | and | or | eq | gt | lt | addBoth | not | true | false | add | addSum | addUniq
  deriving DecidableEq

inductive SumKind where
  | both | sum | uniq
  deriving DecidableEq

/-- Only `add` can have a null child. -/
inductive Node where
  | subsig (id : Word)
  | and (children : List Node)
  | or (children : List Node)
  | eq (op0 op1 : Word) (child : Node)
  | gt (op0 : Word) (child : Node)
  | lt (op0 : Word) (child : Node)
  | sums (kind : SumKind) (children : List Node)
  | not (child : Node)
  | const (value : Bool)
  | add (op0 : Word) (child : Option Node)

inductive Fault where
  | missingEntry | nullNode | nullChild | emptyRoute | invalidNegation | invalidKind | badCast
  | wideConstant | noOperand
  deriving DecidableEq

namespace Node

mutual

def beq : Node → Node → Bool
  | .subsig i, .subsig j => i = j
  | .and as, .and bs => beqList as bs
  | .or as, .or bs => beqList as bs
  | .eq u v a, .eq u' v' b => u = u' && v = v' && beq a b
  | .gt u a, .gt u' b => u = u' && beq a b
  | .lt u a, .lt u' b => u = u' && beq a b
  | .sums k as, .sums k' bs => k = k' && beqList as bs
  | .not a, .not b => beq a b
  | .const u, .const v => u = v
  | .add u a, .add v b => u = v && beqOption a b
  | _, _ => false

def beqList : List Node → List Node → Bool
  | [], [] => true
  | a :: as, b :: bs => beq a b && beqList as bs
  | _, _ => false

def beqOption : Option Node → Option Node → Bool
  | none, none => true
  | some a, some b => beq a b
  | _, _ => false

end

mutual

theorem eq_of_beq : ∀ {a b : Node}, beq a b = true → a = b
  | .subsig _, .subsig _, h => by simpa [beq] using h
  | .and _, .and _, h => congrArg Node.and (eq_of_beqList h)
  | .or _, .or _, h => congrArg Node.or (eq_of_beqList h)
  | .eq u v a, .eq u' v' b, h => by
    simp only [beq, Bool.and_eq_true, decide_eq_true_eq] at h
    rw [h.1.1, h.1.2, eq_of_beq h.2]
  | .gt u a, .gt u' b, h => by
    simp only [beq, Bool.and_eq_true, decide_eq_true_eq] at h
    rw [h.1, eq_of_beq h.2]
  | .lt u a, .lt u' b, h => by
    simp only [beq, Bool.and_eq_true, decide_eq_true_eq] at h
    rw [h.1, eq_of_beq h.2]
  | .sums k as, .sums k' bs, h => by
    simp only [beq, Bool.and_eq_true, decide_eq_true_eq] at h
    rw [h.1, eq_of_beqList h.2]
  | .not _, .not _, h => congrArg Node.not (eq_of_beq h)
  | .const _, .const _, h => by simpa [beq] using h
  | .add u a, .add v b, h => by
    simp only [beq, Bool.and_eq_true, decide_eq_true_eq] at h
    rw [h.1, eq_of_beqOption h.2]

theorem eq_of_beqList : ∀ {as bs : List Node}, beqList as bs = true → as = bs
  | [], [], _ => rfl
  | a :: as, b :: bs, h => by
    simp only [beqList, Bool.and_eq_true] at h
    rw [eq_of_beq h.1, eq_of_beqList h.2]

theorem eq_of_beqOption : ∀ {a b : Option Node}, beqOption a b = true → a = b
  | none, none, _ => rfl
  | some _, some _, h => congrArg some (eq_of_beq h)

end

mutual

theorem beq_self : ∀ a : Node, beq a a = true
  | .subsig _ => by simp [beq]
  | .and as => beqList_self as
  | .or as => beqList_self as
  | .eq _ _ a => by simp [beq, beq_self a]
  | .gt _ a => by simp [beq, beq_self a]
  | .lt _ a => by simp [beq, beq_self a]
  | .sums _ as => by simp [beq, beqList_self as]
  | .not a => beq_self a
  | .const _ => by simp [beq]
  | .add _ a => by simp [beq, beqOption_self a]

theorem beqList_self : ∀ as : List Node, beqList as as = true
  | [] => rfl
  | a :: as => by simp [beqList, beq_self a, beqList_self as]

theorem beqOption_self : ∀ a : Option Node, beqOption a a = true
  | none => rfl
  | some a => beq_self a

end

instance : DecidableEq Node := fun a b =>
  decidable_of_iff (beq a b = true) ⟨eq_of_beq, fun h => h ▸ beq_self a⟩

/-- Induction over the tree, with the hypothesis for every child. -/
@[elab_as_elim]
theorem induct {P : Node → Prop} (subsig : ∀ i, P (.subsig i))
    (and : ∀ cs, (∀ c ∈ cs, P c) → P (.and cs)) (or : ∀ cs, (∀ c ∈ cs, P c) → P (.or cs))
    (eq : ∀ u v c, P c → P (.eq u v c)) (gt : ∀ u c, P c → P (.gt u c))
    (lt : ∀ u c, P c → P (.lt u c)) (sums : ∀ k cs, (∀ c ∈ cs, P c) → P (.sums k cs))
    (not : ∀ c, P c → P (.not c)) (const : ∀ b, P (.const b))
    (add : ∀ u c, (∀ d, c = some d → P d) → P (.add u c)) (n : Node) : P n :=
  @Node.rec P (fun cs => ∀ c ∈ cs, P c) (fun c => ∀ d, c = some d → P d)
    subsig and or eq gt lt sums not const add nofun
    (fun _ _ first rest c hc => (List.mem_cons.mp hc).elim (fun h => h ▸ first) (rest c))
    nofun (fun _ h _ eq => Option.some.inj eq ▸ h) n

/-- What `compare_lt` and the profile of a node look at. -/
def kind : Node → LogicalKind
  | .subsig _ => .subsignature
  | .and _ => .and
  | .or _ => .or
  | .eq _ _ _ => .eq
  | .gt _ _ => .gt
  | .lt _ _ => .lt
  | .sums .both _ => .addBoth
  | .sums .sum _ => .addSum
  | .sums .uniq _ => .addUniq
  | .not _ => .not
  | .const true => .true
  | .const false => .false
  | .add _ _ => .add

def op0 : Node → Word
  | .subsig i => i
  | .eq u _ _ => u
  | .gt u _ => u
  | .lt u _ => u
  | .add u _ => u
  | _ => maxWord

def children : Node → List (Option Node)
  | .and cs => cs.map some
  | .or cs => cs.map some
  | .sums _ cs => cs.map some
  | .eq _ _ c => [some c]
  | .gt _ c => [some c]
  | .lt _ c => [some c]
  | .not c => [some c]
  | .add _ c => [c]
  | _ => []

def op1 : Node → Word
  | .eq _ v _ => v
  | _ => maxWord

/-- Induction over the tree, from the children that are there. -/
@[elab_as_elim]
theorem childInduct {P : Node → Prop} (step : ∀ n, (∀ c, some c ∈ n.children → P c) → P n)
    (n : Node) : P n := by
  have all {cs : List Node} (h : ∀ c ∈ cs, P c) (c : Node) (hc : some c ∈ cs.map some) : P c := by
    obtain ⟨d, hd, eq⟩ := List.mem_map.mp hc
    exact Option.some.inj eq ▸ h d hd
  have single {c d : Node} (h : P c) (hd : some d ∈ [some c]) : P d := by
    rw [Option.some.inj (List.mem_singleton.mp hd)]
    exact h
  induction n using Node.induct with
  | subsig => exact step _ nofun
  | and cs ih => exact step _ (all ih)
  | or cs ih => exact step _ (all ih)
  | eq _ _ _ ih => exact step _ fun _ => single ih
  | gt _ _ ih => exact step _ fun _ => single ih
  | lt _ _ ih => exact step _ fun _ => single ih
  | sums k cs ih => exact step _ (by cases k <;> exact all ih)
  | not _ ih => exact step _ fun _ => single ih
  | const b => exact step _ (by cases b <;> exact nofun)
  | add _ c ih => exact step _ fun d hd => ih d (List.mem_singleton.mp hd).symm

mutual

/-- What `f` computes from a node and what it has computed from the children. -/
def fold {β : Type} (f : Node → List (Option β) → β) (n : Node) : β :=
  f n <|
    match n with
    | .and cs => folds f cs
    | .or cs => folds f cs
    | .sums _ cs => folds f cs
    | .eq _ _ c => [some (fold f c)]
    | .gt _ c => [some (fold f c)]
    | .lt _ c => [some (fold f c)]
    | .not c => [some (fold f c)]
    | .add _ c => [foldChild f c]
    | _ => []

def folds {β : Type} (f : Node → List (Option β) → β) : List Node → List (Option β)
  | [] => []
  | c :: cs => some (fold f c) :: folds f cs

def foldChild {β : Type} (f : Node → List (Option β) → β) : Option Node → Option β
  | some c => some (fold f c)
  | none => none

end

theorem folds_eq {β : Type} (f : Node → List (Option β) → β) (cs : List Node) :
    folds f cs = (cs.map some).map (Option.map (fold f)) := by
  induction cs with
  | nil => simp [folds]
  | cons c cs ih => simp [folds, ih]

theorem fold_eq {β : Type} (f : Node → List (Option β) → β) (n : Node) :
    fold f n = f n (n.children.map (Option.map (fold f))) := by
  cases n with
  | sums k cs => cases k <;> simp [fold, children, folds_eq]
  | const b => cases b <;> simp [fold, children]
  | add u c => cases c <;> simp [fold, children, foldChild]
  | _ => simp [fold, children, folds_eq]

/-- The node with these fields, where there is one. -/
def ofFields (kind : LogicalKind) (op0 op1 : Word) (children : List (Option Node)) :
    Option Node :=
  match kind, children with
  | .subsignature, [] => some (.subsig op0)
  | .and, cs => some (.and cs.reduceOption)
  | .or, cs => some (.or cs.reduceOption)
  | .eq, [some c] => some (.eq op0 op1 c)
  | .gt, [some c] => some (.gt op0 c)
  | .lt, [some c] => some (.lt op0 c)
  | .addBoth, cs => some (.sums .both cs.reduceOption)
  | .addSum, cs => some (.sums .sum cs.reduceOption)
  | .addUniq, cs => some (.sums .uniq cs.reduceOption)
  | .not, [some c] => some (.not c)
  | .true, [] => some (.const true)
  | .false, [] => some (.const false)
  | .add, [c] => some (.add op0 c)
  | _, _ => none

theorem ofFields_fields (n : Node) : ofFields n.kind n.op0 n.op1 n.children = some n := by
  have present (cs : List Node) : (cs.map some).reduceOption = cs := by
    induction cs with
    | nil => rfl
    | cons c cs ih => rw [List.map_cons, List.reduceOption_cons_of_some, ih]
  cases n with
  | and cs => exact congrArg (fun cs => some (Node.and cs)) (present cs)
  | or cs => exact congrArg (fun cs => some (Node.or cs)) (present cs)
  | sums k cs => cases k <;> exact congrArg (fun cs => some (Node.sums _ cs)) (present cs)
  | const b => cases b <;> rfl
  | _ => rfl

/-- Nodes with the same profile. -/
theorem ext {a b : Node} (kind : a.kind = b.kind) (op0 : a.op0 = b.op0) (op1 : a.op1 = b.op1)
    (children : a.children = b.children) : a = b := by
  have fields := ofFields_fields a
  rw [kind, op0, op1, children, ofFields_fields] at fields
  exact (Option.some.inj fields).symm

end Node

def LogicalKind.rank : LogicalKind → Nat
  | .subsignature => 0
  | .and => 1
  | .or => 2
  | .eq => 3
  | .gt => 4
  | .lt => 5
  | .addBoth => 6
  | .not => 7
  | .true => 8
  | .false => 9
  | .add => 10
  | .addSum => 11
  | .addUniq => 12

mutual

/-- `compare_lt`, with the comparison of `op0` where the second operands differ. A null
child that would have to be followed compares as not less. -/
def compareLt (a b : Node) : Bool :=
  if a.kind ≠ b.kind then a.kind.rank < b.kind.rank
  else if a.op0 ≠ b.op0 then a.op0 < b.op0
  else if a.op1 ≠ b.op1 then a.op0 < b.op0
  else if a.children.length ≠ b.children.length then a.children.length < b.children.length
  else
    match a with
    | .and cs => compareChildren cs b.children
    | .or cs => compareChildren cs b.children
    | .sums _ cs => compareChildren cs b.children
    | .eq _ _ c => compareChild c b.children
    | .gt _ c => compareChild c b.children
    | .lt _ c => compareChild c b.children
    | .not c => compareChild c b.children
    | .add _ (some c) => compareChild c b.children
    | _ => false

def compareChild (c : Node) : List (Option Node) → Bool
  | some d :: _ => if c = d then false else compareLt c d
  | _ => false

def compareChildren : List Node → List (Option Node) → Bool
  | c :: cs, some d :: ds => if c = d then compareChildren cs ds else compareLt c d
  | _, _ => false

end

/-- `std::sort` with `compare_lt`. -/
def sortChildren (cs : List Node) : List Node := cs.insertionSort fun a b => compareLt b a = false

/-- The order in which sets and maps keyed by pointers are walked, given the order in which
their elements came in. -/
structure PtrOrder where
  set : List Node → List Node
  keys : List Node → List Node
  set_perm : ∀ ns, (set ns).Perm ns
  keys_perm : ∀ ns, (keys ns).Perm ns

/-- Small sets are walked in the order of insertion. -/
def PtrOrder.inOrder : PtrOrder := ⟨id, id, fun _ => .refl _, fun _ => .refl _⟩

/-- The elements of a set after these insertions. -/
def inserted (ns : List Node) : List Node := ns.reverse.dedup.reverse

mutual

/-- What the loop of `getAnd` takes from its stack, the AND nodes replaced by their children.
The last node is taken first. -/
def conjuncts : Node → List Node
  | .and cs => popped cs
  | n => [n]

def popped : List Node → List Node
  | [] => []
  | c :: cs => popped cs ++ conjuncts c

end

/-- A comparison of a group with one of the modifiers `=X` and `=Y,Y`: the group and the operands.
-/
def groupComparison : Node → Option (Node × Word × Word)
  | .eq op0 op1 (.sums .both cs) =>
    if op1 = maxWord ∨ op0 = op1 then some (.sums .both cs, op0, op1) else none
  | _ => none

/-- Pairs each `=X` with the last `=Y,Y` that is left, which `adduniq` has first. -/
def merge (group : Node) : List Word → List Word → List Node
  | [], adduniq => adduniq.reverse.map fun y => .eq y y group
  | x :: addsum, [] => .eq x maxWord group :: merge group addsum []
  | x :: addsum, y :: adduniq => .eq x y group :: merge group addsum adduniq

def mergeGroup (adds : List (Node × Word × Word)) (group : Node) : List Node :=
  let same := adds.filter fun a => a.1 = group
  merge group ((same.filter fun a => a.2.2 = maxWord).map fun a => a.2.1)
    ((same.filter fun a => a.2.2 ≠ maxWord).map fun a => a.2.2).reverse

/-- The set `others` at the end of `getAnd`, in the order of insertion. -/
def conjoined (o : PtrOrder) (taken : List Node) : List Node :=
  let adds := taken.filterMap groupComparison
  let plain := taken.filter fun n => n ≠ .const true ∧ groupComparison n = none
  inserted (plain ++ (o.keys (inserted (adds.map Prod.fst))).flatMap (mergeGroup adds))

/-- `getAnd`, also for no nodes at all. -/
def getAnd (o : PtrOrder) (V : List Node) : Node :=
  if .const false ∈ popped V then .const false
  else
    match conjoined o (popped V) with
    | [] => .const true
    | [n] => n
    | others => .and (o.set others)

def alternatives : Node → List Node
  | .const _ => []
  | .or cs => cs
  | n => [n]

/-- `getOr` for a non-empty list of nodes. -/
def getOr (o : PtrOrder) (V : List Node) : Node :=
  if .const true ∈ V then .const true
  else
    match inserted (V.flatMap alternatives) with
    | [] => .const false
    | [n] => n
    | nodes => .or (o.set nodes)

/-- `getOr` for the exits: no exits are TRUE. -/
def getOrExits (o : PtrOrder) (V : List Node) : Node :=
  if V = [] then .const true else getOr o V

def getEQPlain (n : Node) (value : Word) : Node :=
  match n with
  | .sums .uniq cs => .eq value value (.sums .both cs)
  | .sums .sum cs => .eq value maxWord (.sums .both cs)
  | n => .eq value maxWord n

/-- `a + c == b` is `a == b - c`. -/
def getEQ (n : Node) (value : Word) : Except Fault Node :=
  match n with
  | .add op0 (some c) => .ok (getEQPlain c (value - op0))
  | .add _ none => .error .nullChild
  | n => .ok (getEQPlain n value)

/-- At most one node: none where the comparison is always true. -/
def bound (needed : Bool) (comparison : Except Fault Node) : Except Fault (List Node) :=
  if needed then comparison.map fun n => [n] else .ok []

/-- `a in [min, max]`, from the comparisons of `a`. -/
def getRange (o : PtrOrder) (gt lt : Word → Except Fault Node) (min max : Word) :
    Except Fault Node := do
  let lower ← bound (min != 0) (gt (min - 1))
  let upper ← bound (max + 1 != 0) (lt (max + 1))
  return getAnd o (lower ++ upper)

mutual

def getLT (o : PtrOrder) (n : Node) (value : Word) : Except Fault Node :=
  if value = 0 then .ok (.const false)
  else
    match n with
    | .add op0 (some c) =>
      let ltRange := (ConstantRange.below value).subtract op0
      getRange o (getGT o c) (getLT o c) ltRange.getUnsignedMin ltRange.getUnsignedMax
    | .add _ none => .error .nullChild
    | n => .ok (.lt value n)

def getGT (o : PtrOrder) (n : Node) (value : Word) : Except Fault Node :=
  if value = 0 then .ok n
  else
    match n with
    | .add op0 (some c) =>
      let gtRange := (ConstantRange.above value).subtract op0
      getRange o (getGT o c) (getLT o c) gtRange.getUnsignedMin gtRange.getUnsignedMax
    | .add _ none => .error .nullChild
    | n => .ok (.gt value n)

end

def getUniqueSigs (n : Node) : Node := .sums .uniq [n]

mutual

/-- libclamav has no negation, so it is pushed inwards. -/
def getNot (o : PtrOrder) : Node → Except Fault Node
  | .subsig id => getEQ (.subsig id) 0
  | .and cs => do return getOr o (← getNots o cs)
  | .or cs => do return getAnd o (← getNots o cs)
  | .eq op0 _ c => do
    let less ← getLT o c op0
    let more ← getGT o c op0
    return getOr o [less, more]
  | .gt op0 c => do
    let less ← getLT o c op0
    let same ← getEQ c op0
    return getOr o [less, same]
  | .lt op0 c => do
    let more ← getGT o c op0
    let same ← getEQ c op0
    return getOr o [more, same]
  | .not c => .ok c
  | .const b => .ok (.const !b)
  | .sums _ _ => .error .invalidNegation
  | .add _ _ => .error .invalidNegation

def getNots (o : PtrOrder) : List Node → Except Fault (List Node)
  | [] => .ok []
  | c :: cs => do
    let n ← getNot o c
    let ns ← getNots o cs
    return n :: ns

end

/-- `getAdd` with a constant. -/
def getAddOff (n : Node) (off : Word) : Node := .add off (some n)

/-- `getAdd` of a subsignature and a node; null when they cannot be added. -/
def getAddCount (id : Word) : Node → Except Fault (Option Node)
  | .subsig j => .ok (some (.sums .sum (sortChildren [.subsig id, .subsig j])))
  | .sums .sum cs => .ok (some (.sums .sum (sortChildren (.subsig id :: cs))))
  | .add op0 (some c) => do
    let sum ← getAddCount id c
    return some (.add op0 sum)
  | .add _ none => .error .nullNode
  | _ => .ok none

/-- `getAdd` of two nodes. A subsignature on the right is moved to the left; below an offset
on both sides the left operand is added with its offset again. -/
def getAdd (lhs : Node) : Node → Except Fault (Option Node)
  | .subsig j =>
    match lhs with
    | .subsig i => getAddCount i (.subsig j)
    | _ => getAddCount j lhs
  | .sums k ds =>
    match lhs with
    | .sums k' cs =>
      if k' = k ∧ k ≠ .both then .ok (some (.sums k (sortChildren (cs ++ ds)))) else .ok none
    | .subsig i => getAddCount i (.sums k ds)
    | _ => .ok none
  | .add op0 (some c) =>
    match lhs with
    | .subsig i => getAddCount i (.add op0 (some c))
    | .add op0' _ => do
      let sum ← getAdd lhs c
      return some (.add (op0 + op0') sum)
    | _ => .ok none
  | .add _ none =>
    match lhs with
    | .subsig _ => .error .nullNode
    | .add _ _ => .error .nullNode
    | _ => .ok none
  | _ => .ok none

/-- No child twice. -/
def checkUniq (n : Node) : Bool := decide n.children.Nodup

end LogicalNode
