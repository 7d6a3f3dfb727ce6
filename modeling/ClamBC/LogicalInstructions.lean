import ClamBC.LogicalAdd
import ClamBC.LogicalCompare
import ClamBC.TriggerRun

/-!
# One instruction

When the node that an instruction is bound to says what the instruction computes, given
that the nodes of its operands do. The compiler does not check all that is needed for it:
`InstOk` says what it takes for granted of the instructions that it does not reject.
-/

namespace LogicalInstructions

open Ir IrExec LogicalNode LogicalCompiler LogicalShape LogicalMeaning LogicalConjunction
  LogicalOffsets LogicalCompare LogicalAdd TriggerRun Fallible

/-- The truth of a bit, or the number of any other integer. -/
def Denotes (counts : Counts) : Ty → Node → Val → Prop
  | .int bits, n, .num k => k = if bits = 1 then if Holds counts n then 1 else 0 else
      (value counts n).toNat
  | _, _, _ => False

section
variable (τ : Nat → Ty)

/-- The type of an operand, given the types of the instructions. -/
def typeOf : Value → Ty
  | .inst i => τ i
  | .const (.int bits _) => .int bits
  | _ => .ptr

/-- Integer constants fit their type. -/
def Fits : Value → Prop
  | .const (.int bits n) => n < 2 ^ bits
  | _ => True

/-- The typing rules of the IR for the instructions that the compiler handles. -/
def Typed (i : Inst) : Prop :=
  (∀ v ∈ i.op.operands, Fits v) ∧
  match i.op with
  | .icmp _ lhs rhs => i.ty = .int 1 ∧ typeOf τ lhs = typeOf τ rhs
  | .select cond ifTrue ifFalse => typeOf τ cond = .int 1 ∧ typeOf τ ifTrue = i.ty ∧
      typeOf τ ifFalse = i.ty
  | .binary _ lhs rhs => typeOf τ lhs = i.ty ∧ typeOf τ rhs = i.ty
  | .cast .zext src v => typeOf τ v = src ∧ ∃ m n, src = .int m ∧ i.ty = .int n ∧ m < n
  | _ => True

end

/-! What the compiler takes for granted. -/

/-- Comparisons and connectives, whose value is 0 or 1. -/
def isTruth : Node → Bool
  | .subsig _ => false
  | .sums _ _ => false
  | .add _ _ => false
  | _ => true

/-- The address of a match count. -/
def IsCount (gv : GlobalId) : Value → Prop
  | .const (.global g) => g = gv
  | .const (.getElementPtrExpr (.global g) [.int _ 0, .int _ k]) => g = gv ∧ k < 2 ^ 32
  | _ => False

/-- Reads through a constant expression that is not the address of an element of the counts. -/
def RejectedRead (gv : GlobalId) : Value → Prop
  | .const (.getElementPtrExpr (.global g) [first, _]) =>
    g ≠ gv ∨ ∃ bits k, first = .int bits k ∧ k ≠ 0
  | .const (.getElementPtrExpr _ _) => True
  | .const (.castExpr _ _) => True
  | .const (.otherExpr _) => True
  | _ => False

/-- Comparisons that are rejected, whatever is compared. -/
def Refused (pred : Predicate) (rhs : Word) : Prop :=
  match pred with
  | .uge => rhs = 0
  | .ule => rhs = maxWord
  | .sgt => True
  | .sge => True
  | .slt => True
  | .sle => True
  | _ => False

/-- The comparison of a node with a constant on the right is right. -/
def CompareOk (o : PtrOrder) (pred : Predicate) (n : Node) (rhs : Word) : Prop :=
  match pred with
  | .eq => EqOk n rhs
  | .ne => EqOk n rhs ∧ ∀ eq, getEQ n rhs = .ok eq → NotOk o eq
  | .ugt => MoreOk n rhs
  | .uge => MoreOk n (rhs - 1)
  | .ult => LessOk n rhs
  | .ule => LessOk n (rhs + 1)
  | _ => True

/-- All numbers but 0 compare like 1. -/
def TellsZero (pred : Predicate) (rhs : Word) : Prop :=
  ∀ k : Word, k ≠ 0 → compareVal k.toNat rhs.toNat pred = compareVal 1 rhs.toNat pred

/-- A constant on the left is only compared for equality, the number that the other operand stands
for matters only where the node has it, and the comparison of the node is right. -/
def ICmpOk (o : PtrOrder) (map : Nat → Option Ptr) (τ : Nat → Ty) (pred : Predicate)
    (lhs rhs : Value) : Prop :=
  ∀ op bits c n,
    ((lhs = op ∧ rhs = .const (.int bits c)) ∨ (rhs = op ∧ lhs = .const (.int bits c))) →
    c < 2 ^ 32 → lookup map op = some (some n) → ¬ Refused pred (BitVec.ofNat 32 c) →
      (isConstant lhs = true → pred = .eq ∨ pred = .ne) ∧
      (typeOf τ op ≠ .int 1 ∨ isTruth n = true ∨ TellsZero pred (BitVec.ofNat 32 c)) ∧
      CompareOk o pred n (BitVec.ofNat 32 c)

section
variable (o : PtrOrder) (gv : GlobalId) (map : Nat → Option Ptr) (τ : Nat → Ty)

/-- An arm of a select that is not rejected. -/
def ArmTaken (arm : Value) : Prop :=
  lookup map arm ≠ none ∨ ∃ bits k, arm = .const (.int bits k) ∧ k < 2

/-- The condition is negated for the other arm, unless that one is the constant false. -/
def SelectOk (ty : Ty) (cond ifTrue ifFalse : Value) : Prop :=
  ∀ c, lookup map cond = some (some c) → (lookup map ifTrue ≠ none ∨ lookup map ifFalse ≠ none) →
    ArmTaken map ifTrue → ArmTaken map ifFalse →
      ty = .int 1 ∧ (isZero ifFalse = false → NotOk o c) ∧
      (∀ t, lookup map ifTrue = some (some t) → AndKept [c, t]) ∧
      ∀ e negated, lookup map ifFalse = some (some e) → getNot o c = .ok negated →
        AndKept [negated, e]

/-- A constant is added to a 32-bit number, or two nodes of such numbers, with something to put
below the offsets, and no offset on both sides. -/
def AddOk (ty : Ty) (lhs rhs : Value) : Prop :=
  ∀ l, lookup map lhs = some (some l) →
    (isConstantInt rhs = true → ty = .int 32) ∧
    ∀ r m, lookup map rhs = some (some r) → getAdd l r = .ok (some m) → checkUniq m = true →
      ty = .int 32 ∧ Whole l ∧ Whole r ∧ addable l r = true ∧
      (isAdd l = true → isAdd r = true → BitVec.ofNat 32 (offsetLayers r) * l.op0 = 0)

/-- Reads are of match counts, as 32-bit numbers; logical operations are on bits, and what they
conjoin or negate keeps its meaning; additions are of 32-bit numbers. -/
def InstOk (i : Inst) : Prop :=
  match i.op with
  | .load _ ptr => RejectedRead gv ptr ∨ (IsCount gv ptr ∧ i.ty = .int 32)
  | .icmp pred lhs rhs => ICmpOk o map τ pred lhs rhs
  | .select cond ifTrue ifFalse => SelectOk o map i.ty cond ifTrue ifFalse
  | .binary .and lhs rhs => ∀ a b, lookup map lhs = some (some a) →
      lookup map rhs = some (some b) → i.ty = .int 1 ∧ AndKept [a, b]
  | .binary .or lhs rhs => ∀ a q, lookup map lhs = some (some a) → lookup map rhs = some q →
      i.ty = .int 1 ∧ q ≠ none
  | .binary .xor lhs rhs => ∀ bits n, rhs = .const (.int bits 1) →
      lookup map lhs = some (some n) → i.ty = .int 1 ∧ NotOk o n
  | .binary .add lhs rhs => AddOk map i.ty lhs rhs
  | _ => True

end

/-! What is rejected meets the condition. -/

/-- A step that reports. -/
def isMessage : Step → Bool
  | .flag _ => true
  | .reject _ => true
  | _ => false

/-- The instruction gets a message and no node. -/
def Rejected (o : PtrOrder) (gv : GlobalId) (map : Nat → Option Ptr) (i : Inst) : Prop :=
  ∃ s, processInst o gv (lookup map) i = .ok s ∧ isMessage s = true

section
variable {o : PtrOrder} {gv : GlobalId} {map : Nat → Option Ptr} {τ : Nat → Ty} {s : Step}

theorem load_rejected {ptr : Value} (h : processLoad gv ptr = .ok s)
    (message : isMessage s = true) : RejectedRead gv ptr := by
  unfold processLoad at h
  split at h
  · next g first index =>
    split_ifs at h with other
    · exact .inl other
    · split at h
      · obtain ⟨k, -, h⟩ := bind_eq_ok.mp h
        cases h
        cases message
      · cases h
      · next notZero _ => exact .inr ⟨_, _, rfl, notZero⟩
      · cases h
  · next notPair =>
    unfold RejectedRead
    split
    · next same =>
      cases same
      exact (notPair _ _ _ rfl rfl).elim
    · trivial
    · trivial
    · trivial
    · next other _ _ => exact other _ _ rfl
  · trivial
  · trivial
  · cases h
    cases message

/-- A read is either rejected or bound to a node. -/
theorem load_bound {ptr : Value} {p : Ptr} (h : processLoad gv ptr = .ok (.bind p)) :
    ¬ RejectedRead gv ptr := by
  unfold RejectedRead
  split
  · next g first index =>
    simp only [processLoad] at h
    split_ifs at h with other
    · cases h
    · rintro (ne | ⟨bits, k, rfl, notZero⟩)
      · exact other ne
      · split at h
        · next same =>
          cases same
          exact notZero rfl
        · cases h
        · cases h
        · cases h
  · next notPair =>
    unfold processLoad at h
    split at h
    · next same =>
      cases same
      exact (notPair _ _ _ rfl rfl).elim
    · cases h
    · cases h
    · cases h
    · next other _ _ => exact (other _ _ rfl).elim
  · cases h
  · cases h
  · exact not_false

theorem compareNode_rejected {pred : Predicate} {p : Ptr} {rhs : Word}
    (h : compareNode o pred p rhs = .ok s) (message : isMessage s = true) : Refused pred rhs := by
  have bound : ∀ {x : Except Fault Ptr}, (do return Step.bind (← x)) = .ok s → False := by
    intro x h
    obtain ⟨q, -, h⟩ := bind_eq_ok.mp h
    cases h
    cases message
  cases pred with
  | eq =>
    obtain ⟨n, -, h⟩ := bind_eq_ok.mp h
    obtain ⟨e, -, h⟩ := bind_eq_ok.mp h
    cases h
    cases message
  | ne =>
    obtain ⟨n, -, h⟩ := bind_eq_ok.mp h
    obtain ⟨e, -, h⟩ := bind_eq_ok.mp h
    obtain ⟨m, -, h⟩ := bind_eq_ok.mp h
    cases h
    cases message
  | ugt => exact (bound h).elim
  | uge =>
    simp only [compareNode] at h
    split_ifs at h with zero
    · exact zero
    · exact (bound h).elim
  | ult =>
    obtain ⟨n, -, h⟩ := bind_eq_ok.mp h
    obtain ⟨e, -, h⟩ := bind_eq_ok.mp h
    cases h
    cases message
  | ule =>
    simp only [compareNode] at h
    split_ifs at h with max
    · exact max
    · obtain ⟨n, -, h⟩ := bind_eq_ok.mp h
      obtain ⟨e, -, h⟩ := bind_eq_ok.mp h
      cases h
      cases message
  | _ => trivial

/-- A comparison of an operand in the map with a constant of 32 bits. -/
theorem icmp_refused {pred : Predicate} {lhs rhs op : Value} {bits c : Nat} {p : Ptr}
    (h : processICmp o (lookup map) pred lhs rhs = .ok s) (message : isMessage s = true)
    (places : (lhs = op ∧ rhs = .const (.int bits c)) ∨ (rhs = op ∧ lhs = .const (.int bits c)))
    (small : c < 2 ^ 32) (found : lookup map op = some p) : Refused pred (BitVec.ofNat 32 c) := by
  have compared : compareWith o (lookup map) pred op (.const (.int bits c)) = .ok s := by
    rcases places with ⟨rfl, rfl⟩ | ⟨rfl, rfl⟩
    · have notConst : isConstant lhs = false := by
        cases lhs with
        | const c => cases found
        | _ => rfl
      rwa [processICmp, notConst] at h
    · exact h
  have fits : getZExtValue c = .ok c := if_pos (by omega)
  have narrow : ¬ 2 ^ 32 ≤ c := by omega
  simp only [compareWith, fits, ok_bind, if_neg narrow, found] at compared
  exact compareNode_rejected compared message

theorem icmp_rejected {pred : Predicate} {lhs rhs : Value}
    (h : processICmp o (lookup map) pred lhs rhs = .ok s) (message : isMessage s = true) :
    ICmpOk o map τ pred lhs rhs := by
  rintro op bits c n places small found notRefused
  exact absurd (icmp_refused h message places small found) notRefused

theorem selectArm_rejected {guard : Ptr} {m m' : Message} {arm : Value}
    (h : selectArm o (lookup map) guard m arm = .ok (.inl m')) : ¬ ArmTaken map arm := by
  unfold selectArm at h
  split at h
  · obtain ⟨n, -, h⟩ := bind_eq_ok.mp h
    cases h
  · next absent =>
    split at h
    · cases h
    · obtain ⟨n, -, h⟩ := bind_eq_ok.mp h
      cases h
    · next bits k notZero notOne =>
      rintro (found | ⟨bits', k', same, small⟩)
      · exact found absent
      · cases same
        match k, small with
        | 0, _ => exact notZero rfl
        | 1, _ => exact notOne rfl
    · cases h

/-- Nothing is left of an arm only if it is the constant false. -/
theorem selectArm_null {guard : Ptr} {m : Message} {arm : Value}
    (h : selectArm o (lookup map) guard m arm = .ok (.inr none)) : lookup map arm = none := by
  unfold selectArm at h
  split at h
  · obtain ⟨n, -, h⟩ := bind_eq_ok.mp h
    cases h
  · next absent => exact absent

theorem select_rejected {ty : Ty} {c t e : Value}
    (h : processSelect o (lookup map) c t e = .ok s) (message : isMessage s = true) :
    SelectOk o map ty c t e := by
  intro g found arms armTrue armFalse
  have some_arm : ¬ (lookup map t = none ∧ lookup map e = none) := by
    rintro ⟨noTrue, noFalse⟩
    exact arms.elim (fun h => h noTrue) fun h => h noFalse
  simp only [processSelect, found, if_neg some_arm] at h
  obtain ⟨first, ranTrue, h⟩ := bind_eq_ok.mp h
  cases first with
  | inl m => exact absurd armTrue (selectArm_rejected ranTrue)
  | inr n =>
    obtain ⟨negated, -, h⟩ := bind_eq_ok.mp h
    obtain ⟨second, ranFalse, h⟩ := bind_eq_ok.mp h
    cases second with
    | inl m => exact absurd armFalse (selectArm_rejected ranFalse)
    | inr n2 =>
      cases n with
      | some n => cases n2 <;> (cases h; cases message)
      | none =>
        cases n2 with
        | some n2 =>
          cases h
          cases message
        | none => exact absurd ⟨selectArm_null ranTrue, selectArm_null ranFalse⟩ some_arm

theorem add_rejected {ty : Ty} {lhs rhs : Value} (h : processAdd (lookup map) lhs rhs = .ok s)
    (message : isMessage s = true) : AddOk map ty lhs rhs := by
  intro l found
  simp only [processAdd, found] at h
  split at h
  · obtain ⟨v, -, h⟩ := bind_eq_ok.mp h
    obtain ⟨n, -, h⟩ := bind_eq_ok.mp h
    cases h
    cases message
  · next notConst =>
    refine ⟨fun constant => ?_, fun r m foundR added unique => ?_⟩
    · unfold isConstantInt at constant
      split at constant
      · exact (notConst _ _ rfl).elim
      · cases constant
    · simp only [foundR, deref, ok_bind, added, unique, if_true] at h
      cases h
      cases message

/-- What is rejected meets the condition. -/
theorem instOk_of_rejected {i : Inst} (rejected : Rejected o gv map i) : InstOk o gv map τ i := by
  obtain ⟨s, h, message⟩ := rejected
  obtain ⟨id, ty, op⟩ := i
  cases op with
  | load vol ptr => exact .inl (load_rejected h message)
  | icmp pred lhs rhs => exact icmp_rejected h message
  | select c t e => exact select_rejected h message
  | binary op lhs rhs =>
    cases op with
    | add => exact add_rejected h message
    | and =>
      intro a b left right
      simp only [processInst, left, right] at h
      obtain ⟨n, -, h⟩ := bind_eq_ok.mp h
      cases h
      cases message
    | or =>
      intro a q left right
      simp only [processInst, left, right] at h
      obtain ⟨n, -, h⟩ := bind_eq_ok.mp h
      cases h
      cases message
    | xor =>
      rintro bits n rfl found
      simp only [processInst, processXor, found] at h
      obtain ⟨m, -, h⟩ := bind_eq_ok.mp h
      cases h
      cases message
    | _ => trivial
  | _ => trivial

end

/-! Each kind of instruction. -/

section
variable {counts : Counts} {o : PtrOrder} {gv : GlobalId} {map : Nat → Option Ptr} {τ : Nat → Ty}

theorem Denotes.bit {n : Node} {x : Val} (h : Denotes counts (.int 1) n x) :
    ∃ b : Nat, x = .num b ∧ b < 2 ∧ (Holds counts n ↔ b ≠ 0) := by
  cases x with
  | num b =>
    have same : b = if Holds counts n then 1 else 0 := h
    by_cases holds : Holds counts n <;> simp [same, holds]
  | slot g k => exact h.elim
  | other k => exact h.elim

theorem denotes_bit {n : Node} {b : Bool} (h : Holds counts n ↔ b = true) :
    Denotes counts (.int 1) n (.num b.toNat) := by
  change b.toNat = if Holds counts n then 1 else 0
  cases b <;> simp [h]

theorem value_of_truth {n : Node} (truth : isTruth n = true) :
    (value counts n).toNat = if Holds counts n then 1 else 0 := by
  have bit : ∀ b : Bool, value counts n = ofBool b → (value counts n).toNat = if Holds counts n then
      1 else 0 := by
    intro b eq
    simp only [Holds, eq]
    cases b <;> decide
  cases n with
  | subsig id => cases truth
  | sums k cs => cases truth
  | add u c => cases truth
  | _ => exact bit _ rfl

theorem value_getUniqueSigs (n : Node) :
    (value counts (getUniqueSigs n)).toNat = if Holds counts n then 1 else 0 := by
  by_cases holds : Holds counts n
  · have yes : (value counts n != 0) = true := bne_iff_ne.mpr holds
    rw [if_pos holds]
    simp only [getUniqueSigs, value, matched, yes]
    rfl
  · have no : (value counts n != 0) = false := by
      rw [bne_eq_false_iff_eq]
      exact not_not.mp holds
    rw [if_neg holds]
    simp only [getUniqueSigs, value, matched, no]
    rfl

/-- An operand that stands for a number. -/
theorem Denotes.number {ty : Ty} {n : Node} {x : Val} (h : Denotes counts ty n x)
    (number : ty ≠ .int 1 ∨ isTruth n = true) : x = .num (value counts n).toNat := by
  cases ty with
  | int bits =>
    cases x with
    | num k =>
      have same : k = if bits = 1 then if Holds counts n then 1 else 0 else
        (value counts n).toNat := h
      by_cases one : bits = 1
      · subst one
        rw [same, if_pos rfl, value_of_truth (number.resolve_left fun ne => ne rfl)]
      · rw [same, if_neg one]
    | slot g k => exact h.elim
    | other k => exact h.elim
  | _ => exact h.elim

theorem load_denotes {ptr : Value} {ρ : Value → Val}
    {mem : Memory} {n : Node} {x : Val} (constants : ∀ c, ρ (.const c) = constVal c)
    (inMemory : ∀ k, mem (.slot gv k) = .num (counts k).toNat)
    (ok : IsCount gv ptr) (bound : processLoad gv ptr = .ok (.bind (some n)))
    (ran : opVal (.int 32) (.load false (ρ ptr)) mem = some x) : Denotes counts (.int 32) n x := by
  have read : ∀ k, ρ ptr = .slot gv k → x = .num (counts k).toNat := by
    intro k address
    rw [address] at ran
    simp only [opVal, inMemory, loadVal, Nat.le_refl, if_true, Option.some.injEq] at ran
    rw [← ran, Nat.mod_eq_of_lt (counts k).isLt]
  unfold IsCount at ok
  split at ok
  · subst ok
    cases bound
    rw [read 0 (constants _)]
    rfl
  · next g b b' k =>
    obtain ⟨rfl, small⟩ := ok
    simp only [processLoad] at bound
    split_ifs at bound with other
    · cases bound
    · have fits : getZExtValue k = .ok k := by
        unfold getZExtValue
        rw [if_pos (by omega)]
      rw [fits] at bound
      cases bound
      rw [read k (constants _)]
      change (counts k).toNat = (counts (BitVec.ofNat 32 k).toNat).toNat
      rw [BitVec.toNat_ofNat, Nat.mod_eq_of_lt small]
  · exact ok.elim

/-- The node of a comparison with a constant on the right. -/
theorem holds_compareNode {pred : Predicate} {p : Ptr} {m : Node} {rhs : Word}
    (h : compareNode o pred p rhs = .ok (.bind (some m))) :
    ∃ n, p = some n ∧
      (CompareOk o pred n rhs → ∀ r, compareVal (value counts n).toNat rhs.toNat pred = some r →
      (Holds counts m ↔ r = true)) := by
  have above : ∀ {v : Word}, (do return Step.bind (← getGTPtr o p v)) = .ok (.bind (some m)) →
      ∃ n, p = some n ∧ (MoreOk n v → (Holds counts m ↔ v < value counts n)) := by
    intro v h
    obtain ⟨q, ran, h⟩ := bind_eq_ok.mp h
    cases h
    unfold getGTPtr at ran
    split_ifs at ran with zero
    · cases ran
      refine ⟨m, rfl, fun _ => ?_⟩
      rw [zero]
      simp only [Holds]
      bv_omega
    · cases p with
      | none => cases ran
      | some n =>
        obtain ⟨_, same, ran⟩ := bind_eq_ok.mp ran
        cases same
        obtain ⟨g, found, ran⟩ := bind_eq_ok.mp ran
        cases ran
        exact ⟨n, rfl, fun ok => holds_getGT ok found⟩
  cases pred with
  | eq =>
    obtain ⟨n, here, h⟩ := bind_eq_ok.mp h
    obtain ⟨e, found, h⟩ := bind_eq_ok.mp h
    cases h
    cases p with
    | none => cases here
    | some n' =>
      cases here
      refine ⟨n, rfl, fun ok r same => ?_⟩
      cases same
      rw [holds_getEQ ok found, decide_eq_true_eq, BitVec.toNat_inj]
  | ne =>
    obtain ⟨n, here, h⟩ := bind_eq_ok.mp h
    obtain ⟨e, found, h⟩ := bind_eq_ok.mp h
    obtain ⟨negated, negation, h⟩ := bind_eq_ok.mp h
    cases h
    cases p with
    | none => cases here
    | some n' =>
      cases here
      refine ⟨n, rfl, fun ok r same => ?_⟩
      cases same
      rw [holds_getNot (ok.2 e found) negation, holds_getEQ ok.1 found, decide_eq_true_eq, Ne,
        BitVec.toNat_inj]
  | ugt =>
    obtain ⟨n, rfl, holds⟩ := above h
    refine ⟨n, rfl, fun ok r same => ?_⟩
    cases same
    rw [holds ok, decide_eq_true_eq, BitVec.lt_def]
  | uge =>
    simp only [compareNode] at h
    split_ifs at h with zero
    · cases h
    · obtain ⟨n, rfl, holds⟩ := above h
      refine ⟨n, rfl, fun ok r same => ?_⟩
      cases same
      rw [holds ok, decide_eq_true_eq]
      bv_omega
  | ult =>
    obtain ⟨n, here, h⟩ := bind_eq_ok.mp h
    obtain ⟨less, found, h⟩ := bind_eq_ok.mp h
    cases h
    cases p with
    | none => cases here
    | some n' =>
      cases here
      refine ⟨n, rfl, fun ok r same => ?_⟩
      cases same
      rw [holds_getLT ok found, decide_eq_true_eq, BitVec.lt_def]
  | ule =>
    simp only [compareNode] at h
    split_ifs at h with max
    · cases h
    · obtain ⟨n, here, h⟩ := bind_eq_ok.mp h
      obtain ⟨less, found, h⟩ := bind_eq_ok.mp h
      cases h
      cases p with
      | none => cases here
      | some n' =>
        cases here
        refine ⟨n, rfl, fun ok r same => ?_⟩
        cases same
        rw [holds_getLT ok found, decide_eq_true_eq]
        unfold maxWord at max
        bv_omega
  | _ => cases h

theorem compareWith_found {pred : Predicate} {op0 op1 : Value} {m : Node}
    (h : compareWith o (lookup map) pred op0 op1 = .ok (.bind (some m))) :
    ∃ bits c p, op1 = .const (.int bits c) ∧ c < 2 ^ 32 ∧ lookup map op0 = some p ∧
      compareNode o pred p (BitVec.ofNat 32 c) = .ok (.bind (some m)) := by
  unfold compareWith at h
  split at h
  · next bits c =>
    obtain ⟨v, fits, h⟩ := bind_eq_ok.mp h
    unfold getZExtValue at fits
    split_ifs at fits
    cases fits
    split_ifs at h with wide
    · cases h
    · split at h
      · cases h
      · next p found => exact ⟨bits, c, p, rfl, by omega, found, h⟩
  · cases h

/-- The places of the operands do not matter for equality. -/
theorem compareVal_comm {pred : Predicate} (symm : pred = .eq ∨ pred = .ne) (a b : Nat) :
    compareVal a b pred = compareVal b a pred := by
  rcases symm with rfl | rfl
  · simp only [compareVal, eq_comm]
  · simp only [compareVal, ne_comm]

theorem compareNode_accepted {pred : Predicate} {p q : Ptr} {rhs : Word}
    (h : compareNode o pred p rhs = .ok (.bind q)) : ¬ Refused pred rhs := by
  intro refused
  cases pred with
  | uge =>
    simp only [compareNode, show rhs = 0 from refused, if_true] at h
    cases h
  | ule =>
    simp only [compareNode, show rhs = maxWord from refused, if_true] at h
    cases h
  | sgt | sge | slt | sle => cases h
  | eq | ne | ugt | ult => exact refused

/-- What a comparison finds of its operand: the number itself, or enough of it. -/
theorem Denotes.compared {ty : Ty} {n : Node} {x : Val} {pred : Predicate} {rhs : Word}
    (h : Denotes counts ty n x)
    (number : ty ≠ .int 1 ∨ isTruth n = true ∨ TellsZero pred rhs) :
    ∃ a, x = .num a ∧ compareVal (value counts n).toNat rhs.toNat pred =
      compareVal a rhs.toNat pred := by
  by_cases known : ty ≠ .int 1 ∨ isTruth n = true
  · exact ⟨_, h.number known, rfl⟩
  · rw [not_or, not_not] at known
    obtain ⟨rfl, notTruth⟩ := known
    have tells := (number.resolve_left fun ne => ne rfl).resolve_left notTruth
    obtain ⟨b, rfl, small, truth⟩ := h.bit
    refine ⟨b, rfl, ?_⟩
    by_cases zero : value counts n = 0
    · have isZero : b = 0 := by
        by_contra notZero
        exact truth.mpr notZero zero
      rw [zero, isZero]
      rfl
    · have isOne : b = 1 := by
        have notZero := truth.mp zero
        omega
      rw [isOne, tells _ zero]

theorem icmp_denotes {pred : Predicate} {lhs rhs : Value} {ρ : Value → Val}
    {mem : Memory} {n : Node} {x : Val} (constants : ∀ c, ρ (.const c) = constVal c)
    (operands : ∀ v ∈ [lhs, rhs], ∀ p, lookup map v = some
      (some p) → Denotes counts (typeOf τ v) p (ρ v)) (ok : ICmpOk o map τ pred lhs rhs)
    (bound : processICmp o (lookup map) pred lhs rhs = .ok (.bind (some n)))
    (ran : opVal (.int 1) (.icmp pred (ρ lhs) (ρ rhs)) mem = some x) :
    Denotes counts (.int 1) n x := by
  have compared : ∀ op0 op1, ((lhs = op0 ∧ rhs = op1) ∨ (rhs = op0 ∧ lhs = op1)) →
      compareWith o (lookup map) pred op0 op1 = .ok (.bind (some n)) →
      ∃ a c, ρ op0 = .num a ∧ ρ op1 = .num c ∧ (isConstant lhs = true → pred = .eq ∨ pred = .ne) ∧
        ∀ r, compareVal a c pred = some r → (Holds counts n ↔ r = true) := by
    intro op0 op1 places h
    obtain ⟨bits, c, p, rfl, small, found, node⟩ := compareWith_found h
    obtain ⟨m, rfl, holds⟩ := @holds_compareNode counts _ _ _ _ _ node
    obtain ⟨left, number, compareOk⟩ :=
      ok op0 bits c m places small found (compareNode_accepted node)
    have member : op0 ∈ [lhs, rhs] := by
      rcases places with ⟨rfl, -⟩ | ⟨rfl, -⟩ <;> simp
    obtain ⟨a, denotes, same⟩ := (operands op0 member m found).compared number
    refine ⟨a, c, denotes, constants _, left, fun r result => holds compareOk r ?_⟩
    rwa [same, BitVec.toNat_ofNat, Nat.mod_eq_of_lt small]
  unfold processICmp at bound
  split_ifs at bound with constant
  · obtain ⟨a, c, left, right, equality, holds⟩ := compared rhs lhs (Or.inr ⟨rfl, rfl⟩) bound
    rw [left, right] at ran
    obtain ⟨r, same, rfl⟩ := Option.map_eq_some_iff.mp ran
    rw [compareVal_comm (equality constant)] at same
    exact denotes_bit (holds r same)
  · obtain ⟨a, c, left, right, -, holds⟩ := compared lhs rhs (Or.inl ⟨rfl, rfl⟩) bound
    rw [left, right] at ran
    obtain ⟨r, same, rfl⟩ := Option.map_eq_some_iff.mp ran
    exact denotes_bit (holds r same)

theorem holds_getAndPtr {a b : Ptr} {m : Node} (h : getAndPtr o a b = .ok m) :
    ∃ n n', a = some n ∧ b = some n' ∧
      (AndKept [n, n'] → (Holds counts m ↔ Holds counts n ∧ Holds counts n')) := by
  obtain ⟨n, left, h⟩ := bind_eq_ok.mp h
  obtain ⟨n', right, h⟩ := bind_eq_ok.mp h
  cases h
  cases a with
  | none => cases left
  | some a =>
    cases b with
    | none => cases right
    | some b =>
      cases left
      cases right
      refine ⟨n, n', rfl, rfl, fun kept => ?_⟩
      rw [holds_getAnd_of_kept kept]
      simp

theorem holds_getOrPtr {a b : Ptr} {m : Node} (h : getOrPtr o a b = .ok m) :
    ∃ n, a = some n ∧ (n = .const true ∧ m = .const true ∨
      ∃ n', b = some n' ∧ (Holds counts m ↔ Holds counts n ∨ Holds counts n')) := by
  obtain ⟨n, left, ran⟩ := bind_eq_ok.mp h
  cases a with
  | none => cases left
  | some a =>
    cases left
    refine ⟨n, rfl, ?_⟩
    split_ifs at ran with isTrue
    · cases ran
      exact Or.inl ⟨isTrue, rfl⟩
    · obtain ⟨n', right, ran⟩ := bind_eq_ok.mp ran
      cases ran
      cases b with
      | none => cases right
      | some b =>
        cases right
        refine Or.inr ⟨n', rfl, ?_⟩
        simp [holds_getOr]

/-- One arm of a select: nothing if the arm is the constant false. -/
theorem selectArm_holds {g : Node} {msg : Message} {arm : Value} {q : Ptr} {ρ : Value → Val}
    (constants : ∀ c, ρ (.const c) = constVal c)
    (operand : ∀ p, lookup map arm = some (some p) → Denotes counts (.int 1) p (ρ arm))
    (kept : ∀ a, lookup map arm = some (some a) → AndKept [g, a])
    (h : selectArm o (lookup map) (some g) msg arm = .ok (.inr q)) :
    ∃ b : Nat, ρ arm = .num b ∧ b < 2 ∧
      ((∃ m, q = some m ∧ Holds counts m) ↔ Holds counts g ∧ b ≠ 0) := by
  unfold selectArm at h
  split at h
  · next p found =>
    obtain ⟨both, conjunction, h⟩ := bind_eq_ok.mp h
    cases h
    obtain ⟨_, a, same, rfl, holds⟩ := @holds_getAndPtr counts _ _ _ _ conjunction
    cases same
    obtain ⟨b, value, small, truth⟩ := (operand a found).bit
    refine ⟨b, value, small, ?_⟩
    simp [holds (kept a found), truth]
  · split at h
    · cases h
      exact ⟨0, constants _, by omega, by simp⟩
    · cases h
      exact ⟨1, constants _, by omega, by simp⟩
    · cases h
    · cases h

theorem selectArm_taken {g : Ptr} {msg : Message} {arm : Value} {q : Ptr}
    (h : selectArm o (lookup map) g msg arm = .ok (.inr q)) : ArmTaken map arm := by
  unfold selectArm at h
  split at h
  · next found => exact .inl (by rw [found]; exact Option.some_ne_none _)
  · split at h
    · exact .inr ⟨_, _, rfl, by omega⟩
    · exact .inr ⟨_, _, rfl, by omega⟩
    · cases h
    · cases h

/-- What an accepted select has found. -/
theorem processSelect_parts {c t e : Value} {n : Node}
    (h : processSelect o (lookup map) c t e = .ok (.bind (some n))) :
    ∃ g q negated q2, lookup map c = some (some g) ∧
      (lookup map t ≠ none ∨ lookup map e ≠ none) ∧ getNot o g = .ok negated ∧
      selectArm o (lookup map) (some g) .selectTrueValue t = .ok (.inr q) ∧
      selectArm o (lookup map) (some negated) .selectFalseValue e = .ok (.inr q2) ∧
      (Holds counts n ↔ (∃ m, q = some m ∧ Holds counts m) ∨
        ∃ m, q2 = some m ∧ Holds counts m) := by
  unfold processSelect at h
  split at h
  · cases h
  · next p found =>
    split_ifs at h with neither
    · cases h
    · obtain ⟨first, armTrue, h⟩ := bind_eq_ok.mp h
      cases first with
      | inl msg => cases h
      | inr q =>
        obtain ⟨negated, negation, h⟩ := bind_eq_ok.mp h
        obtain ⟨second, armFalse, h⟩ := bind_eq_ok.mp h
        obtain ⟨g, here, negation⟩ := bind_eq_ok.mp negation
        cases p with
        | none => cases here
        | some g' =>
          cases here
          cases second with
          | inl msg => cases h
          | inr q2 =>
            refine ⟨g, q, negated, q2, found, ?_, negation, armTrue, armFalse, ?_⟩
            · rw [← not_and_or]
              exact neither
            · cases q with
              | none =>
                cases q2 with
                | none => cases h
                | some m2 => cases h; simp
              | some m =>
                cases q2 with
                | none => cases h; simp
                | some m2 => cases h; simp [holds_getOr]

theorem select_denotes {c t e : Value} {ρ : Value → Val} {mem : Memory} {n : Node} {x : Val}
    (constants : ∀ c, ρ (.const c) = constVal c) (operands : ∀ v ∈ [c, t, e], ∀ p, lookup map v =
      some (some p) → Denotes counts (.int 1) p (ρ v))
    (ok : SelectOk o map (.int 1) c t e)
    (bound : processSelect o (lookup map) c t e = .ok (.bind (some n)))
    (ran : opVal (.int 1) (.select (ρ c) (ρ t) (ρ e)) mem = some x) :
    Denotes counts (.int 1) n x := by
  obtain ⟨g, q, negated, q2, found, arms, negation, armTrue, armFalse, either⟩ :=
    @processSelect_parts counts _ _ _ _ _ _ bound
  obtain ⟨-, notOk, keptTrue, keptFalse⟩ :=
    ok g found arms (selectArm_taken armTrue) (selectArm_taken armFalse)
  obtain ⟨bc, valueC, smallC, truthC⟩ := (operands c (by simp) g found).bit
  obtain ⟨bt, valueT, smallT, holdsT⟩ :=
    selectArm_holds constants (operands t (by simp)) keptTrue armTrue
  obtain ⟨be, valueE, smallE, holdsE⟩ := selectArm_holds constants (operands e (by simp))
    (fun a found => keptFalse a negated found negation) armFalse
  -- for the constant false the negation does not matter
  have otherwise : (∃ m, q2 = some m ∧ Holds counts m) ↔ ¬ Holds counts g ∧ be ≠ 0 := by
    cases zero : isZero e with
    | false => rw [holdsE, holds_getNot (notOk zero) negation]
    | true =>
      have isZero : be = 0 := by
        unfold LogicalCompiler.isZero at zero
        split at zero
        · exact Val.num.inj (valueE.symm.trans (constants _))
        · cases zero
      simp [holdsE, isZero]
  rw [holdsT, otherwise, truthC] at either
  have selected : x = .num (if bc ≠ 0 then bt else be) := by
    simp only [opVal, valueC, truthVal, Option.some.injEq, decide_eq_true_eq] at ran
    rw [← ran, valueT, valueE]
    split_ifs <;> rfl
  rw [selected]
  change (if bc ≠ 0 then bt else be) = if Holds counts n then 1 else 0
  by_cases holds : Holds counts n
  · have selectedTrue := either.mp holds
    rw [if_pos holds]
    split_ifs <;> omega
  · have selectedFalse := mt either.mpr holds
    rw [if_neg holds]
    split_ifs <;> omega

/-- What an accepted addition has found. -/
theorem processAdd_parts {lhs rhs : Value} {n : Node}
    (h : processAdd (lookup map) lhs rhs = .ok (.bind (some n))) :
    ∃ l, lookup map lhs = some (some l) ∧
      ((∃ bits v, rhs = .const (.int bits v) ∧ n = getAddOff l (BitVec.ofNat 32 v)) ∨
        ∃ r, lookup map rhs = some (some r) ∧ getAdd l r = .ok (some n) ∧ checkUniq n = true) := by
  unfold processAdd at h
  split at h
  · cases h
  · next p found =>
    split at h
    · next bits v =>
      obtain ⟨u, same, h⟩ := bind_eq_ok.mp h
      obtain ⟨l, here, h⟩ := bind_eq_ok.mp h
      cases h
      unfold getZExtValue at same
      split_ifs at same
      cases same
      cases p with
      | none => cases here
      | some l' =>
        cases here
        exact ⟨l, found, .inl ⟨bits, v, rfl, rfl⟩⟩
    · split at h
      · cases h
      · next p' found' =>
        obtain ⟨l, here, h⟩ := bind_eq_ok.mp h
        obtain ⟨r, here', h⟩ := bind_eq_ok.mp h
        obtain ⟨m, added, h⟩ := bind_eq_ok.mp h
        cases p with
        | none => cases here
        | some l' =>
          cases p' with
          | none => cases here'
          | some r' =>
            cases here
            cases here'
            cases m with
            | none => cases h
            | some m =>
              simp only at h
              split_ifs at h with unique
              · cases h
                exact ⟨l, found, .inr ⟨r, found', added, unique⟩⟩
              · cases h

theorem add_denotes {lhs rhs : Value} {ρ : Value → Val} {mem : Memory} {n : Node} {x : Val}
    (constants : ∀ c, ρ (.const c) = constVal c) (fits : Fits rhs) (typed : typeOf τ rhs = .int 32)
    (operands : ∀ v ∈ [lhs, rhs], ∀ p, lookup map v = some (some p) → Denotes counts (.int 32) p
      (ρ v)) (ok : AddOk map (.int 32) lhs rhs)
    (bound : processAdd (lookup map) lhs rhs = .ok (.bind (some n)))
    (ran : opVal (.int 32) (.binary .add (ρ lhs) (ρ rhs)) mem = some x) :
    Denotes counts (.int 32) n x := by
  have number : ∀ {v p}, v ∈ [lhs, rhs] → lookup map v = some (some p) →
      ρ v = .num (value counts p).toNat :=
    fun member found => (operands _ member _ found).number (Or.inl (by simp))
  have sum : ∀ {a b : Word}, ρ lhs = .num a.toNat → ρ rhs = .num b.toNat → value counts n = a + b →
      Denotes counts (.int 32) n x := by
    intro a b left right same
    rw [left, right] at ran
    simp only [opVal, binaryVal, Option.map_some, Option.some.injEq] at ran
    rw [← ran]
    change (a.toNat + b.toNat) % 2 ^ 32 = (value counts n).toNat
    rw [same, BitVec.toNat_add]
  obtain ⟨l, found, ⟨bits, v, rfl, rfl⟩ | ⟨r, found', added, unique⟩⟩ := processAdd_parts bound
  · have width : bits = 32 := by simpa [typeOf] using typed
    subst width
    have small : v < 2 ^ 32 := fits
    refine sum (number (by simp) found) (b := BitVec.ofNat 32 v) ?_ ?_
    · rw [constants, BitVec.toNat_ofNat, Nat.mod_eq_of_lt small]
      rfl
    · simp only [getAddOff, value]
      exact BitVec.add_comm _ _
  · obtain ⟨-, wholeL, wholeR, addable, offsets⟩ := (ok l found).2 r n found' added unique
    obtain ⟨s, added', whole⟩ := getAdd_whole wholeL wholeR addable
    cases added.symm.trans added'
    refine sum (number (by simp) found) (number (by simp) found') ?_
    exact (value_getAdd_iff added (whole n rfl)).mpr offsets counts

/-- Logical operations on bits. -/
theorem binary_denotes {op : BinOp}
    {a b : Nat} {n : Node} {mem : Memory} {x : Val} (holds : Bool → Bool → Bool) (small : a < 2)
    (small' : b < 2) (table : ∀ c d : Bool, binaryVal 1 c.toNat d.toNat op = some (holds c d).toNat)
    (node : Holds counts n ↔ holds (a ≠ 0) (b ≠ 0) = true)
    (ran : opVal (.int 1) (.binary op (.num a) (.num b)) mem = some x) :
    Denotes counts (.int 1) n x := by
  have asBit : ∀ k < 2, k = (decide (k ≠ 0)).toNat := by
    intro k small
    match k, small with
    | 0, _ => rfl
    | 1, _ => rfl
  have result := table (a ≠ 0) (b ≠ 0)
  rw [← asBit a small, ← asBit b small'] at result
  simp only [opVal, result, Option.map_some, Option.some.injEq] at ran
  rw [← ran]
  exact denotes_bit node

theorem processAnd_parts {gv : GlobalId} {id : Nat} {ty : Ty} {lhs rhs : Value} {n : Node}
    (h : processInst o gv (lookup map) ⟨id, ty, .binary .and lhs rhs⟩ = .ok (.bind (some n))) :
    ∃ p q, lookup map lhs = some p ∧ lookup map rhs = some q ∧ getAndPtr o p q = .ok n := by
  simp only [processInst] at h
  split at h
  · next p q left right =>
    obtain ⟨m, conjunction, h⟩ := bind_eq_ok.mp h
    cases h
    exact ⟨p, q, left, right, conjunction⟩
  · cases h

theorem processOr_parts {gv : GlobalId} {id : Nat} {ty : Ty} {lhs rhs : Value} {n : Node}
    (h : processInst o gv (lookup map) ⟨id, ty, .binary .or lhs rhs⟩ = .ok (.bind (some n))) :
    ∃ p q, lookup map lhs = some p ∧ lookup map rhs = some q ∧ getOrPtr o p q = .ok n := by
  simp only [processInst] at h
  split at h
  · next p q left right =>
    obtain ⟨m, disjunction, h⟩ := bind_eq_ok.mp h
    cases h
    exact ⟨p, q, left, right, disjunction⟩
  · cases h

theorem and_denotes {lhs rhs : Value} {ρ : Value → Val} {mem : Memory}
    {p q : Ptr} {n : Node} {x : Val} (operands : ∀ v ∈ [lhs, rhs], ∀ p, lookup map v = some
      (some p) → Denotes counts (.int 1) p (ρ v)) (kept : ∀ a b, lookup map lhs = some (some a) →
      lookup map rhs = some (some b) → AndKept [a, b]) (left : lookup map lhs = some p)
    (right : lookup map rhs = some q) (conjunction : getAndPtr o p q = .ok n)
    (ran : opVal (.int 1) (.binary .and (ρ lhs) (ρ rhs)) mem = some x) :
    Denotes counts (.int 1) n x := by
  obtain ⟨a, b, rfl, rfl, holds⟩ := @holds_getAndPtr counts _ _ _ _ conjunction
  obtain ⟨k, valueL, smallL, truthL⟩ := (operands lhs (by simp) a left).bit
  obtain ⟨l, valueR, smallR, truthR⟩ := (operands rhs (by simp) b right).bit
  rw [valueL, valueR] at ran
  refine binary_denotes and smallL smallR (by decide) ?_ ran
  rw [holds (kept a b left right), truthL, truthR]
  simp

/-- The right operand needs no node if the left one is TRUE. -/
theorem or_denotes {lhs rhs : Value} {ρ : Value → Val} {mem : Memory} {p q : Ptr} {n : Node}
    {x : Val} (first : ∀ a, lookup map lhs = some (some a) → Denotes counts (.int 1) a (ρ lhs))
    (second : ∀ b, lookup map rhs = some (some b) → Denotes counts (.int 1) b (ρ rhs))
    (bit : ∃ l : Nat, ρ rhs = .num l ∧ l < 2) (left : lookup map lhs = some p)
    (right : lookup map rhs = some q) (disjunction : getOrPtr o p q = .ok n)
    (ran : opVal (.int 1) (.binary .or (ρ lhs) (ρ rhs)) mem = some x) :
    Denotes counts (.int 1) n x := by
  obtain ⟨a, rfl, holds⟩ := @holds_getOrPtr counts _ _ _ _ disjunction
  obtain ⟨k, valueL, smallL, truthL⟩ := (first a left).bit
  obtain ⟨l, valueR, smallR⟩ := bit
  rw [valueL, valueR] at ran
  refine binary_denotes or smallL smallR (by decide) ?_ ran
  rcases holds with ⟨rfl, rfl⟩ | ⟨b, rfl, holds⟩
  · have isTrue : k ≠ 0 := truthL.mp (holds_const.mpr rfl)
    simp [isTrue]
  · obtain ⟨l', same, -, truthR⟩ := (second b right).bit
    cases valueR.symm.trans same
    rw [holds, truthL, truthR]
    simp

theorem processXor_parts {lhs rhs : Value} {p : Ptr}
    (h : processXor o (lookup map) lhs rhs = .ok (.bind p)) :
    ∃ bits n, rhs = .const (.int bits 1) ∧ lookup map lhs = some (some n) := by
  unfold processXor at h
  split at h
  · next bits =>
    split at h
    · cases h
    · next q found =>
      obtain ⟨m, negation, h⟩ := bind_eq_ok.mp h
      cases q with
      | none => cases negation
      | some n => exact ⟨bits, n, rfl, found⟩
  · cases h

theorem xor_denotes {lhs rhs : Value} {ρ : Value → Val}
    {mem : Memory} {n : Node} {x : Val} (constants : ∀ c, ρ (.const c) = constVal c)
    (operand : ∀ p, lookup map lhs = some (some p) → Denotes counts (.int 1) p (ρ lhs))
    (ok : ∀ n, lookup map lhs = some (some n) → NotOk o n)
    (bound : processXor o (lookup map) lhs rhs = .ok (.bind (some n)))
    (ran : opVal (.int 1) (.binary .xor (ρ lhs) (ρ rhs)) mem = some x) :
    Denotes counts (.int 1) n x := by
  unfold processXor at bound
  split at bound
  · split at bound
    · cases bound
    · next p found =>
      obtain ⟨m, negation, bound⟩ := bind_eq_ok.mp bound
      cases bound
      obtain ⟨a, here, negation⟩ := bind_eq_ok.mp negation
      cases p with
      | none => cases here
      | some a' =>
        cases here
        obtain ⟨k, valueL, smallL, truthL⟩ := (operand a found).bit
        rw [valueL, constants] at ran
        refine binary_denotes (b := 1) Bool.xor smallL (by omega) (by decide) ?_ ran
        rw [holds_getNot (ok a found) negation, truthL]
        simp
  · cases bound

/-- The number of a bit is 1 if its node is true. -/
theorem zext_denotes {bits bits' : Nat} {v : Value} {ρ : Value → Val} {mem : Memory} {n : Node}
    {x : Val}
    (operand : ∀ p, lookup map v = some (some p) → Denotes counts (.int bits) p (ρ v))
    (bound : processZExt (lookup map) (.int bits) (.int bits') v = .ok (.bind (some n)))
    (ran : opVal (.int bits') (.cast .zext (.int bits) (ρ v)) mem = some x) :
    Denotes counts (.int bits') n x := by
  unfold processZExt at bound
  split at bound
  · cases bound
  · next p found =>
    split_ifs at bound with widths
    · cases bound
    · rw [not_or, not_not, not_not] at widths
      obtain ⟨rfl, rfl⟩ : bits = 1 ∧ bits' = 32 := widths
      obtain ⟨m, here, made⟩ := bind_eq_ok.mp bound
      cases made
      cases p with
      | none => cases here
      | some m' =>
        cases here
        have denotes := operand m found
        cases ran
        cases isBit : ρ v with
        | num b =>
          rw [isBit] at denotes
          exact denotes.trans (value_getUniqueSigs m).symm
        | slot g k =>
          rw [isBit] at denotes
          exact denotes.elim
        | other k =>
          rw [isBit] at denotes
          exact denotes.elim

end

/-- `%1 = icmp ugt i32 %0, 3`, where `%0` is a count. -/
def aboveThree : Inst := ⟨1, .int 1, .icmp .ugt (.inst 0) (.const (.int 32 3))⟩

/-- The first match count stands in `%0`. -/
def firstCount : Nat → Option Ptr
  | 0 => some (some (.subsig 0))
  | _ => none

def countTypes : Nat → Ty
  | 0 => .int 32
  | _ => .int 1

theorem fiveMatches : Denotes (fun _ => 5) (countTypes 0) (.subsig 0) (.num 5) := rfl

/-- The sum of the first two match counts. -/
theorem processAdd_pair {map : Nat → Option Ptr} {a b : Nat}
    (left : map a = some (some (.subsig 0))) (right : map b = some (some (.subsig 1))) :
    processAdd (lookup map) (.inst a) (.inst b) =
      .ok (.bind (some (.sums .sum [.subsig 0, .subsig 1]))) := by
  simp only [processAdd, lookup, left, right, deref, ok_bind, getAdd, getAddCount,
    sortChildren_pair]
  rfl

theorem processAdd_different {map : Nat → Option Ptr} {a b : Nat}
    (left : map a = some (some (.sums .uniq [.subsig 0])))
    (right : map b = some (some (.sums .uniq [.subsig 1]))) :
    processAdd (lookup map) (.inst a) (.inst b) =
      .ok (.bind (some (.sums .uniq [.subsig 0, .subsig 1]))) := by
  have sum : getAdd (.sums .uniq [.subsig 0]) (.sums .uniq [.subsig 1]) =
      .ok (some (.sums .uniq [.subsig 0, .subsig 1])) :=
    congrArg (fun cs => Except.ok (some (Node.sums .uniq cs))) sortChildren_pair
  simp only [processAdd, lookup, left, right, deref, ok_bind, sum]
  rfl

/-- `%1 = icmp ult i32 3, %0`, with the constant on the left. -/
def threeBelow : Inst := ⟨1, .int 1, .icmp .ult (.const (.int 32 3)) (.inst 0)⟩

end LogicalInstructions
