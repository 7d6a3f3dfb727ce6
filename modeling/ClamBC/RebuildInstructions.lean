import ClamBC.Ir
import Mathlib.Algebra.Order.Group.Nat
import Mathlib.Algebra.GroupWithZero.Nat
import Mathlib.Algebra.Ring.Nat

/-!
# Rebuilding allocas and switches

An alloca is rebuilt as an alloca of bytes, except for pointers. The number of bytes is computed in
32 bits, without a check.

A switch is rebuilt from its successors. The loop does not reach the last case, and the value of a
case is looked up by its destination, which has no answer for the default destination and for a
destination of several cases.
-/

namespace RebuildInstructions

/-! ## Allocas -/

/-- Types with all their pointers in one address space. -/
inductive Ty where
  | void
  | int (bits : Nat)
  | float (bits : Nat)
  | ptr
  | array (length : Nat) (element : Ty)
  | struct (packed : Bool) (fields : List Ty)
  | vector (length : Nat) (element : Ty)

/-- `getTypeAllocSize` -/
structure DataLayout where
  allocSize : Ty → Nat
  allocSize_byte : allocSize (.int 8) = 1
  allocSize_array : ∀ n t, allocSize (.array n t) = n * allocSize t

section
variable (dl : DataLayout)

/-- The number of bytes is an `unsigned`. -/
def byteArray (ty : Ty) : Ty := .array (dl.allocSize ty % 2 ^ 32) (.int 8)

def rebuildType (ty : Ty) (i8only : Bool) : Ty :=
  match ty with
  | .int bits => if !i8only then .int bits else if bits = 8 then .int 8 else
      byteArray dl (.int bits)
  | .ptr => .ptr
  | .void => .void
  | ty => byteArray dl ty

/-- An alloca with its array size, if that is a constant. -/
structure Alloca where
  arraySize : Option UInt64
  allocatedType : Ty

/-- The type of the rebuilt alloca, which has the array size 1. -/
def visitAllocaInst (ai : Alloca) : Except String Ty :=
  match ai.arraySize with
  | none => .error "VLA not supported"
  | some size =>
    let n := size.toNat % 2 ^ 32
    match rebuildType dl ai.allocatedType true with
    | .array length element =>
      let n := n * length % 2 ^ 32
      .ok (if n ≠ 1 then .array n element else element)
    | ty => .ok (if n ≠ 1 then .array n ty else ty)

/-- A type that is not converted to bytes. -/
def Direct : Ty → Prop
  | .void => True
  | .ptr => True
  | .int bits => bits = 8
  | _ => False

/-- The sizes for which 32 bits are enough. -/
def Fits (size : UInt64) (ty : Ty) : Prop :=
  (Direct ty ∧ (size.toNat < 2 ^ 32 ∨ dl.allocSize ty = 0)) ∨
    (¬ Direct ty ∧ size.toNat * dl.allocSize ty < 2 ^ 32)

variable {dl}

theorem allocSize_repeated (n : Nat) (ty : Ty) :
    dl.allocSize (if n ≠ 1 then .array n ty else ty) = n * dl.allocSize ty := by
  split_ifs with several
  · exact dl.allocSize_array n ty
  · rw [not_not.mp several, Nat.one_mul]

theorem visit_direct {ty : Ty} (direct : Direct ty) (size : UInt64) :
    visitAllocaInst dl ⟨some size, ty⟩ =
      .ok (if size.toNat % 2 ^ 32 ≠ 1 then .array (size.toNat % 2 ^ 32) ty else ty) := by
  cases ty with
  | int bits =>
    have byte : bits = 8 := direct
    subst byte
    rfl
  | void | ptr => rfl
  | float _ | array _ _ | struct _ _ | vector _ _ => cases direct

theorem visit_bytes {ty : Ty} (bytes : ¬ Direct ty) (size : UInt64) :
    visitAllocaInst dl ⟨some size, ty⟩ =
      .ok (if size.toNat % 2 ^ 32 * (dl.allocSize ty % 2 ^ 32) % 2 ^ 32 ≠ 1
        then .array (size.toNat % 2 ^ 32 * (dl.allocSize ty % 2 ^ 32) % 2 ^ 32) (.int 8)
          else .int 8) := by
  cases ty with
  | int bits =>
    have other : ¬ bits = 8 := bytes
    have rebuilt : rebuildType dl (.int bits) true = byteArray dl (.int bits) := if_neg other
    rw [visitAllocaInst, rebuilt]
    rfl
  | void | ptr => exact absurd trivial bytes
  | float _ | array _ _ | struct _ _ | vector _ _ => rfl

end

mutual

/-- The sizes of a layout without alignment. -/
def packedSize : Ty → Nat
  | .void => 0
  | .int bits => (bits + 7) / 8
  | .float bits => (bits + 7) / 8
  | .ptr => 8
  | .array n t => n * packedSize t
  | .struct _ fields => packedSizes fields
  | .vector n t => n * packedSize t

def packedSizes : List Ty → Nat
  | [] => 0
  | t :: ts => packedSize t + packedSizes ts

end

def packedLayout : DataLayout := ⟨packedSize, rfl, fun _ _ => rfl⟩

open Ir

/-- A switch has each case value once. -/
structure Switch where
  defaultDest : Label
  cases : List (Nat × Label)
  distinct : (cases.map Prod.fst).Nodup

namespace Switch

/-- Where control goes. -/
def target (s : Switch) (value : Nat) : Label := (s.cases.lookup value).getD s.defaultDest

/-- Successor 0 is the default destination. -/
def getSuccessor (s : Switch) (i : Nat) : Label :=
  ((s.defaultDest :: s.cases.map Prod.snd)[i]?).getD s.defaultDest

def getNumCases (s : Switch) : Nat := s.cases.length

/-- The value of the one case with this destination, while looking through the cases. -/
def findCase (BB : Label) : Option Nat → List (Nat × Label) → Option Nat
  | CI, [] => CI
  | CI, c :: cs => if c.2 ≠ BB then findCase BB CI cs else if CI.isSome then none else
      findCase BB (some c.1) cs

/-- Null if the destination is not found, not unique or the default one. -/
def findCaseDest (s : Switch) (BB : Label) : Option Nat :=
  if BB = s.defaultDest then none else findCase BB none s.cases

end Switch

/-- Each block has an image of its own. -/
structure BBMap where
  mapBlock : Label → Label
  injective : Function.Injective mapBlock

/-- The rebuilt switch. A case value can be null. -/
structure NewSwitch where
  defaultDest : Label
  cases : List (Option Nat × Label)

def NewSwitch.target (s : NewSwitch) (value : Nat) : Label :=
  (s.cases.lookup (some value)).getD s.defaultDest

def visitSwitchInst (m : BBMap) (s : Switch) : NewSwitch where
  defaultDest := m.mapBlock s.defaultDest
  cases := (List.range' 1 (s.getNumCases - 1)).map fun i =>
    (s.findCaseDest (s.getSuccessor i), m.mapBlock (s.getSuccessor i))

/-- Control goes to the image of where it went before, and every case has a value. -/
def KeepsCases (m : BBMap) (s : Switch) : Prop :=
  (∀ c ∈ (visitSwitchInst m s).cases, c.1 ≠ none) ∧ ∀ value, (visitSwitchInst m s).target value =
    m.mapBlock (s.target value)

/-- The last case goes to the default destination, and the others to different other blocks. -/
def LastIsDefault (s : Switch) : Prop :=
  ∀ last, s.cases.getLast? = some last →
    last.2 = s.defaultDest ∧ s.defaultDest ∉ s.cases.dropLast.map Prod.snd ∧
      (s.cases.dropLast.map Prod.snd).Nodup

namespace Switch
variable {BB : Label} {cs : List (Nat × Label)}

theorem findCase_some (x : Nat) :
    findCase BB (some x) cs = if (cs.map Prod.snd).count BB = 0 then some x else none := by
  induction cs with
  | nil => rfl
  | cons c cs ih =>
    rw [findCase, List.map_cons, List.count_cons]
    by_cases here : c.2 = BB
    · simp [here]
    · simp [here, ih]

/-- Exactly one case has the destination. -/
theorem findCase_isSome : (findCase BB none cs).isSome ↔ (cs.map Prod.snd).count BB = 1 := by
  induction cs with
  | nil => simp [findCase]
  | cons c cs ih =>
    rw [findCase, List.map_cons, List.count_cons]
    by_cases here : c.2 = BB
    · have one : (if (c.2 == BB) = true then 1 else 0) = 1 := if_pos (by simpa using here)
      rw [if_neg (not_not.mpr here), if_neg (by simp), findCase_some, one]
      split_ifs with others <;> simp [others]
    · rw [if_pos here, ih, if_neg (by simpa using here), Nat.add_zero]

theorem findCase_mem {x : Nat} (found : findCase BB none cs = some x) : (x, BB) ∈ cs := by
  induction cs with
  | nil => cases found
  | cons c cs ih =>
    rw [findCase] at found
    by_cases here : c.2 = BB
    · rw [if_neg (not_not.mpr here), if_neg (by simp), findCase_some] at found
      split_ifs at found
      cases found
      exact here ▸ List.mem_cons_self
    · rw [if_pos here] at found
      exact List.mem_cons_of_mem c (ih found)

theorem eq_of_count_eq_one (one : (cs.map Prod.snd).count BB = 1) {c d : Nat × Label} (hc : c ∈ cs)
    (hd : d ∈ cs) (atC : c.2 = BB) (atD : d.2 = BB) : d = c := by
  obtain ⟨before, behind, rfl⟩ := List.append_of_mem hc
  rw [List.map_append, List.map_cons, List.count_append, List.count_cons,
    if_pos (by simpa using atC)] at one
  have outside : ∀ xs : List (Nat × Label), (xs.map Prod.snd).count BB = 0 → d ∉ xs := by
    intro xs none member
    exact List.count_eq_zero.mp none (List.mem_map.mpr ⟨d, member, atD⟩)
  rcases List.mem_append.mp hd with early | rest
  · exact absurd early (outside before (by omega))
  · rcases List.mem_cons.mp rest with same | late
    · exact same
    · exact absurd late (outside behind (by omega))

end Switch

variable {m : BBMap} {s : Switch}

theorem visitSwitchInst_cases (m : BBMap) (s : Switch) :
    (visitSwitchInst m s).cases = s.cases.dropLast.map fun c =>
      (s.findCaseDest c.2, m.mapBlock c.2) := by
  apply List.ext_getElem
  · simp [visitSwitchInst, Switch.getNumCases]
  · intro j left right
    have inside : j < s.cases.length := by
      simp at right
      omega
    have successor : s.getSuccessor (1 + j) = (s.cases.get ⟨j, inside⟩).2 := by
      rw [Switch.getSuccessor, Nat.add_comm, List.getElem?_cons_succ, List.getElem?_map,
        List.getElem?_eq_getElem inside]
      rfl
    simp [visitSwitchInst, successor]

theorem lookup_images (cs : List (Nat × Label)) (value : Nat) :
    (cs.map fun c => (some c.1, m.mapBlock c.2)).lookup (some value) =
      (cs.lookup value).map m.mapBlock := by
  induction cs with
  | nil => rfl
  | cons c cs ih =>
    rw [List.map_cons, List.lookup_cons, List.lookup_cons, ih]
    by_cases here : value = c.1
    · simp [here]
    · have other : (value == c.1) = false := by simpa using here
      have other' : (some value == some c.1) = false := by simpa using here
      rw [other, other']

section
variable {front : List (Nat × Label)} {last : Nat × Label} (split : s.cases = front ++ [last])
include split

/-- Every case but the last gets a value if and only if its destination is its own. -/
theorem values_iff :
    (∀ c ∈ (visitSwitchInst m s).cases, c.1 ≠ none) ↔ ∀ c ∈ front, c.2 ≠ s.defaultDest ∧
      (s.cases.map Prod.snd).count c.2 = 1 := by
  have cases_eq := visitSwitchInst_cases m s
  rw [split, List.dropLast_concat] at cases_eq
  rw [cases_eq]
  have each : ∀ c : Nat × Label, s.findCaseDest c.2 ≠ none ↔
      c.2 ≠ s.defaultDest ∧ (s.cases.map Prod.snd).count c.2 = 1 := by
    intro c
    rw [Switch.findCaseDest]
    split_ifs with isDefault
    · exact ⟨fun ne => absurd rfl ne, fun both => absurd isDefault both.1⟩
    · rw [← Switch.findCase_isSome, Option.isSome_iff_ne_none]
      exact ⟨fun found => ⟨isDefault, found⟩, fun both => both.2⟩
  simp only [List.mem_map, forall_exists_index, and_imp, forall_apply_eq_imp_iff₂, each]

/-- Then it is its own value. -/
theorem findCaseDest_own {c : Nat × Label} (hc : c ∈ front) (notDefault : c.2 ≠ s.defaultDest)
    (unique : (s.cases.map Prod.snd).count c.2 = 1) : s.findCaseDest c.2 = some c.1 := by
  rw [Switch.findCaseDest, if_neg notDefault]
  obtain ⟨x, found⟩ := Option.isSome_iff_exists.mp (Switch.findCase_isSome.mpr unique)
  have own := Switch.eq_of_count_eq_one unique (split ▸ List.mem_append_left _ hc)
    (Switch.findCase_mem found) rfl rfl
  rw [found, ← own]

theorem visitSwitchInst_target
    (own : ∀ c ∈ front, c.2 ≠ s.defaultDest ∧ (s.cases.map Prod.snd).count c.2 = 1) (value : Nat) :
    (visitSwitchInst m s).target value = m.mapBlock ((front.lookup value).getD s.defaultDest) := by
  have cases_eq : (visitSwitchInst m s).cases = front.map fun c => (some c.1, m.mapBlock c.2) := by
    rw [visitSwitchInst_cases, split, List.dropLast_concat]
    refine List.map_congr_left fun c hc => ?_
    rw [findCaseDest_own split hc (own c hc).1 (own c hc).2]
  rw [NewSwitch.target, cases_eq, lookup_images]
  cases front.lookup value <;> rfl

theorem target_eq (value : Nat) :
    s.target value = ((front.lookup value).or (if value = last.1 then some last.2 else none)).getD
      s.defaultDest := by
  rw [Switch.target, split, List.lookup_append]
  have one : [last].lookup value = if value = last.1 then some last.2 else none := by
    rw [List.lookup_cons]
    by_cases here : value = last.1
    · rw [if_pos here, here, beq_self_eq_true]
    · have other : (value == last.1) = false := by simpa using here
      rw [if_neg here, other]
      rfl
  rw [one]

end

theorem keepsCases_iff (m : BBMap) (s : Switch) : KeepsCases m s ↔ LastIsDefault s := by
  rcases List.eq_nil_or_concat s.cases with empty | ⟨front, last, split⟩
  · have none : (visitSwitchInst m s).cases = [] := by rw [visitSwitchInst_cases, empty]; rfl
    refine ⟨fun _ last eq => ?_, fun _ => ⟨?_, fun value => ?_⟩⟩
    · rw [empty] at eq
      cases eq
    · rw [none]
      exact nofun
    · rw [NewSwitch.target, none, Switch.target, empty]
      rfl
  · rw [List.concat_eq_append] at split
    have isLast : s.cases.getLast? = some last := by rw [split, List.getLast?_concat]
    have dropped : s.cases.dropLast = front := by rw [split, List.dropLast_concat]
    have fresh : front.lookup last.1 = none := by
      have distinct := s.distinct
      rw [split, List.map_append, List.nodup_append] at distinct
      refine List.lookup_eq_none_iff.mpr fun c hc => ?_
      have apart := distinct.2.2 c.1 (List.mem_map_of_mem hc) last.1 (List.mem_singleton_self _)
      simpa using apart.symm
    rw [KeepsCases, values_iff split]
    constructor
    · rintro ⟨own, targets⟩ last' eq
      cases isLast.symm.trans eq
      rw [dropped]
      refine ⟨?_, ?_, ?_⟩
      · have atLast := targets last.1
        rw [visitSwitchInst_target split own, target_eq split, fresh] at atLast
        have same := m.injective atLast
        simpa using same.symm
      · intro member
        obtain ⟨c, hc, isDefault⟩ := List.mem_map.mp member
        exact (own c hc).1 isDefault
      · refine List.nodup_iff_count_le_one.mpr fun l => ?_
        by_cases member : l ∈ front.map Prod.snd
        · obtain ⟨c, hc, rfl⟩ := List.mem_map.mp member
          have one := (own c hc).2
          rw [split, List.map_append, List.count_append] at one
          omega
        · rw [List.count_eq_zero.mpr member]
          exact Nat.zero_le 1
    · intro lastIsDefault
      obtain ⟨toDefault, notDefault, nodup⟩ := lastIsDefault last isLast
      rw [dropped] at notDefault nodup
      have own : ∀ c ∈ front, c.2 ≠ s.defaultDest ∧ (s.cases.map Prod.snd).count c.2 = 1 := by
        intro c hc
        have member : c.2 ∈ front.map Prod.snd := List.mem_map_of_mem hc
        have ne : c.2 ≠ s.defaultDest := fun isDefault => notDefault (isDefault ▸ member)
        refine ⟨ne, ?_⟩
        rw [split, List.map_append, List.count_append, List.count_eq_one_of_mem nodup member]
        have other : ¬ last.2 = c.2 := fun same => ne (same.symm.trans toDefault)
        simp [other]
      refine ⟨own, fun value => ?_⟩
      rw [visitSwitchInst_target split own, target_eq split]
      cases front.lookup value with
      | some l => rfl
      | none =>
        by_cases here : value = last.1
        · rw [if_pos here, toDefault]
          rfl
        · rw [if_neg here]
          rfl

/-- A single case is lost. -/
theorem visitSwitchInst_case_lost :
    ¬ KeepsCases ⟨id, Function.injective_id⟩ ⟨0, [(5, 1)], List.nodup_singleton 5⟩ := by
  rintro ⟨-, targets⟩
  exact absurd (targets 5) (by decide)

end RebuildInstructions
