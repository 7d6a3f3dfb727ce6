import ClamBC.PhiElimination

/-!
# Numbering the values of a function

`runOnFunction` of the register allocator: after the phis are gone, one loop over
the arguments and one over the instructions in layout order hand out the value ids.
Ids are unbounded here; `~0u` is `none`, so it cannot be mistaken for an id.

The skip map is not cleared between functions, but what it keeps are instructions
of other functions; it starts out empty here.
-/

namespace ValueNumbering

open Ir IrExec PhiElimination

/-- What the maps are keyed by: constants never get into them. -/
inductive Key where
  | arg (index : Nat)
  | inst (id : Nat)
  deriving DecidableEq

def key : Value → Option Key
  | .arg i => some (.arg i)
  | .inst i => some (.inst i)
  | .const _ => none

structure Numbering where
  valueMap : List (Key × Option Nat)
  revValueMap : List Key
  skipMap : List Nat
  id : Nat
  errs : List Nat

/-- Why the loop does not come to its end: `ClamBCStop`, or an assertion of `getValueID`. -/
inductive Halt where
  | stop (message : String)
  | unknownValue
  | unusedValue
  deriving DecidableEq

def nonLosslessBitcast : Halt := .stop "Non lossless bitcast is not supported"

def castFromPointer : Halt := .stop "Cast from pointer to non-pointer element"

namespace Numbering

def empty : Numbering := ⟨[], [], [], 0, []⟩

def find (s : Numbering) (k : Key) : Option (Option Nat) := s.valueMap.lookup k

def getValueID (s : Numbering) (v : Value) : Except Halt Nat :=
  match (key v).bind s.find with
  | none => .error .unknownValue
  | some none => .error .unusedValue
  | some (some n) => .ok n

def set (s : Numbering) (k : Key) (n : Option Nat) : Numbering :=
  { s with valueMap := (k, n) :: s.valueMap }

def skip (s : Numbering) (i : Nat) : Numbering := { s with skipMap := i :: s.skipMap }

/-- `ValueMap[k] = id; if (RevValueMap.size() == id) RevValueMap.push_back(r); ++id;` -/
def handOut (s : Numbering) (k r : Key) : Numbering :=
  { s.set k (some s.id) with
    revValueMap := if s.revValueMap.length = s.id then s.revValueMap ++ [r] else s.revValueMap
    id := s.id + 1 }

/-- The same with the message of the `else` branch. -/
def handOutOrReport (s : Numbering) (k r : Key) : Numbering :=
  { s.handOut k r with
    errs := if s.revValueMap.length = s.id then s.errs else s.errs ++ [s.id] }

end Numbering

def mayHaveSideEffects : Op Value → Bool
  | .load isVolatile _ => isVolatile
  | .store _ _ => true
  | .call sideEffects _ _ => sideEffects
  | .other sideEffects _ => sideEffects
  | _ => false

def isPointerTy : Ty → Bool
  | .ptr => true
  | _ => false

section
variable (f : Function)

def useCount (i : Nat) : Nat :=
  (f.blocks.flatMap Block.uses).countP fun v => key v = some (.inst i)

def instruction (i : Nat) : Option Inst := (f.blocks.flatMap Block.body).find? fun j => j.id = i

/-- The size of the allocation, if the value is an `alloca`. -/
def allocaSize : Value → Option (Option Value)
  | .inst i =>
    match (instruction f i).map Inst.op with
    | some (.alloca size) => some size
    | _ => none
  | _ => none

def isArrayAllocation : Option Value → Bool
  | none => false
  | some (.const (.int _ 1)) => false
  | some _ => true

/-- `dyn_cast<StoreInst>(*II->use_begin())`. The cast is applied to a `Use`, which converts
to the value that is used, so the instruction itself is asked whether it is a store. -/
def singleUseStore (i : Inst) : Option Value :=
  if useCount f i.id = 1 then
    match i.op with
    | .store _ ptr => some ptr
    | _ => none
  else none

def numberPlain (s : Numbering) (i : Inst) : Except Halt Numbering :=
  match singleUseStore f i with
  | some ptr =>
    match key ptr, allocaSize f ptr with
    | some a, some _ =>
      let s := if (s.find a).isSome then s else s.handOutOrReport a (.inst i.id)
      match s.getValueID ptr with
      | .ok n => .ok (s.set (.inst i.id) (some n))
      | .error e => .error e
    | _, _ => .ok (s.handOutOrReport (.inst i.id) (.inst i.id))
  | none => .ok (s.handOutOrReport (.inst i.id) (.inst i.id))

def numberBitCast (s : Numbering) (i : Inst) (src : Ty) (v : Value) : Except Halt Numbering :=
  if !isLosslessCast .bitCast src i.ty then .error nonLosslessBitcast
  else if isPointerTy src && !isPointerTy i.ty then .error castFromPointer
  else if (allocaSize f v).any fun size => !isArrayAllocation size then
    .ok (s.handOut (.inst i.id) (.inst i.id))
  else
    match s.getValueID v with
    | .ok n => .ok ((s.skip i.id).set (.inst i.id) (some n))
    | .error e => .error e

/-- One round of the loop over the instructions. -/
def numberInst (s : Numbering) (i : Inst) : Except Halt Numbering :=
  if (s.find (.inst i.id)).isSome then .ok s
  else if i.ty.isVoid then .ok (s.set (.inst i.id) none)
  else if useCount f i.id = 0 && !mayHaveSideEffects i.op then
    .ok ((s.skip i.id).set (.inst i.id) none)
  else
    match i.op with
    | .cast .bitCast src v => numberBitCast f s i src v
    | .cast .ptrToInt _ _ => .error castFromPointer
    | .cast .intToPtr _ _ => .error castFromPointer
    | _ => numberPlain f s i

/-- A terminator has no value. -/
def numberTerm (s : Numbering) (i : Nat) : Numbering :=
  if (s.find (.inst i)).isSome then s else s.set (.inst i) none

def numberBody (s : Numbering) : List Inst → Except Halt Numbering
  | [] => .ok s
  | i :: rest =>
    match numberInst f s i with
    | .ok s' => numberBody s' rest
    | .error e => .error e

def numberBlocks (s : Numbering) : List Block → Except Halt Numbering
  | [] => .ok s
  | B :: rest =>
    match numberBody f s B.body with
    | .ok s' => numberBlocks (numberTerm s' B.termId) rest
    | .error e => .error e

def numberArgs (n : Nat) : Numbering :=
  (List.range n).foldl (fun s i => s.handOut (.arg i) (.arg i)) .empty

def number : Except Halt Numbering := numberBlocks f (numberArgs f.args.length) f.blocks

end

/-- The function without phis and the maps, or the reason why the pass gives up. -/
def runOnFunction (f : Function) : Except Halt (Function × Numbering) :=
  match number (eliminatePhis f) with
  | .ok s => .ok (eliminatePhis f, s)
  | .error e => .error e

/-- Which body instructions `printBasicBlock` of the writer prints. -/
def emitted (s : Numbering) (i : Inst) : Bool :=
  match i.op with
  | .alloca _ => false
  | .dbg => false
  | _ => i.id ∉ s.skipMap

/-- The largest id of a value that is not skipped, or 0. -/
def largestId (s : Numbering) : Nat :=
  s.valueMap.foldl (fun max e =>
    match e with
    | (.inst i, some n) => if i ∈ s.skipMap then max else if n > max then n else max
    | (.arg _, some n) => if n > max then n else max
    | (_, none) => max) 0

/-- `none` is the reported mismatch. -/
def buildReverseMap (s : Numbering) : Option (List Key) :=
  if largestId s ≠ 0 ∧ largestId s + 1 ≠ s.revValueMap.length then none else some s.revValueMap

/-! The maps while the loop runs. -/

/-- A lossless bit cast and the value that it casts. -/
def Casts (f : Function) (k r : Key) : Prop :=
  ∃ B ∈ f.blocks, ∃ i ∈ B.body, k = .inst i.id ∧
    ∃ op src v, i.op = .cast op src v ∧ isLosslessCast op src i.ty ∧ key v = some r

/-- Values that are the same up to lossless bit casts. -/
def Shares (f : Function) : Key → Key → Prop := Relation.ReflTransGen (Casts f)

structure Invariant (f : Function) (s : Numbering) : Prop where
  size : s.revValueMap.length = s.id
  quiet : s.errs = []
  owner : ∀ (n : Nat) k, s.revValueMap[n]? = some k → s.find k = some (some n)
  shares : ∀ k n, s.find k = some (some n) → ∃ r, s.revValueMap[n]? = some r ∧ Shares f k r
  own : ∀ i n, s.find (.inst i) = some (some n) → i ∉ s.skipMap →
    s.revValueMap[n]? = some (Key.inst i)
  kept : ∀ i (n : Nat), s.revValueMap[n]? = some (Key.inst i) → i ∉ s.skipMap
  known : ∀ i ∈ s.skipMap, (s.find (.inst i)).isSome
  bound : ∀ k n, (k, some n) ∈ s.valueMap → n < s.id

namespace Numbering
variable {s : Numbering} {k r : Key}

theorem find_set (s : Numbering) (k : Key) (x : Option Nat) (r : Key) :
    (s.set k x).find r = if r = k then some x else s.find r := by
  by_cases h : r = k
  · simp [find, set, h]
  · have : (r == k) = false := by simpa using h
    simp [find, set, List.lookup_cons, h, this]

theorem find_handOut (s : Numbering) (k o r : Key) :
    (s.handOut k o).find r = if r = k then some (some s.id) else s.find r :=
  find_set s k (some s.id) r

theorem mem_of_find {x : Option Nat} (h : s.find k = some x) : (k, x) ∈ s.valueMap := by
  obtain ⟨before, after, split, -⟩ := List.lookup_eq_some_iff.mp h
  rw [split]
  simp

end Numbering

namespace Invariant
open Numbering
variable {f : Function} {s : Numbering} (inv : Invariant f s) {k : Key}
include inv

theorem find_lt {n : Nat} (h : s.find k = some (some n)) : n < s.id := inv.bound k n (mem_of_find h)

/-- Recording a value without an id. -/
theorem mark (new : s.find k = none) : Invariant f (s.set k none) := by
  have other : ∀ {r : Key} {x}, s.find r = some x → r ≠ k := by
    rintro r x h rfl
    rw [new] at h
    cases h
  constructor
  case size => exact inv.size
  case quiet => exact inv.quiet
  case owner =>
    intro n r h
    have old := inv.owner n r h
    rwa [find_set, if_neg (other old)]
  case shares =>
    intro r n h
    rw [find_set] at h
    by_cases same : r = k
    · simp [same] at h
    · exact inv.shares r n (by simpa [same] using h)
  case own =>
    intro i n h
    rw [find_set] at h
    by_cases same : Key.inst i = k
    · simp [same] at h
    · exact inv.own i n (by simpa [same] using h)
  case kept => exact inv.kept
  case known =>
    intro i hi
    rw [find_set]
    split_ifs
    · rfl
    · exact inv.known i hi
  case bound =>
    intro r n h
    rcases List.mem_cons.mp h with h | h
    · cases h
    · exact inv.bound r n h

/-- A dead instruction is also skipped. -/
theorem skipMark {i : Nat} (new : s.find (.inst i) = none) :
    Invariant f ((s.skip i).set (.inst i) none) := by
  have marked := inv.mark new
  have notOwner : ∀ (n : Nat) j, s.revValueMap[n]? = some (Key.inst j) → j ≠ i := by
    rintro n j h rfl
    rw [inv.owner n _ h] at new
    cases new
  refine { marked with own := ?_, kept := ?_, known := ?_ }
  · intro j n h notSkipped
    exact marked.own j n h (fun member => notSkipped (List.mem_cons_of_mem _ member))
  · intro j n h member
    rcases List.mem_cons.mp member with same | member
    · exact notOwner n j h same
    · exact inv.kept j n h member
  · intro j hj
    rcases List.mem_cons.mp hj with rfl | hj
    · simp [find_set]
    · exact marked.known j hj

/-- Handing out the next id. -/
theorem handOut (new : s.find k = none) : Invariant f (s.handOut k k) := by
  have other : ∀ {r : Key} {x}, s.find r = some x → r ≠ k := by
    rintro r x h rfl
    rw [new] at h
    cases h
  have rev : (s.handOut k k).revValueMap = s.revValueMap ++ [k] := if_pos inv.size
  have last : (s.revValueMap ++ [k])[s.id]? = some k := by rw [← inv.size]; simp
  have before : ∀ {n}, n < s.id → (s.revValueMap ++ [k])[n]? = s.revValueMap[n]? := by
    intro n hn
    rw [List.getElem?_append_left (by rwa [inv.size])]
  have split : ∀ {n r}, (s.revValueMap ++ [k])[n]? = some r →
      (n < s.id ∧ s.revValueMap[n]? = some r) ∨ (n = s.id ∧ r = k) := by
    intro n r h
    obtain ⟨short, -⟩ := List.getElem?_eq_some_iff.mp h
    rw [List.length_append, List.length_singleton, inv.size] at short
    by_cases hn : n < s.id
    · exact Or.inl ⟨hn, by rwa [before hn] at h⟩
    · have last' : n = s.id := by omega
      rw [last', last] at h
      exact Or.inr ⟨last', (Option.some.inj h).symm⟩
  constructor
  case size =>
    rw [rev, List.length_append, List.length_singleton, inv.size]
    rfl
  case quiet => exact inv.quiet
  case owner =>
    intro n r h
    rw [rev] at h
    rw [find_handOut]
    rcases split h with ⟨-, old⟩ | ⟨rfl, rfl⟩
    · rw [if_neg (other (inv.owner n r old)), inv.owner n r old]
    · rw [if_pos rfl]
  case shares =>
    intro r n h
    rw [find_handOut] at h
    rw [rev]
    by_cases same : r = k
    · simp only [same, if_true, Option.some.injEq] at h
      exact ⟨k, h ▸ last, same ▸ .refl⟩
    · rw [if_neg same] at h
      rw [before (inv.find_lt h)]
      exact inv.shares r n h
  case own =>
    intro i n h notSkipped
    rw [find_handOut] at h
    rw [rev]
    by_cases same : Key.inst i = k
    · simp only [same, if_true, Option.some.injEq] at h
      rw [same]
      exact h ▸ last
    · rw [if_neg same] at h
      rw [before (inv.find_lt h)]
      exact inv.own i n h notSkipped
  case kept =>
    intro i n h
    rw [rev] at h
    rcases split h with ⟨-, old⟩ | ⟨-, rfl⟩
    · exact inv.kept i n old
    · intro member
      have := inv.known i member
      rw [new] at this
      cases this
  case known =>
    intro i hi
    rw [find_handOut]
    split_ifs
    · rfl
    · exact inv.known i hi
  case bound =>
    intro r n h
    change n < s.id + 1
    rcases List.mem_cons.mp h with h | h
    · cases h
      omega
    · have := inv.bound r n h
      omega

/-- A lossless bit cast shares the id of its operand. -/
theorem share {i n : Nat} {v : Value} {r : Key} (new : s.find (.inst i) = none)
    (id : s.getValueID v = .ok n) (operand : key v = some r) (casts : Casts f (.inst i) r) :
    Invariant f ((s.skip i).set (.inst i) (some n)) := by
  have found : s.find r = some (some n) := by
    unfold getValueID at id
    rw [operand, Option.bind_some] at id
    split at id
    · cases id
    · cases id
    · next m h =>
      cases id
      exact h
  have other : ∀ {r : Key} {x}, s.find r = some x → r ≠ .inst i := by
    rintro r x h rfl
    rw [new] at h
    cases h
  have find : ∀ r, ((s.skip i).set (.inst i) (some n)).find r =
      if r = .inst i then some (some n) else s.find r := fun r => find_set (s.skip i) _ _ r
  constructor
  case size => exact inv.size
  case quiet => exact inv.quiet
  case owner =>
    intro m q h
    have old := inv.owner m q h
    rwa [find, if_neg (other old)]
  case shares =>
    intro q m h
    rw [find] at h
    by_cases same : q = .inst i
    · simp only [same, if_true, Option.some.injEq] at h
      subst h
      obtain ⟨o, rev, chain⟩ := inv.shares r n found
      exact ⟨o, rev, same ▸ .head casts chain⟩
    · rw [if_neg same] at h
      exact inv.shares q m h
  case own =>
    intro j m h notSkipped
    rw [find] at h
    by_cases same : Key.inst j = .inst i
    · cases same
      exact absurd List.mem_cons_self notSkipped
    · rw [if_neg same] at h
      exact inv.own j m h (fun member => notSkipped (List.mem_cons_of_mem _ member))
  case kept =>
    intro j m h member
    rcases List.mem_cons.mp member with rfl | member
    · rw [inv.owner m _ h] at new
      cases new
    · exact inv.kept j m h member
  case known =>
    intro j hj
    rw [find]
    split_ifs with same
    · rfl
    · rcases List.mem_cons.mp hj with rfl | hj
      · exact absurd rfl same
      · exact inv.known j hj
  case bound =>
    intro q m h
    rcases List.mem_cons.mp h with h | h
    · cases h
      exact inv.find_lt found
    · exact inv.bound q m h

end Invariant

theorem handOutOrReport_eq {f : Function} {s : Numbering} (inv : Invariant f s) (k r : Key) :
    s.handOutOrReport k r = s.handOut k r := by
  simp only [Numbering.handOutOrReport, if_pos inv.size]
  rfl

/-- An instruction that is read nowhere and does nothing. -/
def isDead (f : Function) (i : Inst) : Bool := useCount f i.id = 0 && !mayHaveSideEffects i.op

/-- Everything a round of the loop can do to an instruction that has not been seen. The branch
for a single-use store is never taken: a store has no value. -/
inductive Round (f : Function) (s : Numbering) (i : Inst) : Numbering → Prop
  | void (void : i.ty.isVoid) : Round f s i (s.set (.inst i.id) none)
  | dead (value : i.ty.isVoid = false) (dead : isDead f i) :
      Round f s i ((s.skip i.id).set (.inst i.id) none)
  | next (value : i.ty.isVoid = false) (live : isDead f i = false) :
      Round f s i (s.handOut (.inst i.id) (.inst i.id))
  | share (value : i.ty.isVoid = false) (live : isDead f i = false) {src : Ty} {v : Value} {n : Nat}
      (op : i.op = .cast .bitCast src v) (lossless : isLosslessCast .bitCast src i.ty)
      (id : s.getValueID v = .ok n) : Round f s i ((s.skip i.id).set (.inst i.id) (some n))

theorem numberPlain_eq {f : Function} {s : Numbering} (inv : Invariant f s) {i : Inst}
    (notStore : ∀ v a, i.op ≠ .store v a) :
    numberPlain f s i = .ok (s.handOut (.inst i.id) (.inst i.id)) := by
  have none : singleUseStore f i = none := by
    unfold singleUseStore
    split_ifs
    · split
      · next h => exact absurd h (notStore _ _)
      · rfl
    · rfl
  rw [numberPlain, none]
  exact congrArg Except.ok (handOutOrReport_eq inv _ _)

theorem numberInst_round {f : Function} {s s' : Numbering} (inv : Invariant f s) {i : Inst}
    (stores : ∀ v a, i.op = .store v a → i.ty.isVoid = true) (new : s.find (.inst i.id) = none)
    (h : numberInst f s i = .ok s') : Round f s i s' := by
  unfold numberInst at h
  rw [new, Option.isSome_none] at h
  simp only [Bool.false_eq_true, if_false] at h
  by_cases void : i.ty.isVoid
  · rw [if_pos void] at h
    cases h
    exact .void void
  rw [if_neg void] at h
  have value : i.ty.isVoid = false := Bool.eq_false_iff.mpr void
  by_cases dead : isDead f i
  · rw [isDead] at dead
    rw [if_pos dead] at h
    cases h
    exact .dead value dead
  have live : isDead f i = false := Bool.eq_false_iff.mpr dead
  rw [isDead] at dead
  rw [if_neg dead] at h
  have plain : numberPlain f s i = .ok s' → Round f s i s' := by
    intro h
    rw [numberPlain_eq inv (fun v a op => void (stores v a op))] at h
    cases h
    exact .next value live
  split at h
  · next src v op =>
    unfold numberBitCast at h
    by_cases lossless : isLosslessCast .bitCast src i.ty
    · rw [lossless, Bool.not_true, if_neg Bool.false_ne_true] at h
      split_ifs at h
      · cases h
        exact .next value live
      · split at h
        · next n id =>
          cases h
          exact .share value live op lossless id
        · cases h
    · simp [lossless] at h
  · cases h
  · cases h
  · exact plain h

namespace Round
open Numbering
variable {f : Function} {s s' : Numbering} {i : Inst} (round : Round f s i s')
include round

/-- The value of the instruction is recorded, whatever the branch, and nothing else. -/
theorem find (r : Key) : ∃ x, s'.find r = if r = .inst i.id then some x else s.find r := by
  cases round with
  | void => exact ⟨none, find_set _ _ _ _⟩
  | dead => exact ⟨none, find_set _ _ _ _⟩
  | next => exact ⟨some s.id, find_handOut _ _ _ _⟩
  | @share _ _ _ _ n => exact ⟨some n, find_set _ _ _ _⟩

theorem invariant (inv : Invariant f s) {B : Block} (hB : B ∈ f.blocks) (hi : i ∈ B.body)
    (new : s.find (.inst i.id) = none) : Invariant f s' := by
  cases round with
  | void => exact inv.mark new
  | dead => exact inv.skipMark new
  | next => exact inv.handOut new
  | @share _ _ src v n op lossless id =>
    obtain ⟨r, operand⟩ : ∃ r, key v = some r := by
      cases operand : key v with
      | none => simp [getValueID, operand] at id
      | some r => exact ⟨r, rfl⟩
    exact inv.share new id operand ⟨B, hB, i, hi, rfl, .bitCast, src, v, op, lossless, operand⟩

end Round

/-! From one round to the whole loop. -/

/-- Nothing that was recorded is taken back. -/
structure Grows (s s' : Numbering) : Prop where
  find : ∀ k x, s.find k = some x → s'.find k = some x
  skip : ∀ i ∈ s.skipMap, i ∈ s'.skipMap
  rev : s.revValueMap <+: s'.revValueMap

theorem Grows.refl (s : Numbering) : Grows s s := ⟨fun _ _ h => h, fun _ h => h, List.prefix_refl _⟩

theorem Grows.trans {r s t : Numbering} (first : Grows r s) (second : Grows s t) : Grows r t where
  find := fun k x h => second.find k x (first.find k x h)
  skip := fun i h => second.skip i (first.skip i h)
  rev := first.rev.trans second.rev

/-- What is known of an instruction after its round: without an id it is void, or dead and
skipped. -/
def Done (f : Function) (s : Numbering) (i : Inst) : Prop :=
  ∃ x, s.find (.inst i.id) = some x ∧
    (x = none → i.ty.isVoid = true ∨ (isDead f i = true ∧ i.id ∈ s.skipMap))

theorem Done.grows {f : Function} {s s' : Numbering} {i : Inst} (done : Done f s i)
    (grows : Grows s s') : Done f s' i := by
  obtain ⟨x, found, why⟩ := done
  exact ⟨x, grows.find _ x found, fun h => (why h).imp_right (And.imp_right (grows.skip i.id))⟩

namespace Round
open Numbering
variable {f : Function} {s s' : Numbering} {i : Inst} (round : Round f s i s')
include round

theorem grows (new : s.find (.inst i.id) = none) : Grows s s' := by
  constructor
  · intro k x h
    have other : k ≠ .inst i.id := by
      rintro rfl
      rw [new] at h
      cases h
    obtain ⟨y, at_k⟩ := round.find k
    rwa [at_k, if_neg other]
  · cases round with
    | void => exact fun _ h => h
    | dead => exact fun _ h => List.mem_cons_of_mem _ h
    | next => exact fun _ h => h
    | share => exact fun _ h => List.mem_cons_of_mem _ h
  · cases round with
    | void => exact List.prefix_refl _
    | dead => exact List.prefix_refl _
    | next =>
      unfold handOut
      dsimp only
      split_ifs
      · exact List.prefix_append _ _
      · exact List.prefix_refl _
    | share => exact List.prefix_refl _

theorem done : Done f s' i := by
  cases round with
  | void void => exact ⟨none, by rw [find_set, if_pos rfl], fun _ => Or.inl void⟩
  | dead _ dead =>
      exact ⟨none, by rw [find_set, if_pos rfl], fun _ => Or.inr ⟨dead, List.mem_cons_self⟩⟩
  | next => exact ⟨some s.id, by rw [find_handOut, if_pos rfl], nofun⟩
  | @share _ _ _ _ n => exact ⟨some n, by rw [find_set, if_pos rfl], nofun⟩

end Round

section Loop
variable {f : Function}

def Unseen (s : Numbering) (ids : List Nat) : Prop := ∀ j ∈ ids, s.find (.inst j) = none

theorem numberBody_done (wf : f.WellFormed) {B : Block} (hB : B ∈ f.blocks) {is : List Inst}
    (members : ∀ i ∈ is, i ∈ B.body) {later : List Nat} (nodup : (is.map Inst.id ++ later).Nodup)
    {s s' : Numbering} (inv : Invariant f s) (unseen : Unseen s (is.map Inst.id ++ later))
    (h : numberBody f s is = .ok s') :
    Invariant f s' ∧ Grows s s' ∧ (∀ i ∈ is, Done f s' i) ∧ Unseen s' later := by
  induction is generalizing s with
  | nil =>
    cases h
    exact ⟨inv, .refl _, nofun, unseen⟩
  | cons i is ih =>
    rw [numberBody] at h
    cases first : numberInst f s i with
    | error e => rw [first] at h; cases h
    | ok t =>
      rw [first] at h
      rw [List.map_cons, List.cons_append, List.nodup_cons] at nodup
      have new : s.find (.inst i.id) = none := unseen i.id (by simp)
      have round :=
        numberInst_round inv (wf.storeTypes B hB i (members i List.mem_cons_self)) new first
      have unseen' : Unseen t (is.map Inst.id ++ later) := by
        intro j hj
        have other : Key.inst j ≠ .inst i.id := by
          intro same
          cases same
          exact nodup.1 hj
        obtain ⟨x, at_j⟩ := round.find (.inst j)
        rw [at_j, if_neg other]
        exact unseen j (by rw [List.map_cons, List.cons_append]; exact List.mem_cons_of_mem _ hj)
      obtain ⟨inv', grows, done, rest⟩ :=
        ih (fun j hj => members j (List.mem_cons_of_mem i hj)) nodup.2
        (round.invariant inv hB (members i List.mem_cons_self) new) unseen' h
      refine ⟨inv', (round.grows new).trans grows, ?_, rest⟩
      intro j hj
      rcases List.mem_cons.mp hj with rfl | hj
      · exact round.done.grows grows
      · exact done j hj

/-- The instructions in the order of the loop. -/
def layoutIds (Bs : List Block) : List Nat := Bs.flatMap fun B => B.body.map Inst.id ++ [B.termId]

theorem layoutIds_nodup (wf : f.WellFormed) : (layoutIds f.blocks).Nodup := by
  have ids := wf.ids
  refine List.Sublist.nodup ?_ ids
  unfold layoutIds
  generalize f.blocks = blocks
  induction blocks with
  | nil => exact List.Sublist.refl _
  | cons B rest ih =>
    rw [List.flatMap_cons, List.flatMap_cons]
    refine List.Sublist.append ?_ ih
    unfold Block.ids
    rw [List.append_assoc]
    exact List.sublist_append_right _ _

theorem numberTerm_done {s : Numbering} {i : Nat} {later : List Nat} (nodup : (i :: later).Nodup)
    (inv : Invariant f s) (unseen : Unseen s (i :: later)) :
    Invariant f (numberTerm s i) ∧ Grows s (numberTerm s i) ∧ Unseen (numberTerm s i) later := by
  have new : s.find (.inst i) = none := unseen i List.mem_cons_self
  have marked : numberTerm s i = s.set (.inst i) none := by
    rw [numberTerm, new, Option.isSome_none, if_neg Bool.false_ne_true]
  rw [marked]
  refine ⟨inv.mark new, ⟨?_, fun _ h => h, List.prefix_refl _⟩, ?_⟩
  · intro k x h
    have other : k ≠ .inst i := by
      rintro rfl
      rw [new] at h
      cases h
    rwa [Numbering.find_set, if_neg other]
  · intro j hj
    rw [List.nodup_cons] at nodup
    have other : Key.inst j ≠ .inst i := by
      intro same
      cases same
      exact nodup.1 hj
    rw [Numbering.find_set, if_neg other]
    exact unseen j (List.mem_cons_of_mem _ hj)

theorem numberBlocks_done (wf : f.WellFormed) {Bs : List Block} (members : ∀ B ∈ Bs, B ∈ f.blocks)
    (nodup : (layoutIds Bs).Nodup) {s s' : Numbering} (inv : Invariant f s)
    (unseen : Unseen s (layoutIds Bs)) (h : numberBlocks f s Bs = .ok s') :
    Invariant f s' ∧ Grows s s' ∧ ∀ B ∈ Bs, ∀ i ∈ B.body, Done f s' i := by
  induction Bs generalizing s with
  | nil =>
    cases h
    exact ⟨inv, .refl _, nofun⟩
  | cons B Bs ih =>
    rw [numberBlocks] at h
    cases body : numberBody f s B.body with
    | error e => rw [body] at h; cases h
    | ok t =>
      rw [body] at h
      rw [layoutIds, List.flatMap_cons, List.append_assoc] at nodup unseen
      obtain ⟨inv₁, grows₁, done₁, unseen₁⟩ := numberBody_done wf (members B List.mem_cons_self)
        (fun _ h => h) nodup inv unseen body
      obtain ⟨inv₂, grows₂, unseen₂⟩ :=
        numberTerm_done (List.nodup_append.mp nodup).2.1 inv₁ unseen₁
      obtain ⟨inv₃, grows₃, done₃⟩ := ih (fun C hC => members C (List.mem_cons_of_mem B hC))
        (List.nodup_cons.mp (List.nodup_append.mp nodup).2.1).2 inv₂ unseen₂ h
      refine ⟨inv₃, grows₁.trans (grows₂.trans grows₃), ?_⟩
      intro C hC i hi
      rcases List.mem_cons.mp hC with rfl | hC
      · exact (done₁ i hi).grows (grows₂.trans grows₃)
      · exact done₃ C hC i hi

theorem numberArgs_done (n : Nat) : Invariant f (numberArgs n) ∧
    (numberArgs n).revValueMap = (List.range n).map Key.arg ∧
      ∀ k x, (numberArgs n).find k = some x →
      ∃ i < n, k = .arg i ∧ x = some i := by
  induction n with
  | zero =>
    refine ⟨?_, rfl, by simp [numberArgs, Numbering.empty, Numbering.find]⟩
    constructor <;> simp [numberArgs, Numbering.empty, Numbering.find]
  | succ n ih =>
    obtain ⟨inv, rev, only⟩ := ih
    have step : numberArgs (n + 1) = (numberArgs n).handOut (.arg n) (.arg n) := by
      simp only [numberArgs, List.range_succ, List.foldl_append, List.foldl_cons, List.foldl_nil]
    have new : (numberArgs n).find (.arg n) = none := by
      cases h : (numberArgs n).find (.arg n) with
      | none => rfl
      | some x =>
        obtain ⟨i, hi, same, -⟩ := only _ x h
        cases same
        omega
    have size : (numberArgs n).id = n := by rw [← inv.size, rev]; simp
    rw [step]
    refine ⟨inv.handOut new, ?_, ?_⟩
    · rw [List.range_succ, List.map_append, ← rev]
      exact if_pos inv.size
    · intro k x h
      rw [Numbering.find_handOut] at h
      by_cases same : k = .arg n
      · rw [if_pos same, size] at h
        exact ⟨n, Nat.lt_succ_self n, same, (Option.some.inj h).symm⟩
      · rw [if_neg same] at h
        obtain ⟨i, hi, rfl, rfl⟩ := only k x h
        exact ⟨i, by omega, rfl, rfl⟩

/-- The maps at the end of the loop. -/
structure Numbered (f : Function) (s : Numbering) : Prop where
  inv : Invariant f s
  args : (List.range f.args.length).map Key.arg <+: s.revValueMap
  done : ∀ B ∈ f.blocks, ∀ i ∈ B.body, Done f s i

theorem number_numbered (wf : f.WellFormed) {s : Numbering} (h : number f = .ok s) :
    Numbered f s := by
  obtain ⟨inv, rev, only⟩ := numberArgs_done (f := f) f.args.length
  have unseen : Unseen (numberArgs f.args.length) (layoutIds f.blocks) := by
    intro j _
    cases found : (numberArgs f.args.length).find (.inst j) with
    | none => rfl
    | some x =>
      obtain ⟨i, -, same, -⟩ := only _ x found
      cases same
  obtain ⟨inv', grows, done⟩ :=
    numberBlocks_done wf (fun _ h => h) (layoutIds_nodup wf) inv unseen h
  exact ⟨inv', rev ▸ grows.rev, done⟩

end Loop

/-! The reverse map. -/

section Reverse
variable {s : Numbering}

/-- The id that `buildReverseMap` takes into account for an entry. -/
def counted (s : Numbering) : Key × Option Nat → Option Nat
  | (.inst i, some n) => if i ∈ s.skipMap then none else some n
  | (.arg _, some n) => some n
  | (_, none) => none

theorem largestId_eq (s : Numbering) :
    largestId s = s.valueMap.foldl (fun m e => ((counted s e).map (max m)).getD m) 0 := by
  unfold largestId
  congr 1
  funext m ⟨k, x⟩
  have keep : ∀ n, (if n > m then n else m) = max m n := by
    intro n
    split_ifs <;> omega
  cases x with
  | none => cases k <;> rfl
  | some n =>
    cases k with
    | arg i => simp [counted, keep]
    | inst i => by_cases skipped : i ∈ s.skipMap <;> simp [counted, skipped, keep]

theorem largest_le {es : List (Key × Option Nat)} {m b : Nat} (start : m ≤ b)
    (all : ∀ e ∈ es, ∀ n, counted s e = some n → n ≤ b) :
    es.foldl (fun m e => ((counted s e).map (max m)).getD m) m ≤ b := by
  induction es generalizing m with
  | nil => exact start
  | cons e es ih =>
    refine ih ?_ (fun d hd => all d (List.mem_cons_of_mem e hd))
    cases h : counted s e with
    | none => simpa [h] using start
    | some n => simpa [h] using Nat.max_le.mpr ⟨start, all e List.mem_cons_self n h⟩

theorem le_largest {es : List (Key × Option Nat)} {m n : Nat}
    (reached : n ≤ m ∨ ∃ e ∈ es, counted s e = some n) :
    n ≤ es.foldl (fun m e => ((counted s e).map (max m)).getD m) m := by
  induction es generalizing m with
  | nil => simpa using reached
  | cons e es ih =>
    refine ih ?_
    rcases reached with le | ⟨d, hd, value⟩
    · left
      cases h : counted s e with
      | none => simpa [h] using le
      | some k => simpa [h] using Nat.le_trans le (Nat.le_max_left m k)
    · rcases List.mem_cons.mp hd with rfl | hd
      · left
        simpa [value] using Nat.le_max_right m n
      · exact Or.inr ⟨d, hd, value⟩

/-- The count agrees with the reverse map, so the mismatch is never reported. -/
theorem buildReverseMap_eq {f : Function} (inv : Invariant f s) :
    buildReverseMap s = some s.revValueMap := by
  unfold buildReverseMap
  refine if_neg fun ⟨nonzero, mismatch⟩ => mismatch ?_
  have below : ∀ e ∈ s.valueMap, ∀ n, counted s e = some n → n < s.id := by
    rintro ⟨k, x⟩ he n value
    have eq : x = some n := by
      cases x with
      | none => cases k <;> cases value
      | some m =>
        cases k with
        | arg i => exact value
        | inst i =>
          simp only [counted] at value
          split_ifs at value
          exact value
    exact inv.bound k n (eq ▸ he)
  have positive : 0 < s.id := by
    by_contra zero
    apply nonzero
    rw [largestId_eq]
    refine Nat.le_zero.mp (largest_le (Nat.le_refl 0) fun e he n value => ?_)
    have := below e he n value
    omega
  have top : largestId s ≤ s.id - 1 := by
    rw [largestId_eq]
    refine largest_le (Nat.zero_le _) fun e he n value => ?_
    have := below e he n value
    omega
  have reached : s.id - 1 ≤ largestId s := by
    rw [largestId_eq]
    have short : s.id - 1 < s.revValueMap.length := by rw [inv.size]; omega
    have last : s.revValueMap[s.id - 1]? = some s.revValueMap[s.id - 1] :=
      List.getElem?_eq_getElem short
    generalize s.revValueMap[s.id - 1] = k at last
    refine le_largest (Or.inr ⟨_, Numbering.mem_of_find (inv.owner _ _ last), ?_⟩)
    cases k with
    | arg i => rfl
    | inst i => exact if_neg (inv.kept i _ last)
  rw [inv.size]
  omega

end Reverse

end ValueNumbering
