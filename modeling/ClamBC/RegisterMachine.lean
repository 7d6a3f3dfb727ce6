import ClamBC.WriterOperands

/-!
# Running a function on numbered registers

The ids that the register allocator hands out name the registers of the interpreter.
`assign` is the function as it is written: every operand is read from the register of its
id, every result goes to the register of its id, and what the skip map lists is not there.
The function that results is no longer in SSA form, but `IrExec` runs it all the same.

An `alloca` has a register, which is the allocated object itself; it is not printed and
its object is made when control reaches it. Reading and writing the object of a removed
phi are copies from and to this register.

Dead instructions are left out, so a run of the machine may go on where the function
traps. Up to this point, and throughout if nothing traps, the two runs agree.
-/

namespace RegisterMachine

open Ir IrExec PhiElimination SsaForm ValueNumbering SharedRegisters WriterOperands

/-- Where a value is read. Constants are printed as they are. -/
def register (num : Numbering) (v : Value) : Value :=
  match num.getValueID v with
  | .ok n => .inst n
  | .error _ => v

/-- Where a result goes. Without an id it is not printed and never read. -/
def resultRegister (num : Numbering) (i : Nat) : Nat :=
  match num.find (.inst i) with
  | some (some n) => n
  | _ => num.id + i

/-- Allocas stay, as they make their object. -/
def isKept (num : Numbering) (i : Inst) : Bool :=
  match i.op with
  | .alloca _ => true
  | _ => emitted num i

def assignInst (num : Numbering) (i : Inst) : Inst :=
  ⟨resultRegister num i.id, i.ty, i.op.map (register num)⟩

def assignBody (num : Numbering) (is : List Inst) : List Inst :=
  (is.filter (isKept num)).map (assignInst num)

def assignBlock (num : Numbering) (B : Block) : Block :=
  { B with
    body := assignBody num B.body
    termId := resultRegister num B.termId
    term := B.term.map (register num) }

def assign (num : Numbering) (f : Function) : Function :=
  { f with
    blocks := f.blocks.map (assignBlock num)
    nextId := num.id + f.nextId }

/-- The instruction whose result a register holds. -/
def owner (num : Numbering) (n : Nat) : Option Nat :=
  match num.revValueMap[n]? with
  | some (.inst i) => some i
  | some (.arg _) => none
  | none => some (n - num.id)

/-- The registers that are objects of their own. -/
def cellRegister (num : Numbering) (cell : Nat → Bool) (n : Nat) : Bool := (owner num n).any cell

section
universe u
variable {V M : Type u} (S : Sem V M)

/-- The arguments are passed in the first registers. -/
def start (args : Nat → V) (arity : Nat) (mem : M) : State V M :=
  ⟨fun n => if n < arity then args n else S.undef, fun _ => S.undef, mem⟩

/-- A call of a written function. -/
def callRegisters (args : Nat → V) (cell : Nat → Bool) (f : Function) (n : Nat) (mem : M) :
    List (Visit V M) :=
  match f.entry with
  | none => []
  | some B => run S args cell f n none B.label (start S args f.args.length mem)

variable {S} in
theorem execBody_next {args : Nat → V} {cell : Nat → Bool} {i : Inst} {is : List Inst}
    {s s' : State V M} {x : V} (ran : exec S args cell i s = some (x, s')) :
    execBody S args cell (i :: is) s =
      (⟨i.id, s, i.op.map (eval S args s.regs), some x⟩ ::
          (execBody S args cell is (s'.setReg i.id x)).1,
        (execBody S args cell is (s'.setReg i.id x)).2) := by
  rw [execBody, ran]

variable {S} in
theorem execBody_trap {args : Nat → V} {cell : Nat → Bool} {i : Inst} {is : List Inst}
    {s : State V M} (ran : exec S args cell i s = none) :
    execBody S args cell (i :: is) s =
      ([⟨i.id, s, i.op.map (eval S args s.regs), none⟩], none) := by
  rw [execBody, ran]

/-- What has no side effects leaves the memory as it is. -/
def Quiet : Prop :=
  ∀ (o : Op Value) (e : Value → V) (ty : Ty) (m : M) (x : V) (m' : M),
    mayHaveSideEffects o = false → (∀ size, o ≠ .alloca size) →
    S.op ty (o.map e) m = some (x, m') → m' = m

end

/-! What the numbering skips. -/

section Skipped
variable {f : Function} {num : Numbering}

def HasValue (f : Function) (i : Nat) : Prop :=
  ∃ B ∈ f.blocks, ∃ j ∈ B.body, j.id = i ∧ j.ty.isVoid = false

/-- Only instructions with a value are skipped or own an id, besides the arguments. -/
structure Tidy (f : Function) (num : Numbering) : Prop where
  skipped : ∀ i ∈ num.skipMap, HasValue f i
  values : ∀ i, Key.inst i ∈ num.revValueMap → HasValue f i
  args : ∀ i, Key.arg i ∈ num.revValueMap → i < f.args.length

theorem Tidy.set (tidy : Tidy f num) (k : Key) (x : Option Nat) : Tidy f (num.set k x) :=
  ⟨tidy.skipped, tidy.values, tidy.args⟩

theorem Tidy.skip (tidy : Tidy f num) {i : Nat} (value : HasValue f i) : Tidy f (num.skip i) := by
  refine ⟨fun j hj => ?_, tidy.values, tidy.args⟩
  rcases List.mem_cons.mp hj with rfl | hj
  · exact value
  · exact tidy.skipped j hj

theorem Tidy.handOut (tidy : Tidy f num) (k : Key) {i : Nat} (value : HasValue f i) :
    Tidy f (num.handOut k (.inst i)) := by
  have cases : ∀ o, o ∈ (num.handOut k (.inst i)).revValueMap →
      o ∈ num.revValueMap ∨ o = .inst i := by
    intro o ho
    unfold Numbering.handOut at ho
    dsimp only at ho
    split_ifs at ho
    · simpa using ho
    · exact Or.inl ho
  refine ⟨tidy.skipped, fun j hj => ?_, fun j hj => ?_⟩
  · rcases cases _ hj with old | same
    · exact tidy.values j old
    · cases same
      exact value
  · rcases cases _ hj with old | same
    · exact tidy.args j old
    · cases same

theorem Tidy.report (tidy : Tidy f num) (k : Key) {i : Nat} (value : HasValue f i) :
    Tidy f (num.handOutOrReport k (.inst i)) :=
  ⟨(tidy.handOut k value).skipped, (tidy.handOut k value).values, (tidy.handOut k value).args⟩

theorem numberPlain_tidy (tidy : Tidy f num) {i : Inst} (value : HasValue f i.id)
    {num' : Numbering}
    (h : numberPlain f num i = .ok num') : Tidy f num' := by
  unfold numberPlain at h
  split at h
  · split at h
    · next a _ _ _ =>
      have known : Tidy f (if (num.find a).isSome then num
          else num.handOutOrReport a (.inst i.id)) := by
        split_ifs
        · exact tidy
        · exact tidy.report _ value
      dsimp only at h
      split at h
      · cases h
        exact known.set _ _
      · cases h
    · cases h
      exact tidy.report _ value
  · cases h
    exact tidy.report _ value

theorem numberInst_tidy (tidy : Tidy f num) {B : Block} (hB : B ∈ f.blocks) {i : Inst}
    (hi : i ∈ B.body) {num' : Numbering} (h : numberInst f num i = .ok num') : Tidy f num' := by
  unfold numberInst at h
  split_ifs at h with seen void dead
  · cases h
    exact tidy
  · cases h
    exact tidy.set _ _
  · cases h
    exact (tidy.skip ⟨B, hB, i, hi, rfl, Bool.eq_false_iff.mpr void⟩).set _ _
  · have value : HasValue f i.id := ⟨B, hB, i, hi, rfl, Bool.eq_false_iff.mpr void⟩
    split at h
    · unfold numberBitCast at h
      split_ifs at h
      · cases h
        exact tidy.handOut _ value
      · split at h
        · cases h
          exact (tidy.skip value).set _ _
        · cases h
    · cases h
    · cases h
    · exact numberPlain_tidy tidy value h

theorem numberBody_tidy {B : Block} (hB : B ∈ f.blocks) {is : List Inst}
    (members : ∀ i ∈ is, i ∈ B.body) (tidy : Tidy f num) {num' : Numbering}
    (h : numberBody f num is = .ok num') : Tidy f num' := by
  induction is generalizing num with
  | nil =>
    cases h
    exact tidy
  | cons i is ih =>
    rw [numberBody] at h
    split at h
    · next s first =>
      exact ih (fun j hj => members j (List.mem_cons_of_mem i hj))
        (numberInst_tidy tidy hB (members i List.mem_cons_self) first) h
    · cases h

theorem numberBlocks_tidy {Bs : List Block} (members : ∀ B ∈ Bs, B ∈ f.blocks)
    (tidy : Tidy f num) {num' : Numbering} (h : numberBlocks f num Bs = .ok num') :
    Tidy f num' := by
  induction Bs generalizing num with
  | nil =>
    cases h
    exact tidy
  | cons B Bs ih =>
    rw [numberBlocks] at h
    split at h
    · next s body =>
      have first := numberBody_tidy (members B List.mem_cons_self) (fun _ h => h) tidy body
      refine ih (fun C hC => members C (List.mem_cons_of_mem B hC)) ?_ h
      unfold numberTerm
      split_ifs
      · exact first
      · exact first.set _ _
    · cases h

theorem number_tidy (h : number f = .ok num) : Tidy f num := by
  have noneSkipped : ∀ n, (numberArgs n).skipMap = [] := by
    intro n
    unfold numberArgs
    induction n with
    | zero => rfl
    | succ n ih =>
      rw [List.range_succ, List.foldl_append]
      exact ih
  have rev := (numberArgs_done (f := f) f.args.length).2.1
  refine numberBlocks_tidy (fun _ h => h) ⟨?_, ?_, ?_⟩ h
  · rw [noneSkipped]
    intro i hi
    cases hi
  · rw [rev]
    intro i hi
    obtain ⟨j, -, same⟩ := List.mem_map.mp hi
    cases same
  · rw [rev]
    intro i hi
    obtain ⟨j, hj, same⟩ := List.mem_map.mp hi
    cases same
    exact List.mem_range.mp hj

theorem dropped_cases {i : Inst} (dropped : isKept num i = false) :
    (∀ size, i.op ≠ .alloca size) ∧ (i.op = .dbg ∨ i.id ∈ num.skipMap) := by
  cases op : i.op <;> simp_all [isKept, emitted]

variable (wf : f.WellFormed) (numbered : Numbered f num) {B : Block} (hB : B ∈ f.blocks)
  {i : Inst} (hi : i ∈ B.body)
include wf numbered hB hi

/-- The casts at the head of a chain are known by their instruction. -/
theorem owns_or_casts {n : Nat} (found : num.find (.inst i.id) = some (some n)) :
    num.revValueMap[n]? = some (.inst i.id) ∨
      ∃ op src v, i.op = .cast op src v ∧ isLosslessCast op src i.ty = true := by
  obtain ⟨r, rev, shares⟩ := numbered.inv.shares _ n found
  rcases shares.cases_head with rfl | ⟨y, ⟨C, hC, j, hj, same, op, src, v, cast, lossless, -⟩, -⟩
  · exact Or.inl rev
  · obtain ⟨-, rfl⟩ := wf.inst_unique hB hC hi hj (Key.inst.inj same)
    exact Or.inr ⟨op, src, v, cast, lossless⟩

/-- What is skipped is dead or shares the register of the value that it casts. -/
theorem skipped_cases (tidy : Tidy f num) (skipped : i.id ∈ num.skipMap) : isDead f i = true ∨
    ∃ op src v, i.op = .cast op src v ∧ isLosslessCast op src i.ty = true := by
  obtain ⟨x, found, why⟩ := numbered.done B hB i hi
  cases x with
  | none =>
    rcases why rfl with void | ⟨dead, -⟩
    · obtain ⟨C, hC, j, hj, same, value⟩ := tidy.skipped i.id skipped
      obtain ⟨-, rfl⟩ := wf.inst_unique hC hB hj hi same
      rw [void] at value
      cases value
    · exact Or.inl dead
  | some n =>
    rcases owns_or_casts wf numbered hB hi found with rev | casts
    · exact absurd skipped (numbered.inv.kept i.id n rev)
    · exact Or.inr casts

/-- A result that is kept owns its register. -/
theorem kept_owner (kept : isKept num i = true) :
    owner num (resultRegister num i.id) = some i.id := by
  obtain ⟨x, found, -⟩ := numbered.done B hB i hi
  cases x with
  | none =>
    have past : num.revValueMap[num.id + i.id]? = none :=
      List.getElem?_eq_none (by rw [numbered.inv.size]; omega)
    simp only [resultRegister, found, owner, past, Nat.add_sub_cancel_left]
  | some n =>
    have own : num.revValueMap[n]? = some (.inst i.id) := by
      rcases owns_or_casts wf numbered hB hi found with rev | ⟨op, src, v, cast, -⟩
      · exact rev
      · refine numbered.inv.own i.id n found fun skipped => ?_
        simp [isKept, emitted, cast, skipped] at kept
    simp only [resultRegister, found, owner, own]

/-- What is not printed does nothing besides computing a value. -/
theorem dropped_silent (tidy : Tidy f num) (dropped : isKept num i = false) :
    mayHaveSideEffects i.op = false ∧ ∀ size, i.op ≠ .alloca size := by
  obtain ⟨notAlloca, debug | skipped⟩ := dropped_cases dropped
  · exact ⟨by rw [debug]; rfl, notAlloca⟩
  · refine ⟨?_, notAlloca⟩
    rcases skipped_cases wf numbered hB hi tidy skipped with dead | ⟨op, src, v, cast, -⟩
    · simp only [isDead, Bool.and_eq_true, Bool.not_eq_true'] at dead
      exact dead.2
    · rw [cast]
      rfl

/-- What is not printed owns no register, debug intrinsics being void. -/
theorem dropped_owns_nothing (tidy : Tidy f num) (debug : i.op = .dbg → i.ty.isVoid = true)
    (dropped : isKept num i = false) (n : Nat) : num.revValueMap[n]? ≠ some (.inst i.id) := by
  intro rev
  obtain ⟨C, hC, j, hj, same, value⟩ := tidy.values i.id (List.mem_of_getElem? rev)
  obtain ⟨-, rfl⟩ := wf.inst_unique hC hB hj hi same
  rcases (dropped_cases dropped).2 with op | skipped
  · rw [debug op] at value
    cases value
  · exact numbered.inv.kept j.id n rev skipped

end Skipped

/-! One instruction. -/

section Step
universe u
variable {V M : Type u} (S : Sem V M) (args : Nat → V) (cell : Nat → Bool)
variable (f : Function) (num : Numbering)

/-- Memory that is listed as a cell belongs to an `alloca` that is read and written
directly. -/
structure CellsApart (cell : Nat → Bool) (f : Function) : Prop where
  alloca : ∀ B ∈ f.blocks, ∀ i ∈ B.body, cell i.id → ∃ size, i.op = .alloca size
  accessed : ∀ a, cell a → OnlyAccessed f a

/-- The machine has the value of everything that owns a register and is available. -/
structure Held (l : Label) (k : Nat) (s t : State V M) : Prop where
  regs : ∀ (n : Nat) i, num.revValueMap[n]? = some (.inst i) → Available f i l k →
    t.regs n = s.regs i
  args : ∀ i, i < f.args.length → t.regs i = args i
  cells : ∀ B ∈ f.blocks, ∀ i ∈ B.body, cell i.id →
    t.cells (resultRegister num i.id) = s.cells i.id
  mem : t.mem = s.mem

/-- What the passes promise about a function that is written. -/
structure Ready : Prop where
  ssa : Ssa f
  phiFree : ∀ B ∈ f.blocks, B.phis = []
  numbered : Numbered f num
  tidy : Tidy f num
  cells : CellsApart cell f
  debug : ∀ B ∈ f.blocks, ∀ i ∈ B.body, i.op = .dbg → i.ty.isVoid = true

variable {S args cell f num} (ready : Ready cell f num)
include ready

theorem Ready.arg_register {i : Nat} (few : i < f.args.length) :
    register num (.arg i) = .inst i ∧ owner num i = none := by
  have sound := (Numbered.sound (f := f) ready.numbered rfl).args i few
  constructor
  · simp only [register, getValueID_of_find (v := .arg i) rfl sound.2]
  · simp only [owner, sound.1]

/-- The register of a used instruction, and what it holds. -/
theorem Ready.used_register {d : Nat} (used : UsedIn f (.inst d)) :
    ∃ n, num.find (.inst d) = some (some n) ∧ register num (.inst d) = .inst n := by
  obtain ⟨A, hA, j, hj, rfl, value, live⟩ := used_live ready.ssa.wf ready.phiFree used
  obtain ⟨n, found⟩ := Done.id (ready.numbered.done A hA j hj) value live
  exact ⟨n, found, by simp only [register, getValueID_of_find (v := .inst j.id) rfl found]⟩

/-- An operand is read from a register that is an object if and only if it names one. -/
theorem Ready.cell_register {d n : Nat} (used : UsedIn f (.inst d))
    (found : num.find (.inst d) = some (some n)) : cellRegister num cell n = cell d := by
  obtain ⟨A, hA, j, hj, rfl, -, -⟩ := used_live ready.ssa.wf ready.phiFree used
  obtain ⟨r, rev, shares⟩ := ready.numbered.inv.shares _ n found
  rcases shares.cases_tail with same | ⟨y, -, C, hC, i, hi, -, op, src, v, cast, -, operand⟩
  · subst same
    simp only [cellRegister, owner, rev, Option.any_some]
  rcases shares.cases_head with same | ⟨y, ⟨D, hD, k, hk, same, op', src', v', cast', -⟩, -⟩
  · subst same
    simp only [cellRegister, owner, rev, Option.any_some]
  -- the register belongs to what the operand casts, and neither of the two is an object
  obtain ⟨-, rfl⟩ := ready.ssa.wf.inst_unique hA hD hj hk (Key.inst.inj same)
  have notCell : cell j.id = false := Bool.eq_false_iff.mpr fun isCell => by
    obtain ⟨size, alloca⟩ := ready.cells.alloca A hA j hj isCell
    rw [cast'] at alloca
    cases alloca
  rw [notCell]
  cases r with
  | arg b => simp only [cellRegister, owner, rev, Option.any_none]
  | inst b =>
    simp only [cellRegister, owner, rev, Option.any_some]
    refine Bool.eq_false_iff.mpr fun isCell => ?_
    have use : Value.inst b ∈ i.op.operands := by
      cases v <;> cases operand
      rw [cast]
      exact List.mem_singleton_self _
    rcases (ready.cells.accessed b isCell C hC).2.1 i hi use with ⟨vol, load⟩ | ⟨w, -, store⟩
    · rw [cast] at load
      cases load
    · rw [cast] at store
      cases store

/-- Every operand is read with its value. -/
theorem Held.eval {B : Block} (hB : B ∈ f.blocks) (reach : Reachable f B.label) {k : Nat}
    {s t : State V M} (held : Held args cell f num B.label k s t)
    (settled : Settled S args f B.label k s) {v : Value} (used : UsedIn f v)
    (avail : ∀ d, v = .inst d → Available f d B.label k) :
    IrExec.eval S args t.regs (register num v) = IrExec.eval S args s.regs v := by
  cases v with
  | const c => rfl
  | arg i =>
    obtain ⟨C, hC, use⟩ := used
    have few := ready.ssa.wf.argUses C hC i use
    rw [(ready.arg_register few).1]
    exact held.args i few
  | inst d =>
    obtain ⟨n, found, read⟩ := ready.used_register used
    rw [read]
    obtain ⟨r, rev, shares⟩ := ready.numbered.inv.shares _ n found
    obtain ⟨here, same⟩ := Shares.same_value ready.ssa hB reach settled shares (avail d rfl)
    refine Eq.trans ?_ same.symm
    cases r with
    | inst i => exact held.regs n i rev here
    | arg i =>
      have few := ready.tidy.args i (List.mem_of_getElem? rev)
      have known := ready.numbered.inv.owner n _ rev
      rw [((Numbered.sound (f := f) ready.numbered rfl).args i few).2] at known
      cases known
      exact held.args _ few

/-- The objects correspond. -/
def CellsHeld (cell : Nat → Bool) (f : Function) (num : Numbering) (s t : State V M) : Prop :=
  ∀ B ∈ f.blocks, ∀ i ∈ B.body, cell i.id → t.cells (resultRegister num i.id) = s.cells i.id

/-- The same result, or none; the memory agrees afterwards. -/
def SameOutcome (cell : Nat → Bool) (f : Function) (num : Numbering) :
    Option (V × State V M) → Option (V × State V M) → Prop :=
  Option.Rel fun a b => b.1 = a.1 ∧ b.2.mem = a.2.mem ∧ CellsHeld cell f num a.2 b.2

theorem CellsHeld.update {s t : State V M} (held : CellsHeld cell f num s t) {A : Block}
    (hA : A ∈ f.blocks) {j : Inst} (hj : j ∈ A.body) (isCell : cell j.id) (x : V) :
    CellsHeld cell f num { s with cells := Function.update s.cells j.id x }
      { t with cells := Function.update t.cells (resultRegister num j.id) x } := by
  have owner : ∀ B ∈ f.blocks, ∀ i ∈ B.body, cell i.id →
      owner num (resultRegister num i.id) = some i.id := by
    intro B hB i hi slot
    obtain ⟨size, alloca⟩ := ready.cells.alloca B hB i hi slot
    exact kept_owner ready.ssa.wf ready.numbered hB hi (by simp only [isKept, alloca])
  intro B hB i hi slot
  by_cases same : i.id = j.id
  · rw [same]
    exact (Function.update_self _ x t.cells).trans (Function.update_self j.id x s.cells).symm
  · have apart : resultRegister num i.id ≠ resultRegister num j.id := by
      intro same'
      have both := owner B hB i hi slot
      rw [same', owner A hA j hj isCell] at both
      exact same (Option.some.inj both).symm
    change Function.update t.cells _ x _ = Function.update s.cells _ x _
    rw [Function.update_of_ne apart, Function.update_of_ne same]
    exact held B hB i hi slot

theorem exec_held {B : Block} (hB : B ∈ f.blocks) (reach : Reachable f B.label) {k : Nat}
    {i : Inst} (at_k : B.body[k]? = some i) (kept : isKept num i = true) {s t : State V M}
    (held : Held args cell f num B.label k s t) (settled : Settled S args f B.label k s) :
    (assignInst num i).op.map (IrExec.eval S args t.regs) = i.op.map (IrExec.eval S args s.regs) ∧
      SameOutcome cell f num (exec S args cell i s)
        (exec S args (cellRegister num cell) (assignInst num i) t) := by
  have hi := List.mem_of_getElem? at_k
  have used : ∀ {v}, v ∈ i.op.operands → UsedIn f v := fun use => ⟨B, hB, inst_use hi use⟩
  have operand : ∀ {v}, v ∈ i.op.operands →
      IrExec.eval S args t.regs (register num v) = IrExec.eval S args s.regs v := by
    intro v use
    refine held.eval ready hB reach settled (used use) fun d same => ?_
    exact ready.ssa.body B hB reach k i at_k d (same ▸ use)
  have ops : (assignInst num i).op.map (IrExec.eval S args t.regs) =
      i.op.map (IrExec.eval S args s.regs) := by
    rw [assignInst, Op.map_map]
    exact Op.map_congr fun v use => operand use
  refine ⟨ops, ?_⟩
  have plain : SameOutcome cell f num (execPlain S args i s)
      (execPlain S args (assignInst num i) t) := by
    unfold execPlain
    rw [ops, held.mem]
    change SameOutcome cell f num (Option.map _ (S.op i.ty _ _)) (Option.map _ (S.op i.ty _ _))
    cases S.op i.ty (i.op.map (IrExec.eval S args s.regs)) s.mem with
    | none => exact .none
    | some r => exact .some ⟨rfl, rfl, held.cells⟩
  -- an address names an object exactly if its register does
  have address : ∀ {a}, Value.inst a ∈ i.op.operands → ∃ n, num.find (.inst a) = some (some n) ∧
      register num (.inst a) = .inst n ∧ cellRegister num cell n = cell a := by
    intro a use
    obtain ⟨n, found, read⟩ := ready.used_register (used use)
    exact ⟨n, found, read, ready.cell_register (used use) found⟩
  have slot : ∀ {a}, Value.inst a ∈ i.op.operands → ∀ {n}, num.find (.inst a) = some (some n) →
      cell a = true → ∃ A ∈ f.blocks, ∃ j ∈ A.body, j.id = a ∧ n = resultRegister num j.id := by
    intro a use n found isCell
    obtain ⟨A, hA, j, hj, rfl, -⟩ := used_live ready.ssa.wf ready.phiFree (used use)
    exact ⟨A, hA, j, hj, rfl, by simp only [resultRegister, found]⟩
  have argument : ∀ {a}, Value.arg a ∈ i.op.operands → register num (.arg a) = .inst a ∧
      cellRegister num cell a = false := by
    intro a use
    obtain ⟨C, hC, use⟩ := used use
    obtain ⟨read, none⟩ := ready.arg_register (ready.ssa.wf.argUses C hC a use)
    exact ⟨read, by simp only [cellRegister, none, Option.any_none]⟩
  cases op : i.op with
  | alloca size =>
    have own := kept_owner ready.ssa.wf ready.numbered hB hi kept
    have isCell : cellRegister num cell (resultRegister num i.id) = cell i.id := by
      simp only [cellRegister, own, Option.any_some]
    simp only [exec, assignInst, op, Op.map, isCell]
    split_ifs with yes
    · exact .some ⟨rfl, held.mem, CellsHeld.update ready held.cells hB hi yes S.undef⟩
    · simpa only [assignInst, op, Op.map] using plain
  | store v p =>
    have stored := operand (v := v) (by simp [op, Op.operands])
    have use : p ∈ i.op.operands := by simp [op, Op.operands]
    cases p with
    | inst a =>
      obtain ⟨n, found, read, same⟩ := address use
      simp only [exec, assignInst, op, Op.map, read, same]
      split_ifs with yes
      · obtain ⟨A, hA, j, hj, rfl, rfl⟩ := slot use found yes
        rw [stored]
        exact .some ⟨rfl, held.mem, CellsHeld.update ready held.cells hA hj yes _⟩
      · simpa only [assignInst, op, Op.map, read] using plain
    | arg a =>
      obtain ⟨read, no⟩ := argument use
      simpa only [exec, assignInst, op, Op.map, read, no, Bool.false_eq_true, if_false] using plain
    | const c =>
      have read : register num (.const c) = .const c := rfl
      simpa only [exec, assignInst, op, Op.map, read] using plain
  | load vol p =>
    have use : p ∈ i.op.operands := by simp [op, Op.operands]
    cases p with
    | inst a =>
      obtain ⟨n, found, read, same⟩ := address use
      simp only [exec, assignInst, op, Op.map, read, same]
      split_ifs with yes
      · obtain ⟨A, hA, j, hj, rfl, rfl⟩ := slot use found yes
        exact .some ⟨held.cells A hA j hj yes, held.mem, held.cells⟩
      · simpa only [assignInst, op, Op.map, read] using plain
    | arg a =>
      obtain ⟨read, no⟩ := argument use
      simpa only [exec, assignInst, op, Op.map, read, no, Bool.false_eq_true, if_false] using plain
    | const c =>
      have read : register num (.const c) = .const c := rfl
      simpa only [exec, assignInst, op, Op.map, read] using plain
  | cast castOp src v =>
    have same := operand (v := v) (by rw [op]; exact List.mem_singleton_self v)
    simp only [exec, assignInst, op, Op.map]
    split_ifs with lossless
    · exact .some ⟨same, held.mem, held.cells⟩
    · simpa only [assignInst, op, Op.map] using plain
  | _ => simpa only [exec, assignInst, op, Op.map] using plain

/-- The result goes to its register, and nothing that is still read is overwritten. -/
theorem Held.setReg {B : Block} (hB : B ∈ f.blocks) {k : Nat} {i : Inst}
    (at_k : B.body[k]? = some i) (kept : isKept num i = true) {s t s' t' : State V M}
    (held : Held args cell f num B.label k s t) (regs : s'.regs = s.regs) (regs' : t'.regs = t.regs)
    (mem : t'.mem = s'.mem) (cells : CellsHeld cell f num s' t') (x : V) :
    Held args cell f num B.label (k + 1) (s'.setReg i.id x)
      (t'.setReg (resultRegister num i.id) x) := by
  have hi := List.mem_of_getElem? at_k
  have own := kept_owner ready.ssa.wf ready.numbered hB hi kept
  refine ⟨fun n j rev avail => ?_, fun a few => ?_, cells, mem⟩
  · have ownN : owner num n = some j := by simp only [owner, rev]
    simp only [State.setReg, regs, regs']
    by_cases same : j = i.id
    · subst same
      by_cases here : n = resultRegister num i.id
      · rw [here, Function.update_self, Function.update_self]
      · refine absurd ?_ here
        have found := ready.numbered.inv.owner n _ rev
        simp only [resultRegister, found]
    · have apart : n ≠ resultRegister num i.id := by
        rintro rfl
        exact same (Option.some.inj (ownN.symm.trans own))
      rw [Function.update_of_ne apart, Function.update_of_ne same]
      exact held.regs n j rev (available_succ ready.ssa.wf hB at_k same avail)
  · have apart : a ≠ resultRegister num i.id := by
      rintro rfl
      rw [(ready.arg_register few).2] at own
      cases own
    simp only [State.setReg, regs', Function.update_of_ne apart]
    exact held.args a few

omit ready in
theorem exec_silent {i : Inst} (silent : mayHaveSideEffects i.op = false)
    (notAlloca : ∀ size, i.op ≠ .alloca size) (quiet : Quiet S) {s s' : State V M} {x : V}
    (ran : exec S args cell i s = some (x, s')) : s'.mem = s.mem ∧ s'.cells = s.cells := by
  have plain : execPlain S args i s = some (x, s') → s'.mem = s.mem ∧ s'.cells = s.cells := by
    intro ran
    obtain ⟨r, result, same⟩ := Option.map_eq_some_iff.mp ran
    cases same
    exact ⟨quiet i.op _ i.ty s.mem r.1 r.2 silent notAlloca result, rfl⟩
  unfold exec at ran
  split at ran
  · next op => exact absurd op (notAlloca _)
  · next op => simp [op, mayHaveSideEffects] at silent
  all_goals first
    | exact plain ran
    | split_ifs at ran
      · cases ran
        exact ⟨rfl, rfl⟩
      · exact plain ran

/-- What is not printed leaves nothing behind that the machine has to know. -/
theorem Held.drop {B : Block} (hB : B ∈ f.blocks) {k : Nat} {i : Inst}
    (at_k : B.body[k]? = some i) (dropped : isKept num i = false) (quiet : Quiet S)
    {s s' t : State V M} {x : V} (held : Held args cell f num B.label k s t)
    (ran : exec S args cell i s = some (x, s')) :
    Held args cell f num B.label (k + 1) (s'.setReg i.id x) t := by
  have hi := List.mem_of_getElem? at_k
  have wf := ready.ssa.wf
  obtain ⟨silent, notAlloca⟩ := dropped_silent wf ready.numbered hB hi ready.tidy dropped
  obtain ⟨mem, cells⟩ := exec_silent silent notAlloca quiet ran
  refine ⟨fun n j rev avail => ?_, held.args, ?_, held.mem.trans mem.symm⟩
  · have other : j ≠ i.id := by
      rintro rfl
      exact dropped_owns_nothing wf ready.numbered hB hi ready.tidy (ready.debug B hB i hi)
        dropped n rev
    rw [State.setReg, exec_regs ran]
    change t.regs n = Function.update s.regs i.id x j
    rw [Function.update_of_ne other]
    exact held.regs n j rev (available_succ wf hB at_k other avail)
  · intro C hC j hj slot
    change t.cells _ = s'.cells _
    rw [cells]
    exact held.cells C hC j hj slot

end Step

end RegisterMachine
