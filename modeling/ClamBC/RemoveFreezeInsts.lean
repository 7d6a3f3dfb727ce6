import ClamBC.CopyRemoval
import ClamBC.SsaChecks
import ClamBC.WriterOperands

/-!
# Freeze instructions

The interpreter has no freeze instruction. `processFunction` collects the freeze instructions of a
function; the uses of each are replaced by its operand, as it stands when its turn comes, and the
instruction is erased.
-/

namespace RemoveFreezeInsts

open Ir IrExec SsaForm FunctionEdits RunComparison CopyRemoval ValueNumbering

/-- `isa<FreezeInst>`, by the number of the instruction. -/
abbrev FreezeInst := Nat → Bool

def gatherFreezeInsts (freeze : FreezeInst) (f : Function) : List Nat :=
  collected (fun i => freeze i.id) f

/-- `pfi->replaceAllUsesWith(pfi->getOperand(0)); pfi->eraseFromParent();` -/
def removeFreeze (f : Function) (n : Nat) : Function :=
  match instruction f n with
  | some i =>
    match i.op.operands with
    | v :: _ => replaceAndErase f n v
    | [] => f
  | none => f

def processFunction (freeze : FreezeInst) (f : Function) : Function :=
  (gatherFreezeInsts freeze f).foldl removeFreeze f

section
variable {f : Function}

/-- A freeze instruction has one operand. It stands where control can come: in a cycle that is
never entered it could be its own operand, which `replaceAllUsesWith` does not take. -/
def Freezes (f : Function) (n : Nat) : Prop :=
  ∃ B ∈ f.blocks, Reachable f B.label ∧ ∃ i ∈ B.body, i.id = n ∧ ∃ v, i.op = .other false [v]

theorem body_removal (n : Nat) (v : Value) (B : Block) {j : Inst} :
    j ∈ ((removal n v).block B).body ↔ ∃ i ∈ B.body, i.id ≠ n ∧ j = substituteInst n v i := by
  have here : j ∈ (removal n v).body B.body ↔ _ := Edit.mem_body
  refine here.trans ⟨?_, ?_⟩
  · rintro (⟨i, hi, stays, rfl⟩ | ⟨new, -⟩)
    · exact ⟨i, hi, fun same => stays (congrArg some same.symm), rfl⟩
    · cases new
  · rintro ⟨i, hi, other, rfl⟩
    exact .inl ⟨i, hi, fun same => other (Option.some.inj same).symm, rfl⟩

/-- The other freeze instructions stay freeze instructions. -/
theorem Freezes.later {m n : Nat} (freezes : Freezes f m) (other : m ≠ n) (v : Value) :
    Freezes (replaceAndErase f n v) m := by
  obtain ⟨B, hB, reach, i, hi, rfl, u, op⟩ := freezes
  refine ⟨(removal n v).block B, List.mem_map_of_mem hB, (Edit.reachable_apply _).mpr reach,
    substituteInst n v i, (body_removal n v B).mpr ⟨i, hi, other, rfl⟩, rfl,
    substitute n v u, ?_⟩
  change i.op.map _ = _
  rw [op]
  rfl

/-- What the removal of a freeze instruction does. -/
theorem removeFreeze_eq (ssa : Ssa f) {n : Nat} (freezes : Freezes f n) :
    ∃ N I v, Stands f N I v ∧ I.id = n ∧ I.op = .other false [v] ∧
      removeFreeze f n = replaceAndErase f n v := by
  obtain ⟨B, hB, reach, i, hi, rfl, v, op⟩ := freezes
  refine ⟨B, i, v, ⟨hB, hi, reach, ?_⟩, rfl, op, ?_⟩
  · rw [op]
    exact List.mem_singleton_self v
  · have found := WriterOperands.instruction_eq ssa.wf hB hi
    simp only [removeFreeze, found, op, Op.operands]

end

/-! What remains. -/

section
variable {freeze : FreezeInst} {f : Function}

theorem mem_gatherFreezeInsts {n : Nat} :
    n ∈ gatherFreezeInsts freeze f ↔
      freeze n = true ∧ ∃ B ∈ f.blocks, n ∈ B.body.map Inst.id := by
  refine mem_collected.trans ⟨?_, ?_⟩
  · rintro ⟨B, hB, i, hi, rfl, isFreeze⟩
    exact ⟨isFreeze, B, hB, List.mem_map_of_mem hi⟩
  · rintro ⟨isFreeze, B, hB, here⟩
    obtain ⟨i, hi, rfl⟩ := List.mem_map.mp here
    exact ⟨B, hB, i, hi, rfl, isFreeze⟩

theorem removed_ids (n : Nat) (v : Value) (m : Nat) :
    (∃ B ∈ (replaceAndErase f n v).blocks, m ∈ B.body.map Inst.id) ↔
      m ≠ n ∧ ∃ B ∈ f.blocks, m ∈ B.body.map Inst.id := by
  constructor
  · rintro ⟨B', hB', here⟩
    obtain ⟨B, hB, rfl⟩ := List.mem_map.mp hB'
    obtain ⟨j, hj, rfl⟩ := List.mem_map.mp here
    obtain ⟨i, hi, other, rfl⟩ := (body_removal n v B).mp hj
    exact ⟨other, B, hB, List.mem_map.mpr ⟨i, hi, rfl⟩⟩
  · rintro ⟨other, B, hB, here⟩
    obtain ⟨i, hi, rfl⟩ := List.mem_map.mp here
    exact ⟨(removal n v).block B, List.mem_map_of_mem hB, List.mem_map.mpr
      ⟨substituteInst n v i, (body_removal n v B).mpr ⟨i, hi, other, rfl⟩, rfl⟩⟩

end

/-! Runs. -/

section
universe u
variable {V M : Type u}

/-- A freeze instruction that is executed hands on its operand, as it does with everything that is
neither undefined nor poison. -/
def HandsOn (S : Sem V M) (freeze : FreezeInst) (f : Function) (e : Event V M) : Prop :=
  freeze e.id = true → ∀ B ∈ f.blocks, ∀ i ∈ B.body, i.id = e.id →
    ∀ x, e.op = .other false [x] → S.op i.ty e.op e.before.mem = some (x, e.before.mem)

variable {S : Sem V M} (args : Nat → V) {freeze : FreezeInst} {f : Function}

/-- A freeze instruction is a copy in such a run. -/
theorem HandsOn.copies (wf : f.WellFormed) {N : Block} {I : Inst} {v : Value}
    (stands : Stands f N I v) (isFreeze : freeze I.id = true) (op : I.op = .other false [v])
    {n : Nat} {mem : M}
    (handsOn : ∀ w ∈ call S args noCells f n mem, ∀ e ∈ w.events, HandsOn S freeze f e) :
    ∀ w ∈ call S args noCells f n mem, ∀ e ∈ w.events, Copies S args I v e := by
  intro w hw e he isI
  obtain ⟨B, hB, i, hi, same, executed⟩ := call_ops S args f n mem w hw e he
  cases (wf.inst_unique hB stands.block hi stands.inst (same.symm.trans isI)).2
  have reads : e.op = .other false [eval S args e.before.regs v] := by
    rw [executed, op]
    rfl
  have handed := handsOn w hw e he (isI ▸ isFreeze) N stands.block I stands.inst isI.symm _ reads
  rw [reads] at handed ⊢
  exact handed

/-- The other freeze instructions hand on what they handed on. -/
theorem HandsOn.later {d : Nat} {v : Value} {n : Nat} {mem : M}
    (like : List.Forall₂ (VisitLike Eq fun i => i ≠ d) (call S args noCells f n mem)
      (call S args noCells (replaceAndErase f d v) n mem))
    (handsOn : ∀ w ∈ call S args noCells f n mem, ∀ e ∈ w.events, HandsOn S freeze f e) :
    ∀ w ∈ call S args noCells (replaceAndErase f d v) n mem, ∀ e ∈ w.events,
      HandsOn S freeze (replaceAndErase f d v) e := by
  have before : ∀ B' ∈ (replaceAndErase f d v).blocks, ∀ j ∈ B'.body,
      ∃ B ∈ f.blocks, ∃ i ∈ B.body, i.id ≠ d ∧ j = substituteInst d v i := by
    intro B' hB' j hj
    obtain ⟨B, hB, rfl⟩ := List.mem_map.mp hB'
    obtain ⟨i, hi, old⟩ := (body_removal d v B).mp hj
    exact ⟨B, hB, i, hi, old⟩
  refine fine_transfer like (fun e c same fine => ?_) (fun w hw c hc gone => ?_) handsOn
  · intro isFreeze B' hB' j hj own x reads
    obtain ⟨B, hB, i, hi, -, rfl⟩ := before B' hB' j hj
    rw [same.id] at isFreeze own
    rw [← same.op] at reads ⊢
    rw [same.mem]
    exact fine isFreeze B hB i hi own x reads
  · obtain ⟨B', hB', j, hj, own, -⟩ := call_ops S args _ n mem w hw c hc
    obtain ⟨B, hB, i, hi, stays, rfl⟩ := before B' hB' j hj
    have removed : c.id = d := by simpa using gone
    exact absurd (own.symm.trans removed) stays

theorem foldl_removeFreeze (ids : List Nat) (nodup : ids.Nodup) (f : Function) (ssa : Ssa f)
    (freezes : ∀ n ∈ ids, freeze n = true ∧ Freezes f n) :
    Ssa (ids.foldl removeFreeze f) ∧
    (∀ m, (∃ B ∈ (ids.foldl removeFreeze f).blocks, m ∈ B.body.map Inst.id) ↔
      m ∉ ids ∧ ∃ B ∈ f.blocks, m ∈ B.body.map Inst.id) ∧
    ∀ n mem, (∀ v ∈ call S args noCells f n mem, ∀ e ∈ v.events, HandsOn S freeze f e) →
      List.Forall₂ (VisitLike Eq fun i => i ∉ ids) (call S args noCells f n mem)
        (call S args noCells (ids.foldl removeFreeze f) n mem) := by
  induction ids generalizing f with
  | nil =>
    refine ⟨ssa, fun m => by simp, fun n mem _ => List.forall₂_same.mpr fun v _ => ?_⟩
    exact .refl (fun _ => rfl) v
  | cons d ids ih =>
    obtain ⟨fresh, nodup'⟩ := List.nodup_cons.mp nodup
    obtain ⟨isFreeze, here⟩ := freezes d List.mem_cons_self
    obtain ⟨N, I, v, stands, rfl, op, one⟩ := removeFreeze_eq ssa here
    have later : ∀ n ∈ ids, freeze n = true ∧ Freezes (replaceAndErase f I.id v) n := by
      intro n hn
      obtain ⟨isFreeze', stays⟩ := freezes n (List.mem_cons_of_mem _ hn)
      exact ⟨isFreeze', stays.later (ne_of_mem_of_not_mem hn fresh) v⟩
    obtain ⟨ssa', left, runs⟩ := ih nodup' (replaceAndErase f I.id v)
      (replaceAndErase_ssa ssa stands) later
    rw [List.foldl_cons, one]
    refine ⟨ssa', fun m => ?_, fun n mem handsOn => ?_⟩
    · rw [left, removed_ids, List.mem_cons, not_or]
      tauto
    · have removed := replaceAndErase_call ssa stands n mem
        (HandsOn.copies args ssa.wf stands isFreeze op handsOn)
      refine forall₂_comp (fun a b c first second => ?_) removed
        (runs n mem (HandsOn.later args removed handsOn))
      have here : VisitLike Eq (fun i => i ∉ I.id :: ids) a b :=
        first.fewer fun i stays => by simp_all
      have there : VisitLike Eq (fun i => i ∉ I.id :: ids) b c :=
        second.fewer fun i stays => by simp_all
      exact VisitLike.trans (fun o p q one two => one.trans two) here there

/-- The pass keeps the single assignment form and leaves no freeze instruction. Every run in which
the freeze instructions hand on their operands goes the same way with the same results of all
other instructions. -/
theorem processFunction_call (ssa : Ssa f)
    (freezes : ∀ n ∈ gatherFreezeInsts freeze f, Freezes f n) :
    Ssa (processFunction freeze f) ∧
    (∀ m, (∃ B ∈ (processFunction freeze f).blocks, m ∈ B.body.map Inst.id) ↔
      freeze m = false ∧ ∃ B ∈ f.blocks, m ∈ B.body.map Inst.id) ∧
    ∀ n mem, (∀ v ∈ call S args noCells f n mem, ∀ e ∈ v.events, HandsOn S freeze f e) →
      List.Forall₂ (VisitLike Eq fun i => !freeze i) (call S args noCells f n mem)
        (call S args noCells (processFunction freeze f) n mem) := by
  obtain ⟨ssa', left, runs⟩ := foldl_removeFreeze (S := S) args (gatherFreezeInsts freeze f)
    (collected_nodup ssa.wf _) f ssa fun n hn => ⟨(mem_gatherFreezeInsts.mp hn).1, freezes n hn⟩
  refine ⟨ssa', fun m => ?_, fun n mem handsOn => (runs n mem handsOn).imp fun v w like => ?_⟩
  · rw [processFunction, left, mem_gatherFreezeInsts, ← Bool.not_eq_true]
    constructor
    · exact fun ⟨stays, placed⟩ => ⟨fun isFreeze => stays ⟨isFreeze, placed⟩, placed⟩
    · exact fun ⟨other, placed⟩ => ⟨fun gathered => other gathered.1, placed⟩
  · refine like.fewer fun i other => ?_
    simp only [Bool.not_eq_true', decide_eq_true_eq] at other ⊢
    exact fun gathered => by simp [(mem_gatherFreezeInsts.mp gathered).1] at other

end

/-- An argument that is frozen twice, and the first number of a pair, which is an instruction
without a constructor of its own as well. -/
def frozenTwice : Function where
  args := [.int 32, .struct [.int 32, .int 32]]
  nextId := 6
  blocks := [⟨0, [], [⟨0, .int 32, .other false [.arg 0]⟩, ⟨1, .int 32, .other false [.inst 0]⟩,
    ⟨2, .int 32, .other false [.arg 1]⟩, ⟨3, .int 32, .binary .add (.inst 1) (.inst 0)⟩,
    ⟨4, .int 32, .binary .add (.inst 3) (.inst 2)⟩], 5, .ret (some (.inst 4))⟩]

example : (processFunction (fun n => n < 2) frozenTwice).blocks.flatMap Block.body =
    [⟨2, .int 32, .other false [.arg 1]⟩, ⟨3, .int 32, .binary .add (.arg 0) (.arg 0)⟩,
      ⟨4, .int 32, .binary .add (.inst 3) (.inst 2)⟩] := rfl

/-- A value is the list of its numbers. -/
def firstNumber : Sem (List Nat) Unit where
  const := fun _ => []
  undef := []
  op := fun _ op m =>
    match op with
    | .other _ [x :: _] => some ([x], m)
    | .binary _ [x] [y] => some ([x + y], m)
    | _ => none
  truth := fun v => v ≠ [0]
  toNat := fun v => v.headD 0

def numberAndPair : Nat → List Nat
  | 0 => [5]
  | _ => [7, 8]

theorem processFunction_call_frozenTwice :
    Ssa (processFunction (fun n => n < 2) frozenTwice) ∧
    (∀ m, (∃ B ∈ (processFunction (fun n => n < 2) frozenTwice).blocks,
        m ∈ B.body.map Inst.id) ↔
      decide (m < 2) = false ∧ ∃ B ∈ frozenTwice.blocks, m ∈ B.body.map Inst.id) ∧
    ∀ n mem, List.Forall₂ (VisitLike Eq fun i => !decide (i < 2))
      (call firstNumber numberAndPair noCells frozenTwice n mem)
      (call firstNumber numberAndPair noCells
        (processFunction (fun n => n < 2) frozenTwice) n mem) := by
  have first : Reachable frozenTwice 0 := ⟨_, rfl, .refl⟩
  have freezes : ∀ n ∈ gatherFreezeInsts (fun n => n < 2) frozenTwice, Freezes frozenTwice n := by
    intro n hn
    have which : n ∈ [0, 1] := hn
    simp only [List.mem_cons, List.not_mem_nil, or_false] at which
    rcases which with rfl | rfl
    · exact ⟨_, List.mem_cons_self, first, _, List.mem_cons_self, rfl, _, rfl⟩
    · exact ⟨_, List.mem_cons_self, first, _, List.mem_cons_of_mem _ List.mem_cons_self, rfl,
        _, rfl⟩
  obtain ⟨ssa, left, runs⟩ := processFunction_call (S := firstNumber) numberAndPair
    (SsaChecks.ssa_of_checks (f := frozenTwice) (by decide)).1 freezes
  refine ⟨ssa, left, fun n mem => runs n mem fun v hv e he isFreeze B _ i _ _ x reads => ?_⟩
  cases n with
  | zero => cases hv
  | succ n =>
    cases List.mem_singleton.mp hv
    have executed : (e.id, e.op) ∈ [(0, .other false [[5]]), (1, .other false [[5]]),
        (2, .other false [[7, 8]]), (3, .binary .add [5] [5]), (4, .binary .add [10] [7])] :=
      List.mem_map_of_mem (f := fun e : Event (List Nat) Unit => (e.id, e.op)) he
    simp only [List.mem_cons, List.not_mem_nil, or_false, Prod.mk.injEq] at executed
    -- The pair is not handed on, but no freeze reads it.
    rcases executed with ⟨-, op⟩ | ⟨-, op⟩ | ⟨pair, -⟩ | ⟨sum, -⟩ | ⟨sum, -⟩
    · cases op.symm.trans reads
      rw [op]
      rfl
    · cases op.symm.trans reads
      rw [op]
      rfl
    · cases pair ▸ isFreeze
    · cases sum ▸ isFreeze
    · cases sum ▸ isFreeze

end RemoveFreezeInsts
