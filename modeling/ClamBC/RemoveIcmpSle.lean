import ClamBC.FunctionText
import ClamBC.OperandEdits
import ClamBC.SsaChecks

/-!
# Signed less than or equal to

The just-in-time compiler of older engines has no signed less than or equal to, and the writer
refuses it for them. `processFunction` collects these comparisons and swaps the operands of each:
the predicate is mirrored with them.
-/

namespace RemoveIcmpSle

open Ir IrExec SsaForm FunctionEdits RunComparison OperandEdits ValueNumbering

def getSwappedPredicate : Predicate → Predicate
  | .eq => .eq
  | .ne => .ne
  | .ugt => .ult
  | .uge => .ule
  | .ult => .ugt
  | .ule => .uge
  | .sgt => .slt
  | .sge => .sle
  | .slt => .sgt
  | .sle => .sge

/-- `CmpInst::swapOperands` -/
def swapOperands : Op Value → Op Value
  | .icmp pred lhs rhs => .icmp (getSwappedPredicate pred) rhs lhs
  | op => op

def isSle (i : Inst) : Bool :=
  match i.op with
  | .icmp .sle _ _ => true
  | _ => false

def gatherInstructions (f : Function) : List Nat := collected isSle f

theorem swapOperands_store {op : Op Value} {v a : Value} (store : swapOperands op = .store v a) :
    op = .store v a := by
  cases op <;> simp_all [swapOperands]

theorem swapOperands_load {op : Op Value} {b : Bool} {a : Value}
    (load : swapOperands op = .load b a) : op = .load b a := by
  cases op <;> simp_all [swapOperands]

/-- `insts[i]->swapOperands()` -/
def swapAt (n : Nat) : Edit where
  point := some n
  news := []
  erased := none
  update := fun i => if i.id = n then { i with op := swapOperands i.op } else i
  value := id
  update_id := fun i => by split_ifs <;> rfl
  update_ty := fun i => by split_ifs <;> rfl
  update_store := fun i v a store => by
    split_ifs at store
    · exact ⟨v, a, swapOperands_store store⟩
    · exact ⟨v, a, store⟩
  update_load := fun i b a load => by
    split_ifs at load
    · exact ⟨b, a, swapOperands_load load⟩
    · exact ⟨b, a, load⟩

def processFunction (f : Function) : Function :=
  (gatherInstructions f).foldl (fun g n => (swapAt n).apply 0 g) f

/-- The same operation, or the mirrored comparison. -/
inductive Mirrored {α : Type*} : Op α → Op α → Prop
  | same (op : Op α) : Mirrored op op
  | swapped (x y : α) : Mirrored (.icmp .sle x y) (.icmp .sge y x)

theorem Mirrored.trans {α : Type*} {o p q : Op α} (first : Mirrored o p) (second : Mirrored p q) :
    Mirrored o q := by
  cases first with
  | same => exact second
  | swapped x y =>
    cases second
    exact .swapped x y

section
universe u
variable {V M : Type u}

/-! One comparison. -/

section
variable {f : Function} {N : Block} {before after : List Inst} {I : Inst} {x y : Value}

theorem update_self (I : Inst) : (swapAt I.id).update I = { I with op := swapOperands I.op } :=
  if_pos rfl

theorem update_other {n : Nat} {i : Inst} (other : i.id ≠ n) : (swapAt n).update i = i :=
  if_neg other

theorem mem_swapped {n : Nat} {is : List Inst} {j : Inst} :
    j ∈ (swapAt n).body is ↔ ∃ i ∈ is, j = (swapAt n).update i := by
  refine Edit.mem_body.trans ⟨?_, ?_⟩
  · rintro (⟨i, hi, -, rfl⟩ | ⟨new, -⟩)
    · exact ⟨i, hi, rfl⟩
    · cases new
  · rintro ⟨i, hi, rfl⟩
    exact .inl ⟨i, hi, (Option.some_ne_none _).symm, rfl⟩

variable (hN : N ∈ f.blocks) (split : N.body = before ++ I :: after) (op : I.op = .icmp .sle x y)
include hN split op

theorem rewrites (ssa : Ssa f) : Rewrites f 0 N before I (swapAt I.id) where
  point := rfl
  stays := rfl
  value := rfl
  others i other := update_other other
  fits := by constructor <;> simp [swapAt]
  reads j new := by cases new
  updated v read := by
    rw [update_self, op] at read
    have reads : v ∈ I.op.operands := by
      rw [op]
      exact List.mem_reverse.mp read
    exact .inr (Ready.operand ssa hN split reads)

omit split in
theorem step {S : Sem V M} {args : Nat → V}
    (mirror : ∀ ty x y m, S.op ty (.icmp .sle x y) m = S.op ty (.icmp .sge y x) m)
    (wf : f.WellFormed) (hI : I ∈ N.body) {s t : State V M} (agree : Agree f s t) :
    StepLike S args (expand (swapAt I.id)) Mirrored (fun d => d < f.nextId) (Agree f) I s t := by
  have evals : ∀ v ∈ I.op.operands, eval S args t.regs v = eval S args s.regs v := fun v hv =>
    agree.eval wf hN (PhiElimination.inst_use hI hv)
  have lhs := evals x (by rw [op]; exact List.mem_cons_self)
  have rhs := evals y (by rw [op]; exact List.mem_cons_of_mem x List.mem_cons_self)
  have one : expand (swapAt I.id) I = [{ I with op := .icmp .sge y x }] := by
    rw [expand, update_self, op]
    simp only [Edit.inFront, swapAt, ite_self, List.nil_append]
    rfl
  rw [StepLike, one]
  simp only [execBody, exec_noCells, op, Op.map, outcome, lhs, rhs, agree.mem, ← mirror]
  have like : ∀ result : Option V, EventLike Mirrored
      ⟨I.id, s, .icmp .sle (eval S args s.regs x) (eval S args s.regs y), result⟩
      ⟨I.id, t, .icmp .sge (eval S args s.regs y) (eval S args s.regs x), result⟩ := fun result =>
    ⟨rfl, .swapped _ _, rfl, agree.mem⟩
  cases S.op I.ty (.icmp .sle (eval S args s.regs x) (eval S args s.regs y)) s.mem with
  | none => exact ⟨List.rel_filter (fun _ _ l => by simp [l.id]) (.cons (like none) .nil), .none⟩
  | some r =>
    exact ⟨List.rel_filter (fun _ _ l => by simp [l.id]) (.cons (like (some r.1)) .nil),
      .some (agree.setReg I.id r.1 r.2)⟩

end

/-! All of them. -/

/-- The writer does not refuse the comparison: it goes on to print an opcode and the operands. -/
def PrintsComparison (ids : FunctionText.Ids) (num : Numbering) (user : Nat) (pred : Predicate)
    (x y : Value) : Prop :=
  ∃ op, FunctionText.visitICmpInst ids num user pred x y =
    FunctionText.typedCommand ids num op user [x, y]

theorem printsComparison {ids : FunctionText.Ids} {num : Numbering} {user : Nat} {pred : Predicate}
    {x y : Value} (other : pred ≠ .sle) : PrintsComparison ids num user pred x y := by
  cases pred with
  | sle => exact absurd rfl other
  | _ => exact ⟨_, rfl⟩

/-- A comparison that waits for its turn. -/
def Waits (f : Function) (n : Nat) : Prop :=
  ∃ B ∈ f.blocks, ∃ i ∈ B.body, i.id = n ∧ ∃ x y, i.op = .icmp .sle x y

section
variable {f : Function}

theorem isSle_iff {i : Inst} : isSle i = true ↔ ∃ x y, i.op = .icmp .sle x y := by
  obtain ⟨id, ty, op⟩ := i
  constructor
  · intro sle
    cases op with
    | icmp pred x y =>
      cases pred with
      | sle => exact ⟨x, y, rfl⟩
      | eq | ne | ugt | uge | ult | ule | sgt | sge | slt => cases sle
    | load _ _ | store _ _ | alloca _ | getElementPtr _ _ | binary _ _ _ | select _ _ _
      | cast _ _ _ | call _ _ _ | dbg | other _ _ => cases sle
  · rintro ⟨x, y, rfl⟩
    rfl

theorem mem_gatherInstructions {n : Nat} : n ∈ gatherInstructions f ↔ Waits f n := by
  simp only [gatherInstructions, mem_collected, isSle_iff]
  rfl

/-- After one turn the other comparisons still wait, and no new one does. -/
theorem waits_swapped (wf : f.WellFormed) {n : Nat} (waits : Waits f n) (m : Nat) :
    Waits ((swapAt n).apply 0 f) m ↔ m ≠ n ∧ Waits f m := by
  obtain ⟨N, hN, I, hI, rfl, u, v, own⟩ := waits
  constructor
  · rintro ⟨B', hB', j, hj, rfl, x, y, op⟩
    obtain ⟨B, hB, rfl⟩ := List.mem_map.mp hB'
    obtain ⟨i, hi, rfl⟩ := mem_swapped.mp hj
    by_cases same : i.id = I.id
    · obtain ⟨-, rfl⟩ := wf.inst_unique hB hN hi hI same
      rw [update_self, own] at op
      cases op
    · rw [update_other same] at op ⊢
      exact ⟨same, B, hB, i, hi, rfl, x, y, op⟩
  · rintro ⟨other, B, hB, i, hi, rfl, x, y, op⟩
    refine ⟨(swapAt I.id).block B, List.mem_map_of_mem hB, i, mem_swapped.mpr ⟨i, hi, ?_⟩, rfl, x, y,
      op⟩
    exact (update_other other).symm

section
variable {S : Sem V M} (args : Nat → V)
  (mirror : ∀ ty x y m, S.op ty (.icmp .sle x y) m = S.op ty (.icmp .sge y x) m)
include mirror

theorem swap_call (ssa : Ssa f) {n : Nat} (waits : Waits f n) :
    Ssa ((swapAt n).apply 0 f) ∧ ∀ k mem,
      List.Forall₂ (VisitLike Mirrored fun _ => true) (call S args noCells f k mem)
        (call S args noCells ((swapAt n).apply 0 f) k mem) := by
  obtain ⟨N, hN, I, hI, rfl, x, y, op⟩ := waits
  obtain ⟨before, after, split⟩ := List.append_of_mem hI
  have rw := rewrites hN split op ssa
  refine ⟨rw.ssa hN split ssa, fun k mem => ?_⟩
  have always : ∀ v ∈ call S args noCells f k mem, ∀ e ∈ v.events, (fun _ => True) e :=
    fun _ _ _ _ => trivial
  refine visits_all (rw.call_like .same ssa.wf hN split ?_ k mem always) ?_ ?_
  · exact fun s t agree _ => step hN op mirror ssa.wf hI agree
  · exact fun v hv e he => decide_eq_true (call_events_lt ssa.wf k mem v hv e he)
  · exact fun v hv e he => decide_eq_true
      (call_events_lt (rw.wellFormed hN split ssa.wf) k mem v hv e he)

theorem foldl_swap (ids : List Nat) (nodup : ids.Nodup) (f : Function) (ssa : Ssa f)
    (waits : ∀ n, n ∈ ids ↔ Waits f n) :
    let g := ids.foldl (fun g n => (swapAt n).apply 0 g) f
    Ssa g ∧ (∀ n, ¬ Waits g n) ∧ ∀ k mem,
      List.Forall₂ (VisitLike Mirrored fun _ => true) (call S args noCells f k mem)
        (call S args noCells g k mem) := by
  induction ids generalizing f with
  | nil =>
    refine ⟨ssa, fun n wait => ?_, fun k mem => List.forall₂_same.mpr fun v _ => ?_⟩
    · cases (waits n).mpr wait
    · exact .refl .same v
  | cons d ids ih =>
    obtain ⟨fresh, nodup'⟩ := List.nodup_cons.mp nodup
    have own := (waits d).mp List.mem_cons_self
    obtain ⟨ssa', one⟩ := swap_call args mirror ssa own
    have later : ∀ n, n ∈ ids ↔ Waits ((swapAt d).apply 0 f) n := by
      intro n
      rw [waits_swapped ssa.wf own, ← waits, List.mem_cons]
      constructor
      · exact fun hn => ⟨ne_of_mem_of_not_mem hn fresh, .inr hn⟩
      · rintro ⟨other, rfl | hn⟩
        · exact absurd rfl other
        · exact hn
    obtain ⟨ssa'', none, runs⟩ := ih nodup' _ ssa' later
    refine ⟨ssa'', none, fun k mem => ?_⟩
    refine forall₂_comp (fun a b c first second => ?_) (one k mem) (runs k mem)
    exact VisitLike.trans (fun o p q one two => one.trans two) first second

/-- The pass keeps the single assignment form and leaves no signed less than or equal to, so that
the writer prints the comparisons for every functionality level. Every run goes the same way,
with the same results and memory; only these comparisons have their operands swapped. -/
theorem processFunction_mirrors (ssa : Ssa f) :
    Ssa (processFunction f) ∧
    (∀ B ∈ (processFunction f).blocks, ∀ i ∈ B.body, ∀ x y, i.op ≠ .icmp .sle x y) ∧
    (∀ B ∈ (processFunction f).blocks, ∀ i ∈ B.body, ∀ pred x y, i.op = .icmp pred x y →
      ∀ ids num, PrintsComparison ids num i.id pred x y) ∧
    ∀ k mem, List.Forall₂ (VisitLike Mirrored fun _ => true) (call S args noCells f k mem)
      (call S args noCells (processFunction f) k mem) := by
  obtain ⟨ssa', none, runs⟩ := foldl_swap args mirror (gatherInstructions f)
    (collected_nodup ssa.wf _) f ssa fun n => mem_gatherInstructions
  have noSle : ∀ B ∈ (processFunction f).blocks, ∀ i ∈ B.body, ∀ x y, i.op ≠ .icmp .sle x y :=
    fun B hB i hi x y op => none i.id ⟨B, hB, i, hi, rfl, x, y, op⟩
  refine ⟨ssa', noSle, fun B hB i hi pred x y op ids num => ?_, runs⟩
  refine printsComparison fun same => ?_
  subst same
  exact noSle B hB i hi x y op

end

end

end

/-- The smaller of two arguments. -/
def smaller : Function where
  args := [.int 32, .int 32]
  nextId := 4
  blocks := [⟨0, [], [⟨0, .int 1, .icmp .sle (.arg 0) (.arg 1)⟩], 1, .condBr (.inst 0) 1 2⟩,
    ⟨1, [], [], 2, .ret (some (.arg 0))⟩, ⟨2, [], [], 3, .ret (some (.arg 1))⟩]

def comparing : Sem Int Unit where
  const := fun _ => 0
  undef := 0
  op := fun _ op m =>
    match op with
    | .icmp .sle x y => some (if x ≤ y then 1 else 0, m)
    | .icmp .sge x y => some (if y ≤ x then 1 else 0, m)
    | _ => none
  truth := fun v => v ≠ 0
  toNat := Int.toNat

example : ((processFunction smaller).blocks.flatMap Block.body).map Inst.op =
    [.icmp .sge (.arg 1) (.arg 0)] := rfl

theorem processFunction_mirrors_smaller :
    Ssa (processFunction smaller) ∧
    (∀ B ∈ (processFunction smaller).blocks, ∀ i ∈ B.body, ∀ x y, i.op ≠ .icmp .sle x y) ∧
    (∀ B ∈ (processFunction smaller).blocks, ∀ i ∈ B.body, ∀ pred x y, i.op = .icmp pred x y →
      ∀ ids num, PrintsComparison ids num i.id pred x y) ∧
    ∀ k mem, List.Forall₂ (VisitLike Mirrored fun _ => true)
      (call comparing (fun i => 3 - 2 * i) noCells smaller k mem)
      (call comparing (fun i => 3 - 2 * i) noCells (processFunction smaller) k mem) :=
  processFunction_mirrors (S := comparing) (fun i => 3 - 2 * i) (fun _ _ _ _ => rfl)
    (SsaChecks.ssa_of_checks (f := smaller) (by decide)).1

end RemoveIcmpSle
