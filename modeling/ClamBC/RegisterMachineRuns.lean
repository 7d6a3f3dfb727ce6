import ClamBC.RegisterMachine
import ClamBC.SsaChecks

/-!
# Runs of the register machine

What one instruction keeps is carried through bodies, visits and runs, and put together
with the removal of the phis: the function that is written does what the function did
that the register allocator was given.
-/

namespace RegisterMachine

open Ir IrExec PhiElimination SsaForm ValueNumbering SharedRegisters WriterOperands

section Step
universe u
variable {V M : Type u} {S : Sem V M} {args : Nat → V} {cell : Nat → Bool}
variable {f : Function} {num : Numbering} (ready : Ready cell f num)
include ready

/-- The instructions of a body that are printed. -/
def keptIds (num : Numbering) (B : Block) : List Nat :=
  (B.body.filter (isKept num)).map Inst.id

/-- The machine executes the same instruction on the same operands and memory, with the same
result. -/
structure EventHeld (num : Numbering) (e d : Event V M) : Prop where
  id : owner num d.id = some e.id
  op : d.op = e.op
  result : d.result = e.result
  mem : d.before.mem = e.before.mem

theorem mem_keptIds {B : Block} (hB : B ∈ f.blocks) {i : Inst} (hi : i ∈ B.body) :
    i.id ∈ keptIds num B ↔ isKept num i = true := by
  constructor
  · intro h
    obtain ⟨j, hj, same⟩ := List.mem_map.mp h
    obtain ⟨member, kept⟩ := List.mem_filter.mp hj
    obtain ⟨-, rfl⟩ := ready.ssa.wf.inst_unique hB hB member hi same
    exact kept
  · exact fun kept => List.mem_map_of_mem (List.mem_filter.mpr ⟨hi, kept⟩)

/-- A body is executed in step up to its end, or up to the instruction that traps. -/
theorem execBody_held (quiet : Quiet S) {B : Block} (hB : B ∈ f.blocks)
    (reach : Reachable f B.label) {is : List Inst} (k : Nat) (suffix : B.body.drop k = is)
    {s t : State V M} (held : Held args cell f num B.label k s t)
    (settled : Settled S args f B.label k s) :
    ∃ front rest,
      (execBody S args (cellRegister num cell) (assignBody num is) t).1 = front ++ rest ∧
      List.Forall₂ (EventHeld num)
        ((execBody S args cell is s).1.filter fun e => e.id ∈ keptIds num B) front ∧
      ∀ s', (execBody S args cell is s).2 = some s' → rest = [] ∧ ∃ t',
        (execBody S args (cellRegister num cell) (assignBody num is) t).2 = some t' ∧
        Held args cell f num B.label B.body.length s' t' ∧
        Settled S args f B.label B.body.length s' := by
  induction is generalizing k s t with
  | nil =>
    have long : B.body.length ≤ k := List.drop_eq_nil_iff.mp suffix
    refine ⟨[], [], rfl, .nil, fun s' h => ?_⟩
    cases h
    refine ⟨rfl, t, rfl, ⟨?_, held.args, held.cells, held.mem⟩, ?_⟩
    · exact fun n i rev avail => held.regs n i rev (avail.mono long)
    · exact fun C hC j hj op src v cast lossless avail =>
        settled C hC j hj op src v cast lossless (avail.mono long)
  | cons i is ih =>
    have at_k : B.body[k]? = some i := by
      have := congrArg List.head? suffix
      rwa [List.head?_drop] at this
    have next : B.body.drop (k + 1) = is := by
      rw [← List.tail_drop, suffix]
      rfl
    have hi := List.mem_of_getElem? at_k
    have member := mem_keptIds ready hB hi
    cases kept : isKept num i with
    | true =>
      rw [kept] at member
      have body : assignBody num (i :: is) = assignInst num i :: assignBody num is := by
        rw [assignBody, List.filter_cons_of_pos kept, List.map_cons, assignBody]
      obtain ⟨ops, outcome⟩ := exec_held ready hB reach at_k kept held settled
      have own := kept_owner ready.ssa.wf ready.numbered hB hi kept
      have event : ∀ r, EventHeld num ⟨i.id, s, i.op.map (IrExec.eval S args s.regs), r⟩
          ⟨(assignInst num i).id, t, (assignInst num i).op.map (IrExec.eval S args t.regs), r⟩ :=
        fun r => ⟨own, ops, rfl, held.mem⟩
      rw [body]
      cases ran : exec S args cell i s with
      | none =>
        rw [ran] at outcome
        have ran' : exec S args (cellRegister num cell) (assignInst num i) t = none := by
          generalize exec S args (cellRegister num cell) (assignInst num i) t = r at outcome
          cases outcome
          rfl
        rw [execBody_trap ran, execBody_trap ran']
        refine ⟨[_], [], rfl, ?_, nofun⟩
        rw [List.filter_cons_of_pos (by simpa using member), List.filter_nil]
        exact .cons (event none) .nil
      | some a =>
        rw [ran] at outcome
        cases ran' : exec S args (cellRegister num cell) (assignInst num i) t with
        | none =>
          rw [ran'] at outcome
          cases outcome
        | some b =>
          rw [ran'] at outcome
          obtain ⟨x, s'⟩ := a
          obtain ⟨y, t'⟩ := b
          obtain ⟨rfl, mem, cells⟩ : y = x ∧ t'.mem = s'.mem ∧ CellsHeld cell f num s' t' := by
            cases outcome with
            | some same => exact same
          have after := held.setReg ready hB at_k kept (exec_regs ran) (exec_regs ran') mem cells y
          obtain ⟨front, rest, events, agree, final⟩ :=
            ih (k + 1) next after (settled.exec ready.ssa hB reach at_k ran)
          rw [execBody_next ran, execBody_next ran']
          refine ⟨_ :: front, rest, congrArg (List.cons _) events, ?_, final⟩
          rw [List.filter_cons_of_pos (by simpa using member)]
          exact .cons (event (some y)) agree
    | false =>
      rw [kept] at member
      have body : assignBody num (i :: is) = assignBody num is := by
        rw [assignBody, List.filter_cons_of_neg (by simp [kept]), assignBody]
      rw [body]
      have notMember : i.id ∉ keptIds num B := fun h => Bool.false_ne_true (member.mp h)
      cases ran : exec S args cell i s with
      | none =>
        rw [execBody_trap ran]
        refine ⟨[], _, rfl, ?_, nofun⟩
        rw [List.filter_cons_of_neg (by simpa using notMember)]
        exact .nil
      | some a =>
        obtain ⟨front, rest, events, agree, final⟩ :=
          ih (k + 1) next (held.drop ready hB at_k kept quiet ran)
            (settled.exec ready.ssa hB reach at_k ran)
        rw [execBody_next ran]
        refine ⟨front, rest, events, ?_, final⟩
        rw [List.filter_cons_of_neg (by simpa using notMember)]
        exact agree

/-! Visits and runs. -/

/-- All that is printed. -/
def printedIds (num : Numbering) (f : Function) : List Nat := f.blocks.flatMap (keptIds num)

/-- The printed instructions of a visit are executed in step, those of the machine that `own`
selects. Only a visit that traps may be continued by the machine. -/
structure VisitHeld (printed : List Nat) (num : Numbering) (own : Nat → Bool)
    (v w : Visit V M) : Prop where
  label : w.label = v.label
  prev : w.prev = v.prev
  before : w.before.mem = v.before.mem
  events : ∃ front rest, w.events = front ++ rest ∧
    List.Forall₂ (EventHeld num) (v.events.filter fun e => e.id ∈ printed)
      (front.filter fun d => (owner num d.id).any own) ∧ (v.after ≠ none → rest = [])
  after : ∀ s, v.after = some s → ∃ t, w.after = some t ∧ t.mem = s.mem
  exit : v.after ≠ none → w.exit = v.exit

/-- Two runs in step, up to the end or up to a visit of the first one that traps. -/
inductive InStep (R : Visit V M → Visit V M → Prop) : List (Visit V M) → List (Visit V M) → Prop
  | done : InStep R [] []
  | trapped {v w : Visit V M} {ws : List (Visit V M)} (one : R v w) (trap : v.after = none) :
      InStep R [v] (w :: ws)
  | next {v w : Visit V M} {vs ws : List (Visit V M)} (one : R v w) (rest : InStep R vs ws) :
      InStep R (v :: vs) (w :: ws)

theorem printed_iff {B : Block} (hB : B ∈ f.blocks) {i : Nat} (hi : i ∈ B.body.map Inst.id) :
    i ∈ printedIds num f ↔ i ∈ keptIds num B := by
  constructor
  · intro h
    obtain ⟨C, hC, member⟩ := List.mem_flatMap.mp h
    obtain ⟨j, hj, same⟩ := List.mem_map.mp member
    obtain ⟨i', hi', same'⟩ := List.mem_map.mp hi
    obtain ⟨rfl, rfl⟩ := ready.ssa.wf.inst_unique hC hB (List.mem_filter.mp hj).1 hi'
      (same.trans same'.symm)
    exact member
  · exact fun h => List.mem_flatMap.mpr ⟨B, hB, h⟩

omit ready in
theorem assign_block (l : Label) : (assign num f).block l = (f.block l).map (assignBlock num) :=
  block_rewritten (f := f) (g := assign num f) rfl (fun _ => rfl) l

/-- What every visit of the machine owes to the visit of the function. -/
theorem visit_held (quiet : Quiet S) (prev : Option Label) {l : Label} {s t : State V M}
    (entered : Entered S args f l s) (held : Held args cell f num l 0 s t) :
    VisitHeld (printedIds num f) num (fun _ => true) (visit S args cell f prev l s)
        (visit S args (cellRegister num cell) (assign num f) prev l t) ∧
      ∀ s', (visit S args cell f prev l s).after = some s' → ∃ B ∈ f.blocks, B.label = l ∧
        (visit S args cell f prev l s).exit = leave S (B.term.map (eval S args s'.regs)) ∧
        ∃ t', (visit S args (cellRegister num cell) (assign num f) prev l t).after = some t' ∧
          Held args cell f num B.label B.body.length s' t' := by
  unfold visit
  rw [assign_block]
  cases found : f.block l with
  | none =>
    refine ⟨⟨rfl, rfl, held.mem, ⟨[], [], rfl, .nil, fun _ => rfl⟩, ?_, fun _ => rfl⟩, ?_⟩ <;>
      intro u after <;> cases after
  | some B =>
    have hB : B ∈ f.blocks := List.mem_of_find?_eq_some found
    have label : B.label = l := by simpa using List.find?_some found
    subst label
    have noPhis : (assignBlock num B).phis = [] := ready.phiFree B hB
    simp only [Option.map_some, ready.phiFree B hB, noPhis, enterPhis]
    obtain ⟨front, rest, events, agree, final⟩ :=
      execBody_held ready quiet hB entered.reach 0 List.drop_zero held entered.settled
    have ids := execBody_ids S args cell B.body s
    change _ ∧ _
    have body : (assignBlock num B).body = assignBody num B.body := rfl
    simp only [body]
    generalize execBody S args cell B.body s = r at agree final ids
    generalize execBody S args (cellRegister num cell) (assignBody num B.body) t = q at events final
    obtain ⟨es, out⟩ := r
    obtain ⟨ds, out'⟩ := q
    have printed : es.filter (fun e => e.id ∈ printedIds num f) =
        es.filter fun e => e.id ∈ keptIds num B :=
      List.filter_congr fun e he => by simp only [printed_iff ready hB (ids e he)]
    have owned : ∀ ds' : List (Event V M), (∃ es', List.Forall₂ (EventHeld num) es' ds') →
        ds'.filter (fun d => (owner num d.id).any fun _ => true) = ds' := by
      rintro ds' ⟨es', same⟩
      induction same with
      | nil => rfl
      | cons one _ ih => rw [List.filter_cons_of_pos (by rw [one.id]; rfl), ih]
    have shown : ∃ front rest, ds = front ++ rest ∧
        List.Forall₂ (EventHeld num) (es.filter fun e => e.id ∈ printedIds num f)
          (front.filter fun d => (owner num d.id).any fun _ => true) ∧
        (out ≠ none → rest = []) := by
      refine ⟨front, rest, events, ?_, fun ends => ?_⟩
      · rw [printed, owned front ⟨_, agree⟩]
        exact agree
      · obtain ⟨s', after⟩ := Option.ne_none_iff_exists'.mp ends
        exact (final s' after).1
    cases out with
    | none =>
      have noState : ∀ u, (none : Option (State V M)) ≠ some u := fun u after => by cases after
      refine ⟨⟨?_, ?_, ?_, ?_, fun u after => absurd after (noState u), fun ends => absurd rfl ends⟩,
        fun u after => absurd after (noState u)⟩
      all_goals cases out' <;> first | rfl | exact held.mem | exact shown
    | some s' =>
      obtain ⟨-, t', after, held', settled⟩ := final s' rfl
      cases after
      have same : (assignBlock num B).term.map (eval S args t'.regs) =
          B.term.map (eval S args s'.regs) := by
        change (B.term.map (register num)).map _ = _
        rw [Term.map_map]
        refine Term.map_congr fun v use => ?_
        refine held'.eval ready hB entered.reach settled ⟨B, hB, term_use use⟩ fun d is => ?_
        exact ready.ssa.term B hB entered.reach d (is ▸ use)
      simp only [same]
      refine ⟨⟨rfl, rfl, held.mem, shown, ?_, fun _ => rfl⟩, ?_⟩
      · intro u hu
        cases hu
        exact ⟨t', rfl, held'.mem⟩
      · intro u hu
        cases hu
        exact ⟨B, hB, rfl, rfl, t', rfl, held'⟩

theorem Held.enter {B : Block} (hB : B ∈ f.blocks) {l : Label} (edge : l ∈ B.term.successors)
    {s t : State V M} (held : Held args cell f num B.label B.body.length s t) :
    Held args cell f num l 0 s t := by
  refine ⟨fun n i rev avail => ?_, held.args, held.cells, held.mem⟩
  rcases avail.of_edge ready.ssa.wf hB edge with ⟨D, hD, -, phi⟩ | before
  · rw [ready.phiFree D hD] at phi
    cases phi
  · exact held.regs n i rev before

theorem Held.start {E : Block} (entry : f.entry = some E) (mem : M) :
    Held args cell f num E.label 0 (initial S mem) (start S args f.args.length mem) := by
  refine ⟨fun n i _ avail => ?_, fun i few => if_pos few, fun _ _ _ _ _ => rfl, rfl⟩
  exfalso
  cases avail with
  | @phi B block here =>
    rw [ready.phiFree B (List.mem_of_find?_eq_some block)] at here
    cases here
  | earlier block here => simp at here
  | dominated member here dom =>
    obtain ⟨E', entry', dom⟩ := dom
    cases entry.symm.trans entry'
    exact absurd .refl dom

omit ready in
theorem run_visit (S : Sem V M) (args : Nat → V) (cell : Nat → Bool) (f : Function) (n : Nat)
    (prev : Option Label) (l : Label) (s : State V M) :
    ∃ vs, run S args cell f (n + 1) prev l s = visit S args cell f prev l s :: vs := by
  rw [run]
  split
  · exact ⟨_, rfl⟩
  · exact ⟨[], rfl⟩

theorem run_held (quiet : Quiet S) (n : Nat) {prev : Option Label} {l : Label} {s t : State V M}
    (entered : Entered S args f l s) (held : Held args cell f num l 0 s t) :
    InStep (VisitHeld (printedIds num f) num fun _ => true) (run S args cell f n prev l s)
      (run S args (cellRegister num cell) (assign num f) n prev l t) := by
  induction n generalizing prev l s t with
  | zero => exact .done
  | succ n ih =>
    obtain ⟨one, final⟩ := visit_held ready quiet prev entered held
    cases after : (visit S args cell f prev l s).after with
    | none =>
      obtain ⟨ws, machine⟩ := run_visit S args (cellRegister num cell) (assign num f) n prev l t
      have function : run S args cell f (n + 1) prev l s = [visit S args cell f prev l s] := by
        rw [run, after]
        split
        · next h => cases h
        · rfl
      rw [function, machine]
      exact .trapped one after
    | some s' =>
      obtain ⟨B, hB, label, exit, t', after', held'⟩ := final s' after
      have exit' := one.exit (by rw [after]; exact Option.some_ne_none s')
      rw [run, run, after, after', exit']
      cases goes : (visit S args cell f prev l s).exit with
      | goto l' =>
        refine .next one (ih (entered.next ready.ssa ready.phiFree goes after) ?_)
        have edge := leave_goto S (exit.symm.trans goes)
        exact Held.enter ready hB (by simpa using edge) held'
      | ret value => exact .next one .done
      | trap => exact .next one .done

theorem call_held (quiet : Quiet S) (n : Nat) (mem : M) :
    InStep (VisitHeld (printedIds num f) num fun _ => true) (call S args cell f n mem)
      (callRegisters S args (cellRegister num cell) (assign num f) n mem) := by
  have entry' : (assign num f).entry = f.entry.map (assignBlock num) := List.head?_map
  unfold call callRegisters
  rw [entry']
  cases entry : f.entry with
  | none => exact .done
  | some E =>
    exact run_held ready quiet n (.start ready.phiFree entry _) (Held.start ready entry mem)

end Step

/-! From the function with its phis. -/

section Lowered
universe u
variable {V M : Type u} {S : Sem V M} {args : Nat → V} {f g : Function} {num : Numbering}

/-- Debug intrinsics return nothing. -/
def DebugVoid (f : Function) : Prop :=
  ∀ B ∈ f.blocks, ∀ i ∈ B.body, i.op = .dbg → i.ty.isVoid = true

def IsAlloca (f : Function) (a : Nat) : Prop :=
  ∀ B ∈ f.blocks, ∀ i ∈ B.body, i.id = a → ∃ size, i.op = .alloca size

/-- What the removal of a phi puts into a block. -/
theorem lowered_inst {p : Phi} {A : Block} {i : Inst} (hi : i ∈ (lowerBlock f p A).body) :
    (∃ j ∈ A.body, i = renameInst p.id (loadId f) j) ∨
      (i.id = slotId f ∧ ∃ size, i.op = .alloca size) ∨
      (slotId f < i.id ∧ ((∃ vol q, i.op = .load vol q) ∨ ∃ v q, i.op = .store v q)) := by
  rw [lowerBlock_body, List.mem_append, List.mem_append] at hi
  rcases hi with (hi | hi) | hi <;> obtain ⟨j, hj, rfl⟩ := List.mem_map.mp hi
  · rcases mem_prologue hj with ⟨rfl, -⟩ | ⟨rfl, -⟩
    · exact Or.inr (Or.inl ⟨rfl, none, rfl⟩)
    · exact Or.inr (Or.inr ⟨Nat.lt_succ_self _, Or.inl ⟨_, _, rfl⟩⟩)
  · exact Or.inl ⟨j, hj, rfl⟩
  · obtain ⟨k, v, -, rfl⟩ := mem_phiStores hj
    refine Or.inr (Or.inr ⟨?_, Or.inr ⟨_, _, rfl⟩⟩)
    change f.nextId < f.nextId + 2 + (0 + k)
    omega

theorem handlePHI_isAlloca {p : Phi} (found : findPhi f p.id = some p) {a : Nat}
    (old : a < f.nextId) (alloca : IsAlloca f a) : IsAlloca (handlePHI f p.id) a := by
  intro B hB i hi same
  rw [handlePHI_blocks found] at hB
  obtain ⟨A, hA, rfl⟩ := List.mem_map.mp hB
  rcases lowered_inst hi with ⟨j, hj, rfl⟩ | ⟨slot, -⟩ | ⟨new, -⟩
  · obtain ⟨size, op⟩ := alloca A hA j hj same
    exact ⟨_, by rw [renameInst, op, Op.map]⟩
  · unfold slotId at slot
    omega
  · unfold slotId at new
    omega

theorem handleAll_isAlloca (wf : f.WellFormed) {pns : List Nat} (nodup : pns.Nodup)
    (members : ∀ i ∈ pns, i ∈ phiIds f) {a : Nat} (old : a < f.nextId) (alloca : IsAlloca f a) :
    IsAlloca (handleAll f pns) a := by
  induction pns generalizing f with
  | nil => exact alloca
  | cons i pns ih =>
    obtain ⟨p, found, rfl, rem⟩ := findPhi_of_mem wf (members i List.mem_cons_self)
    rw [List.nodup_cons] at nodup
    refine ih (handlePHI_wellFormed found rem) nodup.2 (phis_remain found nodup.1 members) ?_
      (handlePHI_isAlloca found old alloca)
    rw [handlePHI_nextId found]
    omega

/-- The slots are the allocas that were inserted for them. -/
theorem slots_isAlloca (wf : f.WellFormed) {pns : List Nat} (nodup : pns.Nodup)
    (members : ∀ i ∈ pns, i ∈ phiIds f) {a : Nat} (slot : isSlot f pns a) :
    IsAlloca (handleAll f pns) a := by
  induction pns generalizing f with
  | nil => cases slot
  | cons i pns ih =>
    obtain ⟨p, found, rfl, rem⟩ := findPhi_of_mem wf (members i List.mem_cons_self)
    rw [List.nodup_cons] at nodup
    have wf' := handlePHI_wellFormed found rem
    have members' := phis_remain found nodup.1 members
    rw [isSlot, Bool.or_eq_true, decide_eq_true_eq] at slot
    rcases slot with rfl | slot
    · refine handleAll_isAlloca wf' nodup.2 members' ?_ ?_
      · rw [handlePHI_nextId found]
        unfold slotId
        omega
      · intro B hB i hi same
        rw [handlePHI_blocks found] at hB
        obtain ⟨A, hA, rfl⟩ := List.mem_map.mp hB
        rcases lowered_inst hi with ⟨j, hj, rfl⟩ | ⟨-, alloca⟩ | ⟨new, -⟩
        · have old := wf.fresh A hA j.id (by simp [Block.ids]; exact Or.inr (Or.inl ⟨j, hj, rfl⟩))
          have same' : j.id = f.nextId := same
          omega
        · exact alloca
        · omega
    · exact ih wf' nodup.2 members' slot

theorem handleAll_debugVoid (wf : f.WellFormed) {pns : List Nat} (nodup : pns.Nodup)
    (members : ∀ i ∈ pns, i ∈ phiIds f) (debug : DebugVoid f) : DebugVoid (handleAll f pns) := by
  induction pns generalizing f with
  | nil => exact debug
  | cons i pns ih =>
    obtain ⟨p, found, rfl, rem⟩ := findPhi_of_mem wf (members i List.mem_cons_self)
    rw [List.nodup_cons] at nodup
    refine ih (handlePHI_wellFormed found rem) nodup.2 (phis_remain found nodup.1 members) ?_
    intro B hB i hi op
    rw [handlePHI_blocks found] at hB
    obtain ⟨A, hA, rfl⟩ := List.mem_map.mp hB
    rcases lowered_inst hi with ⟨j, hj, rfl⟩ | ⟨-, size, alloca⟩ | ⟨-, ⟨_, _, load⟩ | ⟨_, _, store⟩⟩
    · refine debug A hA j hj ?_
      cases same : j.op <;> simp_all [renameInst, Op.map]
    · rw [alloca] at op
      cases op
    · rw [load] at op
      cases op
    · rw [store] at op
      cases op

theorem forall₂_trans {α β γ : Type*} {R : α → β → Prop} {Q : β → γ → Prop} {T : α → γ → Prop}
    (trans : ∀ a b c, R a b → Q b c → T a c) {as : List α} {bs : List β} {cs : List γ}
    (first : List.Forall₂ R as bs) (second : List.Forall₂ Q bs cs) : List.Forall₂ T as cs := by
  induction first generalizing cs with
  | nil =>
    cases second
    exact .nil
  | cons one _ ih =>
    cases second with
    | cons two rest => exact .cons (trans _ _ _ one two) (ih rest)

/-- A simulated run in step with a third one. -/
theorem InStep.after {R Q T : Visit V M → Visit V M → Prop}
    (trans : ∀ u v w, R u v → Q v w → T u w)
    (traps : ∀ u v, R u v → v.after = none → u.after = none) {us vs ws : List (Visit V M)}
    (first : List.Forall₂ R us vs) (second : InStep Q vs ws) : InStep T us ws := by
  induction first generalizing ws with
  | nil =>
    cases second
    exact .done
  | cons one rest ih =>
    cases second with
    | trapped two trap =>
      cases rest
      exact .trapped (trans _ _ _ one two) (traps _ _ one trap)
    | next two later => exact .next (trans _ _ _ one two) (ih later)

theorem ends_alike {b : Nat} {h : Nat → Nat} {u v : Visit V M}
    (sim : VisitSim b h u v) : v.after = none ↔ u.after = none := by
  have after := sim.after
  cases hu : u.after <;> cases hv : v.after <;> rw [hu, hv] at after <;> simp <;> cases after

/-- Of a visit of the function with its phis, the machine executes what is printed. -/
theorem visit_lowered {printed : List Nat} {b : Nat} {h : Nat → Nat} {u v w : Visit V M}
    (sim : VisitSim b h u v) (held : VisitHeld printed num (fun _ => true) v w) :
    VisitHeld printed num (fun i => i < b) u w := by
  have ends := ends_alike sim
  refine ⟨held.label.trans sim.label, held.prev.trans sim.prev, held.before.trans sim.before.mem,
    ?_, ?_, fun goes => (held.exit (mt ends.mp goes)).trans sim.exit⟩
  · obtain ⟨front, rest, events, agree, whole⟩ := held.events
    refine ⟨front, rest, events, ?_, fun goes => whole (mt ends.mp goes)⟩
    have first := List.rel_filter (p := fun e : Event V M => decide (e.id ∈ printed))
      (q := fun e : Event V M => decide (e.id ∈ printed))
      (fun e d (same : EventSim b h e d) => by simp [same.id]) sim.events
    have second := List.rel_filter (p := fun e : Event V M => decide (e.id < b))
      (q := fun d : Event V M => (owner num d.id).any fun i => i < b)
      (fun e d (same : EventHeld num e d) => by simp [same.id]) agree
    rw [List.filter_filter] at first
    rw [List.filter_filter, List.filter_filter] at second
    have order : v.events.filter (fun e => decide (e.id ∈ printed) && decide (e.id < b)) =
        v.events.filter fun e => decide (e.id < b) && decide (e.id ∈ printed) :=
      List.filter_congr fun e _ => Bool.and_comm _ _
    have fewer : front.filter (fun d => ((owner num d.id).any fun i => i < b) &&
        (owner num d.id).any fun _ => true) =
        front.filter fun d => (owner num d.id).any fun i => i < b := by
      refine List.filter_congr fun d _ => ?_
      cases owner num d.id <;> simp
    rw [order] at first
    rw [fewer] at second
    refine forall₂_trans (fun e d c one two => ?_) first second
    exact ⟨one.id ▸ two.id, two.op.trans one.op, two.result.trans one.result,
      two.mem.trans one.before.mem⟩
  · intro s hs
    have after := sim.after
    rw [hs] at after
    cases hv : v.after with
    | none =>
      rw [hv] at after
      cases after
    | some s' =>
      rw [hv] at after
      obtain ⟨t, ht, mem⟩ := held.after s' hv
      cases after with
      | some same => exact ⟨t, ht, mem.trans same.mem⟩

/-- The written function does what the function did. From the same arguments and memory the
machine, which keeps values in the registers of their ids, goes through the same blocks,
executes every printed instruction on the same operands and memory with the same result,
takes the same branches and returns the same value. What it executes besides copies values
from and to the objects of removed phis. Only where the function traps, as dead
instructions are not printed, the machine may go on. -/
theorem registers_run (ssa : Ssa f) (debug : DebugVoid f)
    (accepted : runOnFunction f = .ok (g, num)) (quiet : Quiet S) (n : Nat) (mem : M) :
    InStep (VisitHeld (printedIds num g) num fun i => i < f.nextId)
      (call S args (fun _ => false) f n mem)
      (callRegisters S args (cellRegister num (isSlot f (phiIds f))) (assign num g) n mem) := by
  unfold runOnFunction at accepted
  split at accepted
  · next num' numbered =>
    cases accepted
    have wf := ssa.wf
    have ssa' := PhiEliminationSsa.eliminatePhis_ssa ssa
    have ready : Ready (isSlot f (phiIds f)) (eliminatePhis f) num := by
      refine ⟨ssa', (eliminatePhis_phi_free wf).2, number_numbered ssa'.wf numbered,
        number_tidy numbered, ⟨?_, ?_⟩, ?_⟩
      · intro B hB i hi slot
        exact slots_isAlloca wf (phiIds_nodup wf) (fun _ h => h) slot B hB i hi rfl
      · exact fun a slot => slots_onlyAccessed wf (phiIds_nodup wf) (fun _ h => h) slot
      · exact handleAll_debugVoid wf (phiIds_nodup wf) (fun _ h => h) debug
    refine InStep.after (Q := VisitHeld (printedIds num (eliminatePhis f)) num fun _ => true)
      ?_ ?_ (runs_preserved S args wf n mem) (call_held ready quiet n mem)
    · exact fun _ _ _ sim held => visit_lowered sim held
    · exact fun _ _ sim => (ends_alike sim).mp
  · cases accepted

end Lowered

/-- The cast that shares the register of the argument is not printed, and the load reads
this register. -/
example : (assign castLoadNumbering (castLoad (.arg 0))).blocks.flatMap Block.body =
    [⟨1, .int 32, .load false (.inst 0)⟩] := rfl

/-- A phi joins two loads, one of them through a cast. -/
def joinedLoads : Function where
  args := [.int 1, .ptr, .ptr]
  nextId := 8
  blocks :=
    [⟨0, [], [], 0, .condBr (.arg 0) 1 2⟩,
     ⟨1, [], [⟨1, .int 32, .load false (.arg 1)⟩], 2, .br 3⟩,
     ⟨2, [], [⟨3, .ptr, .cast .bitCast .ptr (.arg 2)⟩, ⟨4, .int 32, .load false (.inst 3)⟩], 5,
      .br 3⟩,
     ⟨3, [⟨6, .int 32, [(.inst 1, 1), (.inst 4, 2)]⟩], [], 7, .ret (some (.inst 6))⟩]

/-- Each address holds itself. -/
def loadSem : Sem Nat Unit where
  const := fun _ => 0
  undef := 0
  op := fun _ op m =>
    match op with
    | .load _ address => some (address, m)
    | _ => some (0, m)
  truth := fun v => v ≠ 0
  toNat := id

theorem registers_run_joinedLoads : ∃ g num, runOnFunction joinedLoads = .ok (g, num) ∧
    InStep (VisitHeld (printedIds num g) num fun i => i < joinedLoads.nextId)
      (call loadSem (fun i => i + 7) (fun _ => false) joinedLoads 3 ())
      (callRegisters loadSem (fun i => i + 7)
        (cellRegister num (isSlot joinedLoads (phiIds joinedLoads))) (assign num g) 3 ()) := by
  have accepted : ∃ g num, runOnFunction joinedLoads = .ok (g, num) := ⟨_, _, rfl⟩
  obtain ⟨g, num, accepted⟩ := accepted
  have debug : DebugVoid joinedLoads := by
    intro B hB i hi debug
    simp only [joinedLoads, List.mem_cons, List.not_mem_nil, or_false] at hB
    rcases hB with rfl | rfl | rfl | rfl <;> simp at hi
    · subst hi
      cases debug
    · rcases hi with rfl | rfl <;> cases debug
  have quiet : Quiet loadSem := fun _ _ _ _ _ _ _ _ _ => rfl
  exact ⟨g, num, accepted,
    registers_run (SsaChecks.ssa_of_checks (by decide)).1 debug accepted quiet 3 ()⟩

end RegisterMachine
