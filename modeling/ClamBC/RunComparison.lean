import ClamBC.Fallible
import ClamBC.IrExec
import ClamBC.SsaForm

/-!
# Comparing runs of a function and an edited function

A rule for passes that edit the instructions of a function one by one. Every instruction
becomes a list of instructions; what one of them does is compared with what its list does,
in states that the pass keeps related. It follows that all runs compare: they go through
the same blocks, find and leave the same memory and end in the same way, and the
instructions that both functions have compute the same results.

How the operands of such an instruction may differ is left to the pass, and so is what it
needs to know of the instructions that the first function executes.
-/

namespace RunComparison

open Ir IrExec

universe u
variable {V M : Type u}

/-- No memory object is set aside. -/
def noCells : Nat → Bool := fun _ => false

/-- What an instruction computes from its operands and the memory. -/
def outcome (S : Sem V M) (ty : Ty) (op : Op V) (m : M) : Option (V × M) :=
  match op with
  | .cast c src x => if isLosslessCast c src ty then some (x, m) else S.op ty op m
  | _ => S.op ty op m

theorem exec_noCells (S : Sem V M) (args : Nat → V) (i : Inst) (s : State V M) :
    exec S args noCells i s =
      (outcome S i.ty (i.op.map (eval S args s.regs)) s.mem).map fun r =>
        (r.1, { s with mem := r.2 }) := by
  cases op : i.op with
  | store v p => cases p <;> simp [exec, op, noCells, execPlain, outcome, Op.map]
  | load vol p => cases p <;> simp [exec, op, noCells, execPlain, outcome, Op.map]
  | cast c src v =>
    simp only [exec, op, execPlain, outcome, Op.map]
    split_ifs <;> rfl
  | _ => simp [exec, op, noCells, execPlain, outcome, Op.map]

/-- A phi that reads other values from the same blocks. -/
def mapIncoming (σ : Value → Value) (p : Phi) : Phi :=
  { p with incoming := p.incoming.map fun x => (σ x.1, x.2) }

theorem valueFrom_mapIncoming (σ : Value → Value) (p : Phi) (prev : Option Label) :
    (mapIncoming σ p).valueFrom prev = (p.valueFrom prev).map σ := by
  cases prev with
  | none => rfl
  | some l =>
    simp only [Phi.valueFrom, mapIncoming, Option.bind_some, List.find?_map, Option.map_map]
    rfl

/-- Phis that read the same values change the registers alike. -/
theorem enterPhis_like {S : Sem V M} {args : Nat → V} {P : Nat → Prop} (σ : Value → Value)
    {prev : Option Label} {old old' : Nat → V} {ps : List Phi}
    (same : ∀ i, P i → old' i = old i)
    (values : ∀ q ∈ ps, ∀ u, q.valueFrom prev = some u →
      eval S args old' (σ u) = eval S args old u) :
    Option.Rel (fun regs regs' => ∀ i, P i → regs' i = regs i)
      (enterPhis S args prev old ps) (enterPhis S args prev old' (ps.map (mapIncoming σ))) := by
  induction ps with
  | nil => exact .some same
  | cons q ps ih =>
    have tail := ih fun r hr => values r (List.mem_cons_of_mem q hr)
    simp only [List.map_cons, enterPhis, valueFrom_mapIncoming]
    generalize enterPhis S args prev old ps = r at tail
    generalize enterPhis S args prev old' (ps.map (mapIncoming σ)) = r' at tail
    cases value : q.valueFrom prev with
    | none => exact .none
    | some u =>
      cases tail with
      | none => exact .none
      | some agree =>
        refine .some fun i other => ?_
        change Function.update _ q.id _ i = Function.update _ q.id _ i
        by_cases here : i = q.id
        · rw [here, Function.update_self, Function.update_self]
          exact values q List.mem_cons_self u value
        · rw [Function.update_of_ne here, Function.update_of_ne here]
          exact agree i other

/-! What is compared. -/

/-- The same instruction with the same result in the same memory. -/
structure EventLike (R : Op V → Op V → Prop) (e d : Event V M) : Prop where
  id : d.id = e.id
  op : R e.op d.op
  result : d.result = e.result
  mem : d.before.mem = e.before.mem

/-- The same block, entered from the same block and left in the same way, with the same memory
before and after; only the instructions in `kept` are compared. -/
structure VisitLike (R : Op V → Op V → Prop) (kept : Nat → Bool) (v w : Visit V M) : Prop where
  label : w.label = v.label
  prev : w.prev = v.prev
  before : w.before.mem = v.before.mem
  events : List.Forall₂ (EventLike R) (v.events.filter fun e => kept e.id)
    (w.events.filter fun e => kept e.id)
  after : Option.Rel (fun s t => t.mem = s.mem) v.after w.after
  exit : w.exit = v.exit

theorem forall₂_comp {α β γ : Type*} {R : α → β → Prop} {Q : β → γ → Prop} {T : α → γ → Prop}
    (comp : ∀ a b c, R a b → Q b c → T a c) {as : List α} {bs : List β} {cs : List γ}
    (first : List.Forall₂ R as bs) (second : List.Forall₂ Q bs cs) : List.Forall₂ T as cs := by
  induction first generalizing cs with
  | nil =>
    cases second
    exact .nil
  | cons one _ ih =>
    cases second with
    | cons two rest => exact .cons (comp _ _ _ one two) (ih rest)

section
variable {R : Op V → Op V → Prop} {kept kept' : Nat → Bool}

theorem EventLike.refl (refl : ∀ o, R o o) (e : Event V M) : EventLike R e e :=
  ⟨rfl, refl e.op, rfl, rfl⟩

theorem EventLike.trans (trans : ∀ o p q, R o p → R p q → R o q) {c d e : Event V M}
    (first : EventLike R c d) (second : EventLike R d e) : EventLike R c e where
  id := second.id.trans first.id
  op := trans _ _ _ first.op second.op
  result := second.result.trans first.result
  mem := second.mem.trans first.mem

/-- Fewer instructions may be compared. -/
theorem events_fewer (less : ∀ i, kept' i = true → kept i = true) {es ds : List (Event V M)}
    (events : List.Forall₂ (EventLike R) (es.filter fun e => kept e.id)
      (ds.filter fun e => kept e.id)) :
    List.Forall₂ (EventLike R) (es.filter fun e => kept' e.id) (ds.filter fun e => kept' e.id) := by
  have again := List.rel_filter (p := fun e : Event V M => kept' e.id)
    (q := fun e : Event V M => kept' e.id)
    (fun e d (same : EventLike R e d) => by simp [same.id]) events
  have both : ∀ l : List (Event V M),
      (l.filter fun e => kept e.id).filter (fun e => kept' e.id) =
        l.filter fun e => kept' e.id := by
    intro l
    rw [List.filter_filter]
    refine List.filter_congr fun e _ => ?_
    cases h : kept' e.id with
    | false => rw [Bool.false_and]
    | true => rw [less e.id h, Bool.and_self]
  rwa [both, both] at again

theorem VisitLike.fewer (less : ∀ i, kept' i = true → kept i = true) {v w : Visit V M}
    (like : VisitLike R kept v w) : VisitLike R kept' v w :=
  { like with events := events_fewer less like.events }

/-- If only such instructions are executed, all are compared. -/
theorem visits_all {vs ws : List (Visit V M)} (like : List.Forall₂ (VisitLike R kept) vs ws)
    (all : ∀ v ∈ vs, ∀ e ∈ v.events, kept e.id = true)
    (all' : ∀ w ∈ ws, ∀ e ∈ w.events, kept e.id = true) :
    List.Forall₂ (VisitLike R fun _ => true) vs ws := by
  induction like with
  | nil => exact .nil
  | @cons v w vs ws one _ ih =>
    have events := one.events
    rw [List.filter_eq_self.mpr (all v List.mem_cons_self),
      List.filter_eq_self.mpr (all' w List.mem_cons_self)] at events
    refine .cons { one with events := ?_ } (ih (fun u hu => all u (List.mem_cons_of_mem v hu))
      fun u hu => all' u (List.mem_cons_of_mem w hu))
    rwa [List.filter_true, List.filter_true]

/-- One instruction is one event. -/
theorem mem_execBody_singleton (S : Sem V M) (args : Nat → V) (i : Inst) (s : State V M) :
    ∃ result, (⟨i.id, s, i.op.map (eval S args s.regs), result⟩ : Event V M) ∈
      (execBody S args noCells [i] s).1 := by
  simp only [execBody]
  cases exec S args noCells i s with
  | none => exact ⟨none, List.mem_singleton_self _⟩
  | some r => exact ⟨some r.1, List.mem_singleton_self _⟩

theorem execBody_ops (S : Sem V M) (args : Nat → V) (is : List Inst) (s : State V M) :
    ∀ e ∈ (execBody S args noCells is s).1,
      ∃ i ∈ is, e.id = i.id ∧ e.op = i.op.map (eval S args e.before.regs) := by
  induction is generalizing s with
  | nil => simp [execBody]
  | cons i is ih =>
    intro e he
    simp only [execBody] at he
    split at he
    · rw [List.mem_singleton.mp he]
      exact ⟨i, List.mem_cons_self, rfl, rfl⟩
    · rcases List.mem_cons.mp he with rfl | he
      · exact ⟨i, List.mem_cons_self, rfl, rfl⟩
      · obtain ⟨j, hj, own⟩ := ih _ e he
        exact ⟨j, List.mem_cons_of_mem i hj, own⟩

/-- What is executed is an instruction of the function. -/
theorem call_ops (S : Sem V M) (args : Nat → V) (f : Function) (n : Nat) (mem : M) :
    ∀ v ∈ call S args noCells f n mem, ∀ e ∈ v.events,
      ∃ B ∈ f.blocks, ∃ i ∈ B.body, e.id = i.id ∧ e.op = i.op.map (eval S args e.before.regs) := by
  intro v hv e he
  unfold call at hv
  cases entry : f.entry with
  | none =>
    rw [entry] at hv
    cases hv
  | some E =>
    rw [entry] at hv
    obtain ⟨q, l, t, rfl, -⟩ := run_invariant S args noCells f (fun _ _ _ => True)
      (fun _ _ _ _ _ _ _ _ => trivial) n trivial v hv
    unfold visit at he
    cases found : f.block l with
    | none => simp [found] at he
    | some B =>
      simp only [found] at he
      split at he
      · cases he
      · next regs _ =>
        have ops := execBody_ops S args B.body { t with regs := regs }
        refine ⟨B, List.mem_of_find?_eq_some found, ops e ?_⟩
        generalize execBody S args noCells B.body { t with regs := regs } = r at he
        obtain ⟨es, _ | s'⟩ := r <;> exact he

theorem call_events_lt {S : Sem V M} {args : Nat → V} {f : Function} (wf : f.WellFormed) (n : Nat)
    (mem : M) : ∀ v ∈ call S args noCells f n mem, ∀ e ∈ v.events, e.id < f.nextId := by
  intro v hv e he
  obtain ⟨B, hB, i, hi, same, -⟩ := call_ops S args f n mem v hv e he
  rw [same]
  exact wf.fresh B hB i.id (List.mem_append_left _ (List.mem_append_right _
    (List.mem_map_of_mem hi)))

/-- What holds of every instruction that is executed, if the comparison keeps it and the
instructions that are not compared have it. -/
theorem fine_transfer {Fine Fine' : Event V M → Prop} {vs ws : List (Visit V M)}
    (like : List.Forall₂ (VisitLike R kept) vs ws)
    (keeps : ∀ e d, EventLike R e d → Fine e → Fine' d)
    (others : ∀ w ∈ ws, ∀ d ∈ w.events, kept d.id = false → Fine' d)
    (fine : ∀ v ∈ vs, ∀ e ∈ v.events, Fine e) : ∀ w ∈ ws, ∀ d ∈ w.events, Fine' d := by
  intro w hw d hd
  cases compared : kept d.id with
  | false => exact others w hw d hd compared
  | true =>
    obtain ⟨v, hv, one⟩ := Fallible.exists_of_forall₂ like hw
    have inside : d ∈ w.events.filter fun e => kept e.id := List.mem_filter.mpr ⟨hd, compared⟩
    obtain ⟨e, he, event⟩ := Fallible.exists_of_forall₂ one.events inside
    exact keeps e d event (fine v hv e (List.mem_of_mem_filter he))

theorem VisitLike.refl (refl : ∀ o, R o o) (v : Visit V M) : VisitLike R kept v v where
  label := rfl
  prev := rfl
  before := rfl
  events := List.forall₂_same.mpr fun e _ => .refl refl e
  after := by
    cases v.after with
    | none => exact .none
    | some s => exact .some rfl
  exit := rfl

theorem VisitLike.trans (trans : ∀ o p q, R o p → R p q → R o q) {u v w : Visit V M}
    (first : VisitLike R kept u v) (second : VisitLike R kept v w) : VisitLike R kept u w where
  label := second.label.trans first.label
  prev := second.prev.trans first.prev
  before := second.before.trans first.before
  events := forall₂_comp (fun _ _ _ one two => one.trans trans two) first.events second.events
  after := by
    have one := first.after
    have two := second.after
    revert one two
    cases u.after <;> cases v.after <;> cases w.after <;> intro one two <;> cases one <;>
      cases two
    · exact .none
    · next one two => exact .some (two.trans one)
  exit := second.exit.trans first.exit

end

/-! The instructions that a pass collects before it changes the first one. -/

def collected (pick : Inst → Bool) (f : Function) : List Nat :=
  f.blocks.flatMap fun B => (B.body.filter pick).map Inst.id

theorem mem_collected {pick : Inst → Bool} {f : Function} {n : Nat} :
    n ∈ collected pick f ↔ ∃ B ∈ f.blocks, ∃ i ∈ B.body, i.id = n ∧ pick i = true := by
  simp only [collected, List.mem_flatMap, List.mem_map, List.mem_filter]
  constructor
  · rintro ⟨B, hB, i, ⟨hi, picked⟩, same⟩
    exact ⟨B, hB, i, hi, same, picked⟩
  · rintro ⟨B, hB, i, hi, same, picked⟩
    exact ⟨B, hB, i, ⟨hi, picked⟩, same⟩

theorem collected_nodup {f : Function} (wf : f.WellFormed) (pick : Inst → Bool) :
    (collected pick f).Nodup := by
  refine wf.ids.sublist ?_
  unfold collected
  induction f.blocks with
  | nil => exact .slnil
  | cons B Bs ih =>
    have first : ((B.body.filter pick).map Inst.id).Sublist B.ids := by
      apply (List.filter_sublist.map Inst.id).trans
      unfold Block.ids
      rw [List.append_assoc]
      exact (List.sublist_append_left _ _).trans (List.sublist_append_right _ _)
    exact first.append ih

/-! The rule. -/

section
variable (S : Sem V M) (args : Nat → V) (expand : Inst → List Inst)
variable (R : Op V → Op V → Prop) (kept : Nat → Bool) (Fine : Event V M → Prop)

/-- An instruction and the list that stands for it do the same. -/
def StepLike (Next : State V M → State V M → Prop) (i : Inst) (s t : State V M) : Prop :=
  List.Forall₂ (EventLike R)
      ((execBody S args noCells [i] s).1.filter fun e => kept e.id)
      ((execBody S args noCells (expand i) t).1.filter fun e => kept e.id) ∧
    Option.Rel Next (execBody S args noCells [i] s).2 (execBody S args noCells (expand i) t).2

/-- What a pass has to keep: `Entry` when control enters a block, `At` in front of each
instruction of a body. -/
structure Simulation (f g : Function) (edit : Block → Block)
    (Entry : Option Label → Label → State V M → State V M → Prop)
    (At : Block → Nat → State V M → State V M → Prop) : Prop where
  blocks : g.blocks = f.blocks.map edit
  label : ∀ B, (edit B).label = B.label
  body : ∀ B ∈ f.blocks, (edit B).body = B.body.flatMap expand
  mem : ∀ {prev l s t}, Entry prev l s t → t.mem = s.mem
  phis : ∀ B ∈ f.blocks, ∀ prev s t, Entry prev B.label s t →
    Option.Rel (fun regs regs' => At B 0 { s with regs := regs } { t with regs := regs' })
      (enterPhis S args prev s.regs B.phis) (enterPhis S args prev t.regs (edit B).phis)
  inst : ∀ B ∈ f.blocks, ∀ k i, B.body[k]? = some i → ∀ s t, At B k s t →
    (∀ e ∈ (execBody S args noCells [i] s).1, Fine e) →
    StepLike S args expand R kept (At B (k + 1)) i s t
  term : ∀ B ∈ f.blocks, ∀ s t, At B B.body.length s t → t.mem = s.mem ∧
    leave S ((edit B).term.map (eval S args t.regs)) = leave S (B.term.map (eval S args s.regs)) ∧
    ∀ l ∈ B.term.successors, Entry (some B.label) l s t

namespace Simulation
variable {S args expand R kept Fine} {f g : Function} {edit : Block → Block}
  {Entry : Option Label → Label → State V M → State V M → Prop}
  {At : Block → Nat → State V M → State V M → Prop}
variable (sim : Simulation S args expand R kept Fine f g edit Entry At)
include sim

theorem execBody {B : Block} (hB : B ∈ f.blocks) {is : List Inst} (k : Nat)
    (inside : k ≤ B.body.length) (suffix : B.body.drop k = is) {s t : State V M}
    (related : At B k s t) (fine : ∀ e ∈ (IrExec.execBody S args noCells is s).1, Fine e) :
    List.Forall₂ (EventLike R) ((IrExec.execBody S args noCells is s).1.filter fun e => kept e.id)
        ((IrExec.execBody S args noCells (is.flatMap expand) t).1.filter fun e => kept e.id) ∧
      Option.Rel (At B B.body.length) (IrExec.execBody S args noCells is s).2
        (IrExec.execBody S args noCells (is.flatMap expand) t).2 := by
  induction is generalizing k s t with
  | nil =>
    have last : k = B.body.length :=
      Nat.le_antisymm inside (List.drop_eq_nil_iff.mp suffix)
    subst last
    exact ⟨.nil, .some related⟩
  | cons i is ih =>
    have at_k : B.body[k]? = some i := by
      have := congrArg List.head? suffix
      rwa [List.head?_drop] at this
    have rest : B.body.drop (k + 1) = is := by
      rw [← List.tail_drop, suffix]
      rfl
    obtain ⟨short, -⟩ := List.getElem?_eq_some_iff.mp at_k
    rw [← List.singleton_append, execBody_append] at fine
    have first : ∀ e ∈ (IrExec.execBody S args noCells [i] s).1, Fine e := by
      intro e he
      apply fine
      generalize IrExec.execBody S args noCells [i] s = r at he
      obtain ⟨es, _ | s'⟩ := r
      · exact he
      · exact List.mem_append_left _ he
    obtain ⟨events, final⟩ := sim.inst B hB k i at_k s t related first
    rw [← List.singleton_append, List.flatMap_append, List.flatMap_singleton, execBody_append,
      execBody_append]
    generalize IrExec.execBody S args noCells [i] s = r at events final fine
    generalize IrExec.execBody S args noCells (expand i) t = q at events final
    obtain ⟨es, out⟩ := r
    obtain ⟨ds, out'⟩ := q
    cases final with
    | none => exact ⟨events, .none⟩
    | @some s' t' next =>
      obtain ⟨events', final'⟩ := ih (k + 1) short rest next fun e he =>
        fine e (List.mem_append_right _ he)
      refine ⟨?_, final'⟩
      dsimp only
      rw [List.filter_append, List.filter_append]
      exact List.rel_append events events'

theorem visit_like {prev : Option Label} {l : Label} {s t : State V M} (entry : Entry prev l s t)
    (fine : ∀ e ∈ (visit S args noCells f prev l s).events, Fine e) :
    VisitLike R kept (visit S args noCells f prev l s) (visit S args noCells g prev l t) ∧
      ∀ l' s' t', (visit S args noCells f prev l s).exit = .goto l' →
        (visit S args noCells f prev l s).after = some s' →
        (visit S args noCells g prev l t).after = some t' → Entry (some l) l' s' t' := by
  have block : g.block l = (f.block l).map edit :=
    SsaForm.block_rewritten sim.blocks sim.label l
  have mem := sim.mem entry
  unfold visit at fine ⊢
  rw [block]
  cases found : f.block l with
  | none =>
    exact ⟨⟨rfl, rfl, mem, .nil, .none, rfl⟩, nofun⟩
  | some B =>
    have hB : B ∈ f.blocks := List.mem_of_find?_eq_some found
    have label : B.label = l := by simpa using List.find?_some found
    subst label
    have phis := sim.phis B hB prev s t entry
    simp only [Option.map_some]
    simp only [found] at fine
    generalize enterPhis S args prev s.regs B.phis = r at phis fine
    generalize enterPhis S args prev t.regs (edit B).phis = q at phis
    cases phis with
    | none => exact ⟨⟨rfl, rfl, mem, .nil, .none, rfl⟩, nofun⟩
    | @some regs regs' related =>
      have executed : ∀ e ∈ (IrExec.execBody S args noCells B.body { s with regs := regs }).1,
          Fine e := by
        intro e he
        apply fine
        dsimp only
        generalize IrExec.execBody S args noCells B.body { s with regs := regs } = r at he
        obtain ⟨es, _ | s'⟩ := r <;> exact he
      obtain ⟨events, final⟩ := sim.execBody hB 0 (Nat.zero_le _) List.drop_zero related executed
      rw [← sim.body B hB] at events final
      dsimp only
      generalize IrExec.execBody S args noCells B.body { s with regs := regs } = r at events final
      generalize IrExec.execBody S args noCells (edit B).body { t with regs := regs' } = q
        at events final
      obtain ⟨es, out⟩ := r
      obtain ⟨ds, out'⟩ := q
      cases final with
      | none => exact ⟨⟨rfl, rfl, mem, events, .none, rfl⟩, nofun⟩
      | @some s' t' related' =>
        obtain ⟨mem', leaves, next⟩ := sim.term B hB s' t' related'
        refine ⟨⟨rfl, rfl, mem, events, .some mem', leaves⟩, ?_⟩
        intro l' u w exit after after'
        cases after
        cases after'
        exact next l' (by simpa using leave_goto S exit)

theorem run_like (n : Nat) {prev : Option Label} {l : Label} {s t : State V M}
    (entry : Entry prev l s t)
    (fine : ∀ v ∈ run S args noCells f n prev l s, ∀ e ∈ v.events, Fine e) :
    List.Forall₂ (VisitLike R kept) (run S args noCells f n prev l s)
      (run S args noCells g n prev l t) := by
  induction n generalizing prev l s t with
  | zero => exact .nil
  | succ n ih =>
    have first : visit S args noCells f prev l s ∈ run S args noCells f (n + 1) prev l s := by
      rw [run]
      split
      · exact List.mem_cons_self
      · exact List.mem_singleton_self _
    obtain ⟨one, next⟩ := sim.visit_like entry (fine _ first)
    rw [run] at fine
    rw [run, run]
    have after := one.after
    cases exit : (visit S args noCells f prev l s).exit with
    | goto l' =>
      cases hs : (visit S args noCells f prev l s).after with
      | none =>
        rw [hs] at after
        cases ht : (visit S args noCells g prev l t).after with
        | none =>
          rw [one.exit, exit]
          exact .cons one .nil
        | some t' =>
          rw [ht] at after
          cases after
      | some s' =>
        rw [hs] at after
        cases ht : (visit S args noCells g prev l t).after with
        | none =>
          rw [ht] at after
          cases after
        | some t' =>
          rw [one.exit, exit]
          refine .cons one (ih (next l' s' t' exit hs ht) fun v hv => fine v ?_)
          rw [exit, hs]
          exact List.mem_cons_of_mem _ hv
    | ret value =>
      rw [one.exit, exit]
      exact .cons one .nil
    | trap =>
      rw [one.exit, exit]
      exact .cons one .nil

/-- Every call compares if the relation holds where a call starts. -/
theorem call_like (start : ∀ E, f.entry = some E → ∀ mem,
      Entry none E.label (initial S mem) (initial S mem)) (n : Nat) (mem : M)
    (fine : ∀ v ∈ call S args noCells f n mem, ∀ e ∈ v.events, Fine e) :
    List.Forall₂ (VisitLike R kept) (call S args noCells f n mem)
      (call S args noCells g n mem) := by
  have entry : g.entry = f.entry.map edit := SsaForm.entry_rewritten sim.blocks
  unfold call at fine ⊢
  rw [entry]
  cases first : f.entry with
  | none => exact .nil
  | some E =>
    simp only [first] at fine
    simp only [Option.map_some, sim.label]
    exact sim.run_like n (start E first mem) fine

end Simulation

end

end RunComparison
