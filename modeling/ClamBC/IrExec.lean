import ClamBC.Ir
import Mathlib.Logic.Function.Basic
import Mathlib.Data.List.Forall2

/-!
# Running a function

A run is a sequence of block visits. A visit evaluates the phis of the block in
parallel from the registers at the end of the previous block, executes the body
in order and then leaves through the terminator. What the instructions compute
is a parameter: `Sem` gives the constants, the effect of each instruction on the
values of its operands and the memory, and the decisions of branches.

An `alloca` whose address is used by loads and stores only, and directly, owns a
memory object that nothing else can name. Such allocas are listed by `cell`; the
object is kept beside the memory. Registers start out undefined.
-/

namespace IrExec

open Ir

universe u
variable {V M : Type u}

/-- `op` is `none` when the instruction traps. -/
structure Sem (V M : Type u) where
  const : Const → V
  undef : V
  op : Ty → Op V → M → Option (V × M)
  truth : V → Bool
  toNat : V → Nat

structure State (V M : Type u) where
  regs : Nat → V
  cells : Nat → V
  mem : M

def eval (S : Sem V M) (args : Nat → V) (regs : Nat → V) : Value → V
  | .inst i => regs i
  | .arg i => args i
  | .const c => S.const c

/-- A bit cast between pointers, or from a type to itself, does not change the bits. -/
def isLosslessCast (op : CastOp) (src dst : Ty) : Bool :=
  match op, src, dst with
  | .bitCast, .ptr, .ptr => true
  | .bitCast, .int m, .int n => m = n
  | .bitCast, .float m, .float n => m = n
  | _, _, _ => false

section
variable (S : Sem V M) (args : Nat → V) (cell : Nat → Bool)

def execPlain (i : Inst) (s : State V M) : Option (V × State V M) :=
  (S.op i.ty (i.op.map (eval S args s.regs)) s.mem).map fun r => (r.1, { s with mem := r.2 })

/-- The value an instruction computes and its effect outside the registers. -/
def exec (i : Inst) (s : State V M) : Option (V × State V M) :=
  match i.op with
  | .alloca _ =>
    if cell i.id then some (S.undef, { s with cells := Function.update s.cells i.id S.undef })
    else execPlain S args i s
  | .store v (.inst a) =>
    if cell a then
      some (S.undef, { s with cells := Function.update s.cells a (eval S args s.regs v) })
    else execPlain S args i s
  | .load _ (.inst a) => if cell a then some (s.cells a, s) else execPlain S args i s
  | .cast op src v =>
    if isLosslessCast op src i.ty then some (eval S args s.regs v, s) else execPlain S args i s
  | _ => execPlain S args i s

/-- One executed instruction: the state it found, the values of its operands, and
its result unless it trapped. -/
structure Event (V M : Type u) where
  id : Nat
  before : State V M
  op : Op V
  result : Option V

def State.setReg (s : State V M) (i : Nat) (v : V) : State V M :=
  { s with regs := Function.update s.regs i v }

def execBody : List Inst → State V M → List (Event V M) × Option (State V M)
  | [], s => ([], some s)
  | i :: rest, s =>
    match exec S args cell i s with
    | none => ([⟨i.id, s, i.op.map (eval S args s.regs), none⟩], none)
    | some (v, s') =>
      let tail := execBody rest (s'.setReg i.id v)
      (⟨i.id, s, i.op.map (eval S args s.regs), some v⟩ :: tail.1, tail.2)

/-- All phis read the registers as they were at the end of the previous block. -/
def enterPhis (prev : Option Label) (old : Nat → V) : List Phi → Option (Nat → V)
  | [] => some old
  | p :: ps =>
    match p.valueFrom prev, enterPhis prev old ps with
    | some v, some regs => some (Function.update regs p.id (eval S args old v))
    | _, _ => none

inductive Exit (V : Type u) where
  | goto (l : Label)
  | ret (value : Option V)
  | trap

def leave : Term V → Exit V
  | .ret value => .ret value
  | .br l => .goto l
  | .condBr c t e => .goto (if S.truth c then t else e)
  | .switch c d cases => .goto ((cases.lookup (S.toNat c)).getD d)
  | .unreachable => .trap

/-- `after` is the state in which the terminator is executed, if it is reached. -/
structure Visit (V M : Type u) where
  label : Label
  prev : Option Label
  before : State V M
  events : List (Event V M)
  after : Option (State V M)
  exit : Exit V

variable (f : Function)

def visit (prev : Option Label) (l : Label) (s : State V M) : Visit V M :=
  match f.block l with
  | none => ⟨l, prev, s, [], none, .trap⟩
  | some B =>
    match enterPhis S args prev s.regs B.phis with
    | none => ⟨l, prev, s, [], none, .trap⟩
    | some regs =>
      match execBody S args cell B.body { s with regs := regs } with
      | (events, none) => ⟨l, prev, s, events, none, .trap⟩
      | (events, some s') =>
        ⟨l, prev, s, events, some s', leave S (B.term.map (eval S args s'.regs))⟩

/-- At most `n` block visits, from a given block and state. -/
def run : Nat → Option Label → Label → State V M → List (Visit V M)
  | 0, _, _, _ => []
  | n + 1, prev, l, s =>
    let v := visit S args cell f prev l s
    match v.exit, v.after with
    | .goto l', some s' => v :: run n (some l) l' s'
    | _, _ => [v]

def initial (mem : M) : State V M := ⟨fun _ => S.undef, fun _ => S.undef, mem⟩

/-- The run of a call: it starts in the entry block with undefined registers. -/
def call (n : Nat) (mem : M) : List (Visit V M) :=
  match f.entry with
  | none => []
  | some B => run S args cell f n none B.label (initial S mem)

end

/-- Instructions write their own register only. -/
theorem exec_regs {S : Sem V M} {args : Nat → V} {cell : Nat → Bool} {i : Inst} {s s' : State V M}
    {v : V} (h : exec S args cell i s = some (v, s')) : s'.regs = s.regs := by
  have plain : execPlain S args i s = some (v, s') → s'.regs = s.regs := by
    intro h
    obtain ⟨r, -, eq⟩ := Option.map_eq_some_iff.mp h
    cases eq
    rfl
  unfold exec at h
  split at h <;> first
    | exact plain h
    | split_ifs at h
      · cases h
        rfl
      · exact plain h

theorem exec_lossless {S : Sem V M} {args : Nat → V} {cell : Nat → Bool} {i : Inst} {s : State V M}
    {op : CastOp} {src : Ty} {v : Value} (cast : i.op = .cast op src v)
    (lossless : isLosslessCast op src i.ty) :
    exec S args cell i s = some (eval S args s.regs v, s) := by
  simp only [exec, cast, if_pos lossless]

theorem execBody_append (S : Sem V M) (args : Nat → V) (cell : Nat → Bool) (xs ys : List Inst)
    (s : State V M) :
    execBody S args cell (xs ++ ys) s =
      match execBody S args cell xs s with
      | (es, none) => (es, none)
      | (es, some s') =>
        let tail := execBody S args cell ys s'
        (es ++ tail.1, tail.2) := by
  induction xs generalizing s with
  | nil => rfl
  | cons i xs ih =>
    simp only [List.cons_append, execBody]
    cases hx : exec S args cell i s with
    | none => rfl
    | some r =>
      simp only [ih]
      cases execBody S args cell xs (r.2.setReg i.id r.1) with
      | mk es out => cases out <;> rfl

theorem execBody_ids (S : Sem V M) (args : Nat → V) (cell : Nat → Bool) (is : List Inst)
    (s : State V M) : ∀ e ∈ (execBody S args cell is s).1, e.id ∈ is.map Inst.id := by
  induction is generalizing s with
  | nil => simp [execBody]
  | cons i is ih =>
    intro e he
    simp only [execBody] at he
    split at he
    · rw [List.mem_singleton.mp he]
      simp
    · rcases List.mem_cons.mp he with rfl | he
      · simp
      · exact List.mem_cons_of_mem _ (ih _ e he)

theorem visit_event_ids (S : Sem V M) (args : Nat → V) (cell : Nat → Bool) (f : Function)
    (prev : Option Label) (l : Label) (s : State V M) :
    ∀ e ∈ (visit S args cell f prev l s).events, ∃ B ∈ f.blocks, e.id ∈ B.body.map Inst.id := by
  intro e he
  unfold visit at he
  cases found : f.block l with
  | none => simp [found] at he
  | some B =>
    have hB : B ∈ f.blocks := List.mem_of_find?_eq_some found
    simp only [found] at he
    split at he
    · cases he
    · next regs _ =>
      have ids := execBody_ids S args cell B.body { s with regs := regs }
      split at he
      all_goals
        next ran =>
        rw [ran] at ids
        exact ⟨B, hB, ids e he⟩

/-- What holds at the start and is kept by every visit holds at every visit of the run. -/
theorem run_invariant (S : Sem V M) (args : Nat → V) (cell : Nat → Bool) (f : Function)
    (P : Option Label → Label → State V M → Prop)
    (step : ∀ prev l s l' s', P prev l s → (visit S args cell f prev l s).exit = .goto l' →
      (visit S args cell f prev l s).after = some s' → P (some l) l' s')
    (n : Nat) {prev : Option Label} {l : Label} {s : State V M} (start : P prev l s) :
    ∀ v ∈ run S args cell f n prev l s, ∃ q m t, v = visit S args cell f q m t ∧ P q m t := by
  induction n generalizing prev l s with
  | zero => exact fun v h => by cases h
  | succ n ih =>
    intro v h
    simp only [run] at h
    split at h
    · next l' s' exit after =>
      rcases List.mem_cons.mp h with rfl | h
      · exact ⟨prev, l, s, rfl, start⟩
      · exact ih (step prev l s l' s' start exit after) v h
    · rw [List.mem_singleton.mp h]
      exact ⟨prev, l, s, rfl, start⟩

/-! Entering and leaving blocks. -/

theorem valueFrom_mem {q : Phi} {prev : Option Label} {v : Value} (h : q.valueFrom prev = some v) :
    ∃ b, prev = some b ∧ (v, b) ∈ q.incoming := by
  cases prev with
  | none => cases h
  | some b =>
    obtain ⟨e, he, rfl⟩ := Option.map_eq_some_iff.mp h
    have label : e.2 = b := by simpa using List.find?_some he
    exact ⟨b, rfl, label ▸ List.mem_of_find?_eq_some he⟩

section
variable (S : Sem V M) (args : Nat → V)

theorem enterPhis_other {prev : Option Label} {old regs : Nat → V} {ps : List Phi}
    (h : enterPhis S args prev old ps = some regs) {i : Nat} (hi : i ∉ ps.map Phi.id) :
    regs i = old i := by
  induction ps generalizing regs with
  | nil => cases h; rfl
  | cons q ps ih =>
    simp only [List.map_cons, List.mem_cons, not_or] at hi
    simp only [enterPhis] at h
    split at h
    · next v regs' _ htail =>
      cases h
      simp [hi.1, ih htail hi.2]
    · cases h

/-- A phi gets the value that it lists for the previous block. -/
theorem enterPhis_phi {prev : Option Label} {old regs : Nat → V} {ps : List Phi}
    (h : enterPhis S args prev old ps = some regs) (nodup : (ps.map Phi.id).Nodup) {q : Phi}
    (member : q ∈ ps) : ∃ v, q.valueFrom prev = some v ∧ regs q.id = eval S args old v := by
  induction ps generalizing regs with
  | nil => cases member
  | cons r ps ih =>
    rw [List.map_cons, List.nodup_cons] at nodup
    simp only [enterPhis] at h
    split at h
    · next v regs' hv htail =>
      cases h
      rcases List.mem_cons.mp member with rfl | member
      · exact ⟨v, hv, by simp⟩
      · have ne : q.id ≠ r.id := by
          intro same
          exact nodup.1 (same ▸ List.mem_map_of_mem member)
        obtain ⟨w, hw, value⟩ := ih htail nodup.2 member
        exact ⟨w, hw, by simp [ne, value]⟩
    · cases h

/-- Control enters a block at the start of the function or along an edge. -/
inductive Enters (f : Function) : Option Label → Label → Prop
  | entry {B : Block} (h : f.entry = some B) : Enters f none B.label
  | edge {A : Block} (hA : A ∈ f.blocks) {l : Label} (h : l ∈ A.term.successors) :
      Enters f (some A.label) l

/-- All phis of an entered block have an entry for the block that control comes from. -/
theorem enterPhis_isSome {f : Function} (wf : f.WellFormed) {prev : Option Label} {B : Block}
    (hB : B ∈ f.blocks) (enters : Enters f prev B.label) (old : Nat → V) :
    ∃ regs, enterPhis S args prev old B.phis = some regs := by
  have listed : ∀ q ∈ B.phis, ∃ v, q.valueFrom prev = some v := by
    intro q hq
    generalize hl : B.label = l at enters
    cases enters with
    | @entry E hE =>
      have mem : E ∈ f.blocks := List.mem_of_head? hE
      have same : B = E := List.inj_on_of_nodup_map wf.labels hB mem hl
      rw [same, wf.entryPhis E hE] at hq
      cases hq
    | @edge A hA l h =>
      obtain ⟨v, hv⟩ := wf.complete A hA B hB (hl ▸ h) q hq
      cases found : q.incoming.find? fun e => e.2 = A.label with
      | none =>
        have := List.find?_eq_none.mp found _ hv
        simp at this
      | some e => exact ⟨e.1, by simp [Phi.valueFrom, found]⟩
  generalize B.phis = ps at listed
  induction ps with
  | nil => exact ⟨old, rfl⟩
  | cons q ps ih =>
    obtain ⟨v, hv⟩ := listed q List.mem_cons_self
    obtain ⟨regs, hr⟩ := ih (fun r hr => listed r (List.mem_cons_of_mem q hr))
    exact ⟨Function.update regs q.id (eval S args old v), by simp [enterPhis, hv, hr]⟩

theorem leave_goto {t : Term V} {l : Label} (h : leave S t = .goto l) : l ∈ t.successors := by
  cases t with
  | ret value => cases h
  | br dest => cases h; simp [Term.successors]
  | condBr c a b =>
    cases h
    by_cases hc : S.truth c <;> simp [Term.successors, hc]
  | switch c d cases =>
    cases h
    cases hc : cases.lookup (S.toNat c) with
    | none => simp [Term.successors]
    | some l =>
      obtain ⟨before, after, split, -⟩ := List.lookup_eq_some_iff.mp hc
      simp [Term.successors, split]
  | unreachable => cases h

theorem visit_label (cell : Nat → Bool) (f : Function) (prev : Option Label) (l : Label)
    (s : State V M) :
    (visit S args cell f prev l s).label = l := by
  unfold visit
  split
  · rfl
  · split
    · rfl
    · split <;> rfl

/-- A visit that goes on enters the next block along an edge. -/
theorem visit_enters {cell : Nat → Bool} {f : Function} {prev : Option Label} {l l' : Label}
    {s : State V M} (h : (visit S args cell f prev l s).exit = .goto l') :
    Enters f (some l) l' := by
  unfold visit at h
  cases found : f.block l with
  | none => simp [found] at h
  | some B =>
    have hB : B ∈ f.blocks := List.mem_of_find?_eq_some found
    have label : B.label = l := by simpa using List.find?_some found
    simp only [found] at h
    split at h
    · cases h
    · split at h
      · cases h
      · subst label
        have := leave_goto S h
        exact .edge hB (by simpa using this)

/-- A visit that comes to its end leaves through the terminator of its block. -/
theorem visit_leave {cell : Nat → Bool} {f : Function} {prev : Option Label} {l : Label}
    {s : State V M} (ends : (visit S args cell f prev l s).exit ≠ .trap) :
    ∃ B regs s', f.block l = some B ∧ enterPhis S args prev s.regs B.phis = some regs ∧
      (execBody S args cell B.body { s with regs := regs }).2 = some s' ∧
      (visit S args cell f prev l s).after = some s' ∧
      (visit S args cell f prev l s).exit = leave S (B.term.map (eval S args s'.regs)) := by
  unfold visit at ends ⊢
  cases found : f.block l with
  | none => simp [found] at ends
  | some B =>
    simp only [found] at ends ⊢
    cases phis : enterPhis S args prev s.regs B.phis with
    | none => simp [phis] at ends
    | some regs =>
      simp only [phis] at ends ⊢
      cases ran : execBody S args cell B.body { s with regs := regs } with
      | mk events after =>
        cases after with
        | none => simp [ran] at ends
        | some s' => exact ⟨B, regs, s', rfl, phis, by rw [ran], rfl, rfl⟩

/-- A visit that returns does so through the return of its block. -/
theorem visit_ret {cell : Nat → Bool} {f : Function} {prev : Option Label} {l : Label}
    {s : State V M} {x : V} (exit : (visit S args cell f prev l s).exit = .ret (some x)) :
    ∃ B v s', f.block l = some B ∧ B.term = .ret (some v) ∧
      (visit S args cell f prev l s).after = some s' ∧ x = eval S args s'.regs v := by
  obtain ⟨B, regs, s', block, -, -, after, leaves⟩ := visit_leave S args (by rw [exit]; exact nofun)
  rw [exit] at leaves
  cases term : B.term with
  | ret v =>
    rw [term] at leaves
    cases v with
    | none => cases leaves
    | some v =>
      cases leaves
      exact ⟨B, v, s', block, term, after, rfl⟩
  | _ =>
    rw [term] at leaves
    cases leaves

end

/-! Comparing runs of two functions, the second of which keeps the value of register
`i` of the first in register `home i`. Instructions numbered from `bound` on belong to
the second function only. -/

structure StateSim (bound : Nat) (home : Nat → Nat) (s t : State V M) : Prop where
  regs : ∀ i, i < bound → t.regs (home i) = s.regs i
  mem : t.mem = s.mem

structure EventSim (bound : Nat) (home : Nat → Nat) (e d : Event V M) : Prop where
  id : d.id = e.id
  op : d.op = e.op
  result : d.result = e.result
  before : StateSim bound home e.before d.before

/-- The same block is visited from the same block, the instructions of the first function
find the same operands and compute the same results, and the visit ends in the same way. -/
structure VisitSim (bound : Nat) (home : Nat → Nat) (v w : Visit V M) : Prop where
  label : w.label = v.label
  prev : w.prev = v.prev
  before : StateSim bound home v.before w.before
  events : List.Forall₂ (EventSim bound home) v.events (w.events.filter fun e => e.id < bound)
  after : Option.Rel (StateSim bound home) v.after w.after
  exit : w.exit = v.exit

theorem StateSim.trans {b c : Nat} {h k : Nat → Nat} {r s t : State V M}
    (maps : ∀ i, i < b → h i < c) (first : StateSim b h r s) (second : StateSim c k s t) :
    StateSim b (k ∘ h) r t where
  regs := fun i hi => (second.regs (h i) (maps i hi)).trans (first.regs i hi)
  mem := second.mem.trans first.mem

theorem EventSim.trans {b c : Nat} {h k : Nat → Nat} {d e g : Event V M}
    (maps : ∀ i, i < b → h i < c) (first : EventSim b h d e) (second : EventSim c k e g) :
    EventSim b (k ∘ h) d g where
  id := second.id.trans first.id
  op := second.op.trans first.op
  result := second.result.trans first.result
  before := first.before.trans maps second.before

theorem events_trans {b c : Nat} {h k : Nat → Nat} (le : b ≤ c)
    (maps : ∀ i, i < b → h i < c) {xs ys zs : List (Event V M)}
    (first : List.Forall₂ (EventSim b h) xs (ys.filter fun e => e.id < b))
    (second : List.Forall₂ (EventSim c k) ys (zs.filter fun e => e.id < c)) :
    List.Forall₂ (EventSim b (k ∘ h)) xs (zs.filter fun e => e.id < b) := by
  have coarse : zs.filter (fun e => e.id < b) =
      (zs.filter fun e => e.id < c).filter fun e => e.id < b := by
    rw [List.filter_filter]
    apply List.filter_congr
    intro e _
    by_cases h : e.id < b
    · simp [h, Nat.lt_of_lt_of_le h le]
    · simp [h]
  rw [coarse]
  generalize zs.filter (fun e => e.id < c) = ws at second
  induction second generalizing xs with
  | nil => simpa using first
  | @cons y w ys ws head _ ih =>
    by_cases small : y.id < b
    · have smallW : w.id < b := head.id ▸ small
      rw [List.filter_cons_of_pos (by simpa using small)] at first
      rw [List.filter_cons_of_pos (by simpa using smallW)]
      cases first with
      | cons one rest => exact .cons (one.trans maps head) (ih rest)
    · have bigW : ¬ w.id < b := head.id ▸ small
      rw [List.filter_cons_of_neg (by simpa using small)] at first
      rw [List.filter_cons_of_neg (by simpa using bigW)]
      exact ih first

theorem VisitSim.trans {b c : Nat} {h k : Nat → Nat} (le : b ≤ c)
    (maps : ∀ i, i < b → h i < c) {u v w : Visit V M} (first : VisitSim b h u v)
    (second : VisitSim c k v w) : VisitSim b (k ∘ h) u w where
  label := second.label.trans first.label
  prev := second.prev.trans first.prev
  before := first.before.trans maps second.before
  events := events_trans le maps first.events second.events
  after := by
    have one := first.after
    have two := second.after
    cases hu : u.after with
    | none =>
      rw [hu] at one
      cases hv : v.after with
      | none => rw [hv] at two; cases hw : w.after with
        | none => exact .none
        | some t => rw [hw] at two; cases two
      | some s => rw [hv] at one; cases one
    | some r =>
      rw [hu] at one
      cases hv : v.after with
      | none => rw [hv] at one; cases one
      | some s =>
        rw [hv] at one two
        cases hw : w.after with
        | none => rw [hw] at two; cases two
        | some t =>
          rw [hw] at two
          cases one with
          | some one => cases two with
            | some two => exact .some (one.trans maps two)
  exit := second.exit.trans first.exit

theorem runs_trans {b c : Nat} {h k : Nat → Nat} (le : b ≤ c)
    (maps : ∀ i, i < b → h i < c) {us vs ws : List (Visit V M)}
    (first : List.Forall₂ (VisitSim b h) us vs) (second : List.Forall₂ (VisitSim c k) vs ws) :
    List.Forall₂ (VisitSim b (k ∘ h)) us ws := by
  induction first generalizing ws with
  | nil => cases second; exact .nil
  | cons one _ ih =>
    cases second with
    | cons two rest => exact .cons (one.trans le maps two) (ih rest)

end IrExec
