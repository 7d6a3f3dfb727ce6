import ClamBC.PhiEliminationSsa
import ClamBC.ValueNumbering

/-!
# Sharing a register is sound

A lossless bit cast gets the id of the value that it casts and is not emitted. Along
a run the cast value may be computed anew while the result of the cast is still the
old one; that can only happen where the cast is not available. Wherever it is, both
have the same value.
-/

namespace SharedRegisters

open Ir IrExec PhiElimination SsaForm ValueNumbering

universe u
variable {V M : Type u} (S : Sem V M) (args : Nat → V) (cell : Nat → Bool) {f : Function}

/-- Every bit cast that is available has the current value of its operand. -/
def Settled (f : Function) (l : Label) (k : Nat) (s : State V M) : Prop :=
  ∀ C ∈ f.blocks, ∀ j ∈ C.body, ∀ op src v, j.op = .cast op src v → isLosslessCast op src j.ty →
    Available f j.id l k → s.regs j.id = eval S args s.regs v

variable {S args cell}

theorem eval_update {regs : Nat → V} {i : Nat} {x : V} {v : Value} (other : v ≠ .inst i) :
    eval S args (Function.update regs i x) v = eval S args regs v := by
  cases v with
  | inst d =>
    have ne : d ≠ i := fun same => other (same ▸ rfl)
    exact Function.update_of_ne ne x regs
  | arg i => rfl
  | const c => rfl

theorem available_succ (wf : f.WellFormed) {B : Block} (hB : B ∈ f.blocks) {k : Nat} {i : Inst}
    (at_k : B.body[k]? = some i) {d : Nat} (other : d ≠ i.id) (h : Available f d B.label (k + 1)) :
    Available f d B.label k := by
  cases h with
  | phi block here => exact .phi block here
  | earlier block here =>
    cases block.symm.trans (wf.block_of_label hB)
    obtain ⟨short, eq⟩ := List.getElem?_eq_some_iff.mp at_k
    rw [List.take_succ_eq_append_getElem short, eq, List.map_append, List.mem_append] at here
    rcases here with here | here
    · exact .earlier block here
    · exact absurd (List.mem_singleton.mp here) other
  | dominated member here dom => exact .dominated member here dom

theorem Settled.exec (ssa : Ssa f) {B : Block} (hB : B ∈ f.blocks) (reach : Reachable f B.label)
    {k : Nat} {i : Inst} (at_k : B.body[k]? = some i) {s s' : State V M} {x : V}
    (settled : Settled S args f B.label k s) (ran : exec S args cell i s = some (x, s')) :
    Settled S args f B.label (k + 1) (s'.setReg i.id x) := by
  intro C hC j hj op src v cast lossless avail
  have regs : (s'.setReg i.id x).regs = Function.update s.regs i.id x := by
    rw [State.setReg, exec_regs ran]
  rw [regs]
  obtain ⟨m, at_m⟩ := List.getElem?_of_mem hj
  by_cases same : j.id = i.id
  · -- the cast itself has just been executed; its operand is another instruction
    obtain ⟨rfl, rfl⟩ := ssa.wf.inst_unique hC hB hj (List.mem_of_getElem? at_k) same
    have notSelf : v ≠ .inst j.id := by
      rintro rfl
      have own := ssa.body C hB reach k j at_k j.id (by simp [cast, Op.operands])
      exact not_both_available ssa.wf hB hB reach at_k at_k own own
    rw [exec_lossless cast lossless] at ran
    cases ran
    rw [eval_update notSelf, Function.update_self]
  · have before := available_succ ssa.wf hB at_k same avail
    have reachC : Reachable f C.label := by
      rcases before.of_inst ssa.wf hB hC at_m with ⟨rfl, -⟩ | dom
      · exact reach
      · exact dom.reachable reach
    have notOperand : v ≠ .inst i.id := by
      rintro rfl
      have back := ssa.body C hC reachC m j at_m i.id (by simp [cast, Op.operands])
      exact not_both_available ssa.wf hB hC reach at_k at_m before back
    rw [eval_update notOperand, Function.update_of_ne same]
    exact settled C hC j hj op src v cast lossless before

/-- An executed instruction of the block, at its place and in the state that it found. -/
def EventAt (S : Sem V M) (args : Nat → V) (f : Function) (B : Block) (e : Event V M) : Prop :=
  ∃ k i, B.body[k]? = some i ∧ i.id = e.id ∧ Settled S args f B.label k e.before

theorem execBody_settled (cell : Nat → Bool) (ssa : Ssa f) {B : Block} (hB : B ∈ f.blocks)
    (reach : Reachable f B.label) {is : List Inst} (k : Nat) (suffix : B.body.drop k = is)
    {s : State V M} (settled : Settled S args f B.label k s) :
    (∀ e ∈ (execBody S args cell is s).1, EventAt S args f B e) ∧
      ∀ s', (execBody S args cell is s).2 = some s' →
        Settled S args f B.label B.body.length s' := by
  induction is generalizing k s with
  | nil =>
    refine ⟨fun e he => ?_, ?_⟩
    · cases he
    intro s' h
    cases h
    intro C hC j hj op src v cast lossless avail
    have long : B.body.length ≤ k := List.drop_eq_nil_iff.mp suffix
    exact settled C hC j hj op src v cast lossless (avail.mono long)
  | cons i is ih =>
    have at_k : B.body[k]? = some i := by
      have := congrArg List.head? suffix
      rwa [List.head?_drop] at this
    have rest : B.body.drop (k + 1) = is := by
      rw [← List.tail_drop, suffix]
      rfl
    have here : ∀ r, EventAt S args f B ⟨i.id, s, i.op.map (eval S args s.regs), r⟩ :=
      fun _ => ⟨k, i, at_k, rfl, settled⟩
    rw [execBody]
    cases ran : exec S args cell i s with
    | none =>
      refine ⟨?_, fun s' h => ?_⟩
      · intro e he
        rw [List.mem_singleton.mp he]
        exact here _
      · cases h
    | some r =>
      obtain ⟨events, final⟩ := ih (k + 1) rest (settled.exec ssa hB reach at_k ran)
      refine ⟨?_, final⟩
      intro e he
      rcases List.mem_cons.mp he with rfl | he
      · exact here _
      · exact events e he

/-! Whole runs of a function without phis. -/

/-- The blocks are entered in settled states. -/
structure Entered (S : Sem V M) (args : Nat → V) (f : Function) (l : Label)
    (s : State V M) : Prop where
  reach : Reachable f l
  settled : Settled S args f l 0 s

/-- A visit found its block, or nothing happened. -/
def VisitAt (S : Sem V M) (args : Nat → V) (f : Function) (v : Visit V M) : Prop :=
  (v.events = [] ∧ v.after = none) ∨ ∃ B ∈ f.blocks, B.label = v.label ∧ Reachable f B.label ∧
    (∀ e ∈ v.events, EventAt S args f B e) ∧
    ∀ s', v.after = some s' → Settled S args f B.label B.body.length s'

theorem visit_settled (cell : Nat → Bool) (ssa : Ssa f) (phiFree : ∀ B ∈ f.blocks, B.phis = [])
    (prev : Option Label) {l : Label} {s : State V M} (entered : Entered S args f l s) :
    VisitAt S args f (visit S args cell f prev l s) := by
  unfold visit
  cases found : f.block l with
  | none => exact Or.inl ⟨rfl, rfl⟩
  | some B =>
    have hB : B ∈ f.blocks := List.mem_of_find?_eq_some found
    have label : B.label = l := by simpa using List.find?_some found
    subst label
    simp only [phiFree B hB, enterPhis]
    have body := execBody_settled cell ssa hB entered.reach 0 List.drop_zero entered.settled
    revert body
    generalize execBody S args cell B.body s = r
    obtain ⟨events, final⟩ := r
    rintro ⟨settledEvents, settledEnd⟩
    cases final with
    | none =>
      refine Or.inr ⟨B, hB, rfl, entered.reach, settledEvents, fun s' h => ?_⟩
      cases h
    | some s' => exact Or.inr ⟨B, hB, rfl, entered.reach, settledEvents, settledEnd⟩

theorem Entered.next (ssa : Ssa f) (phiFree : ∀ B ∈ f.blocks, B.phis = []) {prev : Option Label}
    {l l' : Label} {s s' : State V M} (entered : Entered S args f l s)
    (exit : (visit S args cell f prev l s).exit = .goto l')
    (after : (visit S args cell f prev l s).after = some s') : Entered S args f l' s' := by
  rcases visit_settled cell ssa phiFree prev entered with ⟨-, none⟩ |
    ⟨B, hB, same, reach, -, settledEnd⟩
  · rw [none] at after
    cases after
  · rw [visit_label] at same
    subst same
    have settled := settledEnd s' after
    have enters := visit_enters S args exit
    generalize start : some B.label = o at enters
    cases enters with
    | entry => cases start
    | @edge A hA _ succ =>
      cases List.inj_on_of_nodup_map ssa.wf.labels hB hA (Option.some.inj start)
      refine ⟨reach.step ⟨B, ssa.wf.block_of_label hB, succ⟩, ?_⟩
      intro C hC j hj op src v cast lossless avail
      rcases avail.of_edge ssa.wf hB succ with ⟨D, hD, -, phi⟩ | before
      · rw [phiFree D hD] at phi
        cases phi
      · exact settled C hC j hj op src v cast lossless before

theorem Entered.start (phiFree : ∀ B ∈ f.blocks, B.phis = []) {E : Block} (entry : f.entry = some E)
    (s : State V M) : Entered S args f E.label s := by
  refine ⟨⟨E, entry, .refl⟩, ?_⟩
  intro C hC j hj op src v cast lossless avail
  cases avail with
  | @phi B block here =>
    rw [phiFree B (List.mem_of_find?_eq_some block)] at here
    cases here
  | earlier block here => simp at here
  | dominated member here dom =>
    obtain ⟨E', entry', dom⟩ := dom
    cases entry.symm.trans entry'
    exact absurd .refl dom

theorem call_settled (S : Sem V M) (args : Nat → V) (cell : Nat → Bool) (ssa : Ssa f)
    (phiFree : ∀ B ∈ f.blocks, B.phis = []) (n : Nat) (mem : M) :
    ∀ v ∈ call S args cell f n mem, VisitAt S args f v := by
  intro v hv
  unfold call at hv
  cases entry : f.entry with
  | none => rw [entry] at hv; cases hv
  | some E =>
    rw [entry] at hv
    obtain ⟨q, l, t, rfl, entered⟩ :=
      run_invariant S args cell f (fun _ l s => Entered S args f l s)
      (fun _ _ _ _ _ entered exit after => entered.next ssa phiFree exit after) n
      (Entered.start phiFree entry (initial S mem)) v hv
    exact visit_settled cell ssa phiFree q entered

/-! Values that share an id. -/

def keyValue (args : Nat → V) (regs : Nat → V) : Key → V
  | .arg i => args i
  | .inst i => regs i

/-- Arguments are available everywhere. -/
def KeyAvailable (f : Function) (l : Label) (k : Nat) : Key → Prop
  | .arg _ => True
  | .inst i => Available f i l k

theorem eval_key {regs : Nat → V} {v : Value} {k : Key} (h : key v = some k) :
    eval S args regs v = keyValue args regs k := by
  cases v with
  | inst i => cases h; rfl
  | arg i => cases h; rfl
  | const c => cases h

theorem Shares.same_value (ssa : Ssa f) {B : Block} (hB : B ∈ f.blocks)
    (reach : Reachable f B.label) {k : Nat} {s : State V M} (settled : Settled S args f B.label k s)
    {x r : Key} (shares : Shares f x r) (avail : KeyAvailable f B.label k x) :
    KeyAvailable f B.label k r ∧ keyValue args s.regs x = keyValue args s.regs r := by
  induction shares using Relation.ReflTransGen.head_induction_on with
  | refl => exact ⟨avail, rfl⟩
  | @head x y casts _ ih =>
    obtain ⟨C, hC, j, hj, rfl, op, src, v, cast, lossless, operand⟩ := casts
    obtain ⟨m, at_m⟩ := List.getElem?_of_mem hj
    have value := settled C hC j hj op src v cast lossless avail
    rw [eval_key operand] at value
    have reachC : Reachable f C.label := by
      rcases Available.of_inst ssa.wf hB hC at_m avail with ⟨rfl, -⟩ | dom
      · exact reach
      · exact dom.reachable reach
    have next : KeyAvailable f B.label k y := by
      cases v with
      | inst d =>
        cases operand
        have atCast := ssa.body C hC reachC m j at_m d (by simp [cast, Op.operands])
        exact atCast.trans ssa.wf hB hC at_m avail
      | arg d => cases operand; trivial
      | const c => cases operand
    obtain ⟨last, same⟩ := ih next
    exact ⟨last, value.trans same⟩

/-- Where the operands are read, the register of each of them holds its value: the value
that owns the id is available and equal, and so is every other value with this id that is
available there. -/
def Coherent (f : Function) (num : Numbering) (args : Nat → V) (l : Label) (k : Nat) (s : State V M)
    (operands : List Value) : Prop :=
  ∀ v ∈ operands, ∀ x n, key v = some x → num.find x = some (some n) →
    (∃ r, num.revValueMap[n]? = some r ∧ KeyAvailable f l k r ∧
      keyValue args s.regs r = keyValue args s.regs x) ∧
    ∀ y, num.find y = some (some n) → KeyAvailable f l k y →
      keyValue args s.regs y = keyValue args s.regs x

theorem coherent_of_settled (ssa : Ssa f) {num : Numbering} (inv : Invariant f num) {B : Block}
    (hB : B ∈ f.blocks) (reach : Reachable f B.label) {k : Nat} {s : State V M}
    (settled : Settled S args f B.label k s) {operands : List Value}
    (avail : ∀ d, Value.inst d ∈ operands → Available f d B.label k) :
    Coherent f num args B.label k s operands := by
  intro v hv x n operand found
  have here : KeyAvailable f B.label k x := by
    cases v with
    | inst d => cases operand; exact avail d hv
    | arg d => cases operand; trivial
    | const c => cases operand
  obtain ⟨r, rev, shares⟩ := inv.shares x n found
  obtain ⟨ownerHere, same⟩ := Shares.same_value ssa hB reach settled shares here
  refine ⟨⟨r, rev, ownerHere, same.symm⟩, ?_⟩
  intro y foundY hereY
  obtain ⟨r', rev', shares'⟩ := inv.shares y n foundY
  cases rev.symm.trans rev'
  exact (Shares.same_value ssa hB reach settled shares' hereY).2.trans same.symm

/-- What the numbering promises about the ids alone. -/
structure NumberingSound (f g : Function) (num : Numbering) : Prop where
  ids : ∀ n, (∃ x, num.find x = some (some n)) ↔ n < num.revValueMap.length
  args : ∀ i, i < f.args.length → num.revValueMap[i]? = some (Key.arg i) ∧
    num.find (.arg i) = some (some i)
  reverse : ∀ (n : Nat) x, num.revValueMap[n]? = some x → num.find x = some (some n)
  emitted : ∀ B ∈ g.blocks, ∀ i ∈ B.body, emitted num i → i.ty.isVoid = false →
    ∃ n, num.find (.inst i.id) = some (some n) ∧ num.revValueMap[n]? = some (Key.inst i.id)
  noMismatch : buildReverseMap num = some num.revValueMap
  quiet : num.errs = []

/-- What it promises about a visit: at every instruction that is executed, and at the
terminator, the operands are coherent. -/
structure VisitCoherent (g : Function) (num : Numbering) (args : Nat → V)
    (v : Visit V M) : Prop where
  events : ∀ e ∈ v.events, ∃ B ∈ g.blocks, B.label = v.label ∧ ∃ k i, B.body[k]? = some i ∧
    i.id = e.id ∧ Coherent g num args v.label k e.before i.op.operands
  term : ∀ s, v.after = some s → ∃ B ∈ g.blocks, B.label = v.label ∧
    Coherent g num args v.label B.body.length s B.term.operands

theorem Numbered.sound {g : Function} {num : Numbering} (numbered : Numbered g num)
    (sameArgs : g.args = f.args) : NumberingSound f g num := by
  have inv := numbered.inv
  constructor
  case ids =>
    intro n
    constructor
    · rintro ⟨x, found⟩
      rw [inv.size]
      exact inv.find_lt found
    · intro short
      exact ⟨_, inv.owner n _ (List.getElem?_eq_getElem short)⟩
  case args =>
    intro i hi
    rw [← sameArgs] at hi
    have at_i : num.revValueMap[i]? = some (Key.arg i) := by
      obtain ⟨rest, split⟩ := numbered.args
      rw [← split, List.getElem?_append_left (by simpa using hi)]
      simp [hi]
    exact ⟨at_i, inv.owner i _ at_i⟩
  case reverse => exact inv.owner
  case emitted =>
    intro B hB i hi printed value
    have notSkipped : i.id ∉ num.skipMap := by
      unfold ValueNumbering.emitted at printed
      split at printed
      · cases printed
      · cases printed
      · simpa using printed
    obtain ⟨x, found, why⟩ := numbered.done B hB i hi
    cases x with
    | none =>
      rcases why rfl with void | ⟨-, skipped⟩
      · rw [value] at void
        cases void
      · exact absurd skipped notSkipped
    | some n => exact ⟨n, found, inv.own i.id n found notSkipped⟩
  case noMismatch => exact buildReverseMap_eq inv
  case quiet => exact inv.quiet

/-- Numbering is sound: the ids are exactly those below the size of the reverse map, which
inverts the value map; arguments come first; what is printed with a result has an id, which
it owns; the reverse map is rebuilt without a mismatch; and in every run values that share
an id are equal where one of them is read. -/
theorem numbering_sound {g : Function} {num : Numbering} (ssa : Ssa f)
    (accepted : runOnFunction f = .ok (g, num)) (S : Sem V M) (args : Nat → V) (cell : Nat → Bool)
    (n : Nat) (mem : M) :
    NumberingSound f g num ∧ ∀ v ∈ call S args cell g n mem, VisitCoherent g num args v := by
  unfold runOnFunction at accepted
  split at accepted
  · next num' numberedOk =>
    cases accepted
    have ssa' := PhiEliminationSsa.eliminatePhis_ssa ssa
    have phiFree := (eliminatePhis_phi_free ssa.wf).2
    have numbered := number_numbered ssa'.wf numberedOk
    refine ⟨Numbered.sound numbered (eliminatePhis_args f), ?_⟩
    intro v hv
    rcases call_settled S args cell ssa' phiFree n mem v hv with
      ⟨noEvents, noEnd⟩ | ⟨B, hB, label, reach, events, final⟩
    · constructor
      · rw [noEvents]
        exact nofun
      · rw [noEnd]
        exact nofun
    · constructor
      · intro e he
        obtain ⟨k, i, at_k, same, settled⟩ := events e he
        refine ⟨B, hB, label, k, i, at_k, same, label ▸ ?_⟩
        exact coherent_of_settled ssa' numbered.inv hB reach settled (ssa'.body B hB reach k i at_k)
      · intro s hs
        refine ⟨B, hB, label, label ▸ ?_⟩
        exact coherent_of_settled ssa' numbered.inv hB reach (final s hs) (ssa'.term B hB reach)
  · cases accepted

/-- A pointer read through a bit cast. -/
def castLoad (v : Value) : Function where
  args := [.ptr]
  nextId := 3
  blocks := [⟨0, [], [⟨0, .ptr, .cast .bitCast .ptr v⟩, ⟨1, .int 32, .load false (.inst 0)⟩], 2,
    .ret (some (.inst 1))⟩]

theorem castLoad_ssa {v : Value} (notInst : ∀ i, v ≠ .inst i) (isArg : ∀ i, v = .arg i → i = 0) :
    Ssa (castLoad v) := by
  have only : ∀ B ∈ (castLoad v).blocks, B = ⟨0, [], [⟨0, .ptr, .cast .bitCast .ptr v⟩,
      ⟨1, .int 32, .load false (.inst 0)⟩], 2, .ret (some (.inst 1))⟩ := fun B hB => by
    simpa [castLoad] using hB
  refine ⟨?_, ?_, ?_, ?_⟩
  · constructor
    case labels => simp [castLoad]
    case ids => simp [castLoad, Block.ids]
    case fresh =>
      intro B hB i hi
      rw [only B hB] at hi
      have which : i = 0 ∨ i = 1 ∨ i = 2 := by simpa [Block.ids] using hi
      change i < 3
      omega
    case uses =>
      intro B hB i hi
      refine ⟨B, hB, ?_⟩
      rw [only B hB] at hi ⊢
      have which : i = 0 ∨ i = 1 := by
        simpa [Block.uses, Op.operands, Term.operands, (notInst i).symm] using hi
      rcases which with rfl | rfl
      · exact ⟨.ptr, by simp [Block.defs], rfl⟩
      · exact ⟨.int 32, by simp [Block.defs], rfl⟩
    case argUses =>
      intro B hB i hi
      rw [only B hB] at hi
      have operand : Value.arg i = v := by
        simpa [Block.uses, Op.operands, Term.operands] using hi
      cases isArg i operand.symm
      exact Nat.one_pos
    case storeTypes =>
      intro B hB i hi w a op
      rw [only B hB] at hi
      simp only [List.mem_cons, List.not_mem_nil, or_false] at hi
      rcases hi with rfl | rfl <;> cases op
    case loadTypes =>
      intro B hB i hi w a op
      rw [only B hB] at hi
      simp only [List.mem_cons, List.not_mem_nil, or_false] at hi
      rcases hi with rfl | rfl
      · cases op
      · rfl
    case entryPhis =>
      intro B hB
      rw [only B (List.mem_of_head? hB)]
    case entryPreds =>
      intro B _ A hA
      rw [only A hA]
      simp [Term.successors]
    case complete =>
      intro A hA B _ edge
      rw [only A hA] at edge
      simp [Term.successors] at edge
    all_goals
      intro B hB p hp
      rw [only B hB] at hp
      cases hp
  · intro B hB _ k i at_k d use
    have block : (castLoad v).block B.label = some B := by rw [only B hB]; rfl
    rw [only B hB] at at_k
    rcases k with _ | _ | k
    · cases at_k
      simp only [Op.operands, List.mem_singleton] at use
      exact absurd use.symm (notInst d)
    · cases at_k
      simp only [Op.operands, List.mem_singleton, Value.inst.injEq] at use
      refine .earlier block ?_
      rw [only B hB]
      simp [use]
    · simp at at_k
  · intro B hB _ d use
    refine .earlier (by rw [only B hB]; rfl : (castLoad v).block B.label = some B) ?_
    rw [only B hB] at use ⊢
    simp only [Term.operands, Option.toList, List.mem_singleton, Value.inst.injEq] at use
    simp [use]
  · intro B hB p hp
    rw [only B hB] at hp
    cases hp

/-- The cast shares id 0 with the argument and is not printed; the load gets id 1. -/
def castLoadNumbering : Numbering where
  valueMap := [(.inst 2, none), (.inst 1, some 1), (.inst 0, some 0), (.arg 0, some 0)]
  revValueMap := [.arg 0, .inst 1]
  skipMap := [0]
  id := 2
  errs := []

theorem numbering_sound_castLoad :
    Ssa (castLoad (.arg 0)) ∧
      runOnFunction (castLoad (.arg 0)) = .ok (castLoad (.arg 0), castLoadNumbering) ∧
      NumberingSound (castLoad (.arg 0)) (castLoad (.arg 0)) castLoadNumbering :=
  have ssa := castLoad_ssa (v := .arg 0) nofun (fun _ h => by cases h; rfl)
  ⟨ssa, rfl, (numbering_sound ssa rfl numberSem (fun _ => 0) (fun _ => false) 1 ()).1⟩

end SharedRegisters
