import ClamBC.IrExec

/-!
# Replacing phis by stores and loads

The register allocator removes every phi before it numbers the values. A phi
becomes an `alloca` at the start of the entry block, a store of each incoming
value before the terminator of its block, and a load in front of the first
instruction that is not a phi; all uses of the phi then read the load.

The phis are removed one after another, so the function in between has both phis
and loads. One removal is shown to preserve every run of any well-formed function,
which covers the half-rewritten ones; the whole loop follows by induction.

The dominator query at the head of `handlePHI` only serves to find the function
that the phi belongs to and is left out.
-/

namespace PhiElimination

open Ir IrExec

def renameValue (old new : Nat) : Value → Value
  | .inst i => .inst (if i = old then new else i)
  | v => v

def renamePhi (old new : Nat) (p : Phi) : Phi :=
  { p with incoming := p.incoming.map fun e => (renameValue old new e.1, e.2) }

def renameInst (old new : Nat) (i : Inst) : Inst := { i with op := i.op.map (renameValue old new) }

/-- `replaceAllUsesWith` in one block. -/
def renameBlock (old new : Nat) (B : Block) : Block :=
  { B with
    phis := B.phis.map (renamePhi old new)
    body := B.body.map (renameInst old new)
    term := B.term.map (renameValue old new) }

/-- The instruction numbers that one removal uses. -/
def slotId (f : Function) : Nat := f.nextId

def loadId (f : Function) : Nat := f.nextId + 1

def storeId (f : Function) (k : Nat) : Nat := f.nextId + 2 + k

def phiAlloca (f : Function) : Inst := ⟨slotId f, .ptr, .alloca none⟩

def phiLoad (f : Function) (p : Phi) : Inst := ⟨loadId f, p.ty, .load false (.inst (slotId f))⟩

/-- The stores of the incoming values from one block, in the order of the phi's list. -/
def phiStores (f : Function) (l : Label) : Nat → List (Value × Label) → List Inst
  | _, [] => []
  | k, (v, b) :: rest =>
    if b = l then ⟨storeId f k, .void, .store v (.inst (slotId f))⟩ :: phiStores f l (k + 1) rest
    else phiStores f l (k + 1) rest

/-- The inserted instructions stand around the body: the alloca at the start of the entry
block, the load after the phis, the stores before the terminator. -/
def insertIntoBlock (f : Function) (p : Phi) (B : Block) : Block :=
  { B with
    body :=
      (if f.entry.map Block.label = some B.label then [phiAlloca f] else []) ++
      (if p.id ∈ B.phis.map Phi.id then [phiLoad f p] else []) ++
      B.body ++ phiStores f B.label 0 p.incoming }

def erasePhi (p : Phi) (B : Block) : Block :=
  { B with phis := B.phis.filter fun q => q.id ≠ p.id }

def lowerBlock (f : Function) (p : Phi) (B : Block) : Block :=
  erasePhi p (renameBlock p.id (loadId f) (insertIntoBlock f p B))

def findPhi (f : Function) (id : Nat) : Option Phi :=
  (f.blocks.flatMap Block.phis).find? fun p => p.id = id

def handlePHI (f : Function) (id : Nat) : Function :=
  match findPhi f id with
  | none => f
  | some p =>
    { f with
      blocks := f.blocks.map (lowerBlock f p)
      nextId := f.nextId + 2 + p.incoming.length }

/-- The phis are collected before the first one is handled. -/
def phiIds (f : Function) : List Nat := (f.blocks.flatMap Block.phis).map Phi.id

def handleAll (f : Function) (pns : List Nat) : Function := pns.foldl handlePHI f

def eliminatePhis (f : Function) : Function := handleAll f (phiIds f)

/-- The allocas that the removal of a list of phis creates. -/
def isSlot : Function → List Nat → Nat → Bool
  | _, [], _ => false
  | f, p :: ps, i => i = slotId f || isSlot (handlePHI f p) ps i

/-- Where the value of an original instruction is found afterwards. -/
def relocate : Function → List Nat → Nat → Nat
  | _, [], i => i
  | f, p :: ps, i => relocate (handlePHI f p) ps (if i = p then loadId f else i)

/-! A register read under a new name. -/

section Renaming

universe u
variable {V M : Type u} (S : Sem V M) (args : Nat → V) {bound old new : Nat}

theorem eval_renameValue
    {s t : State V M} (rel : StateSim bound (fun i => if i = old then new else i) s t) {v : Value}
    (lt : ∀ i, v = .inst i → i < bound) :
    eval S args t.regs (renameValue old new v) = eval S args s.regs v := by
  cases v with
  | inst i => exact rel.regs i (lt i rfl)
  | arg i => rfl
  | const c => rfl

/-- The operands of an instruction evaluate alike after the renaming. -/
theorem map_eval_renameValue {s t : State V M}
    (rel : StateSim bound (fun i => if i = old then new else i) s t) {o : Op Value}
    (lt : ∀ i, Value.inst i ∈ o.operands → i < bound) :
    (o.map (renameValue old new)).map (eval S args t.regs) = o.map (eval S args s.regs) := by
  rw [Op.map_map]
  apply Op.map_congr
  intro v member
  exact eval_renameValue S args rel (fun i h => lt i (h ▸ member))

end Renaming

/-! One removal, seen from the state of a run. -/

section Removal

universe u
variable {V M : Type u} (S : Sem V M) (args : Nat → V) (cell : Nat → Bool)
variable (f : Function) (p : Phi)

def home (i : Nat) : Nat := if i = p.id then loadId f else i

def cellWithSlot (i : Nat) : Bool := cell i || i = slotId f

/-- Registers, memory and the older cells agree; the slot itself is not compared. -/
structure Related (s t : State V M) : Prop where
  sim : StateSim f.nextId (home f p) s t
  cells : ∀ i, cell i → t.cells i = s.cells i

/-- The cells of the original function are allocas of it, not the phi. -/
structure CellsOld : Prop where
  lt : ∀ i, cell i → i < f.nextId
  phi : ∀ i, cell i → i ≠ p.id

/-- What an instruction of the original function does in related states. -/
structure ExecRelated (s t : State V M) (a b : Option (V × State V M)) : Prop where
  trap : a = none → b = none
  value : ∀ v s', a = some (v, s') → ∃ t', b = some (v, t') ∧ Related cell f p s' t' ∧
    t'.cells (slotId f) = t.cells (slotId f) ∧ s'.regs = s.regs ∧ t'.regs = t.regs

variable {cell f p}

theorem renameValue_inst (i : Nat) :
    renameValue p.id (loadId f) (.inst i) = .inst (home f p i) := rfl

theorem eval_rename {s t : State V M} (rel : StateSim f.nextId (home f p) s t) {v : Value}
    (old : ∀ i, v = .inst i → i < f.nextId) :
    eval S args t.regs (renameValue p.id (loadId f) v) = eval S args s.regs v :=
  eval_renameValue S args rel old

theorem map_eval_rename {s t : State V M} (rel : StateSim f.nextId (home f p) s t) {o : Op Value}
    (old : ∀ i, Value.inst i ∈ o.operands → i < f.nextId) :
    (o.map (renameValue p.id (loadId f))).map (eval S args t.regs) = o.map (eval S args s.regs) :=
  map_eval_renameValue S args rel old

theorem cellWithSlot_home (cells : CellsOld cell f p) {i : Nat} (hi : i < f.nextId) :
    cellWithSlot cell f (home f p i) = cell i := by
  unfold cellWithSlot home
  by_cases h : i = p.id
  · have notCell : ¬ cell i := fun hc => cells.phi i hc h
    have notLoad : ¬ cell (loadId f) := by
      intro hc
      have := cells.lt _ hc
      unfold loadId at this
      omega
    have other : loadId f ≠ slotId f := by unfold loadId slotId; omega
    rw [if_pos h, Bool.eq_false_iff.mpr notCell, Bool.eq_false_iff.mpr notLoad]
    simp [other]
  · have notSlot : i ≠ slotId f := by unfold slotId; omega
    simp [h, notSlot]

theorem home_cell (cells : CellsOld cell f p) {i : Nat} (hc : cell i) : home f p i = i :=
  if_neg (cells.phi i hc)

theorem execPlain_related {s t : State V M} (rel : Related cell f p s t) {i : Inst}
    (old : ∀ j, Value.inst j ∈ i.op.operands → j < f.nextId) :
    ExecRelated cell f p s t (execPlain S args i s)
      (execPlain S args (renameInst p.id (loadId f) i) t) := by
  have same : execPlain S args (renameInst p.id (loadId f) i) t =
      (S.op i.ty (i.op.map (eval S args s.regs)) s.mem).map fun r =>
        (r.1, { t with mem := r.2 }) := by
    simp only [execPlain, renameInst, map_eval_rename S args rel.sim old, rel.sim.mem]
  constructor
  · intro h
    rw [same]
    simpa [execPlain] using h
  · intro v s' h
    obtain ⟨r, hr, hv⟩ := Option.map_eq_some_iff.mp h
    cases hv
    refine ⟨{ t with mem := r.2 }, by rw [same, hr]; rfl, ⟨⟨rel.sim.regs, rfl⟩, rel.cells⟩,
      rfl, rfl, rfl⟩

/-- The rule for the instructions that name a cell: both functions agree on which do. -/
theorem exec_related (cells : CellsOld cell f p) {s t : State V M} (rel : Related cell f p s t)
    {i : Inst} (own : i.id < f.nextId) (notPhi : i.id ≠ p.id)
    (old : ∀ j, Value.inst j ∈ i.op.operands → j < f.nextId) :
    ExecRelated cell f p s t (exec S args cell i s)
      (exec S args (cellWithSlot cell f) (renameInst p.id (loadId f) i) t) := by
  have plain := execPlain_related S args rel (i := i) old
  have ownCell : cellWithSlot cell f i.id = cell i.id := by
    have h := cellWithSlot_home cells own
    rwa [home, if_neg notPhi] at h
  obtain ⟨id, ty, op⟩ := i
  dsimp only at own notPhi old ownCell
  cases op with
  | alloca size =>
    by_cases hc : cell id
    · have hc' : cellWithSlot cell f id = true := ownCell.trans hc
      constructor
      · intro h
        simp [exec, hc] at h
      · intro v s' h
        simp only [exec, hc, if_true, Option.some.injEq, Prod.mk.injEq] at h
        obtain ⟨rfl, rfl⟩ := h
        refine ⟨{ t with cells := Function.update t.cells id S.undef }, ?_,
          ⟨⟨rel.sim.regs, rel.sim.mem⟩, ?_⟩,
          ?_, rfl, rfl⟩
        · simp [exec, renameInst, Op.map, hc']
        · intro j hj
          by_cases hji : j = id
          · subst hji; simp
          · simp [hji, rel.cells j hj]
        · have : slotId f ≠ id := by unfold slotId; omega
          simp [this]
    · have hc' : cellWithSlot cell f id = false := ownCell.trans (Bool.eq_false_iff.mpr hc)
      simpa [exec, renameInst, Op.map, hc, hc'] using plain
  | store v ptr =>
    cases ptr with
    | inst a =>
      have ha : a < f.nextId := old a (by simp [Op.operands])
      have hv : ∀ j, v = .inst j → j < f.nextId := fun j hj => old j (by simp [Op.operands, hj])
      have both := cellWithSlot_home cells ha
      by_cases hc : cell a
      · have same := home_cell cells hc
        constructor
        · intro h
          simp [exec, hc] at h
        · intro r s' h
          simp only [exec, hc, if_true, Option.some.injEq, Prod.mk.injEq] at h
          obtain ⟨rfl, rfl⟩ := h
          refine ⟨{ t with cells := Function.update t.cells a (eval S args s.regs v) }, ?_,
            ⟨⟨rel.sim.regs, rel.sim.mem⟩, ?_⟩, ?_, rfl, rfl⟩
          · rw [same] at both
            simp [exec, renameInst, Op.map, renameValue_inst, same, both.trans hc,
              eval_rename S args rel.sim hv]
          · intro j hj
            by_cases hja : j = a
            · subst hja; simp
            · simp [hja, rel.cells j hj]
          · have : slotId f ≠ a := by unfold slotId; omega
            simp [this]
      · have hc' : cellWithSlot cell f (home f p a) = false := both.trans (Bool.eq_false_iff.mpr hc)
        simpa [exec, renameInst, Op.map, renameValue_inst, hc, hc'] using plain
    | arg k => simpa [exec, renameInst, Op.map, renameValue] using plain
    | const c => simpa [exec, renameInst, Op.map, renameValue] using plain
  | load vol ptr =>
    cases ptr with
    | inst a =>
      have ha : a < f.nextId := old a (by simp [Op.operands])
      have both := cellWithSlot_home cells ha
      by_cases hc : cell a
      · have same := home_cell cells hc
        constructor
        · intro h
          simp [exec, hc] at h
        · intro r s' h
          simp only [exec, hc, if_true, Option.some.injEq, Prod.mk.injEq] at h
          obtain ⟨rfl, rfl⟩ := h
          refine ⟨t, ?_, rel, rfl, rfl, rfl⟩
          rw [same] at both
          simp [exec, renameInst, Op.map, renameValue_inst, same, both.trans hc, rel.cells a hc]
      · have hc' : cellWithSlot cell f (home f p a) = false := both.trans (Bool.eq_false_iff.mpr hc)
        simpa [exec, renameInst, Op.map, renameValue_inst, hc, hc'] using plain
    | arg k => simpa [exec, renameInst, Op.map, renameValue] using plain
    | const c => simpa [exec, renameInst, Op.map, renameValue] using plain
  | cast op src v =>
    have hv : ∀ j, v = .inst j → j < f.nextId := fun j hj => old j (by simp [Op.operands, hj])
    by_cases hl : isLosslessCast op src ty
    · constructor
      · intro h
        simp [exec, hl] at h
      · intro r s' h
        simp only [exec, hl, if_true, Option.some.injEq, Prod.mk.injEq] at h
        obtain ⟨rfl, rfl⟩ := h
        refine ⟨t, ?_, rel, rfl, rfl, rfl⟩
        simp [exec, renameInst, Op.map, hl, eval_rename S args rel.sim hv]
    · simpa [exec, renameInst, Op.map, hl] using plain
  | _ => exact plain

theorem home_ne {i j : Nat} (hi : i < f.nextId) (hj : j < f.nextId) (ne : j ≠ i) :
    home f p j ≠ home f p i := by
  unfold home loadId
  split_ifs <;> omega

theorem StateSim.setReg {s t : State V M} (rel : StateSim f.nextId (home f p) s t) {i : Nat}
    (hi : i < f.nextId) (v : V) :
    StateSim f.nextId (home f p) (s.setReg i v) (t.setReg (home f p i) v) where
  mem := rel.mem
  regs := by
    intro j hj
    by_cases h : j = i
    · subst h
      simp [State.setReg]
    · simp [State.setReg, h, home_ne hi hj h, rel.regs j hj]

/-- Instructions that the removal inserted write registers that the original does not have. -/
theorem StateSim.setReg_new {s t : State V M} (rel : StateSim f.nextId (home f p) s t) {i : Nat}
    (new : f.nextId ≤ i) (notLoad : i ≠ loadId f) (v : V) :
    StateSim f.nextId (home f p) s (t.setReg i v) where
  mem := rel.mem
  regs := by
    intro j hj
    have ne : home f p j ≠ i := by
      unfold home
      split_ifs <;> omega
    simp [State.setReg, ne, rel.regs j hj]

/-- An instruction that is part of the original function. -/
structure Original (f : Function) (p : Phi) (i : Inst) : Prop where
  own : i.id < f.nextId
  notPhi : i.id ≠ p.id
  old : ∀ j, Value.inst j ∈ i.op.operands → j < f.nextId

theorem execBody_related (cells : CellsOld cell f p) {is : List Inst}
    (original : ∀ i ∈ is, Original f p i) {s t : State V M} (rel : Related cell f p s t) :
    let a := execBody S args cell is s
    let b := execBody S args (cellWithSlot cell f) (is.map (renameInst p.id (loadId f))) t
    List.Forall₂ (EventSim f.nextId (home f p)) a.1 b.1 ∧ (a.2 = none → b.2 = none) ∧
      ∀ s', a.2 = some s' → ∃ t', b.2 = some t' ∧ Related cell f p s' t' ∧
        t'.cells (slotId f) = t.cells (slotId f) := by
  induction is generalizing s t with
  | nil =>
    refine ⟨.nil, by simp [execBody], ?_⟩
    intro s' h
    cases h
    exact ⟨t, rfl, rel, rfl⟩
  | cons i is ih =>
    have orig := original i List.mem_cons_self
    have one := exec_related S args cells rel orig.own orig.notPhi orig.old
    have ops := map_eval_rename S args rel.sim orig.old
    dsimp only
    simp only [execBody, List.map_cons]
    cases hx : exec S args cell i s with
    | none =>
      rw [one.trap hx]
      refine ⟨.cons ⟨rfl, ops, rfl, rel.sim⟩ .nil, fun _ => rfl, ?_⟩
      intro s' h
      cases h
    | some r =>
      obtain ⟨v, s'⟩ := r
      obtain ⟨t', ht, rel', slot, hs, htr⟩ := one.value v s' hx
      rw [ht]
      have rel'' : Related cell f p (s'.setReg i.id v) (t'.setReg i.id v) := by
        have h := StateSim.setReg rel'.sim orig.own v
        rw [home, if_neg orig.notPhi] at h
        exact ⟨h, rel'.cells⟩
      obtain ⟨events, trap, final⟩ :=
        ih (fun j hj => original j (List.mem_cons_of_mem i hj)) rel''
      refine ⟨.cons ⟨rfl, ops, rfl, rel.sim⟩ events, trap, ?_⟩
      intro u hu
      obtain ⟨w, hw, relw, slotw⟩ := final u hu
      exact ⟨w, hw, relw, slotw.trans slot⟩

/-! Entering a block: the phis other than the removed one select the same values. -/

theorem valueFrom_rename (q : Phi) (prev : Option Label) (old new : Nat) :
    (renamePhi old new q).valueFrom prev = (q.valueFrom prev).map (renameValue old new) := by
  cases prev with
  | none => rfl
  | some b =>
    simp only [Phi.valueFrom, renamePhi, Option.bind_some, List.find?_map, Option.map_map]
    rfl

theorem enterPhis_related {prev : Option Label} {s t : State V M} {regs : Nat → V}
    (rel : StateSim f.nextId (home f p) s t) {ps : List Phi}
    (ids : ∀ q ∈ ps, q.id < f.nextId)
    (old : ∀ q ∈ ps, ∀ i l, (Value.inst i, l) ∈ q.incoming → i < f.nextId)
    (h : enterPhis S args prev s.regs ps = some regs) :
    ∃ regs', enterPhis S args prev t.regs
        ((ps.map (renamePhi p.id (loadId f))).filter fun q => q.id ≠ p.id) = some regs' ∧
      (∀ i, i < f.nextId → i ≠ p.id → regs' i = regs i) ∧ regs' (loadId f) = t.regs (loadId f) := by
  induction ps generalizing regs with
  | nil =>
    cases h
    refine ⟨t.regs, rfl, ?_, rfl⟩
    intro i hi ne
    have := rel.regs i hi
    rwa [home, if_neg ne] at this
  | cons q ps ih =>
    have old' := fun r hr => old r (List.mem_cons_of_mem q hr)
    have ids' := fun r hr => ids r (List.mem_cons_of_mem q hr)
    simp only [enterPhis] at h
    split at h
    · next v regs₀ hv htail =>
      cases h
      obtain ⟨regs', entered, same, load⟩ := ih ids' old' htail
      by_cases removed : q.id = p.id
      · refine ⟨regs', ?_, ?_, load⟩
        · rw [List.map_cons, List.filter_cons_of_neg (by simp [renamePhi, removed])]
          exact entered
        · intro i hi ne
          rw [same i hi ne]
          simp [removed, ne]
      · have hq : q.id < f.nextId := ids q List.mem_cons_self
        obtain ⟨b, -, entry⟩ := valueFrom_mem hv
        have value : eval S args t.regs (renameValue p.id (loadId f) v) = eval S args s.regs v :=
          eval_rename S args rel (fun i hi => old q List.mem_cons_self i b (hi ▸ entry))
        refine ⟨Function.update regs' q.id (eval S args s.regs v), ?_, ?_, ?_⟩
        · rw [List.map_cons, List.filter_cons_of_pos (by simp [renamePhi, removed])]
          simp only [enterPhis, valueFrom_rename, hv, Option.map_some, entered, value]
          rfl
        · intro i hi ne
          by_cases here : i = q.id
          · subst here
            simp
          · simp [here, same i hi ne]
        · have ne : loadId f ≠ q.id := by unfold loadId; omega
          simp [ne, load]
    · cases h

/-! The inserted instructions. -/

theorem slot_not_renamed (hp : p.id < f.nextId) :
    renameValue p.id (loadId f) (.inst (slotId f)) = .inst (slotId f) := by
  have ne : slotId f ≠ p.id := by unfold slotId; omega
  simp [renameValue, ne]

theorem cellWithSlot_slot : cellWithSlot cell f (slotId f) = true := by simp [cellWithSlot]

/-- The slot is not one of the older cells. -/
theorem related_update_slot
    (cells : CellsOld cell f p) {s t : State V M} (rel : Related cell f p s t) (v : V) :
    Related cell f p s { t with cells := Function.update t.cells (slotId f) v } := by
  refine ⟨⟨rel.sim.regs, rel.sim.mem⟩, ?_⟩
  intro i hi
  have ne : i ≠ slotId f := by
    have := cells.lt i hi
    unfold slotId
    omega
  simp [ne, rel.cells i hi]

/-- Whatever stood in the slot, after the stores of a block it holds the value that the
phi lists for this block. -/
theorem execStores (cells : CellsOld cell f p) (hp : p.id < f.nextId) {s t : State V M}
    (rel : Related cell f p s t) (l : Label) (k : Nat) (entries : List (Value × Label))
    (old : ∀ i l, (Value.inst i, l) ∈ entries → i < f.nextId) :
    ∃ es t', execBody S args (cellWithSlot cell f)
        ((phiStores f l k entries).map (renameInst p.id (loadId f))) t = (es, some t') ∧
      (∀ e ∈ es, f.nextId ≤ e.id) ∧ Related cell f p s t' ∧
      ∀ v, (∀ w, (w, l) ∈ entries → w = v) →
        (v, l) ∈ entries ∨ t.cells (slotId f) = eval S args s.regs v →
        t'.cells (slotId f) = eval S args s.regs v := by
  induction entries generalizing t k with
  | nil =>
    refine ⟨[], t, rfl, by simp, rel, ?_⟩
    intro v _ h
    simpa using h
  | cons entry entries ih =>
    obtain ⟨w, b⟩ := entry
    have old' : ∀ i l, (Value.inst i, l) ∈ entries → i < f.nextId :=
      fun i l h => old i l (List.mem_cons_of_mem _ h)
    by_cases here : b = l
    · subst here
      have value : eval S args t.regs (renameValue p.id (loadId f) w) = eval S args s.regs w :=
        eval_rename S args rel.sim (fun i hi => old i b (hi ▸ List.mem_cons_self))
      have rel₁ := related_update_slot cells rel (eval S args s.regs w)
      have rel₂ : Related cell f p s (State.setReg
          { t with cells := Function.update t.cells (slotId f) (eval S args s.regs w) }
          (storeId f k) S.undef) :=
        ⟨StateSim.setReg_new rel₁.sim (by unfold storeId; omega)
          (by unfold storeId loadId; omega) S.undef, rel₁.cells⟩
      obtain ⟨es, t', ran, new, rel', slot⟩ := ih rel₂ (k + 1) old'
      refine ⟨⟨storeId f k, t,
        .store (eval S args s.regs w) (eval S args t.regs (.inst (slotId f))),
        some S.undef⟩ :: es, t', ?_, ?_, rel', ?_⟩
      · simp only [phiStores, if_true, List.map_cons, execBody, renameInst, Op.map,
          slot_not_renamed hp, exec, cellWithSlot_slot, value, ran]
      · intro e he
        rcases List.mem_cons.mp he with rfl | he
        · change f.nextId ≤ storeId f k
          unfold storeId
          omega
        · exact new e he
      · intro v same _
        have hw : w = v := same w List.mem_cons_self
        refine slot v (fun u hu => same u (List.mem_cons_of_mem _ hu)) (Or.inr ?_)
        simp [State.setReg, hw]
    · obtain ⟨es, t', ran, new, rel', slot⟩ := ih rel (k + 1) old'
      refine ⟨es, t', ?_, new, rel', ?_⟩
      · simpa only [phiStores, if_neg here] using ran
      · intro v same h
        refine slot v (fun u hu => same u (List.mem_cons_of_mem _ hu)) ?_
        rcases h with h | h
        · rcases List.mem_cons.mp h with h | h
          · exact absurd (congrArg Prod.snd h).symm here
          · exact Or.inl h
        · exact Or.inr h

/-- What is inserted in front of the body of a block. -/
def prologue (f : Function) (p : Phi) (B : Block) : List Inst :=
  (if f.entry.map Block.label = some B.label then [phiAlloca f] else []) ++
    (if p.id ∈ B.phis.map Phi.id then [phiLoad f p] else [])

theorem lowerBlock_body (B : Block) :
    (lowerBlock f p B).body = (prologue f p B).map (renameInst p.id (loadId f)) ++
      B.body.map (renameInst p.id (loadId f)) ++
      (phiStores f B.label 0 p.incoming).map (renameInst p.id (loadId f)) := by
  simp [lowerBlock, erasePhi, renameBlock, insertIntoBlock, prologue]

/-- Entering a block that does not have the phi leaves the phi's value where it was. -/
theorem execAlloca (cells : CellsOld cell f p) {s t : State V M} (rel : Related cell f p s t) :
    ∃ es t', execBody S args (cellWithSlot cell f) [renameInst p.id (loadId f) (phiAlloca f)] t =
        (es, some t') ∧ (∀ e ∈ es, f.nextId ≤ e.id) ∧ Related cell f p s t' := by
  have updated := related_update_slot cells rel S.undef
  refine ⟨[⟨slotId f, t, .alloca none, some S.undef⟩], _, ?_, ?_,
    ⟨StateSim.setReg_new updated.sim (Nat.le_refl _) (by unfold loadId; omega) S.undef,
      updated.cells⟩⟩
  · simp only [execBody, renameInst, phiAlloca, Op.map, Option.map_none, exec,
      cellWithSlot_slot, if_true]
    rfl
  · intro e he
    rw [List.mem_singleton.mp he]
    exact Nat.le_refl _

/-- In the phi's own block the load fetches from the slot what the phi would have selected. -/
theorem execLoad (hp : p.id < f.nextId) {s t : State V M} {regs : Nat → V}
    (others : ∀ i, i < f.nextId → i ≠ p.id → t.regs i = regs i) (mem : t.mem = s.mem)
    (old : ∀ i, cell i → t.cells i = s.cells i) (value : t.cells (slotId f) = regs p.id) :
    ∃ es t', execBody S args (cellWithSlot cell f) [renameInst p.id (loadId f) (phiLoad f p)] t =
        (es, some t') ∧ (∀ e ∈ es, f.nextId ≤ e.id) ∧
          Related cell f p { s with regs := regs } t' := by
  refine ⟨[⟨loadId f, t, .load false (eval S args t.regs (.inst (slotId f))),
    some (t.cells (slotId f))⟩], t.setReg (loadId f) (t.cells (slotId f)), ?_, ?_, ⟨⟨?_, mem⟩, old⟩⟩
  · simp only [execBody, renameInst, phiLoad, Op.map, slot_not_renamed hp, exec, cellWithSlot_slot,
      if_true]
  · intro e he
    rw [List.mem_singleton.mp he]
    exact Nat.le_succ _
  · intro i hi
    by_cases isPhi : i = p.id
    · simp [State.setReg, home, isPhi, value]
    · have ne : i ≠ loadId f := by unfold loadId; omega
      simp [State.setReg, home, isPhi, ne, others i hi isPhi]

/-! A whole visit, and from it every run. -/

/-- The function and one of its phis. -/
structure Removable (f : Function) (p : Phi) : Prop where
  wf : f.WellFormed
  member : ∃ B ∈ f.blocks, p ∈ B.phis

theorem Removable.id_lt (rem : Removable f p) : p.id < f.nextId := by
  obtain ⟨B, hB, hp⟩ := rem.member
  exact rem.wf.fresh B hB p.id (by simp [Block.ids]; exact Or.inl ⟨p, hp, rfl⟩)

theorem phi_use {B : Block} {q : Phi} (hq : q ∈ B.phis) {v : Value} {l : Label}
    (entry : (v, l) ∈ q.incoming) : v ∈ B.uses := by
  simp only [Block.uses, List.mem_append, List.mem_flatMap, List.mem_map]
  exact Or.inl (Or.inl ⟨q, hq, (v, l), entry, rfl⟩)

theorem inst_use {B : Block} {i : Inst} (hi : i ∈ B.body) {v : Value} (use : v ∈ i.op.operands) :
    v ∈ B.uses := by
  simp only [Block.uses, List.mem_append, List.mem_flatMap]
  exact Or.inl (Or.inr ⟨i, hi, use⟩)

theorem term_use {B : Block} {v : Value} (use : v ∈ B.term.operands) : v ∈ B.uses := by
  simp only [Block.uses, List.mem_append]
  exact Or.inr use

theorem Removable.original (rem : Removable f p) {B : Block} (hB : B ∈ f.blocks) :
    ∀ i ∈ B.body, Original f p i := by
  intro i hi
  obtain ⟨A, hA, hp⟩ := rem.member
  refine ⟨?_, rem.wf.phi_id_ne_inst_id hA hB hp hi, ?_⟩
  · exact rem.wf.fresh B hB i.id (by simp [Block.ids]; exact Or.inr (Or.inl ⟨i, hi, rfl⟩))
  · intro j hj
    exact rem.wf.uses_lt hB (inst_use hi hj)

theorem Removable.incoming_old (rem : Removable f p) :
    ∀ i l, (Value.inst i, l) ∈ p.incoming → i < f.nextId := by
  obtain ⟨B, hB, hp⟩ := rem.member
  exact fun _ _ entry => rem.wf.uses_lt hB (phi_use hp entry)

theorem Removable.agree (rem : Removable f p) {l : Label} {v w : Value}
    (hv : (v, l) ∈ p.incoming) (hw : (w, l) ∈ p.incoming) : v = w := by
  obtain ⟨B, hB, hp⟩ := rem.member
  exact rem.wf.agree B hB p hp l v w hv hw

theorem Removable.phi_ids_lt (rem : Removable f p) {B : Block} (hB : B ∈ f.blocks) :
    ∀ q ∈ B.phis, q.id < f.nextId :=
  fun q hq => rem.wf.fresh B hB q.id (by simp [Block.ids]; exact Or.inl ⟨q, hq, rfl⟩)

theorem Removable.phi_uses_lt (rem : Removable f p) {B : Block} (hB : B ∈ f.blocks) :
    ∀ q ∈ B.phis, ∀ i l, (Value.inst i, l) ∈ q.incoming → i < f.nextId :=
  fun _ hq _ _ entry => rem.wf.uses_lt hB (phi_use hq entry)

/-- At the start of a visit the slot holds what the phi lists for the previous block. -/
structure Ready (S : Sem V M) (args : Nat → V) (cell : Nat → Bool) (f : Function) (p : Phi)
    (prev : Option Label) (s t : State V M) : Prop where
  rel : Related cell f p s t
  slot : ∀ v b, prev = some b → (v, b) ∈ p.incoming → t.cells (slotId f) = eval S args s.regs v

theorem lower_block (l : Label) (hp : findPhi f p.id = some p) :
    (handlePHI f p.id).block l = (f.block l).map (lowerBlock f p) := by
  simp only [handlePHI, hp, Function.block, List.find?_map]
  rfl

/-- After the phis and the inserted prologue the two functions are in related states. -/
theorem execPrologue (rem : Removable f p) (cells : CellsOld cell f p) {prev : Option Label}
    {B : Block} (hB : B ∈ f.blocks) {s t : State V M} (ready : Ready S args cell f p prev s t)
    {regs regs' : Nat → V} (entered : enterPhis S args prev s.regs B.phis = some regs)
    (others : ∀ i, i < f.nextId → i ≠ p.id → regs' i = regs i)
    (load : regs' (loadId f) = t.regs (loadId f)) :
    ∃ es t', execBody S args (cellWithSlot cell f)
        ((prologue f p B).map (renameInst p.id (loadId f))) { t with regs := regs' } =
          (es, some t') ∧
      (∀ e ∈ es, f.nextId ≤ e.id) ∧ Related cell f p { s with regs := regs } t' := by
  obtain ⟨A, hA, hpA⟩ := rem.member
  have hp := rem.id_lt
  by_cases here : p.id ∈ B.phis.map Phi.id
  · obtain ⟨q, hq, same⟩ := List.mem_map.mp here
    obtain ⟨rfl, rfl⟩ := rem.wf.phi_unique hB hA hq hpA same
    have notEntry : f.entry.map Block.label ≠ some B.label := by
      intro h
      obtain ⟨E, hE, label⟩ := Option.map_eq_some_iff.mp h
      have same : B = E :=
        List.inj_on_of_nodup_map rem.wf.labels hB (List.mem_of_head? hE) label.symm
      rw [same, rem.wf.entryPhis E hE] at hq
      cases hq
    obtain ⟨v, hv, value⟩ := enterPhis_phi S args entered (rem.wf.phi_ids_nodup hB) hq
    obtain ⟨b, hb, entry⟩ := valueFrom_mem hv
    have fetched := ready.slot v b hb entry
    simpa [prologue, here, notEntry] using
      execLoad S args (s := s) (t := { t with regs := regs' }) hp others
        ready.rel.sim.mem ready.rel.cells (fetched.trans value.symm)
  · have kept := enterPhis_other S args entered here
    have rel : Related cell f p { s with regs := regs } { t with regs := regs' } := by
      refine ⟨⟨?_, ready.rel.sim.mem⟩, ready.rel.cells⟩
      intro i hi
      by_cases isPhi : i = p.id
      · subst isPhi
        have old := ready.rel.sim.regs p.id hp
        simpa only [home, if_true, load, kept] using old
      · simp only [home, if_neg isPhi, others i hi isPhi]
    by_cases isEntry : f.entry.map Block.label = some B.label
    · simpa [prologue, here, isEntry] using execAlloca S args cells rel
    · refine ⟨[], _, ?_, by simp, rel⟩
      simp [prologue, here, isEntry, execBody]

theorem filter_new {n : Nat} {es : List (Event V M)} (new : ∀ e ∈ es, n ≤ e.id) :
    es.filter (fun e => e.id < n) = [] :=
  List.filter_eq_nil_iff.mpr fun e he => by simpa using new e he

theorem filter_old {n : Nat} {es : List (Event V M)} (old : ∀ e ∈ es, e.id < n) :
    es.filter (fun e => e.id < n) = es :=
  List.filter_eq_self.mpr fun e he => by simpa using old e he

/-- The rewritten body of a block: inserted instructions, the original ones, and the stores
that make the slot ready for the next block. -/
theorem execLowered (rem : Removable f p) (cells : CellsOld cell f p) {prev : Option Label}
    {B : Block} (hB : B ∈ f.blocks) {s t : State V M} (ready : Ready S args cell f p prev s t)
    {regs regs' : Nat → V} (entered : enterPhis S args prev s.regs B.phis = some regs)
    (others : ∀ i, i < f.nextId → i ≠ p.id → regs' i = regs i)
    (load : regs' (loadId f) = t.regs (loadId f)) :
    let a := execBody S args cell B.body { s with regs := regs }
    let b := execBody S args (cellWithSlot cell f) (lowerBlock f p B).body { t with regs := regs' }
    List.Forall₂ (EventSim f.nextId (home f p)) a.1 (b.1.filter fun e => e.id < f.nextId) ∧
      (a.2 = none → b.2 = none) ∧
      ∀ s', a.2 = some s' → ∃ t', b.2 = some t' ∧ Ready S args cell f p (some B.label) s' t' := by
  obtain ⟨es₁, t₁, ran₁, new₁, rel₁⟩ := execPrologue S args rem cells hB ready entered others load
  obtain ⟨events, trap, final⟩ := execBody_related S args cells (rem.original hB) rel₁
  have kept :=
    execBody_ids S args (cellWithSlot cell f) (B.body.map (renameInst p.id (loadId f))) t₁
  revert events trap final kept
  dsimp only
  rw [lowerBlock_body, List.append_assoc, execBody_append, ran₁]
  dsimp only
  rw [execBody_append]
  generalize execBody S args cell B.body { s with regs := regs } = a
  generalize execBody S args (cellWithSlot cell f) (B.body.map (renameInst p.id (loadId f))) t₁ = b
  obtain ⟨as, final₁⟩ := a
  obtain ⟨bs, final₂⟩ := b
  intro events trap final kept
  have old : ∀ e ∈ bs, e.id < f.nextId := by
    intro e he
    obtain ⟨i, hi, same⟩ := List.mem_map.mp (kept e he)
    obtain ⟨j, hj, rfl⟩ := List.mem_map.mp hi
    exact same ▸ (rem.original hB j hj).own
  cases final₁ with
  | none =>
    have := trap rfl
    dsimp only at this
    subst this
    refine ⟨?_, fun _ => rfl, by simp⟩
    simpa [filter_new new₁, filter_old old] using events
  | some s' =>
    obtain ⟨t₂, h₂, rel₂, -⟩ := final s' rfl
    dsimp only at h₂
    subst h₂
    obtain ⟨es₃, t₃, ran₃, new₃, rel₃, slot⟩ :=
      execStores S args cells rem.id_lt rel₂ B.label 0 p.incoming rem.incoming_old
    dsimp only
    rw [ran₃]
    refine ⟨?_, by simp, ?_⟩
    · simpa [filter_new new₁, filter_new new₃, filter_old old] using events
    · intro s'' h
      cases h
      refine ⟨t₃, rfl, rel₃, ?_⟩
      intro v b hb entry
      cases hb
      exact slot v (fun w hw => rem.agree hw entry) (Or.inl entry)

theorem visit_related (rem : Removable f p) (found : findPhi f p.id = some p)
    (cells : CellsOld cell f p) {prev : Option Label} {l : Label} (enters : Enters f prev l)
    {s t : State V M} (ready : Ready S args cell f p prev s t) :
    let v := visit S args cell f prev l s
    let w := visit S args (cellWithSlot cell f) (handlePHI f p.id) prev l t
    VisitSim f.nextId (home f p) v w ∧
      ∀ s', v.after = some s' → ∃ t', w.after = some t' ∧ Ready S args cell f p (some l) s' t' := by
  dsimp only
  unfold visit
  rw [lower_block l found]
  cases atLabel : f.block l with
  | none => exact ⟨⟨rfl, rfl, ready.rel.sim, .nil, .none, rfl⟩, by simp⟩
  | some B =>
    have hB : B ∈ f.blocks := List.mem_of_find?_eq_some atLabel
    have label : B.label = l := by simpa using List.find?_some atLabel
    subst label
    obtain ⟨regs, entered⟩ := enterPhis_isSome S args rem.wf hB enters s.regs
    obtain ⟨regs', h', others, load⟩ := enterPhis_related S args ready.rel.sim
      (rem.phi_ids_lt hB) (rem.phi_uses_lt hB) entered
    have entered' : enterPhis S args prev t.regs (lowerBlock f p B).phis = some regs' := h'
    have lowered := execLowered S args rem cells hB ready entered others load
    simp only [Option.map_some, entered, entered']
    revert lowered
    dsimp only
    generalize execBody S args cell B.body { s with regs := regs } = a
    generalize execBody S args (cellWithSlot cell f) (lowerBlock f p B).body
      { t with regs := regs' } = b
    obtain ⟨as, final₁⟩ := a
    obtain ⟨bs, final₂⟩ := b
    rintro ⟨events, trap, final⟩
    cases final₁ with
    | none =>
      have := trap rfl
      dsimp only at this
      subst this
      exact ⟨⟨rfl, rfl, ready.rel.sim, events, .none, rfl⟩, by simp⟩
    | some s' =>
      obtain ⟨t', h', ready'⟩ := final s' rfl
      dsimp only at h'
      subst h'
      refine ⟨⟨rfl, rfl, ready.rel.sim, events, .some ready'.rel.sim, ?_⟩, ?_⟩
      · have same : (lowerBlock f p B).term.map (eval S args t'.regs) =
            B.term.map (eval S args s'.regs) := by
          change (B.term.map (renameValue p.id (loadId f))).map (eval S args t'.regs) = _
          rw [Term.map_map]
          refine Term.map_congr fun v hv => eval_rename S args ready'.rel.sim fun i hi => ?_
          exact rem.wf.uses_lt hB (term_use (hi ▸ hv))
        simp only [same]
      · intro s'' h
        cases h
        exact ⟨t', rfl, ready'⟩

theorem run_related (rem : Removable f p) (found : findPhi f p.id = some p)
    (cells : CellsOld cell f p) (n : Nat) {prev : Option Label} {l : Label}
    (enters : Enters f prev l) {s t : State V M} (ready : Ready S args cell f p prev s t) :
    List.Forall₂ (VisitSim f.nextId (home f p)) (run S args cell f n prev l s)
      (run S args (cellWithSlot cell f) (handlePHI f p.id) n prev l t) := by
  induction n generalizing prev l s t with
  | zero => exact .nil
  | succ n ih =>
    obtain ⟨sim, next⟩ := visit_related S args rem found cells enters ready
    simp only [run, sim.exit]
    cases hx : (visit S args cell f prev l s).exit with
    | goto l' =>
      have enters' := visit_enters S args hx
      cases ha : (visit S args cell f prev l s).after with
      | none =>
        have none' := sim.after
        rw [ha] at none'
        generalize (visit S args (cellWithSlot cell f) (handlePHI f p.id) prev l t).after =
          after at none'
        cases none'
        exact .cons sim .nil
      | some s' =>
        obtain ⟨t', ht', ready'⟩ := next s' ha
        rw [ht']
        exact .cons sim (ih enters' ready')
    | ret v => exact .cons sim .nil
    | trap => exact .cons sim .nil

end Removal

/-- Numbers stay unique when every block gets new ones of its own. -/
theorem ids_nodup_rewritten {f : Function} (wf : f.WellFormed) {h : Block → Block}
    {New : Block → Nat → Prop} (nodup : ∀ B ∈ f.blocks, (h B).ids.Nodup)
    (split : ∀ B ∈ f.blocks, ∀ i, i ∈ (h B).ids → i ∈ B.ids ∨ New B i)
    (new : ∀ B i, New B i → f.nextId ≤ i)
    (unique : ∀ A ∈ f.blocks, ∀ B ∈ f.blocks, ∀ i, New A i → New B i → A = B) :
    ((f.blocks.map h).flatMap Block.ids).Nodup := by
  rw [List.flatMap_map, List.nodup_flatMap]
  refine ⟨nodup, ?_⟩
  have apart : f.blocks.Pairwise fun A B => A ≠ B := List.Nodup.of_map _ wf.labels
  refine apart.imp_of_mem fun {A B} hA hB ne i iA iB => ne ?_
  rcases split A hA i iA with iA | iA <;> rcases split B hB i iB with iB | iB
  · exact wf.block_of_id hA hB iA iB
  · exact absurd (wf.fresh A hA i iA) (Nat.not_lt.mpr (new B i iB))
  · exact absurd (wf.fresh B hB i iB) (Nat.not_lt.mpr (new A i iA))
  · exact unique A hA B hB i iA iB

/-! The rewritten function is well formed again, so the next phi can be removed. -/

section Preserved
variable {f : Function} {p : Phi}

theorem lowerBlock_label (B : Block) : (lowerBlock f p B).label = B.label := rfl

theorem lowerBlock_successors (B : Block) :
    (lowerBlock f p B).term.successors = B.term.successors :=
  Term.successors_map _ B.term

theorem mem_lowerBlock_phis {B : Block} {q : Phi} :
    q ∈ (lowerBlock f p B).phis ↔ ∃ r ∈ B.phis, r.id ≠ p.id ∧ renamePhi p.id (loadId f) r = q := by
  simp only [lowerBlock, erasePhi, renameBlock, insertIntoBlock, List.mem_filter, List.mem_map,
    decide_eq_true_eq]
  constructor
  · rintro ⟨⟨r, hr, rfl⟩, ne⟩
    exact ⟨r, hr, ne, rfl⟩
  · rintro ⟨r, hr, ne, rfl⟩
    exact ⟨⟨r, hr, rfl⟩, ne⟩

theorem lowerBlock_phi_ids (B : Block) :
    (lowerBlock f p B).phis.map Phi.id = (B.phis.map Phi.id).filter fun i => i ≠ p.id := by
  simp only [lowerBlock, erasePhi, renameBlock, insertIntoBlock, List.filter_map, List.map_map]
  rfl

theorem mem_phiStores {l : Label} {k : Nat} {entries : List (Value × Label)} {i : Inst}
    (h : i ∈ phiStores f l k entries) : ∃ j v, entries[j]? = some (v, l) ∧
      i = ⟨storeId f (k + j), .void, .store v (.inst (slotId f))⟩ := by
  induction entries generalizing k with
  | nil => cases h
  | cons entry entries ih =>
    obtain ⟨v, b⟩ := entry
    have step : (b = l ∧ i = ⟨storeId f k, .void, .store v (.inst (slotId f))⟩) ∨
        i ∈ phiStores f l (k + 1) entries := by
      by_cases here : b = l
      · simpa [phiStores, here] using h
      · exact Or.inr (by simpa [phiStores, here] using h)
    rcases step with ⟨rfl, rfl⟩ | later
    · exact ⟨0, v, rfl, rfl⟩
    · obtain ⟨j, w, at_j, rfl⟩ := ih later
      exact ⟨j + 1, w, by simpa using at_j, by rw [Nat.add_assoc, Nat.add_comm 1 j]⟩

theorem phiStores_mem {l : Label} (k : Nat) {entries : List (Value × Label)} {m : Nat} {v : Value}
    (at_m : entries[m]? = some (v, l)) :
    (⟨storeId f (k + m), .void, .store v (.inst (slotId f))⟩ : Inst) ∈ phiStores f l k entries := by
  induction entries generalizing k m with
  | nil => simp at at_m
  | cons entry entries ih =>
    obtain ⟨w, b⟩ := entry
    cases m with
    | zero =>
      cases at_m
      simp [phiStores]
    | succ m =>
      have later := ih (k + 1) (by simpa using at_m)
      rw [Nat.add_assoc, Nat.add_comm 1 m] at later
      unfold phiStores
      split_ifs
      · exact List.mem_cons_of_mem _ later
      · exact later

theorem phiStores_ids_nodup (l : Label) (k : Nat) (entries : List (Value × Label)) :
    ((phiStores f l k entries).map Inst.id).Nodup := by
  induction entries generalizing k with
  | nil => exact List.nodup_nil
  | cons entry entries ih =>
    obtain ⟨v, b⟩ := entry
    by_cases here : b = l
    · simp only [phiStores, if_pos here, List.map_cons, List.nodup_cons]
      refine ⟨?_, ih (k + 1)⟩
      intro again
      obtain ⟨i, hi, same⟩ := List.mem_map.mp again
      obtain ⟨j, w, -, rfl⟩ := mem_phiStores hi
      simp only [storeId] at same
      omega
    · simpa only [phiStores, if_neg here] using ih (k + 1)

theorem lowerBlock_ids (B : Block) : (lowerBlock f p B).ids =
    (B.phis.map Phi.id).filter (fun i => i ≠ p.id) ++ ((prologue f p B).map Inst.id ++
      B.body.map Inst.id ++ (phiStores f B.label 0 p.incoming).map Inst.id) ++ [B.termId] := by
  have renamed : Inst.id ∘ renameInst p.id (loadId f) = Inst.id := rfl
  simp only [Block.ids, lowerBlock_phi_ids, lowerBlock_body, List.map_append, List.map_map, renamed]
  rfl

/-- The instructions that a removal adds to a block. -/
inductive Inserted (f : Function) (p : Phi) (B : Block) : Nat → Prop
  | slot (entry : f.entry.map Block.label = some B.label) : Inserted f p B (slotId f)
  | load (here : p.id ∈ B.phis.map Phi.id) : Inserted f p B (loadId f)
  | store {k : Nat} {v : Value} (entry : p.incoming[k]? = some (v, B.label)) :
      Inserted f p B (storeId f k)

theorem mem_prologue {B : Block} {i : Inst} (h : i ∈ prologue f p B) :
    (i = phiAlloca f ∧ f.entry.map Block.label = some B.label) ∨
      (i = phiLoad f p ∧ p.id ∈ B.phis.map Phi.id) := by
  rcases List.mem_append.mp h with h | h
  · by_cases entry : f.entry.map Block.label = some B.label
    · exact Or.inl ⟨by simpa [entry] using h, entry⟩
    · simp [entry] at h
  · by_cases here : p.id ∈ B.phis.map Phi.id
    · exact Or.inr ⟨by rw [if_pos here] at h; exact List.mem_singleton.mp h, here⟩
    · rw [if_neg here] at h
      cases h

theorem mem_lowerBlock_ids {B : Block} {i : Nat} (h : i ∈ (lowerBlock f p B).ids) :
    i ∈ B.ids ∨ Inserted f p B i := by
  rw [lowerBlock_ids] at h
  simp only [List.mem_append, List.mem_filter, or_assoc] at h
  simp only [Block.ids, List.mem_append]
  rcases h with ⟨h, -⟩ | h | h | h | h
  · exact Or.inl (Or.inl (Or.inl h))
  · obtain ⟨j, hj, rfl⟩ := List.mem_map.mp h
    rcases mem_prologue hj with ⟨rfl, entry⟩ | ⟨rfl, here⟩
    · exact Or.inr (.slot entry)
    · exact Or.inr (.load here)
  · exact Or.inl (Or.inl (Or.inr h))
  · obtain ⟨j, hj, rfl⟩ := List.mem_map.mp h
    obtain ⟨k, v, entry, rfl⟩ := mem_phiStores hj
    rw [Nat.zero_add]
    exact Or.inr (.store entry)
  · exact Or.inl (Or.inr h)

theorem Inserted.new {B : Block} {i : Nat} (h : Inserted f p B i) : f.nextId ≤ i := by
  cases h with
  | slot => exact Nat.le_refl _
  | load => exact Nat.le_succ _
  | store => unfold storeId; omega

theorem Inserted.lt {B : Block} {i : Nat} (h : Inserted f p B i) :
    i < f.nextId + 2 + p.incoming.length := by
  cases h with
  | slot => unfold slotId; omega
  | load => unfold loadId; omega
  | store entry =>
    obtain ⟨short, -⟩ := List.getElem?_eq_some_iff.mp entry
    unfold storeId
    omega

theorem Inserted.unique (wf : f.WellFormed) {A B : Block} (hA : A ∈ f.blocks) (hB : B ∈ f.blocks)
    {i : Nat} (iA : Inserted f p A i) (iB : Inserted f p B i) : A = B := by
  generalize hi : i = j at iB
  have byLabel : A.label = B.label → A = B := List.inj_on_of_nodup_map wf.labels hA hB
  cases iA with
  | slot entry =>
    cases iB with
    | slot entry' => exact byLabel (Option.some.inj (entry.symm.trans entry'))
    | load => simp only [slotId, loadId] at hi; omega
    | store => simp only [slotId, storeId] at hi; omega
  | load here =>
    cases iB with
    | slot => simp only [slotId, loadId] at hi; omega
    | load here' =>
      obtain ⟨q, hq, same⟩ := List.mem_map.mp here
      obtain ⟨r, hr, same'⟩ := List.mem_map.mp here'
      exact (wf.phi_unique hA hB hq hr (same.trans same'.symm)).1
    | store => simp only [loadId, storeId] at hi; omega
  | @store k v entry =>
    cases iB with
    | slot => simp only [slotId, storeId] at hi; omega
    | load => simp only [loadId, storeId] at hi; omega
    | @store k' v' entry' =>
      have same : k = k' := by
        simp only [storeId] at hi
        omega
      subst same
      have both := entry.symm.trans entry'
      simp only [Option.some.injEq, Prod.mk.injEq] at both
      exact byLabel both.2

theorem prologue_ids_nodup (B : Block) : ((prologue f p B).map Inst.id).Nodup := by
  unfold prologue
  split_ifs <;> simp [phiAlloca, phiLoad, slotId, loadId]

theorem lowerBlock_ids_nodup (wf : f.WellFormed) {B : Block} (hB : B ∈ f.blocks) :
    (lowerBlock f p B).ids.Nodup := by
  have old : ((B.phis.map Phi.id).filter (fun i => i ≠ p.id) ++ B.body.map Inst.id ++
      [B.termId]).Nodup :=
    (((List.filter_sublist).append_right _).append_right _).nodup (wf.block_ids_nodup hB)
  have oldLt : ∀ i ∈ (B.phis.map Phi.id).filter (fun i => i ≠ p.id) ++ B.body.map Inst.id ++
      [B.termId], i < f.nextId := by
    intro i hi
    refine wf.fresh B hB i ?_
    simp only [Block.ids, List.mem_append, List.mem_filter] at hi ⊢
    exact hi.imp_left (Or.imp_left And.left)
  have added : ((prologue f p B).map Inst.id ++
      (phiStores f B.label 0 p.incoming).map Inst.id).Nodup := by
    refine List.nodup_append.mpr ⟨prologue_ids_nodup B, phiStores_ids_nodup _ _ _, ?_⟩
    intro i hi j hj same
    obtain ⟨a, ha, rfl⟩ := List.mem_map.mp hi
    obtain ⟨b, hb, rfl⟩ := List.mem_map.mp hj
    obtain ⟨k, v, -, rfl⟩ := mem_phiStores hb
    rcases mem_prologue ha with ⟨rfl, -⟩ | ⟨rfl, -⟩ <;>
      simp only [phiAlloca, phiLoad, slotId, loadId, storeId] at same <;> omega
  have addedNew : ∀ i ∈ (prologue f p B).map Inst.id ++
      (phiStores f B.label 0 p.incoming).map Inst.id, f.nextId ≤ i := by
    intro i hi
    rcases List.mem_append.mp hi with hi | hi
    · obtain ⟨a, ha, rfl⟩ := List.mem_map.mp hi
      rcases mem_prologue ha with ⟨rfl, -⟩ | ⟨rfl, -⟩ <;>
        simp only [phiAlloca, phiLoad, slotId, loadId] <;> omega
    · obtain ⟨b, hb, rfl⟩ := List.mem_map.mp hi
      obtain ⟨k, v, -, rfl⟩ := mem_phiStores hb
      simp only [storeId]
      omega
  have both := List.nodup_append.mpr ⟨old, added, fun i hi j hj same => by
    have := oldLt i hi
    have := addedNew j hj
    omega⟩
  refine (List.Perm.nodup_iff ?_).mpr both
  rw [lowerBlock_ids, List.perm_iff_count]
  intro i
  simp only [List.count_append]
  omega

/-- What a rewritten block reads: the operands it had, renamed, and the slot. -/
theorem mem_lowerBlock_uses {B : Block} (hp : p.id < f.nextId) {v : Value}
    (h : v ∈ (lowerBlock f p B).uses) :
    v = .inst (slotId f) ∨ ∃ w, (w ∈ B.uses ∨ ∃ l, (w, l) ∈ p.incoming) ∧
      v = renameValue p.id (loadId f) w := by
  simp only [Block.uses, List.mem_append, List.mem_flatMap, List.mem_map] at h
  rcases h with (⟨q, hq, e, he, rfl⟩ | ⟨i, hi, hv⟩) | hv
  · obtain ⟨r, hr, -, rfl⟩ := mem_lowerBlock_phis.mp hq
    obtain ⟨e', he', rfl⟩ := List.mem_map.mp he
    exact Or.inr ⟨e'.1, Or.inl (phi_use hr he'), rfl⟩
  · rw [lowerBlock_body, List.mem_append, List.mem_append] at hi
    rcases hi with (hi | hi) | hi
    all_goals
      obtain ⟨j, hj, rfl⟩ := List.mem_map.mp hi
      simp only [renameInst, Op.operands_map, List.mem_map] at hv
      obtain ⟨w, hw, rfl⟩ := hv
    · rcases mem_prologue hj with ⟨rfl, -⟩ | ⟨rfl, -⟩
      · cases hw
      · rw [List.mem_singleton.mp hw]
        exact Or.inl (slot_not_renamed hp)
    · exact Or.inr ⟨w, Or.inl (inst_use hj hw), rfl⟩
    · obtain ⟨k, u, entry, rfl⟩ := mem_phiStores hj
      rcases List.mem_cons.mp hw with rfl | hw
      · exact Or.inr ⟨_, Or.inr ⟨_, List.mem_of_getElem? entry⟩, rfl⟩
      · rw [List.mem_singleton.mp hw]
        exact Or.inl (slot_not_renamed hp)
  · simp only [lowerBlock, erasePhi, renameBlock, insertIntoBlock, Term.operands_map,
      List.mem_map] at hv
    obtain ⟨w, hw, rfl⟩ := hv
    exact Or.inr ⟨w, Or.inl (term_use hw), rfl⟩

theorem def_lowered {B : Block} {i : Nat} {ty : Ty} (h : (i, ty) ∈ B.defs) (notPhi : i ≠ p.id) :
    (i, ty) ∈ (lowerBlock f p B).defs := by
  simp only [Block.defs, List.mem_append, List.mem_map, Prod.mk.injEq] at h ⊢
  rcases h with ⟨q, hq, rfl, rfl⟩ | ⟨j, hj, rfl, rfl⟩
  · exact Or.inl ⟨_, mem_lowerBlock_phis.mpr ⟨q, hq, notPhi, rfl⟩, rfl, rfl⟩
  · refine Or.inr ⟨renameInst p.id (loadId f) j, ?_, rfl, rfl⟩
    rw [lowerBlock_body, List.mem_append, List.mem_append]
    exact Or.inl (Or.inr (List.mem_map_of_mem hj))

theorem prologue_def {B : Block} {i : Inst} (h : i ∈ prologue f p B) :
    (i.id, i.ty) ∈ (lowerBlock f p B).defs := by
  simp only [Block.defs, List.mem_append, List.mem_map, Prod.mk.injEq]
  refine Or.inr ⟨renameInst p.id (loadId f) i, ?_, rfl, rfl⟩
  rw [lowerBlock_body, List.mem_append, List.mem_append]
  exact Or.inl (Or.inl (List.mem_map_of_mem h))

theorem mem_prologue_alloca {E : Block} (entry : f.entry = some E) :
    phiAlloca f ∈ prologue f p E := by
  simp [prologue, entry]

theorem mem_prologue_load {B : Block} (here : p ∈ B.phis) : phiLoad f p ∈ prologue f p B := by
  have member : p.id ∈ B.phis.map Phi.id := List.mem_map_of_mem here
  simp only [prologue, if_pos member]
  exact List.mem_append_right _ List.mem_cons_self

theorem slot_def {E : Block} (entry : f.entry = some E) :
    (slotId f, Ty.ptr) ∈ (lowerBlock f p E).defs :=
  prologue_def (mem_prologue_alloca entry)

theorem load_def {B : Block} (here : p ∈ B.phis) : (loadId f, p.ty) ∈ (lowerBlock f p B).defs :=
  prologue_def (mem_prologue_load here)

theorem entry_of_mem {B : Block} (hB : B ∈ f.blocks) : ∃ E, f.entry = some E := by
  unfold Function.entry
  cases h : f.blocks with
  | nil => rw [h] at hB; cases hB
  | cons E rest => exact ⟨E, rfl⟩

variable (found : findPhi f p.id = some p)
include found

theorem handlePHI_blocks : (handlePHI f p.id).blocks = f.blocks.map (lowerBlock f p) := by
  simp only [handlePHI, found]

theorem handlePHI_nextId : (handlePHI f p.id).nextId = f.nextId + 2 + p.incoming.length := by
  simp only [handlePHI, found]

theorem handlePHI_entry : (handlePHI f p.id).entry = f.entry.map (lowerBlock f p) := by
  simp only [Function.entry, handlePHI_blocks found, List.head?_map]

theorem handlePHI_wellFormed (rem : Removable f p) : (handlePHI f p.id).WellFormed := by
  have wf := rem.wf
  have blocks := handlePHI_blocks found
  have next := handlePHI_nextId found
  have entryOf : ∀ {B : Block}, (handlePHI f p.id).entry = some B →
      ∃ E, f.entry = some E ∧ lowerBlock f p E = B := by
    intro B hB
    rw [handlePHI_entry found] at hB
    exact Option.map_eq_some_iff.mp hB
  constructor
  case labels =>
    have same : Block.label ∘ lowerBlock f p = Block.label := rfl
    rw [blocks, List.map_map, same]
    exact wf.labels
  case ids =>
    rw [blocks]
    exact ids_nodup_rewritten wf (fun B hB => lowerBlock_ids_nodup wf hB)
      (fun B _ i => mem_lowerBlock_ids) (fun B i added => added.new)
      (fun A hA B hB i iA iB => iA.unique wf hA hB iB)
  case fresh =>
    intro B hB i hi
    rw [blocks] at hB
    obtain ⟨A, hA, rfl⟩ := List.mem_map.mp hB
    rw [next]
    rcases mem_lowerBlock_ids hi with hi | hi
    · have := wf.fresh A hA i hi
      omega
    · exact hi.lt
  case uses =>
    intro B hB i hi
    rw [blocks] at hB
    obtain ⟨A, hA, rfl⟩ := List.mem_map.mp hB
    have lowered : ∀ {C : Block}, C ∈ f.blocks → lowerBlock f p C ∈ (handlePHI f p.id).blocks := by
      intro C hC
      rw [blocks]
      exact List.mem_map_of_mem hC
    rcases mem_lowerBlock_uses rem.id_lt hi with h | ⟨w, hw, h⟩
    · cases h
      obtain ⟨E, hE⟩ := entry_of_mem hA
      exact ⟨_, lowered (List.mem_of_head? hE), .ptr, slot_def hE, rfl⟩
    · cases w with
      | inst j =>
        have defined : ∃ C ∈ f.blocks, ∃ ty, (j, ty) ∈ C.defs ∧ ty.isVoid = false := by
          rcases hw with hw | ⟨l, hw⟩
          · exact wf.uses A hA j hw
          · obtain ⟨D, hD, hp⟩ := rem.member
            exact wf.uses D hD j (phi_use hp hw)
        by_cases isPhi : j = p.id
        · obtain ⟨D, hD, hp⟩ := rem.member
          simp only [renameValue, if_pos isPhi, Value.inst.injEq] at h
          exact ⟨_, lowered hD, p.ty, h ▸ load_def hp, wf.phiTypes D hD p hp⟩
        · obtain ⟨C, hC, ty, here, value⟩ := defined
          simp only [renameValue, if_neg isPhi, Value.inst.injEq] at h
          exact ⟨_, lowered hC, ty, h ▸ def_lowered here isPhi, value⟩
      | arg j => cases h
      | const c => cases h
  case argUses =>
    intro B hB i hi
    rw [blocks] at hB
    obtain ⟨A, hA, rfl⟩ := List.mem_map.mp hB
    have args : (handlePHI f p.id).args = f.args := by simp only [handlePHI, found]
    rw [args]
    rcases mem_lowerBlock_uses rem.id_lt hi with h | ⟨w, hw, h⟩
    · cases h
    · cases w with
      | inst j => cases h
      | arg j =>
        cases h
        rcases hw with hw | ⟨l, hw⟩
        · exact wf.argUses A hA i hw
        · obtain ⟨D, hD, hp⟩ := rem.member
          exact wf.argUses D hD i (phi_use hp hw)
      | const c => cases h
  case phiTypes =>
    intro B hB q hq
    rw [blocks] at hB
    obtain ⟨A, hA, rfl⟩ := List.mem_map.mp hB
    obtain ⟨r, hr, -, rfl⟩ := mem_lowerBlock_phis.mp hq
    exact wf.phiTypes A hA r hr
  case storeTypes =>
    intro B hB i hi v a op
    rw [blocks] at hB
    obtain ⟨A, hA, rfl⟩ := List.mem_map.mp hB
    rw [lowerBlock_body, List.mem_append, List.mem_append] at hi
    rcases hi with (hi | hi) | hi <;> obtain ⟨j, hj, rfl⟩ := List.mem_map.mp hi
    · rcases mem_prologue hj with ⟨rfl, -⟩ | ⟨rfl, -⟩ <;> cases op
    · obtain ⟨w, b, old⟩ : ∃ w b, j.op = .store w b := by
        cases h : j.op <;> simp [renameInst, Op.map, h] at op
        exact ⟨_, _, rfl⟩
      exact wf.storeTypes A hA j hj w b old
    · obtain ⟨k, u, -, rfl⟩ := mem_phiStores hj
      rfl
  case loadTypes =>
    intro B hB i hi vol a op
    rw [blocks] at hB
    obtain ⟨A, hA, rfl⟩ := List.mem_map.mp hB
    rw [lowerBlock_body, List.mem_append, List.mem_append] at hi
    rcases hi with (hi | hi) | hi <;> obtain ⟨j, hj, rfl⟩ := List.mem_map.mp hi
    · obtain ⟨D, hD, hp⟩ := rem.member
      rcases mem_prologue hj with ⟨rfl, -⟩ | ⟨rfl, -⟩
      · cases op
      · exact wf.phiTypes D hD p hp
    · obtain ⟨w, b, old⟩ : ∃ w b, j.op = .load w b := by
        cases h : j.op <;> simp [renameInst, Op.map, h] at op
        exact ⟨_, _, rfl⟩
      exact wf.loadTypes A hA j hj w b old
    · obtain ⟨k, u, -, rfl⟩ := mem_phiStores hj
      cases op
  case preds =>
    intro B hB q hq v l entry
    rw [blocks] at hB
    obtain ⟨D, hD, rfl⟩ := List.mem_map.mp hB
    obtain ⟨r, hr, -, rfl⟩ := mem_lowerBlock_phis.mp hq
    obtain ⟨⟨w, b⟩, he, same⟩ := List.mem_map.mp entry
    cases same
    obtain ⟨A, hA, label, edge⟩ := wf.preds D hD r hr w _ he
    refine ⟨lowerBlock f p A, by rw [blocks]; exact List.mem_map_of_mem hA, label, ?_⟩
    rwa [lowerBlock_successors]
  case entryPhis =>
    intro B hB
    obtain ⟨E, hE, rfl⟩ := entryOf hB
    refine List.eq_nil_iff_forall_not_mem.mpr fun q hq => ?_
    obtain ⟨r, hr, -⟩ := mem_lowerBlock_phis.mp hq
    rw [wf.entryPhis E hE] at hr
    cases hr
  case entryPreds =>
    intro B hB A hA
    obtain ⟨E, hE, rfl⟩ := entryOf hB
    rw [blocks] at hA
    obtain ⟨C, hC, rfl⟩ := List.mem_map.mp hA
    rw [lowerBlock_successors]
    exact wf.entryPreds E hE C hC
  case complete =>
    intro A hA B hB edge q hq
    rw [blocks] at hA hB
    obtain ⟨C, hC, rfl⟩ := List.mem_map.mp hA
    obtain ⟨D, hD, rfl⟩ := List.mem_map.mp hB
    rw [lowerBlock_successors] at edge
    obtain ⟨r, hr, -, rfl⟩ := mem_lowerBlock_phis.mp hq
    obtain ⟨v, hv⟩ := wf.complete C hC D hD edge r hr
    exact ⟨_, List.mem_map_of_mem hv⟩
  case agree =>
    intro B hB q hq l v w hv hw
    rw [blocks] at hB
    obtain ⟨D, hD, rfl⟩ := List.mem_map.mp hB
    obtain ⟨r, hr, -, rfl⟩ := mem_lowerBlock_phis.mp hq
    obtain ⟨⟨v', b⟩, hv', same⟩ := List.mem_map.mp hv
    obtain ⟨⟨w', b'⟩, hw', same'⟩ := List.mem_map.mp hw
    cases same
    cases same'
    rw [wf.agree D hD r hr _ v' w' hv' hw']

theorem phiIds_handlePHI :
    phiIds (handlePHI f p.id) = (phiIds f).filter fun i => i ≠ p.id := by
  unfold phiIds
  rw [handlePHI_blocks found, List.flatMap_map]
  generalize f.blocks = blocks
  induction blocks with
  | nil => rfl
  | cons B rest ih =>
    simp only [List.flatMap_cons, List.map_append, List.filter_append, lowerBlock_phi_ids] at ih ⊢
    rw [ih]

end Preserved

/-! All phis. -/

theorem findPhi_of_mem {f : Function} (wf : f.WellFormed) {i : Nat} (h : i ∈ phiIds f) :
    ∃ p, findPhi f i = some p ∧ p.id = i ∧ Removable f p := by
  obtain ⟨q, hq, rfl⟩ := List.mem_map.mp h
  cases found : findPhi f q.id with
  | none =>
    have := List.find?_eq_none.mp found q hq
    simp at this
  | some p =>
    obtain ⟨B, hB, hp⟩ := List.mem_flatMap.mp (List.mem_of_find?_eq_some found)
    exact ⟨p, rfl, by simpa using List.find?_some found, wf, B, hB, hp⟩

theorem phiIds_lt {f : Function} (wf : f.WellFormed) {i : Nat} (h : i ∈ phiIds f) :
    i < f.nextId := by
  obtain ⟨p, -, rfl, rem⟩ := findPhi_of_mem wf h
  exact rem.id_lt

theorem phis_remain {f : Function} {p : Phi} (found : findPhi f p.id = some p) {pns : List Nat}
    (notIn : p.id ∉ pns) (members : ∀ i ∈ p.id :: pns, i ∈ phiIds f) :
    ∀ i ∈ pns, i ∈ phiIds (handlePHI f p.id) := by
  intro i hi
  rw [phiIds_handlePHI found, List.mem_filter]
  refine ⟨members i (List.mem_cons_of_mem _ hi), ?_⟩
  simp only [decide_eq_true_eq]
  rintro rfl
  exact notIn hi

theorem phiIds_handleAll {f : Function} (wf : f.WellFormed) {pns : List Nat} (nodup : pns.Nodup)
    (members : ∀ i ∈ pns, i ∈ phiIds f) :
    (handleAll f pns).WellFormed ∧
      phiIds (handleAll f pns) = (phiIds f).filter fun i => i ∉ pns := by
  induction pns generalizing f with
  | nil => exact ⟨wf, by simp [handleAll]⟩
  | cons i pns ih =>
    obtain ⟨p, found, rfl, rem⟩ := findPhi_of_mem wf (members i List.mem_cons_self)
    rw [List.nodup_cons] at nodup
    obtain ⟨wf', rest⟩ :=
      ih (handlePHI_wellFormed found rem) nodup.2 (phis_remain found nodup.1 members)
    refine ⟨wf', ?_⟩
    change phiIds (handleAll (handlePHI f p.id) pns) = _
    rw [rest, phiIds_handlePHI found, List.filter_filter]
    apply List.filter_congr
    intro j _
    by_cases hj : j = p.id <;> simp [hj]

theorem eliminatePhis_args (f : Function) : (eliminatePhis f).args = f.args := by
  have one : ∀ (g : Function) i, (handlePHI g i).args = g.args := by
    intro g i
    unfold handlePHI
    split <;> rfl
  have all : ∀ (pns : List Nat) (g : Function), (handleAll g pns).args = g.args := by
    intro pns
    induction pns with
    | nil => exact fun _ => rfl
    | cons i pns ih => exact fun g => (ih (handlePHI g i)).trans (one g i)
  exact all (phiIds f) f

theorem phiIds_nodup {f : Function} (wf : f.WellFormed) : (phiIds f).Nodup := by
  have ids := wf.ids
  unfold phiIds
  refine List.Sublist.nodup ?_ ids
  rw [List.map_flatMap]
  generalize f.blocks = blocks
  induction blocks with
  | nil => exact List.Sublist.refl _
  | cons B rest ih =>
    rw [List.flatMap_cons, List.flatMap_cons]
    refine List.Sublist.append ?_ ih
    unfold Block.ids
    rw [List.append_assoc]
    exact List.sublist_append_left _ _

/-- No phi is left, and the result is a well-formed function. -/
theorem eliminatePhis_phi_free {f : Function} (wf : f.WellFormed) :
    (eliminatePhis f).WellFormed ∧ ∀ B ∈ (eliminatePhis f).blocks, B.phis = [] := by
  obtain ⟨wf', none⟩ := phiIds_handleAll wf (phiIds_nodup wf) (fun _ h => h)
  refine ⟨wf', fun B hB => List.eq_nil_iff_forall_not_mem.mpr fun q hq => ?_⟩
  have member : q.id ∈ phiIds (eliminatePhis f) :=
    List.mem_map_of_mem (List.mem_flatMap.mpr ⟨B, hB, hq⟩)
  unfold eliminatePhis at member
  rw [none] at member
  simp at member

theorem relocate_other {f : Function} {pns : List Nat} {i : Nat} (h : i ∉ pns) :
    relocate f pns i = i := by
  induction pns generalizing f with
  | nil => rfl
  | cons p pns ih =>
    rw [List.mem_cons, not_or] at h
    simpa only [relocate, if_neg h.1] using ih h.2

/-- The address is used by loads and stores only, and only to say where. -/
def OnlyAccessed (f : Function) (a : Nat) : Prop :=
  ∀ B ∈ f.blocks, (∀ q ∈ B.phis, ∀ l, (Value.inst a, l) ∉ q.incoming) ∧
    (∀ i ∈ B.body, Value.inst a ∈ i.op.operands → (∃ vol, i.op = .load vol (.inst a)) ∨
      ∃ v, v ≠ .inst a ∧ i.op = .store v (.inst a)) ∧
    Value.inst a ∉ B.term.operands

theorem renameValue_eq_inst {f : Function} {p : Phi} {a : Nat} (notPhi : a ≠ p.id)
    (notLoad : a ≠ loadId f) {v : Value} :
    renameValue p.id (loadId f) v = .inst a ↔ v = .inst a := by
  cases v with
  | inst i =>
    simp only [renameValue, Value.inst.injEq]
    split_ifs with h
    · constructor
      · rintro rfl
        exact absurd rfl notLoad
      · rintro rfl
        exact absurd h notPhi
    · exact Iff.rfl
  | arg i => simp [renameValue]
  | const c => simp [renameValue]

/-- A cell that is only accessed stays so, whichever phi is removed. -/
theorem handlePHI_onlyAccessed {f : Function} {p : Phi} (rem : Removable f p)
    (found : findPhi f p.id = some p) {a : Nat} (notPhi : a ≠ p.id) (notLoad : a ≠ loadId f)
    (only : OnlyAccessed f a) : OnlyAccessed (handlePHI f p.id) a := by
  intro B hB
  rw [handlePHI_blocks found] at hB
  obtain ⟨A, hA, rfl⟩ := List.mem_map.mp hB
  obtain ⟨phis, body, term⟩ := only A hA
  have same := fun v => renameValue_eq_inst (f := f) (p := p) notPhi notLoad (v := v)
  refine ⟨?_, ?_, ?_⟩
  · intro q hq l entry
    obtain ⟨r, hr, -, rfl⟩ := mem_lowerBlock_phis.mp hq
    obtain ⟨e, he, eq⟩ := List.mem_map.mp entry
    have value : e.1 = .inst a := (same e.1).mp (congrArg Prod.fst eq)
    exact phis r hr e.2 (value ▸ he)
  · intro i hi use
    obtain ⟨C, hC, hp⟩ := rem.member
    have notIncoming : ∀ v l, (v, l) ∈ p.incoming → renameValue p.id (loadId f) v ≠ .inst a := by
      intro v l entry eq
      exact (only C hC).1 p hp l ((same v).mp eq ▸ entry)
    rw [lowerBlock_body, List.mem_append, List.mem_append] at hi
    rcases hi with (hi | hi) | hi <;> obtain ⟨j, hj, rfl⟩ := List.mem_map.mp hi <;>
      simp only [renameInst, Op.operands_map, List.mem_map] at use ⊢ <;> obtain ⟨w, hw, eq⟩ := use
    · rcases mem_prologue hj with ⟨rfl, -⟩ | ⟨rfl, -⟩
      · cases hw
      · rw [List.mem_singleton.mp hw] at eq
        exact Or.inl ⟨false, by simp only [phiLoad, Op.map, eq]⟩
    · rw [(same w).mp eq] at hw
      have keep := (same (.inst a)).mpr rfl
      rcases body j hj hw with ⟨vol, op⟩ | ⟨v, ne, op⟩
      · exact Or.inl ⟨vol, by simp only [op, Op.map, keep]⟩
      · exact Or.inr ⟨_, fun eq => ne ((same v).mp eq), by simp only [op, Op.map, keep]⟩
    · obtain ⟨k, u, entry, rfl⟩ := mem_phiStores hj
      have apart := notIncoming u _ (List.mem_of_getElem? entry)
      rcases List.mem_cons.mp hw with rfl | hw
      · exact absurd eq apart
      · rw [List.mem_singleton.mp hw] at eq
        exact Or.inr ⟨_, apart, by simp only [Op.map, eq]⟩
  · intro use
    simp only [lowerBlock, erasePhi, renameBlock, insertIntoBlock, Term.operands_map,
      List.mem_map] at use
    obtain ⟨w, hw, eq⟩ := use
    exact term ((same w).mp eq ▸ hw)

theorem unused_onlyAccessed {f : Function} (wf : f.WellFormed) {a : Nat} (new : f.nextId ≤ a) :
    OnlyAccessed f a := by
  intro B hB
  have unused : Value.inst a ∉ B.uses := fun h => Nat.not_lt.mpr new (wf.uses_lt hB h)
  exact ⟨fun q hq l entry => unused (phi_use hq entry),
    fun i hi use => absurd (inst_use hi use) unused, fun use => unused (term_use use)⟩

theorem handleAll_onlyAccessed {f : Function} (wf : f.WellFormed) {pns : List Nat}
    (nodup : pns.Nodup) (members : ∀ i ∈ pns, i ∈ phiIds f) {a : Nat} (notPhi : a ∉ pns)
    (old : a < f.nextId) (only : OnlyAccessed f a) : OnlyAccessed (handleAll f pns) a := by
  induction pns generalizing f with
  | nil => exact only
  | cons i pns ih =>
    obtain ⟨p, found, rfl, rem⟩ := findPhi_of_mem wf (members i List.mem_cons_self)
    rw [List.nodup_cons] at nodup
    rw [List.mem_cons, not_or] at notPhi
    refine ih (handlePHI_wellFormed found rem) nodup.2 (phis_remain found nodup.1 members)
      notPhi.2 ?_ ?_
    · rw [handlePHI_nextId found]
      omega
    · exact handlePHI_onlyAccessed rem found notPhi.1 (by unfold loadId; omega) only

/-- The slots are memory that nothing else can reach, as `IrExec` takes them to be. -/
theorem slots_onlyAccessed {f : Function} (wf : f.WellFormed) {pns : List Nat} (nodup : pns.Nodup)
    (members : ∀ i ∈ pns, i ∈ phiIds f) {a : Nat} (slot : isSlot f pns a) :
    OnlyAccessed (handleAll f pns) a := by
  induction pns generalizing f with
  | nil => cases slot
  | cons i pns ih =>
    obtain ⟨p, found, rfl, rem⟩ := findPhi_of_mem wf (members i List.mem_cons_self)
    rw [List.nodup_cons] at nodup
    have wf' := handlePHI_wellFormed found rem
    have members' := phis_remain found nodup.1 members
    rw [isSlot, Bool.or_eq_true, decide_eq_true_eq] at slot
    rcases slot with rfl | slot
    · have apart : ∀ j ∈ p.id :: pns, slotId f ≠ j := by
        intro j hj
        have := phiIds_lt wf (members j hj)
        unfold slotId
        omega
      refine handleAll_onlyAccessed wf' nodup.2 members' ?_ ?_ ?_
      · exact fun h => apart _ (List.mem_cons_of_mem _ h) rfl
      · rw [handlePHI_nextId found]
        unfold slotId
        omega
      · exact handlePHI_onlyAccessed rem found (apart _ List.mem_cons_self)
          (by unfold slotId loadId; omega) (unused_onlyAccessed wf (Nat.le_refl _))
    · exact ih wf' nodup.2 members' slot

section Runs
universe u
variable {V M : Type u} (S : Sem V M) (args : Nat → V)

theorem call_related {cell : Nat → Bool} {f : Function} {p : Phi} (rem : Removable f p)
    (found : findPhi f p.id = some p) (cells : CellsOld cell f p) (n : Nat) (mem : M) :
    List.Forall₂ (VisitSim f.nextId (home f p)) (call S args cell f n mem)
      (call S args (cellWithSlot cell f) (handlePHI f p.id) n mem) := by
  unfold call
  rw [handlePHI_entry found]
  cases start : f.entry with
  | none => exact .nil
  | some E =>
    refine run_related S args rem found cells n (.entry start) ⟨⟨⟨?_, rfl⟩, ?_⟩, ?_⟩
    · exact fun _ _ => rfl
    · exact fun _ _ => rfl
    · intro v b h
      cases h

/-- Every run compares with itself. -/
theorem call_self (cell : Nat → Bool) {f : Function} (wf : f.WellFormed) (n : Nat) (mem : M) :
    List.Forall₂ (VisitSim f.nextId fun i => i) (call S args cell f n mem)
      (call S args cell f n mem) := by
  have same : ∀ t : State V M, StateSim f.nextId (fun i => i) t t := fun t => ⟨fun _ _ => rfl, rfl⟩
  refine List.forall₂_same.mpr fun v hv => ?_
  have old : ∀ e ∈ v.events, e.id < f.nextId := by
    unfold call at hv
    split at hv
    · cases hv
    · obtain ⟨q, m, t, rfl, -⟩ := run_invariant S args cell f (fun _ _ _ => True)
        (fun _ _ _ _ _ _ _ _ => trivial) n trivial v hv
      intro e he
      obtain ⟨B, hB, id⟩ := visit_event_ids S args cell f q m t e he
      exact wf.fresh B hB e.id (by simp only [Block.ids, List.mem_append]; exact Or.inl (Or.inr id))
  refine ⟨rfl, rfl, same _, ?_, ?_, rfl⟩
  · rw [filter_old old]
    exact List.forall₂_same.mpr fun e _ => ⟨rfl, rfl, rfl, same _⟩
  · cases v.after with
    | none => exact .none
    | some t => exact .some (same t)

theorem handleAll_related (cell : Nat → Bool) {f : Function} (wf : f.WellFormed) {pns : List Nat}
    (nodup : pns.Nodup) (members : ∀ i ∈ pns, i ∈ phiIds f)
    (cells : ∀ i, cell i → i < f.nextId ∧ i ∉ phiIds f) (n : Nat) (mem : M) :
    List.Forall₂ (VisitSim f.nextId (relocate f pns)) (call S args cell f n mem)
      (call S args (fun i => cell i || isSlot f pns i) (handleAll f pns) n mem) := by
  induction pns generalizing f cell with
  | nil =>
    simp only [isSlot, Bool.or_false]
    exact call_self S args cell wf n mem
  | cons i pns ih =>
    obtain ⟨p, found, rfl, rem⟩ := findPhi_of_mem wf (members i List.mem_cons_self)
    rw [List.nodup_cons] at nodup
    have next := handlePHI_nextId found
    have one := call_related S args rem found
      ⟨fun j hj => (cells j hj).1,
        fun j hj h => (cells j hj).2 (h ▸ members _ List.mem_cons_self)⟩ n mem
    have cells' : ∀ j, cellWithSlot cell f j → j < (handlePHI f p.id).nextId ∧
        j ∉ phiIds (handlePHI f p.id) := by
      intro j hj
      rw [next, phiIds_handlePHI found]
      rcases Bool.or_eq_true _ _ ▸ hj with old | slot
      · obtain ⟨lt, notPhi⟩ := cells j old
        exact ⟨by omega, fun h => notPhi (List.mem_filter.mp h).1⟩
      · have same : j = f.nextId := of_decide_eq_true slot
        refine ⟨by omega, fun h => ?_⟩
        have := phiIds_lt wf (List.mem_filter.mp h).1
        omega
    have rest := ih (cellWithSlot cell f) (handlePHI_wellFormed found rem) nodup.2
      (phis_remain found nodup.1 members) cells'
    have moved : ∀ j, j < f.nextId → home f p j < (handlePHI f p.id).nextId := by
      intro j hj
      unfold home loadId
      split_ifs <;> omega
    have both := runs_trans (by omega) moved one rest
    simp only [cellWithSlot, Bool.or_assoc] at both
    exact both

theorem runs_preserved {f : Function} (wf : f.WellFormed) (n : Nat) (mem : M) :
    List.Forall₂ (VisitSim f.nextId (relocate f (phiIds f)))
      (call S args (fun _ => false) f n mem)
      (call S args (isSlot f (phiIds f)) (eliminatePhis f) n mem) := by
  have runs := handleAll_related S args (fun _ => false) wf (phiIds_nodup wf) (fun _ h => h)
    (by simp) n mem
  simp only [Bool.false_or] at runs
  exact runs

/-- Removing the phis keeps every run: from the same arguments and memory the rewritten
function visits the same blocks from the same predecessors, its original instructions find
and compute the same values, and it ends in the same way. A former phi is read back from
the register that `relocate` names; all other values stay where they were. No phi is left,
and the new memory cells are reached by the inserted loads and stores only. -/
theorem eliminatePhis_preserves_runs {f : Function} (wf : f.WellFormed) (n : Nat) (mem : M) :
    List.Forall₂ (VisitSim f.nextId (relocate f (phiIds f)))
        (call S args (fun _ => false) f n mem)
        (call S args (isSlot f (phiIds f)) (eliminatePhis f) n mem) ∧
      (∀ i, i ∉ phiIds f → relocate f (phiIds f) i = i) ∧
      (∀ B ∈ (eliminatePhis f).blocks, B.phis = []) ∧
      ∀ a, isSlot f (phiIds f) a → OnlyAccessed (eliminatePhis f) a := by
  refine ⟨runs_preserved S args wf n mem, ?_, ?_, ?_⟩
  · exact fun i other => relocate_other other
  · exact (eliminatePhis_phi_free wf).2
  · exact fun a slot => slots_onlyAccessed wf (phiIds_nodup wf) (fun _ h => h) slot

end Runs

/-- Two phis that exchange their values on the back edge of a self-loop. -/
def swapLoop : Function where
  args := [.int 32, .int 32, .int 1]
  nextId := 5
  blocks :=
    [⟨0, [], [], 0, .br 1⟩,
     ⟨1, [⟨1, .int 32, [(.arg 0, 0), (.inst 2, 1)]⟩, ⟨2, .int 32, [(.arg 1, 0), (.inst 1, 1)]⟩],
      [], 3, .condBr (.arg 2) 1 2⟩,
     ⟨2, [], [], 4, .ret (some (.inst 1))⟩]

theorem swapLoop_wellFormed : swapLoop.WellFormed := by
  constructor
  case labels => decide
  case ids => decide
  case fresh => decide
  case uses =>
    intro B hB i hi
    have phi : i = 1 ∨ i = 2 := by
      simp only [swapLoop, List.mem_cons, List.not_mem_nil, or_false] at hB
      rcases hB with rfl | rfl | rfl <;> simp [Block.uses, Term.operands] at hi <;> omega
    refine ⟨_, List.mem_cons_of_mem _ List.mem_cons_self, .int 32, ?_, rfl⟩
    rcases phi with rfl | rfl <;> simp [Block.defs]
  case argUses =>
    intro B hB i hi
    simp only [swapLoop, List.mem_cons, List.not_mem_nil, or_false] at hB
    rcases hB with rfl | rfl | rfl <;> simp [Block.uses, Term.operands] at hi <;>
      simp only [swapLoop, List.length_cons, List.length_nil] <;> omega
  case phiTypes =>
    intro B hB q hq
    simp only [swapLoop, List.mem_cons, List.not_mem_nil, or_false] at hB
    rcases hB with rfl | rfl | rfl <;> simp at hq
    rcases hq with rfl | rfl <;> rfl
  case storeTypes =>
    intro B hB i hi
    simp only [swapLoop, List.mem_cons, List.not_mem_nil, or_false] at hB
    rcases hB with rfl | rfl | rfl <;> cases hi
  case loadTypes =>
    intro B hB i hi
    simp only [swapLoop, List.mem_cons, List.not_mem_nil, or_false] at hB
    rcases hB with rfl | rfl | rfl <;> cases hi
  case preds =>
    intro B hB q hq v l entry
    simp only [swapLoop, List.mem_cons, List.not_mem_nil, or_false] at hB
    rcases hB with rfl | rfl | rfl <;> simp at hq
    have pred : l = 0 ∨ l = 1 := by
      rcases hq with rfl | rfl <;> simp at entry <;> rcases entry with ⟨-, rfl⟩ | ⟨-, rfl⟩ <;> simp
    rcases pred with rfl | rfl
    · exact ⟨_, List.mem_cons_self, rfl, by simp [Term.successors]⟩
    · exact ⟨_, List.mem_cons_of_mem _ List.mem_cons_self, rfl, by simp [Term.successors]⟩
  case entryPhis =>
    intro B hB
    cases hB
    rfl
  case entryPreds =>
    intro B hB A hA
    cases hB
    simp only [swapLoop, List.mem_cons, List.not_mem_nil, or_false] at hA
    rcases hA with rfl | rfl | rfl <;> simp [Term.successors]
  case complete =>
    intro A hA B hB edge p hp
    simp only [swapLoop, List.mem_cons, List.not_mem_nil, or_false] at hA hB
    rcases hB with rfl | rfl | rfl
    · cases hp
    · simp only [List.mem_cons, List.not_mem_nil, or_false] at hp
      rcases hA with rfl | rfl | rfl
      · rcases hp with rfl | rfl <;> exact ⟨_, List.mem_cons_self⟩
      · rcases hp with rfl | rfl <;> exact ⟨_, List.mem_cons_of_mem _ List.mem_cons_self⟩
      · simp [Term.successors] at edge
    · cases hp
  case agree =>
    intro B hB p hp l v w hv hw
    simp only [swapLoop, List.mem_cons, List.not_mem_nil, or_false] at hB
    rcases hB with rfl | rfl | rfl
    · cases hp
    · simp only [List.mem_cons, List.not_mem_nil, or_false] at hp
      rcases hp with rfl | rfl <;> simp at hv hw <;>
        rcases hv with ⟨rfl, rfl⟩ | ⟨rfl, rfl⟩ <;> simp at hw <;> exact hw.symm
    · cases hp

/-- Numbers as values and no memory; the instructions of `swapLoop` are all control flow. -/
def numberSem : Sem Nat Unit where
  const := fun _ => 0
  undef := 0
  op := fun _ _ m => some (0, m)
  truth := fun v => v ≠ 0
  toNat := fun v => v

theorem eliminatePhis_preserves_swapLoop :
    swapLoop.WellFormed ∧
      List.Forall₂ (VisitSim swapLoop.nextId (relocate swapLoop (phiIds swapLoop)))
      (call numberSem (fun i => i + 1) (fun _ => false) swapLoop 7 ())
      (call numberSem (fun i => i + 1) (isSlot swapLoop (phiIds swapLoop))
        (eliminatePhis swapLoop) 7 ()) :=
  ⟨swapLoop_wellFormed,
    (eliminatePhis_preserves_runs numberSem (fun i => i + 1) swapLoop_wellFormed 7 ()).1⟩

end PhiElimination
