import ClamBC.FunctionReplacements
import ClamBC.RunComparison

/-!
# Other operands for one instruction

An instruction gets other operands, for which new instructions may stand in front of it. The
function stays in SSA form if what they read can be read at this place. All runs compare if the
new instructions and the changed one together do what the instruction did.
-/

namespace OperandEdits

open Ir IrExec SsaForm FunctionEdits RunComparison

section
variable {f : Function} {count : Nat} {N : Block} {before after : List Inst} {I : Inst} {e : Edit}

structure Rewrites (f : Function) (count : Nat) (N : Block) (before : List Inst) (I : Inst)
    (e : Edit) : Prop where
  point : e.point = some I.id
  stays : e.erased = none
  value : e.value = id
  others : ∀ i, i.id ≠ I.id → e.update i = i
  fits : e.Fits count f
  reads : ∀ j ∈ e.news, ∀ v ∈ j.op.operands, Ready f N before v
  updated : ∀ v ∈ (e.update I).op.operands,
    (∃ d ∈ e.news.map Inst.id, v = .inst d) ∨ Ready f N before v

section
variable (rewrites : Rewrites f count N before I e) (hN : N ∈ f.blocks)
  (split : N.body = before ++ I :: after)
include rewrites

theorem Rewrites.erases (d : Nat) : e.erased ≠ some d := by
  rw [rewrites.stays]
  exact Option.some_ne_none d |>.symm

include hN split

theorem Rewrites.changed (wf : f.WellFormed) {B : Block} (hB : B ∈ f.blocks) {i : Inst}
    (hi : i ∈ B.body) : e.update i = i ∨ i = I := by
  by_cases same : i.id = I.id
  · have hI : I ∈ N.body := split ▸ List.mem_append_right _ List.mem_cons_self
    exact .inr (wf.inst_unique hB hN hi hI same).2
  · exact .inl (rewrites.others i same)

/-- Every value that is read is new, a constant or one that was read before. -/
theorem Rewrites.uses (wf : f.WellFormed) {B : Block} (hB : B ∈ f.blocks) {v : Value}
    (used : v ∈ (e.block B).uses) :
    (∃ j ∈ e.news, v = .inst j.id) ∨ (∃ c, v = .const c) ∨ ∃ A ∈ f.blocks, v ∈ A.uses := by
  rcases Edit.mem_uses.mp used with ⟨p, hp, w, l, entry, rfl⟩ | ⟨j, hj, operand⟩ | ⟨w, hw, rfl⟩
  · rw [rewrites.value]
    exact .inr (.inr ⟨B, hB, PhiElimination.phi_use hp entry⟩)
  · rcases Edit.mem_body.mp hj with ⟨i, hi, -, rfl⟩ | ⟨new, -⟩
    · rcases rewrites.changed hN split wf hB hi with same | rfl
      · rw [same] at operand
        exact .inr (.inr ⟨B, hB, PhiElimination.inst_use hi operand⟩)
      · rcases rewrites.updated v operand with ⟨d, hd, rfl⟩ | ready
        · obtain ⟨j, hj, rfl⟩ := List.mem_map.mp hd
          exact .inl ⟨j, hj, rfl⟩
        · exact .inr ready.used
    · exact .inr (rewrites.reads j new v operand).used
  · rw [rewrites.value]
    exact .inr (.inr ⟨B, hB, PhiElimination.term_use hw⟩)

theorem Rewrites.wellFormed (wf : f.WellFormed) : (e.apply count f).WellFormed := by
  have hI : I ∈ N.body := split ▸ List.mem_append_right _ List.mem_cons_self
  refine Edit.apply_wellFormed wf rewrites.fits ?_ ?_
  · intro B hB d used
    rcases rewrites.uses hN split wf hB used with ⟨j, hj, eq⟩ | ⟨c, eq⟩ | ⟨A, hA, usedBefore⟩
    · cases eq
      exact ⟨N, hN, j.ty, Edit.defined_new hI rewrites.point hj, rewrites.fits.value j hj⟩
    · cases eq
    · obtain ⟨D, hD, ty, defined, value⟩ := wf.uses A hA d usedBefore
      exact ⟨D, hD, ty, Edit.defined_old defined (rewrites.erases d), value⟩
  · intro B hB i used
    rcases rewrites.uses hN split wf hB used with ⟨j, hj, eq⟩ | ⟨c, eq⟩ | ⟨A, hA, usedBefore⟩
    · cases eq
    · cases eq
    · exact wf.argUses A hA i usedBefore

omit hN split in
/-- What could be read in front of an old instruction can be read there now. -/
theorem Rewrites.seen (wf : f.WellFormed) {A B : Block} (hA : A ∈ f.blocks) {d : Nat}
    (used : .inst d ∈ A.uses) {pre more : List Inst} (front : ∀ j ∈ more, j ∈ e.news)
    (seen : Seen f d B (pre.map Inst.id)) :
    Seen (e.apply count f) d (e.block B) ((e.body pre ++ more).map Inst.id) := by
  have old := wf.uses_lt hA used
  have outside : d ∉ more.map Inst.id := by
    intro inside
    obtain ⟨j, hj, eq⟩ := List.mem_map.mp inside
    exact Edit.notNew rewrites.fits old (List.mem_map.mpr ⟨j, front j hj, eq⟩)
  refine (Edit.seen_old rewrites.fits old (rewrites.erases d) ?_).mpr seen
  rw [List.map_append, List.mem_append, Edit.mem_pre rewrites.fits old (rewrites.erases d),
    or_iff_left outside]

omit hN split in
theorem Rewrites.seen_ready (wf : f.WellFormed) {d : Nat} (ready : Ready f N before (.inst d))
    (reach : Reachable f N.label) {more : List Inst} (front : ∀ j ∈ more, j ∈ e.news) :
    Seen (e.apply count f) d (e.block N) ((e.body before ++ more).map Inst.id) := by
  rcases ready.used with ⟨c, eq⟩ | ⟨A, hA, used⟩
  · cases eq
  · exact rewrites.seen wf hA used front (ready.seen d rfl reach)

theorem Rewrites.ssa (ssa : Ssa f) : Ssa (e.apply count f) := by
  have wf := ssa.wf
  have reads := (ssa_iff.mp ssa).2
  refine ssa_iff.mpr ⟨rewrites.wellFormed hN split wf, Edit.reads_apply_iff.mpr ?_⟩
  constructor
  case old =>
    intro B hB reach pre i post split' _ d operand
    have hi : i ∈ B.body := split' ▸ List.mem_append_right _ List.mem_cons_self
    by_cases same : i.id = I.id
    · obtain ⟨rfl, rfl, rfl⟩ := split_unique wf hB hN split' split same
      have inFront : e.inFront i = e.news := if_pos rewrites.point
      rw [inFront]
      rcases rewrites.updated _ operand with ⟨d', hd, eq⟩ | ready
      · cases eq
        refine .inr (.inl ?_)
        rw [List.map_append]
        exact List.mem_append_right _ hd
      · exact rewrites.seen_ready wf ready reach fun j hj => hj
    · have inFront : e.inFront i = [] := by
        apply if_neg
        rw [rewrites.point]
        exact fun point => same (Option.some.inj point).symm
      rw [rewrites.others i same] at operand
      rw [inFront]
      exact rewrites.seen wf hB (PhiElimination.inst_use hi operand) nofun
        (reads.body B hB reach pre i post split' d operand)
  case new =>
    intro B hB reach pre i post split' here first j last newsSplit d operand
    have same : i.id = I.id := Option.some.inj (here.symm.trans rewrites.point)
    obtain ⟨rfl, rfl, rfl⟩ := split_unique wf hB hN split' split same
    have member : ∀ k ∈ first ++ j :: last, k ∈ e.news := fun k hk => newsSplit ▸ hk
    refine rewrites.seen_ready wf ?_ reach fun k hk => member k (List.mem_append_left _ hk)
    exact rewrites.reads j (member j (List.mem_append_right _ List.mem_cons_self)) _ operand
  case term =>
    intro B hB reach v hv d eq
    rw [rewrites.value] at eq
    cases eq
    have none : ∀ j ∈ ([] : List Inst), j ∈ e.news := fun j hj => by cases hj
    have seen := rewrites.seen wf hB (PhiElimination.term_use hv) none (reads.term B hB reach d hv)
    rwa [List.append_nil] at seen
  case phi =>
    intro B hB p hp A hA reach v entry d eq
    rw [rewrites.value] at eq
    cases eq
    have none : ∀ j ∈ ([] : List Inst), j ∈ e.news := fun j hj => by cases hj
    have seen := rewrites.seen wf hB (PhiElimination.phi_use hp entry) none
      (reads.phi B hB p hp A hA reach d entry)
    rwa [List.append_nil] at seen

end

/-! Runs. -/

/-- What becomes of each instruction. -/
def expand (e : Edit) (i : Inst) : List Inst := e.inFront i ++ [e.update i]

section
universe u
variable {V M : Type u}

/-- The registers of the first function and the memory agree. -/
structure Agree (f : Function) (s t : State V M) : Prop where
  regs : ∀ i, i < f.nextId → t.regs i = s.regs i
  mem : t.mem = s.mem

variable {S : Sem V M} {args : Nat → V} {R : Op V → Op V → Prop}
  {Fine : Event V M → Prop}

theorem Agree.eval (wf : f.WellFormed) {s t : State V M} (agree : Agree f s t) {B : Block}
    (hB : B ∈ f.blocks) {v : Value} (used : v ∈ B.uses) :
    eval S args t.regs v = eval S args s.regs v := by
  cases v with
  | inst d => exact agree.regs d (wf.uses_lt hB used)
  | arg i => rfl
  | const c => rfl

theorem Agree.op (wf : f.WellFormed) {s t : State V M} (agree : Agree f s t) {B : Block}
    (hB : B ∈ f.blocks) {i : Inst} (hi : i ∈ B.body) :
    i.op.map (IrExec.eval S args t.regs) = i.op.map (IrExec.eval S args s.regs) :=
  Op.map_congr fun _ hv => agree.eval wf hB (PhiElimination.inst_use hi hv)

theorem Agree.setReg {s t : State V M} (agree : Agree f s t) (d : Nat) (x : V) (m : M) :
    Agree f ({ s with mem := m }.setReg d x) ({ t with mem := m }.setReg d x) where
  regs i old := by
    change Function.update t.regs d x i = Function.update s.regs d x i
    by_cases here : i = d
    · rw [here, Function.update_self, Function.update_self]
    · rw [Function.update_of_ne here, Function.update_of_ne here]
      exact agree.regs i old
  mem := rfl

/-- An instruction that stays as it is. -/
theorem Agree.step (refl : ∀ o, R o o) (wf : f.WellFormed) {s t : State V M} (agree : Agree f s t)
    {B : Block} (hB : B ∈ f.blocks) {i : Inst} (hi : i ∈ B.body) (same : expand e i = [i]) :
    StepLike S args (expand e) R (fun d => d < f.nextId) (Agree f) i s t := by
  have op : i.op.map (IrExec.eval S args t.regs) = i.op.map (IrExec.eval S args s.regs) :=
    agree.op wf hB hi
  have executed : exec S args noCells i t =
      (outcome S i.ty (i.op.map (IrExec.eval S args s.regs)) s.mem).map fun r =>
        (r.1, { t with mem := r.2 }) := by
    rw [exec_noCells, agree.mem, op]
  have like : ∀ result : Option V, EventLike R
      ⟨i.id, s, i.op.map (IrExec.eval S args s.regs), result⟩
      ⟨i.id, t, i.op.map (IrExec.eval S args t.regs), result⟩ := fun result =>
    ⟨rfl, op ▸ refl _, rfl, agree.mem⟩
  rw [StepLike, same]
  simp only [execBody, executed, exec_noCells S args i s]
  cases outcome S i.ty (i.op.map (IrExec.eval S args s.regs)) s.mem with
  | none =>
    exact ⟨List.rel_filter (fun _ _ l => by simp [l.id]) (.cons (like none) .nil), .none⟩
  | some r =>
    exact ⟨List.rel_filter (fun _ _ l => by simp [l.id]) (.cons (like (some r.1)) .nil),
      .some (agree.setReg i.id r.1 r.2)⟩

theorem Rewrites.simulation (refl : ∀ o, R o o) (wf : f.WellFormed)
    (rewrites : Rewrites f count N before I e) (hN : N ∈ f.blocks)
    (split : N.body = before ++ I :: after)
    (step : ∀ s t, Agree f s t → (∀ e ∈ (execBody S args noCells [I] s).1, Fine e) →
      StepLike S args (expand e) R (fun d => d < f.nextId) (Agree f) I s t) :
    Simulation S args (expand e) R (fun d => d < f.nextId) Fine f (e.apply count f) e.block
      (fun _ _ => Agree f) (fun _ _ => Agree f) where
  blocks := rfl
  label _ := rfl
  body B _ := by
    change e.body B.body = _
    refine List.flatMap_congr fun i _ => ?_
    rw [if_neg (rewrites.erases i.id), expand]
  mem agree := agree.mem
  phis B hB prev s t agree := by
    have entered : Option.Rel (fun regs regs' => ∀ d, d < f.nextId → regs' d = regs d)
        (enterPhis S args prev s.regs B.phis)
        (enterPhis S args prev t.regs (B.phis.map (mapIncoming e.value))) :=
      enterPhis_like e.value agree.regs fun q hq u value => by
        obtain ⟨l, -, listed⟩ := valueFrom_mem value
        rw [rewrites.value]
        exact agree.eval wf hB (PhiElimination.phi_use hq listed)
    change Option.Rel _ (enterPhis S args prev s.regs B.phis)
      (enterPhis S args prev t.regs (B.phis.map (mapIncoming e.value)))
    generalize enterPhis S args prev s.regs B.phis = r at entered
    generalize enterPhis S args prev t.regs (B.phis.map (mapIncoming e.value)) = r' at entered
    cases entered with
    | none => exact .none
    | some regs => exact .some ⟨regs, agree.mem⟩
  inst B hB k i at_k s t agree fine := by
    have hi := List.mem_of_getElem? at_k
    by_cases same : i.id = I.id
    · have hI : I ∈ N.body := split ▸ List.mem_append_right _ List.mem_cons_self
      obtain ⟨-, rfl⟩ := wf.inst_unique hB hN hi hI same
      exact step s t agree fine
    · refine agree.step refl wf hB hi ?_
      have inFront : e.inFront i = [] := by
        apply if_neg
        rw [rewrites.point]
        exact fun point => same (Option.some.inj point).symm
      rw [expand, inFront, rewrites.others i same]
      rfl
  term B hB s t agree := by
    have reads : (B.term.map e.value).map (IrExec.eval S args t.regs) =
        B.term.map (IrExec.eval S args s.regs) := by
      rw [Term.map_map]
      refine Term.map_congr fun u hu => ?_
      rw [rewrites.value]
      exact agree.eval wf hB (PhiElimination.term_use hu)
    exact ⟨agree.mem, congrArg (leave S) reads, fun _ _ => agree⟩

/-- All runs compare if the changed instruction, with what stands in front of it, does what the
instruction did. -/
theorem Rewrites.call_like (refl : ∀ o, R o o) (wf : f.WellFormed)
    (rewrites : Rewrites f count N before I e) (hN : N ∈ f.blocks)
    (split : N.body = before ++ I :: after)
    (step : ∀ s t, Agree f s t → (∀ e ∈ (execBody S args noCells [I] s).1, Fine e) →
      StepLike S args (expand e) R (fun d => d < f.nextId) (Agree f) I s t)
    (n : Nat) (mem : M) (fine : ∀ v ∈ call S args noCells f n mem, ∀ e ∈ v.events, Fine e) :
    List.Forall₂ (VisitLike R fun d => d < f.nextId) (call S args noCells f n mem)
      (call S args noCells (e.apply count f) n mem) :=
  (rewrites.simulation refl wf hN split step).call_like
    (fun _ _ _ => ⟨fun _ _ => rfl, rfl⟩) n mem fine

end

end

end OperandEdits
