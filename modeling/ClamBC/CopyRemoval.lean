import ClamBC.FunctionReplacements
import ClamBC.RunComparison
import ClamBC.SharedRegisters

/-!
# Removing a copy

`replaceAllUsesWith` of an instruction by a value that it reads, and `eraseFromParent`. If the
instruction only hands on the value, this changes nothing: wherever the instruction can be
read the value can, and in every run both are the same there.
-/

namespace CopyRemoval

open Ir IrExec SsaForm FunctionEdits RunComparison

def removal (n : Nat) (v : Value) : Edit := Edit.replace none [] (some n) n v

/-- `I->replaceAllUsesWith(v); I->eraseFromParent();` -/
def replaceAndErase (f : Function) (n : Nat) (v : Value) : Function := (removal n v).apply 0 f

/-- An instruction in a block that is reached, and a value that it reads. -/
structure Stands (f : Function) (N : Block) (I : Inst) (v : Value) : Prop where
  block : N ∈ f.blocks
  inst : I ∈ N.body
  reach : Reachable f N.label
  reads : v ∈ I.op.operands

section
variable {f : Function} {N : Block} {I : Inst} {v : Value}

/-- What becomes of each instruction. -/
def expand (n : Nat) (v : Value) (i : Inst) : List Inst :=
  if some n = some i.id then [] else [substituteInst n v i]

theorem removal_inFront (n : Nat) (v : Value) (i : Inst) : (removal n v).inFront i = [] := rfl

theorem removal_fits (n : Nat) (v : Value) : (removal n v).Fits 0 f := by
  constructor
  · exact fun i hi => by cases hi
  · exact fun i hi => by cases hi
  · exact List.nodup_nil
  · exact fun i hi => by cases hi

/-- What is read after the removal was read before. -/
theorem Stands.use_cases (stands : Stands f N I v) {B : Block} (hB : B ∈ f.blocks) {w : Value}
    (used : w ∈ ((removal I.id v).block B).uses) : ∃ A ∈ f.blocks, w ∈ A.uses := by
  have old : ∀ u ∈ B.uses, w = substitute I.id v u → ∃ A ∈ f.blocks, w ∈ A.uses := by
    rintro u hu rfl
    cases u with
    | const c => exact ⟨B, hB, hu⟩
    | arg a => exact ⟨B, hB, hu⟩
    | inst d =>
      by_cases same : d = I.id
      · subst same
        rw [substitute_inst_self]
        exact ⟨N, stands.block, PhiElimination.inst_use stands.inst stands.reads⟩
      · rw [substitute_inst_other same]
        exact ⟨B, hB, hu⟩
  rcases Edit.mem_uses.mp used with ⟨p, hp, u, l, entry, eq⟩ | ⟨j, hj, operand⟩ | ⟨u, hu, eq⟩
  · exact old u (PhiElimination.phi_use hp entry) eq
  · rcases Edit.mem_body.mp hj with ⟨i, hi, -, rfl⟩ | ⟨new, -⟩
    · have mapped : w ∈ (i.op.map (substitute I.id v)).operands := operand
      rw [Op.operands_map] at mapped
      obtain ⟨u, hu, eq⟩ := List.mem_map.mp mapped
      exact old u (PhiElimination.inst_use hi hu) eq.symm
    · cases new
  · exact old u (PhiElimination.term_use hu) eq

section
variable (ssa : Ssa f) (stands : Stands f N I v)
include ssa stands

theorem Stands.other : v ≠ .inst I.id := by
  rintro rfl
  obtain ⟨k, at_k⟩ := List.getElem?_of_mem stands.inst
  have own := ssa.body N stands.block stands.reach k I at_k I.id stands.reads
  exact not_both_available ssa.wf stands.block stands.block stands.reach at_k at_k own own

/-- The value can be read where the instruction can be read. -/
theorem Stands.available {B : Block} (hB : B ∈ f.blocks) {k d : Nat} (isInst : v = .inst d)
    (avail : Available f I.id B.label k) : Available f d B.label k := by
  obtain ⟨m, at_m⟩ := List.getElem?_of_mem stands.inst
  have first := ssa.body N stands.block stands.reach m I at_m d (isInst ▸ stands.reads)
  exact first.trans ssa.wf hB stands.block at_m avail

/-- The erased instruction is read nowhere. -/
theorem Stands.not_erased {u : Value} {d : Nat} (eq : substitute I.id v u = .inst d) :
    d ≠ I.id := by
  rintro rfl
  rcases substitute_eq_inst eq with ⟨-, self⟩ | ⟨-, other⟩
  · exact stands.other ssa self
  · exact other rfl

/-- Where a value was read, what is read instead has been computed. -/
theorem Stands.seen {B : Block} (hB : B ∈ f.blocks) {k : Nat} {u : Value} {d : Nat}
    (eq : substitute I.id v u = .inst d) (avail : ∀ a, u = .inst a → Available f a B.label k)
    {ids : List Nat} (same : d ∈ ids ↔ d ∈ (B.body.take k).map Inst.id) (old : d < f.nextId) :
    Seen (replaceAndErase f I.id v) d ((removal I.id v).block B) ids := by
  have notErased : (removal I.id v).erased ≠ some d := fun gone =>
    stands.not_erased ssa eq (Option.some.inj gone).symm
  rw [replaceAndErase, Edit.seen_old (removal_fits I.id v) old notErased same,
    ← available_iff ssa.wf hB]
  rcases substitute_eq_inst eq with ⟨isN, isV⟩ | ⟨isD, -⟩
  · exact stands.available ssa hB isV (avail I.id isN)
  · exact avail d isD

theorem Stands.old {B : Block} (hB : B ∈ f.blocks) {u : Value} (used : u ∈ B.uses) {d : Nat}
    (eq : substitute I.id v u = .inst d) : d < f.nextId := by
  rcases substitute_eq_inst eq with ⟨-, rfl⟩ | ⟨rfl, -⟩
  · exact ssa.wf.uses_lt stands.block (PhiElimination.inst_use stands.inst stands.reads)
  · exact ssa.wf.uses_lt hB used

/-- The function stays in SSA form. -/
theorem replaceAndErase_ssa : Ssa (replaceAndErase f I.id v) := by
  have fits : (removal I.id v).Fits 0 f := removal_fits I.id v
  have reads := (ssa_iff.mp ssa).2
  have mem : ∀ {d : Nat}, d < f.nextId → d ≠ I.id → ∀ is : List Inst,
      (d ∈ ((removal I.id v).body is).map Inst.id ↔ d ∈ is.map Inst.id) := fun old other is =>
    Edit.mem_pre fits old (fun gone => other (Option.some.inj gone).symm) is
  refine ssa_iff.mpr ⟨Edit.apply_wellFormed ssa.wf fits ?_ ?_, Edit.reads_apply_iff.mpr ?_⟩
  · intro B hB d used
    have notErased : d ≠ I.id := by
      rcases Edit.mem_uses.mp used with ⟨p, hp, u, l, -, eq⟩ | ⟨j, hj, operand⟩ | ⟨u, -, eq⟩
      · exact stands.not_erased ssa eq.symm
      · rcases Edit.mem_body.mp hj with ⟨i, hi, -, rfl⟩ | ⟨new, -⟩
        · have mapped : Value.inst d ∈ (i.op.map (substitute I.id v)).operands := operand
          rw [Op.operands_map] at mapped
          obtain ⟨u, -, eq⟩ := List.mem_map.mp mapped
          exact stands.not_erased ssa eq
        · cases new
      · exact stands.not_erased ssa eq.symm
    obtain ⟨A, hA, use⟩ := stands.use_cases hB used
    obtain ⟨D, hD, ty, defined, value⟩ := ssa.wf.uses A hA d use
    exact ⟨D, hD, ty,
      Edit.defined_old defined (fun gone => notErased (Option.some.inj gone).symm), value⟩
  · intro B hB i used
    obtain ⟨A, hA, use⟩ := stands.use_cases hB used
    exact ssa.wf.argUses A hA i use
  · constructor
    · intro B hB reach pre i post split _ d operand
      obtain ⟨at_k, earlier⟩ := getElem_of_split split
      have mapped : Value.inst d ∈ (i.op.map (substitute I.id v)).operands := operand
      rw [Op.operands_map] at mapped
      obtain ⟨u, hu, eq⟩ := List.mem_map.mp mapped
      have old := stands.old ssa hB (mem_uses_of_operand split hu) eq
      refine stands.seen ssa hB (k := pre.length) eq ?_ ?_ old
      · exact fun a isInst => ssa.body B hB reach _ i at_k a (isInst ▸ hu)
      · rw [removal_inFront, List.append_nil, earlier]
        exact mem old (stands.not_erased ssa eq) pre
    · intro B hB reach pre i post split here
      cases here
    · intro B hB reach u hu d eq
      have old := stands.old ssa hB (PhiElimination.term_use hu) eq
      refine stands.seen ssa hB (k := B.body.length) eq ?_ ?_ old
      · exact fun a isInst => ssa.term B hB reach a (isInst ▸ hu)
      · rw [List.take_length]
        exact mem old (stands.not_erased ssa eq) B.body
    · intro B hB p hp A hA reach u entry d eq
      have old := stands.old ssa hB (PhiElimination.phi_use hp entry) eq
      refine stands.seen ssa hA (k := A.body.length) eq ?_ ?_ old
      · exact fun a isInst => ssa.phi B hB p hp A hA reach a (isInst ▸ entry)
      · rw [List.take_length]
        exact mem old (stands.not_erased ssa eq) A.body

end

/-! Runs. -/

section
universe u
variable {V M : Type u} (S : Sem V M) (args : Nat → V) (f : Function) (n : Nat) (v : Value)

/-- Everything but the removed instruction agrees, and this one has the value of its operand
where it can be read. -/
structure At (B : Block) (k : Nat) (s t : State V M) : Prop where
  reach : Reachable f B.label
  regs : ∀ i, i ≠ n → t.regs i = s.regs i
  mem : t.mem = s.mem
  copy : Available f n B.label k → s.regs n = eval S args s.regs v

/-- Control is at the start, or comes along an edge. -/
inductive Entry : Option Label → Label → State V M → State V M → Prop
  | start {E : Block} (entry : f.entry = some E) (s : State V M) : Entry none E.label s s
  | edge {A : Block} (hA : A ∈ f.blocks) {l : Label} (succ : l ∈ A.term.successors)
      {s t : State V M} (related : At S args f n v A A.body.length s t) :
      Entry (some A.label) l s t

variable {S args f n v}

theorem eval_substitute (other : v ≠ .inst n) {B : Block} {k : Nat} {s t : State V M}
    (related : At S args f n v B k s t) {u : Value}
    (avail : u = .inst n → Available f n B.label k) :
    eval S args t.regs (substitute n v u) = eval S args s.regs u := by
  cases u with
  | const c => rfl
  | arg i => rfl
  | inst d =>
    by_cases same : d = n
    · subst same
      rw [substitute_inst_self]
      change _ = s.regs d
      rw [related.copy (avail rfl)]
      cases v with
      | const c => rfl
      | arg i => rfl
      | inst a => exact related.regs a fun same => other (same ▸ rfl)
    · rw [substitute_inst_other same]
      exact related.regs d same

end

section
universe u
variable {V M : Type u} {S : Sem V M} {args : Nat → V}
variable (ssa : Ssa f) (stands : Stands f N I v)
include ssa stands

theorem Stands.not_phi {C : Block} (hC : C ∈ f.blocks) : I.id ∉ C.phis.map Phi.id := by
  intro h
  obtain ⟨q, hq, same⟩ := List.mem_map.mp h
  exact ssa.wf.phi_id_ne_inst_id hC stands.block hq stands.inst same.symm

/-- The value is not computed by a phi of a block at whose start the copy can be read. -/
theorem Stands.not_own_phi {C : Block} (hC : C ∈ f.blocks) (reach : Reachable f C.label)
    (avail : Available f I.id C.label 0) {d : Nat} (isInst : v = .inst d) :
    d ∉ C.phis.map Phi.id := by
  intro h
  have wf := ssa.wf
  obtain ⟨q, hq, same⟩ := List.mem_map.mp h
  obtain ⟨m, at_m⟩ := List.getElem?_of_mem stands.inst
  rcases avail.of_inst wf hC stands.block at_m with ⟨-, before⟩ | dom
  · omega
  have here := ssa.body N stands.block stands.reach m I at_m d (isInst ▸ stands.reads)
  have inC : d ∈ C.ids := List.mem_append_left _ (List.mem_append_left _ h)
  cases here with
  | @phi B block member =>
    cases block.symm.trans (wf.block_of_label stands.block)
    have inN : d ∈ N.ids := List.mem_append_left _ (List.mem_append_left _ member)
    rw [wf.block_of_id stands.block hC inN inC] at dom
    exact StrictDom.irrefl reach dom
  | earlier block member =>
    cases block.symm.trans (wf.block_of_label stands.block)
    obtain ⟨m', -, j, at_j, isJ⟩ := mem_take_ids member
    exact wf.phi_id_ne_inst_id hC stands.block hq (List.mem_of_getElem? at_j) (isJ.trans same.symm)
  | @dominated D hD member back =>
    obtain ⟨x, hx, isD⟩ := List.mem_map.mp member
    have inD : d ∈ D.ids := isD ▸ Function.mem_ids_of_def hx
    rw [wf.block_of_id hD hC inD inC] at back
    exact StrictDom.asymm reach dom back

theorem Stands.phis_at {B : Block} (hB : B ∈ f.blocks) {prev : Option Label} {s t : State V M}
    (entry : Entry S args f I.id v prev B.label s t) :
    Option.Rel (fun regs regs' => At S args f I.id v B 0 { s with regs := regs }
        { t with regs := regs' })
      (enterPhis S args prev s.regs B.phis)
      (enterPhis S args prev t.regs ((removal I.id v).block B).phis) := by
  have wf := ssa.wf
  generalize label : B.label = l at entry
  cases entry with
  | @start E first =>
    cases List.inj_on_of_nodup_map wf.labels hB (List.mem_of_head? first) label
    have none : B.phis = [] := wf.entryPhis B first
    have none' : ((removal I.id v).block B).phis = [] := by
      change B.phis.map _ = []
      rw [none, List.map_nil]
    rw [none, none']
    refine .some ⟨⟨B, first, .refl⟩, fun _ _ => rfl, rfl, fun avail => ?_⟩
    exfalso
    obtain ⟨m, at_m⟩ := List.getElem?_of_mem stands.inst
    rcases avail.of_inst wf hB stands.block at_m with ⟨-, before⟩ | ⟨E, first', dom⟩
    · omega
    · cases first.symm.trans first'
      exact dom .refl
  | @edge A hA _ succ _ _ related =>
    subst label
    have edge : f.Edge A.label B.label := ⟨A, wf.block_of_label hA, succ⟩
    have reach := related.reach.step edge
    have values : ∀ q ∈ B.phis, ∀ u, q.valueFrom (some A.label) = some u →
        eval S args t.regs (substitute I.id v u) = eval S args s.regs u := by
      intro q hq u value
      obtain ⟨b, same, incoming⟩ := valueFrom_mem value
      cases same
      refine eval_substitute (stands.other ssa) related fun isN => ?_
      exact ssa.phi B hB q hq A hA related.reach I.id (isN ▸ incoming)
    have entered := enterPhis_like (substitute I.id v) related.regs values
    change Option.Rel _ _ (enterPhis S args (some A.label) t.regs
      (B.phis.map (mapIncoming (substitute I.id v))))
    cases before : enterPhis S args (some A.label) s.regs B.phis with
    | none =>
      rw [before] at entered
      generalize enterPhis S args (some A.label) t.regs _ = r at entered
      cases entered
      exact .none
    | some regs =>
      rw [before] at entered
      generalize enterPhis S args (some A.label) t.regs _ = r at entered
      cases entered with
      | some agree =>
        refine .some ⟨reach, agree, related.mem, fun avail => ?_⟩
        change regs I.id = eval S args regs v
        rw [enterPhis_other S args before (stands.not_phi ssa hB)]
        have earlier : Available f I.id A.label A.body.length := by
          rcases avail.of_edge wf hA succ with ⟨C, hC, -, phi⟩ | earlier
          · exact absurd phi (stands.not_phi ssa hC)
          · exact earlier
        rw [related.copy earlier]
        cases isV : v with
        | const c => rfl
        | arg i => rfl
        | inst d =>
          exact (enterPhis_other S args before (stands.not_own_phi ssa hB reach avail isV)).symm

/-- Whenever the instruction is executed it hands on the value and leaves the memory alone. -/
def Copies (S : Sem V M) (args : Nat → V) (I : Inst) (v : Value) (e : Event V M) : Prop :=
  e.id = I.id →
    outcome S I.ty e.op e.before.mem = some (eval S args e.before.regs v, e.before.mem)

/-- The instruction that is removed. -/
theorem Stands.inst_removed {B : Block} {k : Nat} {s t : State V M}
    (copies : ∀ e ∈ (execBody S args noCells [I] s).1, Copies S args I v e)
    (related : At S args f I.id v B k s t) :
    StepLike S args (expand I.id v) Eq (fun i => i ≠ I.id)
      (At S args f I.id v B (k + 1)) I s t := by
  have ran : exec S args noCells I s = some (eval S args s.regs v, s) := by
    obtain ⟨result, executed⟩ := mem_execBody_singleton S args I s
    have copied : outcome S I.ty (I.op.map (eval S args s.regs)) s.mem =
      some (eval S args s.regs v, s.mem) := copies _ executed rfl
    rw [exec_noCells, copied]
    rfl
  have none : expand I.id v I = [] := if_pos rfl
  rw [StepLike, none]
  simp only [execBody, ran]
  constructor
  · simp
  · refine .some ⟨related.reach, fun d other => ?_, related.mem, fun _ => ?_⟩
    · exact (related.regs d other).trans (Function.update_of_ne other _ _).symm
    · change Function.update s.regs I.id _ I.id = eval S args (Function.update s.regs I.id _) v
      rw [Function.update_self, SharedRegisters.eval_update (stands.other ssa)]

/-- The other instructions do what they did. -/
theorem Stands.inst_other {B : Block} (hB : B ∈ f.blocks) {k : Nat} {i : Inst}
    (at_k : B.body[k]? = some i) (other : i.id ≠ I.id) {s t : State V M}
    (related : At S args f I.id v B k s t) :
    StepLike S args (expand I.id v) Eq (fun i => i ≠ I.id)
      (At S args f I.id v B (k + 1)) i s t := by
  have one : expand I.id v i = [substituteInst I.id v i] := if_neg fun same => other
    (Option.some.inj same).symm
  have reads : (i.op.map (substitute I.id v)).map (eval S args t.regs) =
      i.op.map (eval S args s.regs) := by
    rw [Op.map_map]
    refine Op.map_congr fun u hu => eval_substitute (stands.other ssa) related fun isI => ?_
    exact ssa.body B hB related.reach k i at_k I.id (isI ▸ hu)
  have same : exec S args noCells (substituteInst I.id v i) t =
      (outcome S i.ty (i.op.map (eval S args s.regs)) s.mem).map fun r =>
        (r.1, { t with mem := r.2 }) := by
    rw [exec_noCells, ← related.mem, ← reads]
    rfl
  rw [StepLike, one]
  simp only [execBody, same, exec_noCells S args i s]
  cases outcome S i.ty (i.op.map (eval S args s.regs)) s.mem with
  | none =>
    refine ⟨List.rel_filter (fun e d like => ?_) (.cons ⟨rfl, reads.symm, rfl, related.mem⟩ .nil),
      .none⟩
    simp [like.id]
  | some r =>
    refine ⟨List.rel_filter (fun e d like => ?_) (.cons ⟨rfl, reads.symm, rfl, related.mem⟩ .nil),
      .some ⟨related.reach, fun d ne => ?_, rfl, fun avail => ?_⟩⟩
    · simp [like.id]
    · change Function.update _ i.id _ d = Function.update _ i.id _ d
      by_cases here : d = i.id
      · rw [here, Function.update_self, Function.update_self]
      · rw [Function.update_of_ne here, Function.update_of_ne here]
        exact related.regs d ne
    · have before : Available f I.id B.label k :=
        SharedRegisters.available_succ ssa.wf hB at_k (Ne.symm other) avail
      have notOwn : v ≠ .inst i.id := by
        rintro rfl
        obtain ⟨m, at_m⟩ := List.getElem?_of_mem stands.inst
        have first := ssa.body N stands.block stands.reach m I at_m i.id stands.reads
        exact not_both_available ssa.wf hB stands.block related.reach at_k at_m before first
      change Function.update s.regs i.id _ I.id = eval S args (Function.update s.regs i.id _) v
      rw [Function.update_of_ne (Ne.symm other), SharedRegisters.eval_update notOwn]
      exact related.copy before

theorem Stands.simulation :
    Simulation S args (expand I.id v) Eq (fun i => i ≠ I.id) (Copies S args I v) f
      (replaceAndErase f I.id v) (removal I.id v).block (Entry S args f I.id v)
      (At S args f I.id v) where
  blocks := rfl
  label _ := rfl
  body _ _ := rfl
  mem entry := by
    cases entry with
    | start => rfl
    | edge _ _ related => exact related.mem
  phis B hB prev s t := stands.phis_at ssa hB
  inst B hB k i at_k s t related copies := by
    by_cases same : i.id = I.id
    · cases (ssa.wf.inst_unique hB stands.block (List.mem_of_getElem? at_k) stands.inst same).2
      exact stands.inst_removed ssa copies related
    · exact stands.inst_other ssa hB at_k same related
  term B hB s t related := by
    have reads : (B.term.map (substitute I.id v)).map (eval S args t.regs) =
        B.term.map (eval S args s.regs) := by
      rw [Term.map_map]
      refine Term.map_congr fun u hu => eval_substitute (stands.other ssa) related fun isI => ?_
      exact ssa.term B hB related.reach I.id (isI ▸ hu)
    exact ⟨related.mem, congrArg (leave S) reads, fun l succ => .edge hB succ related⟩

/-- In a run in which the removed instruction hands on the value, it is the only difference. -/
theorem replaceAndErase_call (n : Nat) (mem : M)
    (copies : ∀ w ∈ call S args noCells f n mem, ∀ e ∈ w.events, Copies S args I v e) :
    List.Forall₂ (VisitLike Eq fun i => i ≠ I.id) (call S args noCells f n mem)
      (call S args noCells (replaceAndErase f I.id v) n mem) :=
  (stands.simulation ssa).call_like (fun _ first _ => .start first _) n mem copies

end

end

end CopyRemoval
