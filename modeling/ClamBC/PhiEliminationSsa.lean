import ClamBC.PhiElimination
import ClamBC.SsaForm

/-!
# The rewritten function is in SSA form

The control-flow graph does not change, so neither does dominance between blocks.
Inside a block the original instructions move by the length of what was inserted
in front of them.
-/

namespace PhiEliminationSsa

open Ir IrExec PhiElimination SsaForm Relation

variable {f : Function} {p : Phi} (found : findPhi f p.id = some p)
include found

theorem reachable_iff (l : Label) : Reachable (handlePHI f p.id) l ↔ Reachable f l :=
  reachable_rewritten (handlePHI_blocks found) lowerBlock_label lowerBlock_successors l

theorem strictDom_iff (d l : Label) : StrictDom (handlePHI f p.id) d l ↔ StrictDom f d l :=
  strictDom_rewritten (handlePHI_blocks found) lowerBlock_label lowerBlock_successors d l

omit found in
/-- The original instructions stand behind the inserted ones. -/
theorem take_lowered (B : Block) (k : Nat) :
    (lowerBlock f p B).body.take ((prologue f p B).length + k) =
      (prologue f p B).map (renameInst p.id (loadId f)) ++
        (B.body.map (renameInst p.id (loadId f)) ++
          (phiStores f B.label 0 p.incoming).map (renameInst p.id (loadId f))).take k := by
  have length : (prologue f p B).length =
      ((prologue f p B).map (renameInst p.id (loadId f))).length := (List.length_map _).symm
  rw [lowerBlock_body, List.append_assoc, length, List.take_length_add_append]

omit found in
theorem inserted_early {B : Block} {i : Inst} (h : i ∈ prologue f p B) (k : Nat) :
    i.id ∈ ((lowerBlock f p B).body.take ((prologue f p B).length + k)).map Inst.id := by
  rw [take_lowered, List.map_append, List.mem_append, List.map_map]
  exact Or.inl (List.mem_map.mpr ⟨i, h, rfl⟩)

theorem available_lowered (rem : Removable f p) {d : Nat} {B : Block} (hB : B ∈ f.blocks) {k : Nat}
    (h : Available f d B.label k) :
    Available (handlePHI f p.id) (home f p d) B.label ((prologue f p B).length + k) := by
  have block : (handlePHI f p.id).block B.label = some (lowerBlock f p B) := by
    rw [lower_block B.label found, rem.wf.block_of_label hB]
    rfl
  obtain ⟨P, hP, hp⟩ := rem.member
  by_cases isPhi : d = p.id
  · subst isPhi
    rw [home, if_pos rfl]
    have atLoad : p ∈ B.phis → Available (handlePHI f p.id) (loadId f) B.label
        ((prologue f p B).length + k) :=
      fun here => .earlier block (inserted_early (mem_prologue_load here) k)
    cases h with
    | phi block' here =>
      cases block'.symm.trans (rem.wf.block_of_label hB)
      obtain ⟨q, hq, same⟩ := List.mem_map.mp here
      exact atLoad ((rem.wf.phi_unique hB hP hq hp same).2 ▸ hq)
    | earlier block' here =>
      cases block'.symm.trans (rem.wf.block_of_label hB)
      obtain ⟨i, hi, same⟩ := List.mem_map.mp here
      exact absurd same (rem.wf.phi_id_ne_inst_id hP hB hp (List.mem_of_mem_take hi))
    | @dominated D member here dom =>
      obtain ⟨⟨i, ty⟩, hd, same⟩ := List.mem_map.mp here
      have iP : p.id ∈ P.ids := by simp [Block.ids]; exact Or.inl ⟨p, hp, rfl⟩
      have id : i = p.id := same
      subst id
      have home := rem.wf.block_of_id hP member iP (Function.mem_ids_of_def hd)
      subst home
      refine .dominated (D := lowerBlock f p P) ?_ (List.mem_map_of_mem (load_def hp))
        ((strictDom_iff found _ _).mpr dom)
      rw [handlePHI_blocks found]
      exact List.mem_map_of_mem hP
  · rw [home, if_neg isPhi]
    cases h with
    | phi block' here =>
      cases block'.symm.trans (rem.wf.block_of_label hB)
      refine .phi block ?_
      rw [lowerBlock_phi_ids, List.mem_filter]
      exact ⟨here, by simpa using isPhi⟩
    | earlier block' here =>
      cases block'.symm.trans (rem.wf.block_of_label hB)
      obtain ⟨i, hi, rfl⟩ := List.mem_map.mp here
      refine .earlier block (List.mem_map.mpr ⟨renameInst p.id (loadId f) i, ?_, rfl⟩)
      rw [take_lowered, List.take_append, ← List.map_take]
      exact List.mem_append_right _ (List.mem_append_left _ (List.mem_map_of_mem hi))
    | @dominated D member here dom =>
      obtain ⟨⟨i, ty⟩, hd, rfl⟩ := List.mem_map.mp here
      refine .dominated (D := lowerBlock f p D) ?_ (List.mem_map_of_mem (def_lowered hd isPhi))
        ((strictDom_iff found _ _).mpr dom)
      rw [handlePHI_blocks found]
      exact List.mem_map_of_mem member

/-- The slot is allocated before anything else happens. -/
theorem slot_available (rem : Removable f p) {B : Block} (hB : B ∈ f.blocks) {k : Nat}
    (behind : (prologue f p B).length ≤ k ∨ f.entry ≠ some B) :
    Available (handlePHI f p.id) (slotId f) B.label k := by
  obtain ⟨E, entry⟩ := entry_of_mem hB
  have hE : E ∈ f.blocks := List.mem_of_head? entry
  by_cases first : B = E
  · subst first
    have le := behind.resolve_right (not_not.mpr entry)
    have block : (handlePHI f p.id).block B.label = some (lowerBlock f p B) := by
      rw [lower_block B.label found, rem.wf.block_of_label hB]
      rfl
    have early := inserted_early (mem_prologue_alloca (p := p) entry) (k - (prologue f p B).length)
    rw [Nat.add_sub_of_le le] at early
    exact .earlier block early
  · have labels : B.label ≠ E.label :=
      fun same => first (List.inj_on_of_nodup_map rem.wf.labels hB hE same)
    refine .dominated (D := lowerBlock f p E) ?_ (List.mem_map_of_mem (slot_def entry))
      ((strictDom_iff found _ _).mpr ⟨E, entry, Dominance.StrictDom.root_left labels⟩)
    rw [handlePHI_blocks found]
    exact List.mem_map_of_mem hE

/-- A renamed operand is available if the original one was. -/
theorem renamed_available (rem : Removable f p) {B : Block}
    (hB : B ∈ f.blocks) {k d : Nat} {v : Value} (h : ∀ e, v = .inst e → Available f e B.label k)
    (use : renameValue p.id (loadId f) v = .inst d) :
    Available (handlePHI f p.id) d B.label ((prologue f p B).length + k) := by
  cases v with
  | inst e =>
    cases use
    exact available_lowered found rem hB (h e rfl)
  | arg i => cases use
  | const c => cases use

theorem body_available (ssa : Ssa f) (rem : Removable f p) {B : Block} (hB : B ∈ f.blocks)
    (reach : Reachable f B.label) {k : Nat} {i : Inst} (at_k : (lowerBlock f p B).body[k]? = some i)
    {d : Nat} (use : Value.inst d ∈ i.op.operands) :
    Available (handlePHI f p.id) d B.label k := by
  rw [lowerBlock_body, List.append_assoc, List.getElem?_append] at at_k
  simp only [List.length_map] at at_k
  split_ifs at at_k with inPrologue
  · -- only the load has an operand, and its block has a phi, so it is not the entry
    rw [List.getElem?_map] at at_k
    obtain ⟨j, at_j, rfl⟩ := Option.map_eq_some_iff.mp at_k
    rcases mem_prologue (List.mem_of_getElem? at_j) with ⟨rfl, -⟩ | ⟨rfl, here⟩
    · cases use
    · simp only [renameInst, phiLoad, Op.map, Op.operands, slot_not_renamed rem.id_lt,
        List.mem_singleton, Value.inst.injEq] at use
      subst use
      refine slot_available found rem hB (Or.inr fun entry => ?_)
      rw [rem.wf.entryPhis B entry] at here
      cases here
  · rw [← Nat.add_sub_of_le (Nat.not_lt.mp inPrologue)]
    rw [List.getElem?_append] at at_k
    simp only [List.length_map] at at_k
    split_ifs at at_k with inBody
    · rw [List.getElem?_map] at at_k
      obtain ⟨j, at_j, rfl⟩ := Option.map_eq_some_iff.mp at_k
      simp only [renameInst, Op.operands_map, List.mem_map] at use
      obtain ⟨v, hv, use⟩ := use
      exact renamed_available found rem hB
        (fun e he => ssa.body B hB reach _ j at_j e (he ▸ hv)) use
    · rw [List.getElem?_map] at at_k
      obtain ⟨j, at_j, rfl⟩ := Option.map_eq_some_iff.mp at_k
      obtain ⟨m, v, entry, rfl⟩ := mem_phiStores (List.mem_of_getElem? at_j)
      obtain ⟨P, hP, hp⟩ := rem.member
      simp only [renameInst, Op.map, Op.operands, slot_not_renamed rem.id_lt, List.mem_cons,
        List.not_mem_nil, or_false] at use
      rcases use with use | use
      · refine renamed_available found rem hB (fun e he => ?_) use.symm
        have atEnd := ssa.phi P hP p hp B hB reach e (he ▸ List.mem_of_getElem? entry)
        exact atEnd.mono (Nat.not_lt.mp inBody)
      · cases use
        exact slot_available found rem hB (Or.inl (Nat.le_add_right _ _))

theorem handlePHI_ssa (ssa : Ssa f) (rem : Removable f p) : Ssa (handlePHI f p.id) := by
  have behind : ∀ B, (prologue f p B).length + B.body.length ≤ (lowerBlock f p B).body.length := by
    intro B
    rw [lowerBlock_body]
    simp only [List.length_append, List.length_map]
    omega
  refine ⟨handlePHI_wellFormed found rem, ?_, ?_, ?_⟩ <;> rw [handlePHI_blocks found]
  · intro B hB reach k i at_k d use
    obtain ⟨A, hA, rfl⟩ := List.mem_map.mp hB
    exact body_available found ssa rem hA ((reachable_iff found _).mp reach) at_k use
  · intro B hB reach d use
    obtain ⟨A, hA, rfl⟩ := List.mem_map.mp hB
    simp only [lowerBlock, erasePhi, renameBlock, insertIntoBlock, Term.operands_map,
      List.mem_map] at use
    obtain ⟨v, hv, use⟩ := use
    have atEnd := ssa.term A hA ((reachable_iff found _).mp reach)
    exact (renamed_available found rem hA (fun e he => atEnd e (he ▸ hv)) use).mono (behind A)
  · intro B hB q hq C hC reach d entry
    obtain ⟨D, hD, rfl⟩ := List.mem_map.mp hB
    obtain ⟨A, hA, rfl⟩ := List.mem_map.mp hC
    obtain ⟨r, hr, -, rfl⟩ := mem_lowerBlock_phis.mp hq
    obtain ⟨⟨v, l⟩, he, same⟩ := List.mem_map.mp entry
    simp only [Prod.mk.injEq] at same
    obtain ⟨use, rfl⟩ := same
    have atEnd := ssa.phi D hD r hr A hA ((reachable_iff found _).mp reach)
    exact (renamed_available found rem hA (fun e eq => atEnd e (eq ▸ he)) use).mono (behind A)

omit found in
theorem eliminatePhis_ssa (ssa : Ssa f) : Ssa (eliminatePhis f) := by
  have all : ∀ (pns : List Nat) (g : Function), Ssa g → pns.Nodup → (∀ i ∈ pns, i ∈ phiIds g) →
      Ssa (handleAll g pns) := by
    intro pns
    induction pns with
    | nil => exact fun g ssa _ _ => ssa
    | cons i pns ih =>
      intro g ssa nodup members
      obtain ⟨q, found, rfl, rem⟩ := findPhi_of_mem ssa.wf (members i List.mem_cons_self)
      rw [List.nodup_cons] at nodup
      exact ih _ (handlePHI_ssa found ssa rem) nodup.2 (phis_remain found nodup.1 members)
  exact all (phiIds f) f ssa (phiIds_nodup ssa.wf) (fun _ h => h)

end PhiEliminationSsa
