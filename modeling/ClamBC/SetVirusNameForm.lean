import ClamBC.SetVirusName
import Mathlib.Data.List.Flatten

/-!
# The split function is well formed

A call that is alone with its phi leaves a function behind that keeps the rules of the IR: the
new blocks are the only predecessors of the block that had the phi, and what the moved calls
read is available on the edges.
-/

namespace SetVirusName

open Ir IrExec SsaForm Fallible Relation

universe u
variable {V M : Type u}

theorem Rerouted.operands {moved : Label → Label → Prop} {t t' : Term Value}
    (h : Rerouted moved t t') : t'.operands = t.operands := by
  cases h <;> rfl

theorem Rerouted.mem {moved : Label → Label → Prop}
    {t t' : Term Value} (h : Rerouted moved t t') {l : Label} (member : l ∈ t'.successors) :
    l ∈ t.successors ∨ ∃ old ∈ t.successors, moved old l := by
  cases h with
  | same => exact .inl member
  | @br a a' move =>
    rw [List.mem_singleton.mp member]
    exact .inr ⟨a, List.mem_singleton_self _, move⟩
  | @condBr c a a' b b' left right =>
    simp only [Term.successors, List.mem_cons, List.not_mem_nil, or_false] at member ⊢
    rcases member with rfl | rfl
    · rcases left with rfl | move
      · exact .inl (.inl rfl)
      · exact .inr ⟨a, .inl rfl, move⟩
    · rcases right with rfl | move
      · exact .inl (.inr rfl)
      · exact .inr ⟨b, .inr rfl, move⟩

/-- Edges to a label that is neither moved nor the new end of an edge stay as they are. -/
theorem Rerouted.count {moved : Label → Label → Prop} {t t' : Term Value}
    (h : Rerouted moved t t') {l : Label} (stays : ∀ l', ¬ moved l l') (old : ∀ l', ¬ moved l' l) :
    t'.successors.count l = t.successors.count l := by
  have other : ∀ {a a'}, a' = a ∨ moved a a' → (a' = l ↔ a = l) := by
    rintro a a' (rfl | move)
    · rfl
    · constructor
      · rintro rfl
        exact absurd move (old a)
      · rintro rfl
        exact absurd move (stays a')
  cases h with
  | same => rfl
  | @br a a' move => simp [Term.successors, List.count_cons, other (.inr move)]
  | @condBr c a a' b b' left right =>
      simp [Term.successors, List.count_cons, other left, other right]

section
variable {S : Sem V M} {svn : Api} {f h : Function} {s : Site} {B : Block}
  {before after : List Inst} {rest : List Value}
variable {τ : Block → Term Value}
variable (verified : Verified f) (alone : Alone S svn f s B before after rest)
  (lifted : Lifted svn f s rest τ h)

theorem mem_erased {i : Nat} : i ∈ s.erased ↔ i = s.call.id ∨ i = s.phi.id := by
  simp [Site.erased]

include verified alone

/-! The blocks of the result. -/

theorem erased_elsewhere {X : Block} (hX : X ∈ f.blocks) (other : X ≠ B) {i : Nat}
    (hi : i ∈ X.ids) : i ∉ s.erased := by
  intro gone
  rcases mem_erased.mp gone with rfl | rfl
  · exact other (verified.ssa.wf.block_of_id hX alone.member hi alone.call_id)
  · exact other (verified.ssa.wf.block_of_id hX alone.member hi alone.phi_id)

theorem lift_other {X : Block} (hX : X ∈ f.blocks) (other : X ≠ B) : lift s τ X = retarget τ X := by
  have phis : X.phis.filter (fun p => p.id ∉ s.erased) = X.phis := by
    refine List.filter_eq_self.mpr fun p hp => decide_eq_true ?_
    exact erased_elsewhere verified alone hX other
      (List.mem_append_left _ (List.mem_append_left _ (List.mem_map_of_mem hp)))
  have body : X.body.filter (fun i => i.id ∉ s.erased) = X.body := by
    refine List.filter_eq_self.mpr fun i hi => decide_eq_true ?_
    exact erased_elsewhere verified alone hX other
      (List.mem_append_left _ (List.mem_append_right _ (List.mem_map_of_mem hi)))
  unfold lift eraseBlock retarget
  dsimp only
  rw [phis, body]

omit verified in
theorem lift_phis : (lift s τ B).phis = [] := by
  have same : (lift s τ B).phis = B.phis.filter (fun p => p.id ∉ s.erased) := rfl
  rw [same, alone.phis]
  simp [mem_erased]

theorem lift_body : (lift s τ B).body = before ++ after := by
  have wf := verified.ssa.wf
  have nodup :=
    (List.nodup_append.mp (List.nodup_append.mp (wf.block_ids_nodup alone.member)).1).2.1
  rw [alone.body, List.map_append, List.map_cons] at nodup
  have apart := List.nodup_append.mp nodup
  have kept : ∀ {is : List Inst}, (∀ i ∈ is, i ∈ B.body ∧ i.id ≠ s.call.id) →
      is.filter (fun i => i.id ∉ s.erased) = is := by
    intro is each
    refine List.filter_eq_self.mpr fun i hi => decide_eq_true fun gone => ?_
    obtain ⟨member, notCall⟩ := each i hi
    rcases mem_erased.mp gone with same | same
    · exact notCall same
    · exact wf.phi_id_ne_inst_id alone.member alone.member alone.phi_mem member same
  have same : (lift s τ B).body = B.body.filter (fun i => i.id ∉ s.erased) := rfl
  rw [same, alone.body, List.filter_append, List.filter_cons_of_neg (by simp [mem_erased])]
  congr 1
  · refine kept fun i hi => ⟨by rw [alone.body]; exact List.mem_append_left _ hi, ?_⟩
    exact apart.2.2 i.id (List.mem_map_of_mem hi) s.call.id List.mem_cons_self
  · refine kept fun i hi =>
      ⟨by rw [alone.body]; exact List.mem_append_right _ (List.mem_cons_of_mem _ hi), ?_⟩
    intro eq
    exact (List.nodup_cons.mp apart.2.1).1 (eq ▸ List.mem_map_of_mem hi)

omit verified alone in
include lifted in
theorem mem_lifted {Y : Block} : Y ∈ h.blocks ↔
    (∃ j e, s.phi.incoming[j]? = some e ∧
      Y = callBlock svn (newLabel f j) (f.nextId + 2 * j) s.parent (e.1 :: rest)) ∨
      ∃ X ∈ f.blocks, Y = lift s τ X := by
  rw [lifted.perm.mem_iff, List.mem_append, mem_newBlocks, List.mem_map]
  refine or_congr Iff.rfl ⟨?_, ?_⟩
  · rintro ⟨X, hX, rfl⟩
    exact ⟨X, hX, rfl⟩
  · rintro ⟨X, hX, rfl⟩
    exact ⟨X, hX, rfl⟩

omit alone in
include lifted in
theorem lifted_labels : (h.blocks.map Block.label).Nodup := by
  have old : (f.blocks.map (lift s τ)).map Block.label = f.blocks.map Block.label := by
    rw [List.map_map]
    rfl
  rw [(lifted.perm.map Block.label).nodup_iff, List.map_append, newBlocks_labels, old,
    List.nodup_append]
  refine ⟨?_, verified.ssa.wf.labels, ?_⟩
  · exact List.Nodup.map (fun i j same => Nat.add_left_cancel same) List.nodup_range
  · intro l new l' hl' same
    obtain ⟨j, -, rfl⟩ := List.mem_map.mp new
    obtain ⟨X, hX, rfl⟩ := List.mem_map.mp hl'
    exact newLabel_ne hX j same

omit alone in
include lifted in
theorem lifted_block {X : Block} (hX : X ∈ f.blocks) : h.block X.label = some (lift s τ X) :=
  block_of_mem (B := lift s τ X) (lifted_labels verified lifted)
    ((mem_lifted lifted).mpr (.inr ⟨X, hX, rfl⟩))

omit alone in
include lifted in
theorem lifted_new {j : Nat} {e : Value × Label} (at_j : s.phi.incoming[j]? = some e) :
    h.block (newLabel f j) =
      some (callBlock svn (newLabel f j) (f.nextId + 2 * j) s.parent (e.1 :: rest)) :=
  block_of_mem (B := callBlock svn (newLabel f j) (f.nextId + 2 * j) s.parent (e.1 :: rest))
    (lifted_labels verified lifted)
    ((mem_lifted lifted).mpr (.inl ⟨j, e, at_j, rfl⟩))

/-! Uses. -/

omit verified alone in
include lifted in
theorem mem_lift_uses {X : Block} (hX : X ∈ f.blocks) {v : Value} (use : v ∈ (lift s τ X).uses) :
    v ∈ (eraseBlock [s.call.id] X).uses := by
  have phis : ∀ p ∈ (lift s τ X).phis, p ∈ (eraseBlock [s.call.id] X).phis := by
    intro p hp
    obtain ⟨member, kept⟩ := List.mem_filter.mp hp
    refine List.mem_filter.mpr ⟨member, decide_eq_true fun same => ?_⟩
    exact of_decide_eq_true kept (mem_erased.mpr (.inl (List.mem_singleton.mp same)))
  have body : ∀ i ∈ (lift s τ X).body, i ∈ (eraseBlock [s.call.id] X).body := by
    intro i hi
    obtain ⟨member, kept⟩ := List.mem_filter.mp hi
    refine List.mem_filter.mpr ⟨member, decide_eq_true fun same => ?_⟩
    exact of_decide_eq_true kept (mem_erased.mpr (.inl (List.mem_singleton.mp same)))
  unfold Block.uses at use ⊢
  rcases List.mem_append.mp use with use | use
  · rcases List.mem_append.mp use with use | use
    · obtain ⟨p, hp, use⟩ := List.mem_flatMap.mp use
      exact List.mem_append_left _
        (List.mem_append_left _ (List.mem_flatMap.mpr ⟨p, phis p hp, use⟩))
    · obtain ⟨i, hi, use⟩ := List.mem_flatMap.mp use
      exact List.mem_append_left _
        (List.mem_append_right _ (List.mem_flatMap.mpr ⟨i, body i hi, use⟩))
  · refine List.mem_append_right _ ?_
    have term : (lift s τ X).term = τ X := rfl
    rw [term, (lifted.terms X hX).operands] at use
    exact use

omit verified alone in
theorem mem_erase_uses {gone : List Nat} {X : Block} {v : Value}
    (use : v ∈ (eraseBlock gone X).uses) : v ∈ X.uses := by
  unfold Block.uses at use ⊢
  rcases List.mem_append.mp use with use | use
  · rcases List.mem_append.mp use with use | use
    · obtain ⟨p, hp, use⟩ := List.mem_flatMap.mp use
      exact List.mem_append_left _
        (List.mem_append_left _ (List.mem_flatMap.mpr ⟨p, List.mem_of_mem_filter hp, use⟩))
    · obtain ⟨i, hi, use⟩ := List.mem_flatMap.mp use
      exact List.mem_append_left _
        (List.mem_append_right _ (List.mem_flatMap.mpr ⟨i, List.mem_of_mem_filter hi, use⟩))
  · exact List.mem_append_right _ use

omit verified in
include lifted in
/-- No block of the result uses an erased value. -/
theorem lift_use {X : Block} (hX : X ∈ f.blocks) {i : Nat} (use : .inst i ∈ (lift s τ X).uses) :
    i ∉ s.erased ∧ .inst i ∈ X.uses := by
  have less := mem_lift_uses lifted hX use
  have all := mem_erase_uses less
  refine ⟨fun gone => ?_, all⟩
  rcases mem_erased.mp gone with rfl | rfl
  · exact alone.callUnused X hX all
  · exact alone.phiUnused X hX less

theorem new_use {e : Value × Label} (he : e ∈ s.phi.incoming) {v : Value} (use : v ∈ e.1 :: rest) :
    v ∈ B.uses ∧ ∀ i, v = .inst i → i ∉ s.erased := by
  obtain ⟨se, op⟩ := alone.call
  rcases List.mem_cons.mp use with rfl | use
  · have listed : e.1 ∈ (eraseBlock [s.call.id] B).uses := by
      refine List.mem_append_left _
        (List.mem_append_left _ (List.mem_flatMap.mpr ⟨s.phi, ?_, List.mem_map_of_mem he⟩))
      refine List.mem_filter.mpr ⟨alone.phi_mem, decide_eq_true fun same => ?_⟩
      exact verified.ssa.wf.phi_id_ne_inst_id alone.member alone.member alone.phi_mem alone.call_mem
        (List.mem_singleton.mp same).symm
    refine ⟨mem_erase_uses listed, fun i same gone => ?_⟩
    rw [same] at listed
    rcases mem_erased.mp gone with rfl | rfl
    · exact alone.callUnused B alone.member (mem_erase_uses listed)
    · exact alone.phiUnused B alone.member listed
  · have used : v ∈ B.uses := by
      refine List.mem_append_left _
        (List.mem_append_right _ (List.mem_flatMap.mpr ⟨s.call, alone.call_mem, ?_⟩))
      rw [op]
      exact List.mem_cons_of_mem _ use
    refine ⟨used, fun i same gone => ?_⟩
    subst same
    rcases mem_erased.mp gone with rfl | rfl
    · exact alone.callUnused B alone.member used
    · exact (alone.restOutside _ use).1 rfl

omit verified alone in
theorem lift_def {X : Block} {i : Nat} {ty : Ty} (kept : i ∉ s.erased) (member : (i, ty) ∈ X.defs) :
    (i, ty) ∈ (lift s τ X).defs := by
  unfold Block.defs at member ⊢
  rcases List.mem_append.mp member with member | member
  · obtain ⟨p, hp, same⟩ := List.mem_map.mp member
    obtain ⟨rfl, rfl⟩ := Prod.mk.inj same
    exact List.mem_append_left _
      (List.mem_map.mpr ⟨p, List.mem_filter.mpr ⟨hp, decide_eq_true kept⟩, rfl⟩)
  · obtain ⟨j, hj, same⟩ := List.mem_map.mp member
    obtain ⟨rfl, rfl⟩ := Prod.mk.inj same
    exact List.mem_append_right _
      (List.mem_map.mpr ⟨j, List.mem_filter.mpr ⟨hj, decide_eq_true kept⟩, rfl⟩)

/-! The rules, one by one. -/

omit verified alone in
theorem lift_ids_sublist (X : Block) : (lift s τ X).ids.Sublist X.ids := by
  unfold Block.ids
  exact ((List.filter_sublist.map _).append (List.filter_sublist.map _)).append
    (List.Sublist.refl _)

omit verified alone in
theorem newBlocks_ids {entries : List (Value × Label)}
    {parent : Label} {i : Nat} (hi : i ∈ (newBlocks svn f parent rest entries).flatMap Block.ids) :
    f.nextId ≤ i ∧ i < f.nextId + 2 * entries.length := by
  obtain ⟨X, hX, hi⟩ := List.mem_flatMap.mp hi
  obtain ⟨j, e, at_j, rfl⟩ := mem_newBlocks.mp hX
  have bound := (List.getElem?_eq_some_iff.mp at_j).1
  simp only [callBlock, Block.ids, List.map_nil, List.nil_append, List.map_cons, List.cons_append,
    List.mem_cons,
    List.not_mem_nil, or_false] at hi
  omega

omit verified alone in
theorem newBlocks_ids_nodup (entries : List (Value × Label)) (parent : Label) :
    ((newBlocks svn f parent rest entries).flatMap Block.ids).Nodup := by
  rw [List.nodup_flatMap]
  constructor
  · intro X hX
    obtain ⟨j, e, -, rfl⟩ := mem_newBlocks.mp hX
    simp [callBlock, Block.ids]
  · rw [List.pairwise_iff_getElem]
    intro i j hi hj before k hk hk'
    simp only [newBlocks, List.getElem_mapIdx, callBlock, Block.ids, List.map_nil, List.nil_append,
      List.map_cons,
      List.cons_append, List.mem_cons, List.not_mem_nil, or_false] at hk hk'
    omega

omit alone in
include lifted in
theorem lifted_ids : (h.blocks.flatMap Block.ids).Nodup := by
  have wf := verified.ssa.wf
  have less : ((f.blocks.map (lift s τ)).flatMap Block.ids).Sublist
      (f.blocks.flatMap Block.ids) := by
    rw [List.flatMap_map]
    exact List.Sublist.flatMap_right _ fun X _ => lift_ids_sublist X
  rw [(lifted.perm.flatMap_right Block.ids).nodup_iff, List.flatMap_append, List.nodup_append]
  refine ⟨newBlocks_ids_nodup _ _, wf.ids.sublist less, ?_⟩
  intro i hi j hj same
  obtain ⟨A, hA, member⟩ := List.mem_flatMap.mp (less.subset hj)
  have := newBlocks_ids hi
  have := wf.fresh A hA j member
  omega

/-- The entry is not the block of the phi. -/
theorem entry_other {E : Block} (entry : f.entry = some E) : E ≠ B := by
  rintro rfl
  have none := verified.ssa.wf.entryPhis E entry
  rw [alone.phis] at none
  cases none

omit verified in
theorem phi_kept {X : Block} {q : Phi} (hq : q ∈ (lift s τ X).phis) : X ≠ B ∧ q ∈ X.phis := by
  constructor
  · rintro rfl
    rw [lift_phis alone] at hq
    cases hq
  · exact List.mem_of_mem_filter hq

theorem label_ne_parent {X : Block} (hX : X ∈ f.blocks) (other : X ≠ B) : X.label ≠ s.parent := by
  intro same
  exact other (List.inj_on_of_nodup_map verified.ssa.wf.labels hX alone.member
    (same.trans alone.label.symm))

include lifted

omit verified alone in
/-- An edge of the result into an old block was there before, or comes from a new block. -/
theorem lifted_successor {X Y : Block} (hX : X ∈ f.blocks) (hY : Y ∈ f.blocks)
    (edge : Y.label ∈ (lift s τ X).term.successors) :
    Y.label ∈ X.term.successors ∧ Y.label ≠ s.parent := by
  refine ⟨?_, fun same => lifted.gone X hX (same ▸ edge)⟩
  rcases (lifted.terms X hX).mem edge with old | ⟨_, _, -, j, e, -, -, same⟩
  · exact old
  · exact absurd same.symm (newLabel_ne hY j)

omit verified alone in
theorem lifted_successor_kept {X Y : Block} (hX : X ∈ f.blocks) (hY : Y ∈ f.blocks)
    (other : Y.label ≠ s.parent) :
    (lift s τ X).term.successors.count Y.label = X.term.successors.count Y.label := by
  refine (lifted.terms X hX).count ?_ ?_
  · rintro l' ⟨same, -⟩
    exact other same
  · rintro l' ⟨-, j, e, -, -, same⟩
    exact newLabel_ne hY j same.symm

omit verified in
theorem lifted_entry {Y : Block} (entry : h.entry = some Y) :
    ∃ E, f.entry = some E ∧ Y = lift s τ E := by
  cases first : f.entry with
  | none =>
    have empty : f.blocks = [] := List.head?_eq_none_iff.mp first
    have member := alone.member
    rw [empty] at member
    cases member
  | some E =>
    rw [lifted.entry E first] at entry
    cases entry
    exact ⟨E, rfl, rfl⟩

theorem lifted_wellFormed : h.WellFormed := by
  have wf := verified.ssa.wf
  have defined : ∀ {A : Block} {i}, A ∈ f.blocks → .inst i ∈ A.uses → i ∉ s.erased →
      ∃ A ∈ h.blocks, ∃ ty, (i, ty) ∈ A.defs ∧ ty.isVoid = false := by
    intro A i hA use kept
    obtain ⟨D, hD, ty, member, notVoid⟩ := wf.uses A hA i use
    exact ⟨lift s τ D, (mem_lifted lifted).mpr (.inr ⟨D, hD, rfl⟩), ty,
      lift_def kept member, notVoid⟩
  have incoming : ∀ {j e}, s.phi.incoming[j]? = some e → e ∈ s.phi.incoming :=
    fun at_j => List.mem_of_getElem? at_j
  have newUses : ∀ {j : Nat} {e : Value × Label} {v},
      v ∈ (callBlock svn (newLabel f j) (f.nextId + 2 * j) s.parent (e.1 :: rest)).uses →
      v ∈ e.1 :: rest := by
    intro j e v use
    simpa [Block.uses, callBlock, Op.operands, Term.operands] using use
  constructor
  case labels => exact lifted_labels verified lifted
  case ids => exact lifted_ids verified lifted
  case fresh =>
    intro Y hY i hi
    rw [lifted.nextId]
    rcases (mem_lifted lifted).mp hY with ⟨j, e, at_j, rfl⟩ | ⟨X, hX, rfl⟩
    · exact (newBlocks_ids (List.mem_flatMap.mpr ⟨_, mem_newBlocks.mpr ⟨j, e, at_j, rfl⟩, hi⟩)).2
    · have := wf.fresh X hX i ((lift_ids_sublist X).subset hi)
      omega
  case uses =>
    intro Y hY i use
    rcases (mem_lifted lifted).mp hY with ⟨j, e, at_j, rfl⟩ | ⟨X, hX, rfl⟩
    · obtain ⟨used, kept⟩ := new_use verified alone (incoming at_j) (newUses use)
      exact defined alone.member used (kept i rfl)
    · obtain ⟨kept, used⟩ := lift_use alone lifted hX use
      exact defined hX used kept
  case argUses =>
    intro Y hY i use
    rw [lifted.args]
    rcases (mem_lifted lifted).mp hY with ⟨j, e, at_j, rfl⟩ | ⟨X, hX, rfl⟩
    · exact wf.argUses B alone.member i (new_use verified alone (incoming at_j) (newUses use)).1
    · exact wf.argUses X hX i (mem_erase_uses (mem_lift_uses lifted hX use))
  case phiTypes =>
    intro Y hY q hq
    rcases (mem_lifted lifted).mp hY with ⟨j, e, at_j, rfl⟩ | ⟨X, hX, rfl⟩
    · cases hq
    · exact wf.phiTypes X hX q (List.mem_of_mem_filter hq)
  case storeTypes =>
    intro Y hY i hi v a op
    rcases (mem_lifted lifted).mp hY with ⟨j, e, at_j, rfl⟩ | ⟨X, hX, rfl⟩
    · rw [List.mem_singleton.mp hi] at op
      cases op
    · exact wf.storeTypes X hX i (List.mem_of_mem_filter hi) v a op
  case loadTypes =>
    intro Y hY i hi v a op
    rcases (mem_lifted lifted).mp hY with ⟨j, e, at_j, rfl⟩ | ⟨X, hX, rfl⟩
    · rw [List.mem_singleton.mp hi] at op
      cases op
    · exact wf.loadTypes X hX i (List.mem_of_mem_filter hi) v a op
  case entryPhis =>
    intro Y entry
    obtain ⟨E, first, rfl⟩ := lifted_entry alone lifted entry
    rw [lift_other verified alone (List.mem_of_head? first) (entry_other verified alone first)]
    exact wf.entryPhis E first
  case entryPreds =>
    intro Y entry A hA edge
    obtain ⟨E, first, rfl⟩ := lifted_entry alone lifted entry
    have hE : E ∈ f.blocks := List.mem_of_head? first
    rcases (mem_lifted lifted).mp hA with ⟨j, e, at_j, rfl⟩ | ⟨X, hX, rfl⟩
    · have same : E.label = s.parent := List.mem_singleton.mp edge
      exact label_ne_parent verified alone hE (entry_other verified alone first) same
    · exact wf.entryPreds E first X hX (lifted_successor lifted hX hE edge).1
  case complete =>
    intro A hA Y hY edge q hq
    rcases (mem_lifted lifted).mp hY with ⟨j, e, at_j, rfl⟩ | ⟨X, hX, rfl⟩
    · cases hq
    obtain ⟨other, hq⟩ := phi_kept alone hq
    rcases (mem_lifted lifted).mp hA with ⟨j, e, at_j, rfl⟩ | ⟨C, hC, rfl⟩
    · have same : X.label = s.parent := List.mem_singleton.mp edge
      exact absurd same (label_ne_parent verified alone hX other)
    · exact wf.complete C hC X hX (lifted_successor lifted hC hX edge).1 q hq
  case preds =>
    intro Y hY q hq v l member
    rcases (mem_lifted lifted).mp hY with ⟨j, e, at_j, rfl⟩ | ⟨X, hX, rfl⟩
    · cases hq
    obtain ⟨other, hq⟩ := phi_kept alone hq
    obtain ⟨C, hC, label, edge⟩ := wf.preds X hX q hq v l member
    refine ⟨lift s τ C, (mem_lifted lifted).mpr (.inr ⟨C, hC, rfl⟩), label, ?_⟩
    have count := lifted_successor_kept lifted hC hX (label_ne_parent verified alone hX other)
    exact List.count_pos_iff.mp (count ▸ List.count_pos_iff.mpr edge)
  case agree =>
    intro Y hY q hq l v w hv hw
    rcases (mem_lifted lifted).mp hY with ⟨j, e, at_j, rfl⟩ | ⟨X, hX, rfl⟩
    · cases hq
    · exact wf.agree X hX q (List.mem_of_mem_filter hq) l v w hv hw

/-! Paths and dominance. -/

/-- A path of the result is a path of the first function with the new blocks left out; `P` is a
restriction on the blocks that are left. -/
theorem lifted_path (P : Label → Prop) {E : Block} (hE : E ∈ f.blocks) {x : Label}
    (path : ReflTransGen (fun a b => h.Edge a b ∧ P a) E.label x) :
    (∀ X ∈ f.blocks, X.label = x → ReflTransGen (fun a b => f.Edge a b ∧ P a) E.label x) ∧
      ∀ j e, s.phi.incoming[j]? = some e → newLabel f j = x →
        ReflTransGen (fun a b => f.Edge a b ∧ P a) E.label e.2 ∧ P e.2 := by
  have wf := verified.ssa.wf
  induction path with
  | refl => exact ⟨fun _ _ _ => .refl, fun j e _ same => absurd same (newLabel_ne hE j)⟩
  | @tail y z _ step ih =>
    obtain ⟨⟨Y, block, edge⟩, allowed⟩ := step
    have label : Y.label = y := by simpa using List.find?_some block
    rcases (mem_lifted lifted).mp (List.mem_of_find?_eq_some block) with ⟨j, e, at_j, rfl⟩
      | ⟨X, hX, rfl⟩
    · have target : z = s.parent := List.mem_singleton.mp edge
      obtain ⟨before, allowed'⟩ := ih.2 j e at_j label
      refine ⟨fun X hX same => ?_, fun k e' _ same => ?_⟩
      · obtain ⟨A, hA, here, leads⟩ :=
          wf.preds B alone.member s.phi alone.phi_mem e.1 e.2 (List.mem_of_getElem? at_j)
        refine before.tail ⟨⟨A, here ▸ wf.block_of_label hA, ?_⟩, allowed'⟩
        rw [target, ← alone.label]
        exact leads
      · rw [target, ← alone.label] at same
        exact absurd same (newLabel_ne alone.member k)
    · have here : X.label = y := label
      have before := ih.1 X hX here
      refine ⟨fun Z hZ same => ?_, fun k e' at_k same => ?_⟩
      · subst same
        exact before.tail
          ⟨⟨X, here ▸ wf.block_of_label hX, (lifted_successor lifted hX hZ edge).1⟩, allowed⟩
      · rcases (lifted.terms X hX).mem edge with old | ⟨_, -, -, j, e, at_j, from_, eq⟩
        · obtain ⟨Z, hZ, there⟩ := verified.targets X hX z old
          exact absurd (same.trans there.symm) (newLabel_ne hZ k)
        · have sameIndex : k = j := Nat.add_left_cancel (same.trans eq)
          subst sameIndex
          cases at_j.symm.trans at_k
          rw [from_, here]
          exact ⟨before, allowed⟩

theorem lifted_reachable {X : Block} (hX : X ∈ f.blocks) (reach : Reachable h X.label) :
    Reachable f X.label := by
  obtain ⟨Y, entry, path⟩ := reach
  obtain ⟨E, first, rfl⟩ := lifted_entry alone lifted entry
  have free : ReflTransGen (fun a b => h.Edge a b ∧ True) E.label X.label :=
    ReflTransGen.mono (fun _ _ e => ⟨e, trivial⟩) _ _ path
  have old := (lifted_path verified alone lifted (fun _ => True) (List.mem_of_head? first) free).1 X
    hX rfl
  exact ⟨E, first, ReflTransGen.mono (fun _ _ e => e.1) _ _ old⟩

theorem lifted_reachable_new {j : Nat} {e : Value × Label} (at_j : s.phi.incoming[j]? = some e)
    (reach : Reachable h (newLabel f j)) :
    Reachable f e.2 := by
  obtain ⟨Y, entry, path⟩ := reach
  obtain ⟨E, first, rfl⟩ := lifted_entry alone lifted entry
  have free : ReflTransGen (fun a b => h.Edge a b ∧ True) E.label (newLabel f j) :=
    ReflTransGen.mono (fun _ _ e => ⟨e, trivial⟩) _ _ path
  have old := ((lifted_path verified alone lifted (fun _ => True) (List.mem_of_head? first) free).2
    j e at_j rfl).1
  exact ⟨E, first, ReflTransGen.mono (fun _ _ e => e.1) _ _ old⟩

theorem lifted_strictDom {D X : Block} (hX : X ∈ f.blocks) (dom : StrictDom f D.label X.label) :
    StrictDom h D.label X.label := by
  obtain ⟨E, first, dom⟩ := dom
  refine ⟨lift s τ E, lifted.entry E first, fun path => dom ?_⟩
  exact (lifted_path verified alone lifted (fun a => a ≠ D.label) (List.mem_of_head? first) path).1
    X hX rfl

/-- A new block is behind its predecessor and behind everything that dominates it. -/
theorem new_strictDom {D : Block} {j : Nat} {e : Value × Label} (at_j : s.phi.incoming[j]? = some e)
    (dom : D.label = e.2 ∨ StrictDom f D.label e.2) : StrictDom h D.label (newLabel f j) := by
  obtain ⟨A, hA, -, -⟩ :=
    verified.ssa.wf.preds B alone.member s.phi alone.phi_mem e.1 e.2 (List.mem_of_getElem? at_j)
  obtain ⟨E, first⟩ : ∃ E, f.entry = some E := by
    cases first : f.entry with
    | none =>
      have empty : f.blocks = [] := List.head?_eq_none_iff.mp first
      rw [empty] at hA
      cases hA
    | some E => exact ⟨E, rfl⟩
  refine ⟨lift s τ E, lifted.entry E first, fun path => ?_⟩
  obtain ⟨old, left⟩ := (lifted_path verified alone lifted (fun a => a ≠ D.label)
    (List.mem_of_head? first) path).2 j e at_j rfl
  rcases dom with same | ⟨E', first', dom⟩
  · exact left same.symm
  · cases first.symm.trans first'
    exact dom old

/-! Availability. -/

/-- What was available in front of the `k`-th instruction is so in front of the `m`-th of the
result, if everything but the call stands there too. -/
theorem lifted_available {X : Block} (hX : X ∈ f.blocks) {d k m : Nat} (kept : d ∉ s.erased)
    (place : ∀ i ∈ X.body.take k, i.id ∉ s.erased → i ∈ (lift s τ X).body.take m)
    (available : Available f d X.label k) :
    Available h d X.label m := by
  have wf := verified.ssa.wf
  have block := lifted_block verified lifted hX
  cases available with
  | phi here member =>
    cases here.symm.trans (wf.block_of_label hX)
    obtain ⟨p, hp, rfl⟩ := List.mem_map.mp member
    exact .phi block (List.mem_map_of_mem (List.mem_filter.mpr ⟨hp, decide_eq_true kept⟩))
  | earlier here member =>
    cases here.symm.trans (wf.block_of_label hX)
    obtain ⟨i, hi, rfl⟩ := List.mem_map.mp member
    exact .earlier block (List.mem_map_of_mem (place i hi kept))
  | @dominated D hD member dom =>
    obtain ⟨⟨i, ty⟩, hd, rfl⟩ := List.mem_map.mp member
    exact .dominated (D := lift s τ D) ((mem_lifted lifted).mpr (.inr ⟨D, hD, rfl⟩))
      (List.mem_map_of_mem (lift_def kept hd))
      (lifted_strictDom verified alone lifted hX dom)

omit verified alone lifted in
/-- At the end of a block everything but the call is there. -/
theorem place_end (X : Block) : ∀ i ∈ X.body.take X.body.length, i.id ∉ s.erased →
    i ∈ (lift s τ X).body.take (lift s τ X).body.length := by
  intro i hi kept
  rw [List.take_length] at hi ⊢
  exact List.mem_filter.mpr ⟨hi, decide_eq_true kept⟩

omit lifted in
/-- An instruction of the result and its place in the first function. -/
theorem place_body {X : Block} (hX : X ∈ f.blocks) {m : Nat} {i : Inst}
    (at_m : (lift s τ X).body[m]? = some i) :
    ∃ k, X.body[k]? = some i ∧ ∀ i ∈ X.body.take k, i.id ∉ s.erased →
      i ∈ (lift s τ X).body.take m := by
  by_cases other : X = B
  · subst other
    rw [lift_body verified alone] at at_m ⊢
    rw [alone.body]
    by_cases early : m < before.length
    · refine ⟨m, ?_, ?_⟩
      · rw [List.getElem?_append_left early] at at_m ⊢
        exact at_m
      · intro j hj _
        rw [List.take_append_of_le_length (Nat.le_of_lt early)] at hj ⊢
        exact hj
    · have late : before.length ≤ m := Nat.le_of_not_lt early
      refine ⟨m + 1, ?_, ?_⟩
      · rw [List.getElem?_append_right late] at at_m
        rw [List.getElem?_append_right (by omega), Nat.sub_add_comm late, List.getElem?_cons_succ]
        exact at_m
      · intro j hj kept
        rw [List.take_append, List.take_of_length_le (by omega), Nat.sub_add_comm late,
          List.take_succ_cons] at hj
        rw [List.take_append, List.take_of_length_le late]
        rcases List.mem_append.mp hj with hj | hj
        · exact List.mem_append_left _ hj
        · rcases List.mem_cons.mp hj with rfl | hj
          · exact absurd (mem_erased.mpr (.inl rfl)) kept
          · exact List.mem_append_right _ hj
  · have same : (lift s τ X).body = X.body := by rw [lift_other verified alone hX other]; rfl
    rw [same] at at_m ⊢
    exact ⟨m, at_m, fun j hj _ => hj⟩

/-- What a moved call reads is available on its edge. -/
theorem new_available {j : Nat} {e : Value × Label} (at_j : s.phi.incoming[j]? = some e)
    (reach : Reachable h (newLabel f j)) {d : Nat} (use : .inst d ∈ e.1 :: rest) :
    Available h d (newLabel f j) 0 := by
  have wf := verified.ssa.wf
  have old := lifted_reachable_new verified alone lifted at_j reach
  have kept := (new_use verified alone (List.mem_of_getElem? at_j) use).2 d rfl
  obtain ⟨A, hA, here, leads⟩ :=
    wf.preds B alone.member s.phi alone.phi_mem e.1 e.2 (List.mem_of_getElem? at_j)
  have dominated : ∀ {D : Block}, D ∈ f.blocks → d ∈ D.defs.map Prod.fst →
      (D.label = e.2 ∨ StrictDom f D.label e.2) →
      Available h d (newLabel f j) 0 := by
    intro D hD member dom
    obtain ⟨⟨i, ty⟩, hd, rfl⟩ := List.mem_map.mp member
    exact .dominated (D := lift s τ D) ((mem_lifted lifted).mpr (.inr ⟨D, hD, rfl⟩))
      (List.mem_map_of_mem (lift_def kept hd))
      (new_strictDom verified alone lifted at_j dom)
  have edge : f.Edge e.2 B.label := ⟨A, here ▸ wf.block_of_label hA, leads⟩
  rcases List.mem_cons.mp use with value | use
  · have listed : (Value.inst d, A.label) ∈ s.phi.incoming := by
      rw [value, here]
      exact List.mem_of_getElem? at_j
    cases verified.ssa.phi B alone.member s.phi alone.phi_mem A hA (here ▸ old) d listed with
    | phi block member =>
      cases block.symm.trans (wf.block_of_label hA)
      refine dominated hA ?_ (.inl here)
      rw [Block.defs, List.map_append, List.map_map]
      exact List.mem_append_left _ member
    | earlier block member =>
      cases block.symm.trans (wf.block_of_label hA)
      refine dominated hA ?_ (.inl here)
      rw [List.take_length] at member
      rw [Block.defs, List.map_append, List.map_map, List.map_map]
      exact List.mem_append_right _ member
    | dominated hD member dom => exact dominated hD member (.inr (here ▸ dom))
  · obtain ⟨se, op⟩ := alone.call
    have at_call : B.body[before.length]? = some s.call := by
      rw [alone.body, List.getElem?_append_right (Nat.le_refl _), Nat.sub_self]
      rfl
    have operand : .inst d ∈ s.call.op.operands := by
      rw [op]
      exact List.mem_cons_of_mem _ use
    obtain ⟨notPhi, notHere⟩ := alone.restOutside d use
    cases verified.ssa.body B alone.member (old.step edge) _ _ at_call d operand with
    | phi block member =>
      cases block.symm.trans (wf.block_of_label alone.member)
      rw [alone.phis] at member
      exact absurd (List.mem_singleton.mp member) notPhi
    | earlier block member =>
      cases block.symm.trans (wf.block_of_label alone.member)
      obtain ⟨i, hi, rfl⟩ := List.mem_map.mp member
      exact absurd (List.mem_map_of_mem (List.mem_of_mem_take hi)) notHere
    | @dominated D hD member dom =>
      obtain ⟨E, first, dom⟩ := dom
      rcases dom.of_edge edge with same | dom
      · exact dominated hD member (.inl same.symm)
      · exact dominated hD member (.inr ⟨E, first, dom⟩)

/-- The split function is in static single assignment form, with one entry for each edge. -/
theorem lifted_verified : Verified h := by
  have wf := verified.ssa.wf
  refine ⟨⟨lifted_wellFormed verified alone lifted, ?_, ?_, ?_⟩, ?_, ?_⟩
  · intro Y hY reach m i at_m d use
    rcases (mem_lifted lifted).mp hY with ⟨j, e, at_j, rfl⟩ | ⟨X, hX, rfl⟩
    · obtain ⟨rfl, rfl⟩ : m = 0 ∧
          i = ⟨f.nextId + 2 * j, svn.ty, .call svn.sideEffects (.api svn.id) (e.1 :: rest)⟩ := by
        cases m with
        | zero =>
          cases at_m
          exact ⟨rfl, rfl⟩
        | succ m => cases at_m
      exact new_available verified alone lifted at_j reach use
    · obtain ⟨k, at_k, place⟩ := place_body verified alone hX at_m
      have used : .inst d ∈ (lift s τ X).uses :=
        List.mem_append_left _
          (List.mem_append_right _ (List.mem_flatMap.mpr ⟨i, List.mem_of_getElem? at_m, use⟩))
      refine lifted_available verified alone lifted hX (lift_use alone lifted hX used).1 place ?_
      exact verified.ssa.body X hX (lifted_reachable verified alone lifted hX reach) k i at_k d use
  · intro Y hY reach d use
    rcases (mem_lifted lifted).mp hY with ⟨j, e, at_j, rfl⟩ | ⟨X, hX, rfl⟩
    · cases use
    · have used : .inst d ∈ (lift s τ X).uses := List.mem_append_right _ use
      have operand : .inst d ∈ X.term.operands := (lifted.terms X hX).operands ▸ use
      refine lifted_available verified alone lifted hX (lift_use alone lifted hX used).1
        (place_end X) ?_
      exact verified.ssa.term X hX (lifted_reachable verified alone lifted hX reach) d operand
  · intro Y hY q hq A hA reach d listed
    rcases (mem_lifted lifted).mp hY with ⟨j, e, at_j, rfl⟩ | ⟨X, hX, rfl⟩
    · cases hq
    obtain ⟨-, member⟩ := phi_kept alone hq
    rcases (mem_lifted lifted).mp hA with ⟨j, e, at_j, rfl⟩ | ⟨C, hC, rfl⟩
    · obtain ⟨C, hC, same, -⟩ := wf.preds X hX q member _ _ listed
      exact absurd same.symm (newLabel_ne hC j)
    · have used : .inst d ∈ (lift s τ X).uses :=
        List.mem_append_left _
          (List.mem_append_left _ (List.mem_flatMap.mpr ⟨q, hq, List.mem_map.mpr ⟨_, listed, rfl⟩⟩))
      refine lifted_available verified alone lifted hC (lift_use alone lifted hX used).1
        (place_end C) ?_
      exact verified.ssa.phi X hX q member C hC
        (lifted_reachable verified alone lifted hC reach) d listed
  · intro Y hY l edge
    rcases (mem_lifted lifted).mp hY with ⟨j, e, at_j, rfl⟩ | ⟨X, hX, rfl⟩
    · refine ⟨lift s τ B, (mem_lifted lifted).mpr (.inr ⟨B, alone.member, rfl⟩), ?_⟩
      exact alone.label.trans (List.mem_singleton.mp edge).symm
    · rcases (lifted.terms X hX).mem edge with old | ⟨_, -, -, j, e, at_j, -, rfl⟩
      · obtain ⟨C, hC, rfl⟩ := verified.targets X hX l old
        exact ⟨lift s τ C, (mem_lifted lifted).mpr (.inr ⟨C, hC, rfl⟩), rfl⟩
      · exact ⟨_, (mem_lifted lifted).mpr (.inl ⟨j, e, at_j, rfl⟩), rfl⟩
  · intro A hA Y hY q hq
    rcases (mem_lifted lifted).mp hY with ⟨j, e, at_j, rfl⟩ | ⟨X, hX, rfl⟩
    · cases hq
    obtain ⟨other, member⟩ := phi_kept alone hq
    have notParent := label_ne_parent verified alone hX other
    rcases (mem_lifted lifted).mp hA with ⟨j, e, at_j, rfl⟩ | ⟨C, hC, rfl⟩
    · have none : (q.incoming.map Prod.snd).count (newLabel f j) = 0 := by
        refine List.count_eq_zero.mpr fun listed => ?_
        obtain ⟨⟨v, l⟩, listed, rfl⟩ := List.mem_map.mp listed
        obtain ⟨C, hC, same, -⟩ := wf.preds X hX q member v _ listed
        exact newLabel_ne hC j same.symm
      have target : (callBlock svn (newLabel f j) (f.nextId + 2 * j) s.parent
          (e.1 :: rest)).term.successors.count X.label = 0 :=
        List.count_eq_zero.mpr fun same => notParent (List.mem_singleton.mp same)
      exact none.trans target.symm
    · exact (verified.entries C hC X hX q member).trans
        (lifted_successor_kept lifted hC hX notParent).symm

end

end SetVirusName
