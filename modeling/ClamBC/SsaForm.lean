import ClamBC.Ir
import ClamBC.Dominance

/-!
# Static single assignment

A value may be read where its definition is available: earlier in the same block,
or in a block that strictly dominates this one. A phi reads at the end of the
predecessor. Nothing is required of blocks that cannot be reached.
-/

namespace SsaForm

open Ir Relation

variable {f : Function}

def Reachable (f : Function) (l : Label) : Prop :=
  ∃ E, f.entry = some E ∧ ReflTransGen f.Edge E.label l

def StrictDom (f : Function) (d l : Label) : Prop :=
  ∃ E, f.entry = some E ∧ Dominance.StrictDom f.Edge E.label d l

/-- The definition of `d` has been executed whenever control is in front of the `k`-th body
instruction of the block. -/
inductive Available (f : Function) (d : Nat) (l : Label) (k : Nat) : Prop
  | phi {B : Block} (block : f.block l = some B) (here : d ∈ B.phis.map Phi.id)
  | earlier {B : Block} (block : f.block l = some B) (here : d ∈ (B.body.take k).map Inst.id)
  | dominated {D : Block} (member : D ∈ f.blocks) (here : d ∈ D.defs.map Prod.fst)
      (dom : StrictDom f D.label l)

structure Ssa (f : Function) : Prop where
  wf : f.WellFormed
  body : ∀ B ∈ f.blocks, Reachable f B.label → ∀ k i, B.body[k]? = some i →
    ∀ d, Value.inst d ∈ i.op.operands → Available f d B.label k
  term : ∀ B ∈ f.blocks, Reachable f B.label →
    ∀ d, Value.inst d ∈ B.term.operands → Available f d B.label B.body.length
  phi : ∀ B ∈ f.blocks, ∀ p ∈ B.phis, ∀ A ∈ f.blocks, Reachable f A.label →
    ∀ d, (Value.inst d, A.label) ∈ p.incoming → Available f d A.label A.body.length

theorem Available.mono {d : Nat} {l : Label} {j k : Nat} (le : j ≤ k) (h : Available f d l j) :
    Available f d l k := by
  cases h with
  | phi block here => exact .phi block here
  | earlier block here =>
    refine .earlier block ?_
    obtain ⟨i, hi, same⟩ := List.mem_map.mp here
    exact List.mem_map.mpr ⟨i, (List.take_sublist_take_left le).subset hi, same⟩
  | dominated member here dom => exact .dominated member here dom

theorem Reachable.step {l m : Label} (reach : Reachable f l) (edge : f.Edge l m) :
    Reachable f m := by
  obtain ⟨E, entry, path⟩ := reach
  exact ⟨E, entry, path.tail edge⟩

theorem StrictDom.irrefl {l : Label} (reach : Reachable f l) : ¬ StrictDom f l l := by
  rintro ⟨E, entry, dom⟩
  obtain ⟨E', entry', path⟩ := reach
  cases entry.symm.trans entry'
  exact Dominance.StrictDom.irrefl path dom

theorem StrictDom.asymm {d l : Label} (reach : Reachable f l) (dom : StrictDom f d l) :
    ¬ StrictDom f l d := by
  rintro ⟨E, entry, back⟩
  obtain ⟨E', entry', path⟩ := reach
  obtain ⟨E'', entry'', dom⟩ := dom
  cases entry.symm.trans entry'
  cases entry.symm.trans entry''
  exact dom.asymm path back

theorem StrictDom.trans {c d l : Label} (first : StrictDom f c d) (second : StrictDom f d l) :
    StrictDom f c l := by
  obtain ⟨E, entry, first⟩ := first
  obtain ⟨E', entry', second⟩ := second
  cases entry.symm.trans entry'
  exact ⟨E, entry, first.trans second⟩

theorem StrictDom.reachable {d l : Label} (dom : StrictDom f d l) (reach : Reachable f l) :
    Reachable f d := by
  obtain ⟨E, entry, dom⟩ := dom
  obtain ⟨E', entry', path⟩ := reach
  cases entry.symm.trans entry'
  refine ⟨E, entry, ?_⟩
  rcases Dominance.first_arrival (fun a => a = d) path with outside | ⟨x, rfl, arrived⟩
  · exact absurd (ReflTransGen.mono (fun _ _ h => ⟨h.1, h.2⟩) _ _ outside) dom
  · exact ReflTransGen.mono (fun _ _ h => h.1) _ _ arrived

theorem mem_take_ids {B : Block} {d k : Nat} (h : d ∈ (B.body.take k).map Inst.id) :
    ∃ m < k, ∃ i, B.body[m]? = some i ∧ i.id = d := by
  obtain ⟨i, hi, rfl⟩ := List.mem_map.mp h
  obtain ⟨m, at_m⟩ := List.getElem?_of_mem hi
  rw [List.getElem?_take] at at_m
  split_ifs at at_m with lt
  exact ⟨m, lt, i, at_m, rfl⟩

/-- A body instruction stands at one place. -/
theorem index_unique (wf : f.WellFormed) {A B : Block} (hA : A ∈ f.blocks) (hB : B ∈ f.blocks)
    {k m : Nat} {i j : Inst} (at_k : A.body[k]? = some i) (at_m : B.body[m]? = some j)
    (same : i.id = j.id) : A = B ∧ k = m := by
  obtain ⟨rfl, rfl⟩ :=
    wf.inst_unique hA hB (List.mem_of_getElem? at_k) (List.mem_of_getElem? at_m) same
  have nodup := (List.nodup_append.mp (List.nodup_append.mp (wf.block_ids_nodup hA)).1).2.1
  obtain ⟨short, -⟩ := List.getElem?_eq_some_iff.mp at_k
  exact ⟨rfl, (List.getElem?_inj short (List.Nodup.of_map _ nodup)).mp (at_k.trans at_m.symm)⟩

/-- Where an instruction is available: behind it in its block, or in a block that its own
block dominates. -/
theorem Available.of_inst (wf : f.WellFormed) {A B : Block} (hA : A ∈ f.blocks) (hB : B ∈ f.blocks)
    {k m : Nat} {i : Inst} (at_m : B.body[m]? = some i) (h : Available f i.id A.label k) :
    (A = B ∧ m < k) ∨ StrictDom f B.label A.label := by
  have hi := List.mem_of_getElem? at_m
  cases h with
  | phi block here =>
    cases block.symm.trans (wf.block_of_label hA)
    obtain ⟨p, hp, same⟩ := List.mem_map.mp here
    exact absurd same.symm (wf.phi_id_ne_inst_id hA hB hp hi)
  | earlier block here =>
    cases block.symm.trans (wf.block_of_label hA)
    obtain ⟨m', lt, j, at_m', same⟩ := mem_take_ids here
    obtain ⟨rfl, rfl⟩ := index_unique wf hA hB at_m' at_m same
    exact Or.inl ⟨rfl, lt⟩
  | @dominated D member here dom =>
    obtain ⟨⟨j, ty⟩, hd, same⟩ := List.mem_map.mp here
    have id : j = i.id := same
    subst id
    have iB : i.id ∈ B.ids := by simp [Block.ids]; exact Or.inr (Or.inl ⟨i, hi, rfl⟩)
    rw [wf.block_of_id hB member iB (Function.mem_ids_of_def hd)]
    exact Or.inr dom

/-- Two instructions are not each available at the other. -/
theorem not_both_available (wf : f.WellFormed) {A B : Block} (hA : A ∈ f.blocks) (hB : B ∈ f.blocks)
    (reach : Reachable f A.label) {k m : Nat} {i j : Inst} (at_k : A.body[k]? = some i)
    (at_m : B.body[m]? = some j) (forth : Available f j.id A.label k) :
    ¬ Available f i.id B.label m := by
  intro back
  rcases forth.of_inst wf hA hB at_m with ⟨rfl, lt⟩ | dom
  · rcases back.of_inst wf hA hA at_k with ⟨-, lt'⟩ | dom
    · omega
    · exact StrictDom.irrefl reach dom
  · rcases back.of_inst wf hB hA at_k with ⟨rfl, -⟩ | dom'
    · exact StrictDom.irrefl reach dom
    · exact dom.asymm reach dom'

/-- What is available at a definition is available where the definition is. -/
theorem Available.trans (wf : f.WellFormed) {A B : Block} (hA : A ∈ f.blocks) (hB : B ∈ f.blocks)
    {k m d : Nat} {i : Inst} (at_m : B.body[m]? = some i) (first : Available f d B.label m)
    (second : Available f i.id A.label k) : Available f d A.label k := by
  rcases second.of_inst wf hA hB at_m with ⟨rfl, lt⟩ | dom
  · exact first.mono (Nat.le_of_lt lt)
  · cases first with
    | phi block here =>
      cases block.symm.trans (wf.block_of_label hB)
      refine .dominated hB ?_ dom
      obtain ⟨p, hp, same⟩ := List.mem_map.mp here
      exact List.mem_map.mpr
        ⟨(p.id, p.ty), by simp [Block.defs]; exact Or.inl ⟨p, hp, rfl, rfl⟩, same⟩
    | earlier block here =>
      cases block.symm.trans (wf.block_of_label hB)
      refine .dominated hB ?_ dom
      obtain ⟨m', -, j, at_m', same⟩ := mem_take_ids here
      have hj := List.mem_of_getElem? at_m'
      exact List.mem_map.mpr
        ⟨(j.id, j.ty), by simp [Block.defs]; exact Or.inr ⟨j, hj, rfl, rfl⟩, same⟩
    | dominated member here dom' => exact .dominated member here (dom'.trans dom)

/-- Along an edge, what is available afterwards is a phi or was available before. -/
theorem Available.of_edge {l : Label} {B : Block} (wf : f.WellFormed) (hB : B ∈ f.blocks)
    (edge : l ∈ B.term.successors) {d : Nat} (h : Available f d l 0) :
    (∃ C ∈ f.blocks, C.label = l ∧ d ∈ C.phis.map Phi.id) ∨
      Available f d B.label B.body.length := by
  have here : f.block B.label = some B := wf.block_of_label hB
  cases h with
  | phi block member =>
    exact Or.inl ⟨_, List.mem_of_find?_eq_some block, by simpa using List.find?_some block, member⟩
  | earlier _ member => simp at member
  | @dominated D hD member dom =>
    right
    obtain ⟨E, entry, dom⟩ := dom
    rcases dom.of_edge ⟨B, here, edge⟩ with same | dom
    · cases List.inj_on_of_nodup_map wf.labels hB hD same
      simp only [Block.defs, List.map_append, List.map_map, List.mem_append] at member
      rcases member with member | member
      · exact .phi here member
      · exact .earlier here (by rw [List.take_length]; exact member)
    · exact .dominated hD member ⟨E, entry, dom⟩

/-! Rewriting the blocks one by one without touching labels and branches. -/

section Rewritten
variable {g : Function} {h : Block → Block} (blocks : g.blocks = f.blocks.map h)
  (label : ∀ B, (h B).label = B.label)
include blocks label

theorem block_rewritten (l : Label) : g.block l = (f.block l).map h := by
  have same : ((fun B => decide (B.label = l)) ∘ h) = fun B => decide (B.label = l) := by
    funext B
    simp only [Function.comp, label]
  rw [Function.block, blocks, List.find?_map, same]
  rfl

omit label in
theorem entry_rewritten : g.entry = f.entry.map h := by
  rw [Function.entry, blocks, List.head?_map]
  rfl

variable (successors : ∀ B, (h B).term.successors = B.term.successors)
include successors

theorem edge_rewritten : g.Edge = f.Edge := by
  funext a b
  unfold Function.Edge
  rw [block_rewritten blocks label a]
  refine propext ⟨?_, ?_⟩
  · rintro ⟨B, block, succ⟩
    obtain ⟨A, atA, rfl⟩ := Option.map_eq_some_iff.mp block
    exact ⟨A, atA, by rwa [successors] at succ⟩
  · rintro ⟨B, block, succ⟩
    exact ⟨h B, by rw [block]; rfl, by rwa [successors]⟩

theorem reachable_rewritten (l : Label) : Reachable g l ↔ Reachable f l := by
  unfold Reachable
  rw [edge_rewritten blocks label successors, entry_rewritten blocks]
  cases f.entry with
  | none => simp
  | some E => simp [label]

theorem strictDom_rewritten (d l : Label) : StrictDom g d l ↔ StrictDom f d l := by
  unfold StrictDom
  rw [edge_rewritten blocks label successors, entry_rewritten blocks]
  cases f.entry with
  | none => simp
  | some E => simp [label]

end Rewritten

end SsaForm
