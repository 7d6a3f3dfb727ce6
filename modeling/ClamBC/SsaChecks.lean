import ClamBC.SsaForm

/-!
# Checking a given function

A computable test that is enough for the rules of the IR, for static single assignment
and for the absence of loops. It is meant for functions that are written down: blocks are
numbered so that control only moves to larger labels, and a value is used in its own
block, in a phi, or anywhere when the entry defines it.
-/

namespace SsaChecks

open Ir SsaForm Relation

section
variable (f : Function)

def usable : Value → Bool
  | .inst i => f.blocks.any fun A => A.defs.any fun d => d.1 = i && !d.2.isVoid
  | .arg i => i < f.args.length
  | .const _ => true

def typed (B : Block) : Bool :=
  B.phis.all (fun p => !p.ty.isVoid) && B.body.all fun i =>
    match i.op with
    | .store _ _ => i.ty.isVoid
    | .load _ _ => !i.ty.isVoid
    | _ => true

def entryFirst : Bool :=
  match f.entry with
  | none => true
  | some E => E.phis.isEmpty && f.blocks.all fun A => !A.term.successors.contains E.label

def listsPreds (B : Block) (p : Phi) : Bool :=
  decide (p.incoming.map Prod.snd).Nodup &&
    (f.blocks.all fun A => !A.term.successors.contains B.label ||
      p.incoming.any fun e => e.2 = A.label) &&
    p.incoming.all fun e => f.blocks.any fun A => A.label = e.2 &&
      A.term.successors.contains B.label

def seen (B : Block) (k : Nat) : Value → Bool
  | .inst d => B.phis.any (fun p => p.id = d) || (B.body.take k).any (fun i => i.id = d) ||
    match f.entry with
    | none => false
    | some E => E.label != B.label && E.defs.any fun e => e.1 = d
  | _ => true

def readsSeen (B : Block) : Bool :=
  ((List.range B.body.length).all fun k =>
    (B.body[k]?.map fun i => i.op.operands.all (seen f B k)).getD true) &&
    B.term.operands.all (seen f B B.body.length) &&
    B.phis.all fun p => p.incoming.all fun e =>
      f.blocks.all fun A => A.label != e.2 || seen f A A.body.length e.1

def ascending (B : Block) : Bool := B.term.successors.all fun l => B.label < l

def checks : Bool :=
  decide (f.blocks.map Block.label).Nodup && decide (f.blocks.flatMap Block.ids).Nodup &&
    entryFirst f &&
    f.blocks.all fun B => B.ids.all (fun i => i < f.nextId) && B.uses.all (usable f) && typed B &&
      B.phis.all (listsPreds f B) && readsSeen f B && ascending B

end

variable {f : Function}

theorem Edge.lt (ok : ∀ B ∈ f.blocks, ascending B = true) {a b : Label}
    (edge : f.Edge a b) : a < b := by
  obtain ⟨B, block, member⟩ := edge
  have hB : B ∈ f.blocks := List.mem_of_find?_eq_some block
  have label : B.label = a := by simpa using List.find?_some block
  have up := List.all_eq_true.mp (ok B hB) b member
  simpa [label] using up

theorem loopFree_of_ascending (ok : ∀ B ∈ f.blocks, ascending B = true) : f.LoopFree := by
  intro l cycle
  have up : ∀ {a b}, TransGen f.Edge a b → a < b := by
    intro a b path
    induction path with
    | single edge => exact Edge.lt ok edge
    | tail _ edge ih => exact Nat.lt_trans ih (Edge.lt ok edge)
  exact Nat.lt_irrefl l (up cycle)

theorem available_of_seen (wf : f.WellFormed) {B : Block} (hB : B ∈ f.blocks) {k d : Nat}
    (h : seen f B k (.inst d) = true) : Available f d B.label k := by
  have here := wf.block_of_label hB
  simp only [seen, Bool.or_eq_true, List.any_eq_true, decide_eq_true_eq] at h
  rcases h with (⟨p, hp, rfl⟩ | ⟨i, hi, rfl⟩) | h
  · exact .phi here (List.mem_map_of_mem hp)
  · exact .earlier here (List.mem_map_of_mem hi)
  · split at h
    · cases h
    · next E entry =>
      simp only [Bool.and_eq_true, bne_iff_ne, List.any_eq_true, decide_eq_true_eq] at h
      obtain ⟨ne, e, he, rfl⟩ := h
      exact .dominated (List.mem_of_head? entry) (List.mem_map_of_mem he)
        ⟨E, entry, Dominance.StrictDom.root_left ne.symm⟩

theorem wellFormed_of_checks (ok : checks f = true) : f.WellFormed := by
  simp only [checks, Bool.and_eq_true, decide_eq_true_eq, List.all_eq_true] at ok
  obtain ⟨⟨⟨labels, ids⟩, entry⟩, blocks⟩ := ok
  constructor
  case labels => exact labels
  case ids => exact ids
  case fresh =>
    intro B hB i hi
    exact (blocks B hB).1.1.1.1.1 i hi
  case uses =>
    intro B hB i use
    have ok := (blocks B hB).1.1.1.1.2 _ use
    simp only [usable, List.any_eq_true, Bool.and_eq_true, decide_eq_true_eq,
      Bool.not_eq_true'] at ok
    obtain ⟨A, hA, ⟨d, ty⟩, member, rfl, notVoid⟩ := ok
    exact ⟨A, hA, ty, member, notVoid⟩
  case argUses =>
    intro B hB i use
    simpa [usable] using (blocks B hB).1.1.1.1.2 _ use
  case phiTypes =>
    intro B hB p hp
    have ok := (blocks B hB).1.1.1.2
    simp only [typed, Bool.and_eq_true, List.all_eq_true] at ok
    simpa using ok.1 p hp
  case storeTypes =>
    intro B hB i hi v a op
    have ok := (blocks B hB).1.1.1.2
    simp only [typed, Bool.and_eq_true, List.all_eq_true] at ok
    simpa [op] using ok.2 i hi
  case loadTypes =>
    intro B hB i hi v a op
    have ok := (blocks B hB).1.1.1.2
    simp only [typed, Bool.and_eq_true, List.all_eq_true] at ok
    simpa [op] using ok.2 i hi
  case entryPhis =>
    intro E first
    simp only [entryFirst, first, Bool.and_eq_true] at entry
    simpa using entry.1
  case entryPreds =>
    intro E first A hA
    simp only [entryFirst, first, Bool.and_eq_true, List.all_eq_true] at entry
    simpa using entry.2 A hA
  case complete =>
    intro A hA B hB edge p hp
    have ok := (blocks B hB).1.1.2 p hp
    simp only [listsPreds, Bool.and_eq_true, List.all_eq_true, Bool.or_eq_true, List.any_eq_true,
      decide_eq_true_eq] at ok
    rcases ok.1.2 A hA with absent | ⟨⟨v, l⟩, member, rfl⟩
    · simp [edge] at absent
    · exact ⟨v, member⟩
  case preds =>
    intro B hB p hp v l member
    have ok := (blocks B hB).1.1.2 p hp
    simp only [listsPreds, Bool.and_eq_true, List.all_eq_true, List.any_eq_true,
      decide_eq_true_eq] at ok
    obtain ⟨A, hA, label, edge⟩ := ok.2 (v, l) member
    exact ⟨A, hA, label, by simpa using edge⟩
  case agree =>
    intro B hB p hp l v w hv hw
    have ok := (blocks B hB).1.1.2 p hp
    simp only [listsPreds, Bool.and_eq_true, decide_eq_true_eq] at ok
    exact congrArg Prod.fst (List.inj_on_of_nodup_map ok.1.1 hv hw rfl)

theorem ssa_of_checks (ok : checks f = true) : Ssa f ∧ f.LoopFree := by
  have wf := wellFormed_of_checks ok
  simp only [checks, Bool.and_eq_true, List.all_eq_true] at ok
  have blocks := ok.2
  have reads : ∀ B ∈ f.blocks, readsSeen f B = true := fun B hB => (blocks B hB).1.2
  simp only [readsSeen, Bool.and_eq_true, List.all_eq_true, List.mem_range] at reads
  refine ⟨⟨wf, ?_, ?_, ?_⟩, loopFree_of_ascending fun B hB => (blocks B hB).2⟩
  · intro B hB _ k i at_k d use
    obtain ⟨short, -⟩ := List.getElem?_eq_some_iff.mp at_k
    have all := (reads B hB).1.1 k short
    rw [at_k] at all
    simp only [Option.map_some, Option.getD_some, List.all_eq_true] at all
    exact available_of_seen wf hB (all _ use)
  · intro B hB _ d use
    exact available_of_seen wf hB ((reads B hB).1.2 _ use)
  · intro B hB p hp A hA _ d use
    have all := (reads B hB).2 p hp _ use A hA
    simp only [bne_self_eq_false, Bool.false_or] at all
    exact available_of_seen wf hA all

end SsaChecks
