import ClamBC.PhiElimination
import ClamBC.SsaForm

/-!
# Editing a function in place

New instructions are put in front of one instruction, operands are replaced, and one instruction
may be erased. Labels, branches and phis stay where they are, so control passes as before and
dominance between blocks does not change.
-/

namespace FunctionEdits

open Ir SsaForm

/-! ## Which definitions have been executed -/

/-- The definition of `d` has been executed when control is in the block, behind the instructions
in the list. -/
def Seen (f : Function) (d : Nat) (B : Block) (ids : List Nat) : Prop :=
  d ∈ B.phis.map Phi.id ∨ d ∈ ids ∨ ∃ D ∈ f.blocks, d ∈ D.defs.map Prod.fst ∧
    StrictDom f D.label B.label

section
variable {f : Function} {B : Block} {d : Nat}

theorem available_iff (wf : f.WellFormed) (hB : B ∈ f.blocks) {k : Nat} :
    Available f d B.label k ↔ Seen f d B ((B.body.take k).map Inst.id) := by
  have found := wf.block_of_label hB
  constructor
  · intro available
    cases available with
    | phi block here =>
      cases block.symm.trans found
      exact .inl here
    | earlier block here =>
      cases block.symm.trans found
      exact .inr (.inl here)
    | dominated member here dom => exact .inr (.inr ⟨_, member, here, dom⟩)
  · rintro (here | here | ⟨D, member, here, dom⟩)
    · exact .phi found here
    · exact .earlier found here
    · exact .dominated member here dom

theorem split_of_getElem {α : Type} {is : List α} {k : Nat} {i : α} (atk : is[k]? = some i) :
    ∃ post, is = is.take k ++ i :: post := by
  obtain ⟨short, rfl⟩ := List.getElem?_eq_some_iff.mp atk
  exact ⟨is.drop (k + 1), by rw [List.getElem_cons_drop, List.take_append_drop]⟩

theorem getElem_of_split {α : Type} {is pre post : List α} {i : α} (split : is = pre ++ i :: post) :
    is[pre.length]? = some i ∧ is.take pre.length = pre := by
  subst split
  constructor
  · rw [List.getElem?_append_right (Nat.le_refl _), Nat.sub_self]
    rfl
  · rw [List.take_left']
    rfl

/-- Every operand has been computed before it is read. -/
structure Reads (f : Function) : Prop where
  body : ∀ B ∈ f.blocks, Reachable f B.label → ∀ pre i post, B.body = pre ++ i :: post →
    ∀ d, Value.inst d ∈ i.op.operands → Seen f d B (pre.map Inst.id)
  term : ∀ B ∈ f.blocks, Reachable f B.label → ∀ d, Value.inst d ∈ B.term.operands →
    Seen f d B (B.body.map Inst.id)
  phi : ∀ B ∈ f.blocks, ∀ p ∈ B.phis, ∀ A ∈ f.blocks, Reachable f A.label →
    ∀ d, (Value.inst d, A.label) ∈ p.incoming → Seen f d A (A.body.map Inst.id)

theorem ssa_iff : Ssa f ↔ f.WellFormed ∧ Reads f := by
  constructor
  · intro ssa
    refine ⟨ssa.wf, ?_, ?_, ?_⟩
    · intro B hB reach pre i post split d reads
      obtain ⟨atk, earlier⟩ := getElem_of_split split
      have available := ssa.body B hB reach _ i atk d reads
      rw [available_iff ssa.wf hB, earlier] at available
      exact available
    · intro B hB reach d reads
      have available := ssa.term B hB reach d reads
      rw [available_iff ssa.wf hB, List.take_length] at available
      exact available
    · intro B hB p hp A hA reach d entry
      have available := ssa.phi B hB p hp A hA reach d entry
      rw [available_iff ssa.wf hA, List.take_length] at available
      exact available
  · rintro ⟨wf, reads⟩
    refine ⟨wf, ?_, ?_, ?_⟩
    · intro B hB reach k i atk d operand
      obtain ⟨post, split⟩ := split_of_getElem atk
      rw [available_iff wf hB]
      exact reads.body B hB reach _ i post split d operand
    · intro B hB reach d operand
      rw [available_iff wf hB, List.take_length]
      exact reads.term B hB reach d operand
    · intro B hB p hp A hA reach d entry
      rw [available_iff wf hA, List.take_length]
      exact reads.phi B hB p hp A hA reach d entry

theorem Seen.mono {ids ids' : List Nat} (sub : ∀ i ∈ ids, i ∈ ids') (seen : Seen f d B ids) :
    Seen f d B ids' :=
  seen.imp_right fun rest => rest.imp_left (sub d)

end

/-! ## Edits -/

/-- New instructions in front of `point`, other operands, and an instruction that is taken away.
Without a point the new instructions stand in no block. -/
structure Edit where
  point : Option Nat
  news : List Inst
  erased : Option Nat
  update : Inst → Inst
  value : Value → Value
  update_id : ∀ i, (update i).id = i.id
  update_ty : ∀ i, (update i).ty = i.ty
  update_store : ∀ i v a, (update i).op = .store v a → ∃ v' a', i.op = .store v' a'
  update_load : ∀ i b a, (update i).op = .load b a → ∃ b' a', i.op = .load b' a'

namespace Edit

def inFront (e : Edit) (i : Inst) : List Inst := if e.point = some i.id then e.news else []

def body (e : Edit) (is : List Inst) : List Inst :=
  is.flatMap fun i => e.inFront i ++ if e.erased = some i.id then [] else [e.update i]

def phi (e : Edit) (p : Phi) : Phi :=
  { p with incoming := p.incoming.map fun x => (e.value x.1, x.2) }

def block (e : Edit) (B : Block) : Block :=
  { B with
    phis := B.phis.map e.phi
    body := e.body B.body
    term := B.term.map e.value }

/-- The function after the edit, which used up some instruction numbers. -/
def apply (e : Edit) (count : Nat) (f : Function) : Function :=
  { f with
    blocks := f.blocks.map e.block
    nextId := f.nextId + count }

/-- The new instructions have values and the new numbers. -/
structure Fits (e : Edit) (count : Nat) (f : Function) : Prop where
  value : ∀ i ∈ e.news, i.ty.isVoid = false
  store : ∀ i ∈ e.news, ∀ v a, i.op ≠ .store v a
  nodup : (e.news.map Inst.id).Nodup
  new : ∀ i ∈ e.news, f.nextId ≤ i.id ∧ i.id < f.nextId + count

section
variable {e : Edit}

theorem body_append (pre post : List Inst) : e.body (pre ++ post) = e.body pre ++ e.body post :=
  List.flatMap_append

theorem mem_body {is : List Inst} {j : Inst} :
    j ∈ e.body is ↔ (∃ i ∈ is, e.erased ≠ some i.id ∧ j = e.update i) ∨
      (j ∈ e.news ∧ ∃ i ∈ is, e.point = some i.id) := by
  simp only [body, inFront, List.mem_flatMap, List.mem_append]
  constructor
  · rintro ⟨i, hi, new | old⟩
    · split_ifs at new with here
      · exact .inr ⟨new, i, hi, here⟩
      · cases new
    · split_ifs at old with gone
      · cases old
      · exact .inl ⟨i, hi, gone, List.mem_singleton.mp old⟩
  · rintro (⟨i, hi, stays, rfl⟩ | ⟨new, i, hi, here⟩)
    · exact ⟨i, hi, .inr (by rw [if_neg stays]; exact List.mem_singleton_self _)⟩
    · exact ⟨i, hi, .inl (by rw [if_pos here]; exact new)⟩

theorem mem_body_ids {is : List Inst} {d : Nat} :
    d ∈ (e.body is).map Inst.id ↔
      (d ∈ is.map Inst.id ∧ e.erased ≠ some d) ∨
        (d ∈ e.news.map Inst.id ∧ ∃ q ∈ is.map Inst.id, e.point = some q) := by
  constructor
  · intro member
    obtain ⟨j, hj, rfl⟩ := List.mem_map.mp member
    rcases mem_body.mp hj with ⟨i, hi, stays, rfl⟩ | ⟨new, i, hi, here⟩
    · rw [e.update_id]
      exact .inl ⟨List.mem_map_of_mem hi, stays⟩
    · exact .inr ⟨List.mem_map_of_mem new, i.id, List.mem_map_of_mem hi, here⟩
  · rintro (⟨member, stays⟩ | ⟨new, q, member, here⟩)
    · obtain ⟨i, hi, rfl⟩ := List.mem_map.mp member
      exact List.mem_map.mpr ⟨e.update i, mem_body.mpr (.inl ⟨i, hi, stays, rfl⟩), e.update_id i⟩
    · obtain ⟨j, hj, rfl⟩ := List.mem_map.mp new
      obtain ⟨i, hi, rfl⟩ := List.mem_map.mp member
      exact List.mem_map_of_mem (mem_body.mpr (.inr ⟨hj, i, hi, here⟩))

/-- Where an old instruction stands afterwards. -/
theorem body_old {is pre post : List Inst} {i : Inst} (split : is = pre ++ i :: post)
    (stays : e.erased ≠ some i.id) :
    e.body is = (e.body pre ++ e.inFront i) ++ e.update i :: e.body post := by
  rw [split, body_append]
  show e.body pre ++
    (e.inFront i ++ (if e.erased = some i.id then [] else [e.update i]) ++ e.body post) = _
  rw [if_neg stays]
  simp

/-- Where a new instruction stands afterwards. -/
theorem body_new {is pre post : List Inst}
    {i : Inst} (split : is = pre ++ i :: post) (here : e.point = some i.id)
    {first last : List Inst} {j : Inst} (news : e.news = first ++ j :: last) :
    ∃ rest, e.body is = (e.body pre ++ first) ++ j :: rest := by
  refine ⟨last ++ (if e.erased = some i.id then [] else [e.update i]) ++ e.body post, ?_⟩
  rw [split, body_append]
  show e.body pre ++
    (e.inFront i ++ (if e.erased = some i.id then [] else [e.update i]) ++ e.body post) = _
  rw [inFront, if_pos here, news]
  simp

/-- An instruction of an edited body is an old one or a new one. -/
inductive Stands (e : Edit) (is : List Inst) (j : Inst) (pre' : List Inst) : Prop
  | old {pre : List Inst} {i : Inst} {post : List Inst} (split : is = pre ++ i :: post)
      (stays : e.erased ≠ some i.id)
      (same : j = e.update i) (front : pre' = e.body pre ++ e.inFront i)
  | new {pre : List Inst} {i : Inst} {post first last : List Inst} (split : is = pre ++ i :: post)
      (here : e.point = some i.id)
      (news : e.news = first ++ j :: last) (front : pre' = e.body pre ++ first)

theorem body_cons (i : Inst) (is : List Inst) :
    e.body (i :: is) =
      e.inFront i ++ ((if e.erased = some i.id then [] else [e.update i]) ++ e.body is) := by
  show (e.inFront i ++ _) ++ e.body is = _
  rw [List.append_assoc]

theorem Stands.later {i : Inst} {is pre pre' : List Inst} {j : Inst} (stands : Stands e is j pre)
    (front : pre' = e.inFront i ++ ((if e.erased = some i.id then [] else [e.update i]) ++ pre)) :
    Stands e (i :: is) j pre' := by
  cases stands with
  | @old before k post split stays same eq =>
    have split' : i :: is = (i :: before) ++ k :: post := congrArg (i :: ·) split
    refine .old split' stays same ?_
    rw [front, eq, ← List.append_assoc, ← List.append_assoc,
      List.append_assoc (e.inFront i), ← body_cons]
  | @new before k post first last split here news eq =>
    have split' : i :: is = (i :: before) ++ k :: post := congrArg (i :: ·) split
    refine .new split' here news ?_
    rw [front, eq, ← List.append_assoc, ← List.append_assoc,
      List.append_assoc (e.inFront i), ← body_cons]

theorem body_split {is pre' post' : List Inst} {j : Inst} (eq : e.body is = pre' ++ j :: post') :
    Stands e is j pre' := by
  induction is generalizing pre' with
  | nil =>
    have := congrArg List.length eq
    simp [body] at this
  | cons i is ih =>
    have first : i :: is = [] ++ i :: is := rfl
    rw [body_cons] at eq
    rcases List.append_eq_append_iff.mp eq with ⟨more, front, rest⟩ | ⟨more, front, rest⟩
    · -- behind the new instructions
      by_cases gone : e.erased = some i.id
      · rw [if_pos gone] at rest
        refine (ih rest).later ?_
        rw [front, if_pos gone]
        rfl
      · rw [if_neg gone] at rest
        cases more with
        | nil =>
          obtain ⟨same, -⟩ := List.cons.inj rest
          exact .old first gone same.symm (front.trans (List.append_nil _))
        | cons k more =>
          obtain ⟨same, rest⟩ := List.cons.inj rest
          refine (ih rest).later ?_
          rw [front, if_neg gone, same]
          rfl
    · -- among them
      cases more with
      | nil =>
        rw [List.append_nil] at front
        by_cases gone : e.erased = some i.id
        · rw [if_pos gone] at rest
          have behind : e.body is = [] ++ j :: post' := rest.symm
          refine (ih behind).later ?_
          rw [front, if_pos gone]
          simp
        · rw [if_neg gone] at rest
          obtain ⟨same, -⟩ := List.cons.inj rest
          exact .old first gone same front.symm
      | cons k more =>
        obtain ⟨rfl, -⟩ := List.cons.inj rest
        unfold inFront at front
        split_ifs at front with here
        · exact .new first here front rfl
        · simp at front

theorem block_label (B : Block) : (e.block B).label = B.label := rfl

theorem block_successors (B : Block) : (e.block B).term.successors = B.term.successors :=
  Term.successors_map _ B.term

theorem block_phi_ids (B : Block) : (e.block B).phis.map Phi.id = B.phis.map Phi.id := by
  simp only [block, List.map_map]
  rfl

theorem mem_uses {B : Block} {v : Value} : v ∈ (e.block B).uses ↔
    (∃ p ∈ B.phis, ∃ w l, (w, l) ∈ p.incoming ∧ v = e.value w) ∨
      (∃ j ∈ e.body B.body, v ∈ j.op.operands) ∨
      ∃ w ∈ B.term.operands, v = e.value w := by
  simp only [Block.uses, block, List.mem_append, List.mem_flatMap, List.mem_map,
    Term.operands_map, or_assoc]
  constructor
  · rintro (⟨p', ⟨p, hp, rfl⟩, x, hx, rfl⟩ | ⟨j, hj, reads⟩ | ⟨w, hw, rfl⟩)
    · obtain ⟨y, hy, rfl⟩ := List.mem_map.mp hx
      exact .inl ⟨p, hp, y.1, y.2, hy, rfl⟩
    · exact .inr (.inl ⟨j, hj, reads⟩)
    · exact .inr (.inr ⟨w, hw, rfl⟩)
  · rintro (⟨p, hp, w, l, entry, rfl⟩ | ⟨j, hj, reads⟩ | ⟨w, hw, rfl⟩)
    · exact .inl ⟨e.phi p, ⟨p, hp, rfl⟩, (e.value w, l), List.mem_map.mpr ⟨(w, l), entry, rfl⟩, rfl⟩
    · exact .inr (.inl ⟨j, hj, reads⟩)
    · exact .inr (.inr ⟨w, hw, rfl⟩)

/-! ## The edited function is well formed -/

variable {f : Function} {count : Nat}

theorem body_ids_nodup (fits : e.Fits count f) {is : List Inst} (nodup : (is.map Inst.id).Nodup)
    (fresh : ∀ d ∈ is.map Inst.id, d < f.nextId) : ((e.body is).map Inst.id).Nodup := by
  have newIds : ∀ d ∈ e.news.map Inst.id, f.nextId ≤ d := by
    intro d hd
    obtain ⟨i, hi, rfl⟩ := List.mem_map.mp hd
    exact (fits.new i hi).1
  induction is with
  | nil => exact List.nodup_nil
  | cons i is ih =>
    obtain ⟨outside, nodup⟩ := List.nodup_cons.mp nodup
    have own := fresh i.id List.mem_cons_self
    have rest := ih nodup fun d hd => fresh d (List.mem_cons_of_mem _ hd)
    have notLater : i.id ∉ (e.body is).map Inst.id := by
      intro member
      rcases mem_body_ids.mp member with ⟨member, -⟩ | ⟨new, -⟩
      · exact outside member
      · have := newIds _ new
        omega
    have second :
        (((if e.erased = some i.id then [] else [e.update i]) ++ e.body is).map Inst.id).Nodup := by
      split_ifs
      · exact rest
      · refine List.nodup_cons.mpr ⟨?_, rest⟩
        rw [e.update_id]
        exact notLater
    rw [body_cons, List.map_append]
    by_cases here : e.point = some i.id
    · rw [inFront, if_pos here]
      refine List.nodup_append.mpr ⟨fits.nodup, second, ?_⟩
      -- the point is this instruction and no later one
      intro d new d' old same
      subst same
      have isNew := newIds d new
      rw [List.map_append] at old
      rcases List.mem_append.mp old with old | old
      · split_ifs at old
        · cases old
        · have isOwn := List.mem_singleton.mp old
          rw [e.update_id] at isOwn
          omega
      · rcases mem_body_ids.mp old with ⟨old, -⟩ | ⟨-, q, later, again⟩
        · have := fresh d (List.mem_cons_of_mem _ old)
          omega
        · rw [here] at again
          cases again
          exact outside later
    · rw [inFront, if_neg here]
      exact second

theorem mem_block_ids {B : Block} {d : Nat} (member : d ∈ (e.block B).ids) :
    d ∈ B.ids ∨ (d ∈ e.news.map Inst.id ∧ ∃ q ∈ B.body.map Inst.id, e.point = some q) := by
  simp only [Block.ids, block_phi_ids, List.mem_append] at member ⊢
  rcases member with (phi | body) | term
  · exact .inl (.inl (.inl phi))
  · rcases mem_body_ids.mp body with ⟨old, -⟩ | new
    · exact .inl (.inl (.inr old))
    · exact .inr new
  · exact .inl (.inr term)

theorem block_ids_nodup (wf : f.WellFormed) (fits : e.Fits count f) {B : Block}
    (hB : B ∈ f.blocks) : (e.block B).ids.Nodup := by
  have nodup := wf.block_ids_nodup hB
  obtain ⟨front, termNodup, termApart⟩ := List.nodup_append.mp nodup
  obtain ⟨phis, body, apart⟩ := List.nodup_append.mp front
  have fresh : ∀ d ∈ B.body.map Inst.id, d < f.nextId := fun d hd =>
    wf.fresh B hB d (List.mem_append_left _ (List.mem_append_right _ hd))
  have isNew : ∀ d ∈ e.news.map Inst.id, f.nextId ≤ d := by
    intro d hd
    obtain ⟨i, hi, rfl⟩ := List.mem_map.mp hd
    exact (fits.new i hi).1
  rw [Block.ids, block_phi_ids]
  refine List.nodup_append.mpr ⟨List.nodup_append.mpr ⟨phis, body_ids_nodup fits body fresh, ?_⟩,
    termNodup, ?_⟩
  · intro d inPhis d' inBody same
    subst same
    rcases mem_body_ids.mp inBody with ⟨old, -⟩ | ⟨new, -⟩
    · exact apart d inPhis d old rfl
    · have := isNew d new
      have := wf.fresh B hB d (List.mem_append_left _ (List.mem_append_left _ inPhis))
      omega
  · intro d inFront d' inTerm same
    subst same
    have term := wf.fresh B hB d (List.mem_append_right _ inTerm)
    rcases List.mem_append.mp inFront with inPhis | inBody
    · exact termApart d (List.mem_append_left _ inPhis) d inTerm rfl
    · rcases mem_body_ids.mp inBody with ⟨old, -⟩ | ⟨new, -⟩
      · exact termApart d (List.mem_append_right _ old) d inTerm rfl
      · have := isNew d new
        omega

/-- The edited function is well formed if what it reads is defined in it. -/
theorem apply_wellFormed (wf : f.WellFormed)
    (fits : e.Fits count f) (uses : ∀ B ∈ f.blocks, ∀ d, Value.inst d ∈ (e.block B).uses →
      ∃ A ∈ f.blocks, ∃ ty, (d, ty) ∈ (e.block A).defs ∧ ty.isVoid = false)
    (args : ∀ B ∈ f.blocks, ∀ i, Value.arg i ∈ (e.block B).uses → i < f.args.length) :
    (e.apply count f).WellFormed := by
  have blocks : (e.apply count f).blocks = f.blocks.map e.block := rfl
  constructor
  case labels =>
    rw [blocks, List.map_map]
    exact wf.labels
  case ids =>
    rw [blocks]
    refine PhiElimination.ids_nodup_rewritten wf (fun B hB => block_ids_nodup wf fits hB)
      (fun B _ i => mem_block_ids) ?_ ?_
    · rintro B i ⟨new, -⟩
      obtain ⟨j, hj, rfl⟩ := List.mem_map.mp new
      exact (fits.new j hj).1
    · rintro A hA B hB i ⟨-, q, inA, isPoint⟩ ⟨-, q', inB, isPoint'⟩
      cases isPoint.symm.trans isPoint'
      exact wf.block_of_id hA hB (List.mem_append_left _ (List.mem_append_right _ inA))
        (List.mem_append_left _ (List.mem_append_right _ inB))
  case fresh =>
    intro B' hB' i hi
    obtain ⟨B, hB, rfl⟩ := List.mem_map.mp hB'
    show i < f.nextId + count
    rcases mem_block_ids hi with old | ⟨new, -⟩
    · have := wf.fresh B hB i old
      omega
    · obtain ⟨j, hj, rfl⟩ := List.mem_map.mp new
      exact (fits.new j hj).2
  case uses =>
    intro B' hB' d used
    obtain ⟨B, hB, rfl⟩ := List.mem_map.mp hB'
    obtain ⟨A, hA, ty, defined, value⟩ := uses B hB d used
    exact ⟨e.block A, List.mem_map_of_mem hA, ty, defined, value⟩
  case argUses =>
    intro B' hB' i used
    obtain ⟨B, hB, rfl⟩ := List.mem_map.mp hB'
    exact args B hB i used
  case phiTypes =>
    intro B' hB' p' hp'
    obtain ⟨B, hB, rfl⟩ := List.mem_map.mp hB'
    obtain ⟨p, hp, rfl⟩ := List.mem_map.mp hp'
    exact wf.phiTypes B hB p hp
  case storeTypes =>
    intro B' hB' j hj v a store
    obtain ⟨B, hB, rfl⟩ := List.mem_map.mp hB'
    rcases mem_body.mp hj with ⟨i, hi, -, rfl⟩ | ⟨new, -⟩
    · obtain ⟨v', a', store'⟩ := e.update_store i v a store
      rw [e.update_ty]
      exact wf.storeTypes B hB i hi v' a' store'
    · exact absurd store (fits.store j new v a)
  case loadTypes =>
    intro B' hB' j hj b a load
    obtain ⟨B, hB, rfl⟩ := List.mem_map.mp hB'
    rcases mem_body.mp hj with ⟨i, hi, -, rfl⟩ | ⟨new, -⟩
    · obtain ⟨b', a', load'⟩ := e.update_load i b a load
      rw [e.update_ty]
      exact wf.loadTypes B hB i hi b' a' load'
    · exact fits.value j new
  case entryPhis =>
    intro B' isEntry
    rw [entry_rewritten blocks] at isEntry
    obtain ⟨B, isEntry', rfl⟩ := Option.map_eq_some_iff.mp isEntry
    show B.phis.map e.phi = []
    rw [wf.entryPhis B isEntry']
    rfl
  case entryPreds =>
    intro B' isEntry A' hA'
    rw [entry_rewritten blocks] at isEntry
    obtain ⟨B, isEntry', rfl⟩ := Option.map_eq_some_iff.mp isEntry
    obtain ⟨A, hA, rfl⟩ := List.mem_map.mp hA'
    rw [block_successors]
    exact wf.entryPreds B isEntry' A hA
  case complete =>
    intro A' hA' B' hB' succ p' hp'
    obtain ⟨A, hA, rfl⟩ := List.mem_map.mp hA'
    obtain ⟨B, hB, rfl⟩ := List.mem_map.mp hB'
    obtain ⟨p, hp, rfl⟩ := List.mem_map.mp hp'
    rw [block_successors] at succ
    obtain ⟨v, entry⟩ := wf.complete A hA B hB succ p hp
    exact ⟨e.value v, List.mem_map.mpr ⟨_, entry, rfl⟩⟩
  case preds =>
    intro B' hB' p' hp' v l entry
    obtain ⟨B, hB, rfl⟩ := List.mem_map.mp hB'
    obtain ⟨p, hp, rfl⟩ := List.mem_map.mp hp'
    obtain ⟨⟨w, l'⟩, entry', eq⟩ := List.mem_map.mp entry
    cases eq
    obtain ⟨A, hA, label, succ⟩ := wf.preds B hB p hp w l' entry'
    exact ⟨e.block A, List.mem_map_of_mem hA, label, by rw [block_successors]; exact succ⟩
  case agree =>
    intro B' hB' p' hp' l v w entry entry'
    obtain ⟨B, hB, rfl⟩ := List.mem_map.mp hB'
    obtain ⟨p, hp, rfl⟩ := List.mem_map.mp hp'
    obtain ⟨⟨v', l'⟩, first, eq⟩ := List.mem_map.mp entry
    obtain ⟨⟨w', l''⟩, second, eq'⟩ := List.mem_map.mp entry'
    cases eq
    cases eq'
    exact congrArg e.value (wf.agree B hB p hp _ v' w' first second)

theorem defined_old {D : Block} {d : Nat} {ty : Ty} (defined : (d, ty) ∈ D.defs)
    (stays : e.erased ≠ some d) :
    (d, ty) ∈ (e.block D).defs := by
  rcases List.mem_append.mp defined with member | member
  · obtain ⟨p, hp, eq⟩ := List.mem_map.mp member
    exact List.mem_append_left _ (List.mem_map.mpr ⟨e.phi p, List.mem_map_of_mem hp, eq⟩)
  · obtain ⟨i, hi, eq⟩ := List.mem_map.mp member
    obtain ⟨rfl, rfl⟩ := Prod.mk.inj eq
    refine List.mem_append_right _
      (List.mem_map.mpr ⟨e.update i, mem_body.mpr (.inl ⟨i, hi, stays, rfl⟩), ?_⟩)
    rw [e.update_id, e.update_ty]

theorem defined_new {Q : Block} {i j : Inst} (hi : i ∈ Q.body) (point : e.point = some i.id)
    (new : j ∈ e.news) :
    (j.id, j.ty) ∈ (e.block Q).defs :=
  List.mem_append_right _ (List.mem_map.mpr ⟨j, mem_body.mpr (.inr ⟨new, i, hi, point⟩), rfl⟩)

/-! ## What is read is still computed before -/

theorem reachable_apply (l : Label) : Reachable (e.apply count f) l ↔ Reachable f l :=
  reachable_rewritten rfl block_label block_successors l

theorem strictDom_apply (d l : Label) : StrictDom (e.apply count f) d l ↔ StrictDom f d l :=
  strictDom_rewritten rfl block_label block_successors d l

theorem mem_defs {B : Block} {d : Nat} :
    d ∈ B.defs.map Prod.fst ↔ d ∈ B.phis.map Phi.id ∨ d ∈ B.body.map Inst.id := by
  simp only [Block.defs, List.map_append, List.map_map, List.mem_append]
  rfl

theorem notNew (fits : e.Fits count f) {d : Nat} (old : d < f.nextId) : d ∉ e.news.map Inst.id := by
  intro new
  obtain ⟨j, hj, rfl⟩ := List.mem_map.mp new
  have := (fits.new j hj).1
  omega

/-- An old instruction in the new body. -/
theorem mem_pre (fits : e.Fits count f) {d : Nat} (old : d < f.nextId) (stays : e.erased ≠ some d)
    (is : List Inst) :
    d ∈ (e.body is).map Inst.id ↔ d ∈ is.map Inst.id := by
  rw [mem_body_ids]
  constructor
  · rintro (⟨member, -⟩ | ⟨new, -⟩)
    · exact member
    · exact absurd new (notNew fits old)
  · exact fun member => .inl ⟨member, stays⟩

theorem mem_inFront (fits : e.Fits count f) {d : Nat} (old : d < f.nextId) (i : Inst) :
    d ∉ (e.inFront i).map Inst.id := by
  unfold inFront
  split_ifs
  · exact notNew fits old
  · exact List.not_mem_nil

/-- An old definition is found where it was found before. -/
theorem seen_old (fits : e.Fits count f) {B : Block} {d : Nat} (old : d < f.nextId)
    (stays : e.erased ≠ some d) {ids ids' : List Nat} (same : d ∈ ids' ↔ d ∈ ids) :
    Seen (e.apply count f) d (e.block B) ids' ↔ Seen f d B ids := by
  have defs : ∀ D : Block, d ∈ (e.block D).defs.map Prod.fst ↔ d ∈ D.defs.map Prod.fst := by
    intro D
    rw [mem_defs, mem_defs, block_phi_ids]
    exact or_congr_right (mem_pre fits old stays D.body)
  unfold Seen
  rw [block_phi_ids, same]
  refine or_congr_right (or_congr_right ?_)
  constructor
  · rintro ⟨D', hD', defined, dom⟩
    obtain ⟨D, hD, rfl⟩ := List.mem_map.mp hD'
    exact ⟨D, hD, (defs D).mp defined, (strictDom_apply _ _).mp dom⟩
  · rintro ⟨D, hD, defined, dom⟩
    exact ⟨e.block D, List.mem_map_of_mem hD, (defs D).mpr defined, (strictDom_apply _ _).mpr dom⟩

/-- A new definition is found where the instruction behind it is found. -/
theorem seen_new (wf : f.WellFormed) (fits : e.Fits count f) {B Q : Block} (hB : B ∈ f.blocks)
    (hQ : Q ∈ f.blocks) {i : Inst} (hi : i ∈ Q.body) (point : e.point = some i.id)
    {d : Nat} (new : d ∈ e.news.map Inst.id) {ids ids' : List Nat} (same : d ∈ ids' ↔ i.id ∈ ids) :
    Seen (e.apply count f) d (e.block B) ids' ↔ Seen f i.id B ids := by
  have isNew : f.nextId ≤ d := by
    obtain ⟨j, hj, rfl⟩ := List.mem_map.mp new
    exact (fits.new j hj).1
  have noPhi : ∀ D ∈ f.blocks, d ∉ D.phis.map Phi.id ∧ i.id ∉ D.phis.map Phi.id := by
    intro D hD
    constructor
    · intro phi
      have := wf.fresh D hD d (List.mem_append_left _ (List.mem_append_left _ phi))
      omega
    · intro phi
      obtain ⟨p, hp, isPhi⟩ := List.mem_map.mp phi
      exact wf.phi_id_ne_inst_id hD hQ hp hi isPhi.symm
  have defs : ∀ D ∈ f.blocks, d ∈ (e.block D).defs.map Prod.fst ↔ i.id ∈ D.defs.map Prod.fst := by
    intro D hD
    obtain ⟨notPhi, notPhi'⟩ := noPhi D hD
    rw [mem_defs, mem_defs, block_phi_ids, or_iff_right notPhi, or_iff_right notPhi']
    refine mem_body_ids.trans ?_
    constructor
    · rintro (⟨old, -⟩ | ⟨-, q, member, here⟩)
      · have := wf.fresh D hD d (List.mem_append_left _ (List.mem_append_right _ old))
        omega
      · cases point.symm.trans here
        exact member
    · exact fun member => .inr ⟨new, i.id, member, point⟩
  obtain ⟨notPhi, notPhi'⟩ := noPhi B hB
  unfold Seen
  rw [block_phi_ids, or_iff_right notPhi, or_iff_right notPhi', same]
  refine or_congr_right ?_
  constructor
  · rintro ⟨D', hD', defined, dom⟩
    obtain ⟨D, hD, rfl⟩ := List.mem_map.mp hD'
    exact ⟨D, hD, (defs D hD).mp defined, (strictDom_apply _ _).mp dom⟩
  · rintro ⟨D, hD, defined, dom⟩
    exact ⟨e.block D, List.mem_map_of_mem hD, (defs D hD).mpr defined,
      (strictDom_apply _ _).mpr dom⟩

/-- What is read after the edit has been computed, place by place. -/
structure Computes (e : Edit) (count : Nat) (f : Function) : Prop where
  old : ∀ B ∈ f.blocks, Reachable f B.label → ∀ pre i post, B.body = pre ++ i :: post →
    e.erased ≠ some i.id →
    ∀ d, Value.inst d ∈ (e.update i).op.operands →
      Seen (e.apply count f) d (e.block B) ((e.body pre ++ e.inFront i).map Inst.id)
  new : ∀ B ∈ f.blocks, Reachable f B.label → ∀ pre i post, B.body = pre ++ i :: post →
    e.point = some i.id →
    ∀ first j last, e.news = first ++ j :: last →
      ∀ d, Value.inst d ∈ j.op.operands →
        Seen (e.apply count f) d (e.block B) ((e.body pre ++ first).map Inst.id)
  term : ∀ B ∈ f.blocks, Reachable f B.label → ∀ v ∈ B.term.operands, ∀ d, e.value v = .inst d →
    Seen (e.apply count f) d (e.block B) ((e.body B.body).map Inst.id)
  phi : ∀ B ∈ f.blocks, ∀ p ∈ B.phis, ∀ A ∈ f.blocks, Reachable f A.label →
    ∀ v, (v, A.label) ∈ p.incoming →
    ∀ d, e.value v = .inst d → Seen (e.apply count f) d (e.block A) ((e.body A.body).map Inst.id)

theorem reads_apply_iff : Reads (e.apply count f) ↔ Computes e count f := by
  constructor
  · intro reads
    have inside : ∀ {B : Block}, B ∈ f.blocks → e.block B ∈ (e.apply count f).blocks :=
      fun hB => List.mem_map_of_mem hB
    constructor
    · intro B hB reach pre i post split stays d operand
      exact reads.body _ (inside hB) ((reachable_apply _).mpr reach) _ _ _
        (body_old split stays) d operand
    · intro B hB reach pre i post split here first j last news d operand
      obtain ⟨rest, eq⟩ := body_new split here news
      exact reads.body _ (inside hB) ((reachable_apply _).mpr reach) _ _ _ eq d operand
    · intro B hB reach v hv d eq
      refine reads.term _ (inside hB) ((reachable_apply _).mpr reach) d ?_
      show Value.inst d ∈ (B.term.map e.value).operands
      rw [Term.operands_map]
      exact List.mem_map.mpr ⟨v, hv, eq⟩
    · intro B hB p hp A hA reach v entry d eq
      refine reads.phi _ (inside hB) (e.phi p) (List.mem_map_of_mem hp) _ (inside hA)
        ((reachable_apply _).mpr reach) d ?_
      exact List.mem_map.mpr ⟨(v, A.label), entry, by rw [eq]; rfl⟩
  · intro computes
    constructor
    · intro B' hB' reach pre' j post' split d operand
      obtain ⟨B, hB, rfl⟩ := List.mem_map.mp hB'
      have reach' := (reachable_apply _).mp reach
      cases body_split split with
      | old split' stays same front =>
        subst same
        subst front
        exact computes.old B hB reach' _ _ _ split' stays d operand
      | new split' here news front =>
        subst front
        exact computes.new B hB reach' _ _ _ split' here _ _ _ news d operand
    · intro B' hB' reach d operand
      obtain ⟨B, hB, rfl⟩ := List.mem_map.mp hB'
      have operand' : Value.inst d ∈ (B.term.map e.value).operands := operand
      rw [Term.operands_map] at operand'
      obtain ⟨v, hv, eq⟩ := List.mem_map.mp operand'
      exact computes.term B hB ((reachable_apply _).mp reach) v hv d eq
    · intro B' hB' p' hp' A' hA' reach d entry
      obtain ⟨B, hB, rfl⟩ := List.mem_map.mp hB'
      obtain ⟨p, hp, rfl⟩ := List.mem_map.mp hp'
      obtain ⟨A, hA, rfl⟩ := List.mem_map.mp hA'
      obtain ⟨⟨v, l⟩, entry', eq⟩ := List.mem_map.mp entry
      obtain ⟨eq, rfl⟩ := Prod.mk.inj eq
      exact computes.phi B hB p hp A hA ((reachable_apply _).mp reach) v entry' d eq

end

end Edit

end FunctionEdits
