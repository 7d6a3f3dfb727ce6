import ClamBC.SetVirusNameForm
import ClamBC.SsaChecks

/-!
# The split function runs like the first one

Every visit to the block of the phi is a visit to the new block on the edge, which makes the
call, and a visit to the rest of the old block. Registers agree except for the erased
instructions, which nobody reads.
-/

namespace SetVirusName

open Ir IrExec SsaForm Fallible

universe u
variable {V M : Type u}

/-! ## Executing with registers that agree -/

/-- Where a run goes on after a visit. -/
def next (v : Visit V M) : Option (Label × State V M) :=
  match v.exit, v.after with
  | .goto l, some s => some (l, s)
  | _, _ => none

theorem run_succ (S : Sem V M) (args : Nat → V) (cell : Nat → Bool) (f : Function) (n : Nat)
    (prev : Option Label) (l : Label) (a : State V M) : run S args cell f (n + 1) prev l a =
      visit S args cell f prev l a :: match next (visit S args cell f prev l a) with
        | some (l', a') => run S args cell f n (some l) l' a'
        | none => [] := by
  conv_lhs => unfold run
  dsimp only
  split
  · rename_i l' a' exit after
    have goes : next (visit S args cell f prev l a) = some (l', a') := by
      unfold next
      rw [exit, after]
    rw [goes]
  · rename_i stops
    have ends : next (visit S args cell f prev l a) = none := by
      unfold next
      split
      · rename_i exit after
        exact absurd after (stops _ _ exit)
      · rfl
    rw [ends]

section
variable (S : Sem V M) (args : Nat → V) (cell : Nat → Bool)

/-- The instruction finds the same operands. -/
def Reads (old new : Nat → V) (vs : List Value) : Prop :=
  ∀ v ∈ vs, eval S args new v = eval S args old v

theorem exec_agree {i : Inst} {a b : State V M} (reads : Reads S args a.regs b.regs i.op.operands)
    (cells : b.cells = a.cells) (mem : b.mem = a.mem) :
    exec S args cell i b = (exec S args cell i a).map fun r =>
      (r.1, ⟨b.regs, r.2.cells, r.2.mem⟩) := by
  have plain : execPlain S args i b = (execPlain S args i a).map fun r =>
      (r.1, ⟨b.regs, r.2.cells, r.2.mem⟩) := by
    unfold execPlain
    rw [Op.map_congr reads, mem, Option.map_map]
    congr 1
    funext r
    exact congrArg (fun c => (r.1, State.mk b.regs c r.2)) cells
  have whole : (⟨b.regs, a.cells, a.mem⟩ : State V M) = b := by rw [← cells, ← mem]
  unfold exec
  split
  · split
    · simp [cells, mem]
    · exact plain
  · rename_i v a' op
    split
    · have value : eval S args b.regs v = eval S args a.regs v :=
        reads v (by rw [op]; exact List.mem_cons_self)
      simp [cells, mem, value]
    · exact plain
  · split
    · simp [cells, whole]
    · exact plain
  · rename_i c src v op
    split
    · have value : eval S args b.regs v = eval S args a.regs v :=
        reads v (by rw [op]; exact List.mem_singleton_self _)
      simp [whole, value]
    · exact plain
  · exact plain

end

/-- The same state, but for the registers of the erased instructions and of new ones. -/
structure Agree (f : Function) (s : Site) (a b : State V M) : Prop where
  regs : ∀ i, i < f.nextId → i ∉ s.erased → b.regs i = a.regs i
  cells : b.cells = a.cells
  mem : b.mem = a.mem

/-- Operands that the pass leaves alone. -/
def Kept (f : Function) (s : Site) (vs : List Value) : Prop :=
  ∀ i, .inst i ∈ vs → i < f.nextId ∧ i ∉ s.erased

section
variable {S : Sem V M} {args : Nat → V} {cell : Nat → Bool} {svn : Api} {f : Function} {s : Site}

theorem Agree.reads {a b : State V M} (agree : Agree f s a b) {vs : List Value}
    (kept : Kept f s vs) :
    Reads S args a.regs b.regs vs := by
  intro v hv
  cases v with
  | inst i =>
    obtain ⟨old, stays⟩ := kept i hv
    exact agree.regs i old stays
  | arg i => rfl
  | const c => rfl

theorem Agree.setReg {a b : State V M} (agree : Agree f s a b) (i : Nat) (v : V) :
    Agree f s (a.setReg i v) (b.setReg i v) where
  regs := by
    intro j old stays
    by_cases same : j = i
    · subst same
      simp [State.setReg]
    · simp [State.setReg, same, agree.regs j old stays]
  cells := agree.cells
  mem := agree.mem

variable (cell svn) in
/-- Instructions that read the same do the same. -/
theorem execBody_agree {is : List Inst} {a b : State V M} (agree : Agree f s a b)
    (kept : ∀ i ∈ is, Kept f s i.op.operands) :
    (execBody S args cell is b).1.filterMap (observe svn) =
      (execBody S args cell is a).1.filterMap (observe svn) ∧
      Option.Rel (Agree f s) (execBody S args cell is a).2 (execBody S args cell is b).2 := by
  induction is generalizing a b with
  | nil => exact ⟨rfl, .some agree⟩
  | cons i is ih =>
    have reads : Reads S args a.regs b.regs i.op.operands := agree.reads (kept i List.mem_cons_self)
    have op : i.op.map (eval S args b.regs) = i.op.map (eval S args a.regs) := Op.map_congr reads
    have observes :
        ∀ r r' : Option V, observe svn (⟨i.id, b, i.op.map (eval S args b.regs), r⟩ : Event V M) =
        observe svn ⟨i.id, a, i.op.map (eval S args a.regs), r'⟩ := by
      intro r r'
      unfold observe
      rw [op, agree.mem]
    have step := exec_agree S args cell reads agree.cells agree.mem
    simp only [execBody]
    cases ran : exec S args cell i a with
    | none =>
      rw [ran] at step
      rw [step]
      refine ⟨?_, .none⟩
      simp only [Option.map_none, List.filterMap_cons, List.filterMap_nil, observes none none]
    | some r =>
      obtain ⟨v, a'⟩ := r
      rw [ran] at step
      rw [step]
      dsimp only [Option.map_some]
      have regs := exec_regs ran
      have agree' : Agree f s a' ⟨b.regs, a'.cells, a'.mem⟩ :=
        ⟨fun j old stays => by rw [regs]; exact agree.regs j old stays, rfl, rfl⟩
      obtain ⟨same, rel⟩ := ih (agree'.setReg i.id v) fun j hj => kept j (List.mem_cons_of_mem _ hj)
      refine ⟨?_, rel⟩
      rw [List.filterMap_cons, List.filterMap_cons, observes (some v) (some v), same]

theorem enterPhis_agree {prev : Option Label} {a b : State V M} (agree : Agree f s a b)
    {ps : List Phi} (kept : ∀ p ∈ ps, Kept f s (p.incoming.map Prod.fst)) {regs : Nat → V}
    (entered : enterPhis S args prev a.regs ps = some regs) :
    ∃ regs', enterPhis S args prev b.regs ps = some regs' ∧
      Agree f s { a with regs := regs } { b with regs := regs' } := by
  induction ps generalizing regs with
  | nil =>
    cases entered
    exact ⟨b.regs, rfl, agree⟩
  | cons p ps ih =>
    simp only [enterPhis] at entered
    split at entered
    · rename_i v regs1 value tail
      cases entered
      obtain ⟨regs', entered', agree'⟩ := ih (fun q hq => kept q (List.mem_cons_of_mem _ hq)) tail
      obtain ⟨l, -, listed⟩ := valueFrom_mem value
      have same : eval S args b.regs v = eval S args a.regs v :=
        agree.reads (kept p List.mem_cons_self) v (List.mem_map.mpr ⟨_, listed, rfl⟩)
      refine ⟨Function.update regs' p.id
        (eval S args b.regs v), by simp [enterPhis, value, entered'], ?_⟩
      rw [same]
      exact agree'.setReg p.id (eval S args a.regs v)
    · cases entered

end

/-! ## Visits -/

section
variable (S : Sem V M) (args : Nat → V) (cell : Nat → Bool)

/-- The end of a visit, when the body has been executed. -/
def finish (X : Block) (prev : Option Label) (l : Label) (a : State V M)
    (r : List (Event V M) × Option (State V M)) : Visit V M :=
  match r with
  | (events, none) => ⟨l, prev, a, events, none, .trap⟩
  | (events, some a') => ⟨l, prev, a, events, some a', leave S (X.term.map (eval S args a'.regs))⟩

variable {S args cell}

theorem visit_eq {f : Function} {prev : Option Label}
    {l : Label} {a : State V M} {X : Block} {regs : Nat → V} (block : f.block l = some X)
    (entered : enterPhis S args prev a.regs X.phis = some regs) :
    visit S args cell f prev l a =
      finish S args X prev l a (execBody S args cell X.body { a with regs := regs }) := by
  unfold visit
  simp only [block, entered]
  generalize execBody S args cell X.body { a with regs := regs } = r
  obtain ⟨events, _ | a'⟩ := r <;> rfl

theorem finish_events {X : Block} {prev : Option Label} {l : Label} {a : State V M}
    (r : List (Event V M) × Option (State V M)) :
    (finish S args X prev l a r).events = r.1 := by
  obtain ⟨events, _ | a'⟩ := r <;> rfl

/-- Terminators that read the same leave the same way, up to the moved edges. -/
theorem leave_agree {moved : Label → Label → Prop} {t t' : Term Value} {old new : Nat → V}
    (rerouted : Rerouted moved t t') (reads : Reads S args old new t.operands) :
    (∃ l l', leave S (t.map (eval S args old)) = .goto l ∧
      leave S (t'.map (eval S args new)) = .goto l' ∧
      l' ∈ t'.successors ∧ (l' = l ∨ moved l l')) ∨
      (leave S (t'.map (eval S args new)) = leave S (t.map (eval S args old)) ∧
        ∀ l, leave S (t.map (eval S args old)) ≠ .goto l) := by
  cases rerouted with
  | same =>
    rw [Term.map_congr reads]
    cases left : leave S (t.map (eval S args old)) with
    | goto l =>
      refine .inl ⟨l, l, rfl, rfl, ?_, .inl rfl⟩
      simpa using leave_goto S left
    | ret v => exact .inr ⟨rfl, nofun⟩
    | trap => exact .inr ⟨rfl, nofun⟩
  | @br l l' move => exact .inl ⟨l, l', rfl, rfl, List.mem_singleton_self _, .inr move⟩
  | @condBr c x x' y y' left right =>
    have cond : eval S args new c = eval S args old c := reads c (List.mem_singleton_self _)
    left
    by_cases taken : S.truth (eval S args old c) = true
    · exact ⟨x, x', by simp [Term.map, leave, taken],
        by simp [Term.map, leave, cond, taken], by simp [Term.successors], left⟩
    · exact ⟨y, y', by simp [Term.map, leave, taken],
        by simp [Term.map, leave, cond, taken], by simp [Term.successors], right⟩

end

section
variable {S : Sem V M} {args : Nat → V} {cell : Nat → Bool} {svn : Api} {f : Function} {s : Site}

/-- Two visits after which the runs go on in step. -/
structure InStep (f : Function) (s : Site) (l : Label) (v w : Visit V M) : Prop where
  ends : next v = none → next w = none
  goes : ∀ m a', next v = some (m, a') → ∃ m' b', next w = some (m', b') ∧ Agree f s a' b' ∧
    ((m' = m ∧ m ≠ s.parent) ∨ Moved f s.parent s.phi.incoming l m m')

theorem finish_inStep {X X' : Block} {prev prev' : Option Label} {l : Label} {a b : State V M}
    {r r' : List (Event V M) × Option (State V M)} (rel : Option.Rel (Agree f s) r.2 r'.2)
    (rerouted : Rerouted (Moved f s.parent s.phi.incoming l) X.term X'.term)
    (gone : s.parent ∉ X'.term.successors) (kept : Kept f s X.term.operands) :
    InStep f s l (finish S args X prev l a r) (finish S args X' prev' l b r') := by
  obtain ⟨events, out⟩ := r
  obtain ⟨events', out'⟩ := r'
  cases rel with
  | none => exact ⟨fun _ => rfl, nofun⟩
  | @some a' b' agree =>
    have reads : Reads S args a'.regs b'.regs X.term.operands := agree.reads kept
    rcases leave_agree rerouted reads with ⟨m, m', left, left', member, way⟩ | ⟨same, stops⟩
    · constructor
      · intro none
        simp [finish, next, left] at none
      · intro k a'' goes
        simp only [finish, next, left, Option.some.injEq, Prod.mk.injEq] at goes
        obtain ⟨rfl, rfl⟩ := goes
        refine ⟨m', b', by simp [finish, next, left'], agree, ?_⟩
        rcases way with rfl | move
        · exact .inl ⟨rfl, fun parent => gone (parent ▸ member)⟩
        · exact .inr move
    · have halts : ∀ {Y : Block} {p : Option Label} {c c' : State V M} {es : List (Event V M)},
          (∀ l, leave S (Y.term.map (eval S args c'.regs)) ≠ .goto l) →
            next (finish S args Y p l c (es, some c')) = none := by
        intro Y p c c' es stops
        unfold next finish
        dsimp only
        split
        · rename_i exit _
          exact absurd exit (stops _)
        · rfl
      constructor
      · intro _
        exact halts (same ▸ stops)
      · intro m a'' goes
        rw [halts stops] at goes
        cases goes

theorem execBody_regs_other {is : List Inst} {a a' : State V M} {es : List (Event V M)}
    (ran : execBody S args cell is a = (es, some a')) {i : Nat} (other : i ∉ is.map Inst.id) :
    a'.regs i = a.regs i := by
  induction is generalizing a es with
  | nil =>
    cases ran
    rfl
  | cons j is ih =>
    rw [List.map_cons, List.mem_cons, not_or] at other
    simp only [execBody] at ran
    cases step : exec S args cell j a with
    | none =>
      rw [step] at ran
      cases ran
    | some r =>
      obtain ⟨v, b⟩ := r
      rw [step] at ran
      have out : (execBody S args cell is (b.setReg j.id v)).2 = some a' := congrArg Prod.snd ran
      have later := ih (Prod.ext rfl out) other.2
      rw [later]
      simp [State.setReg, other.1, exec_regs step]

variable (args cell) in
/-- Instructions that go on and are not observed. -/
theorem execBody_silent {is : List Inst} {a : State V M} (silent : ∀ i ∈ is, Silent svn i.op = true)
    (goesOn : ∀ i ∈ is, ∀ (values : Value → V) mem, (S.op i.ty (i.op.map values) mem).isSome) :
    ∃ es a', execBody S args cell is a = (es, some a') ∧ es.filterMap (observe svn) = [] := by
  induction is generalizing a with
  | nil => exact ⟨[], a, rfl, rfl⟩
  | cons i is ih =>
    have plain : (execPlain S args i a).isSome := by
      unfold execPlain
      rw [Option.isSome_map]
      exact goesOn i List.mem_cons_self _ _
    have some : (exec S args cell i a).isSome := by
      unfold exec
      split <;> first | exact plain | (split <;> first | rfl | exact plain)
    obtain ⟨⟨v, b⟩, step⟩ := Option.isSome_iff_exists.mp some
    obtain ⟨es, a', ran, quiet⟩ :=
      ih (a := b.setReg i.id v) (fun j hj => silent j (List.mem_cons_of_mem _ hj))
      fun j hj => goesOn j (List.mem_cons_of_mem _ hj)
    refine ⟨_, a', by simp only [execBody, step, ran]; rfl, ?_⟩
    have unseen : observe svn
        (⟨i.id, a, i.op.map (eval S args a.regs), Option.some v⟩ : Event V M) = none := by
      have here := silent i List.mem_cons_self
      unfold observe
      cases op : i.op with
      | call se callee vs =>
        rw [op] at here
        cases callee with
        | api id =>
          have differ : id ≠ svn.id := by simpa [Silent] using here
          simp [Op.map, differ]
        | direct id => cases here
        | indirect => cases here
        | _ => rfl
      | _ => rfl
    rw [List.filterMap_cons, unseen]
    exact quiet

end

section
variable {S : Sem V M} {svn : Api} {f h : Function} {s : Site} {B : Block}
  {before after : List Inst} {rest : List Value}
variable {τ : Block → Term Value} (args : Nat → V) (cell : Nat → Bool)
variable (verified : Verified f) (alone : Alone S svn f s B before after rest)
  (lifted : Lifted svn f s rest τ h) (records : Records S svn)
include verified alone lifted

theorem kept_of_use {X : Block} (hX : X ∈ f.blocks) {vs : List Value}
    (used : ∀ v ∈ vs, v ∈ (lift s τ X).uses) : Kept f s vs := by
  intro i hi
  obtain ⟨stays, use⟩ := lift_use alone lifted hX (used _ hi)
  exact ⟨verified.ssa.wf.uses_lt hX use, stays⟩

theorem kept_body {X : Block} (hX : X ∈ f.blocks) :
    ∀ i ∈ (lift s τ X).body, Kept f s i.op.operands :=
  fun i hi => kept_of_use verified alone lifted hX fun _ hv =>
    List.mem_append_left _ (List.mem_append_right _ (List.mem_flatMap.mpr ⟨i, hi, hv⟩))

theorem kept_term {X : Block} (hX : X ∈ f.blocks) : Kept f s X.term.operands :=
  kept_of_use verified alone lifted hX fun _ hv =>
    List.mem_append_right _ ((lifted.terms X hX).operands.symm ▸ hv)

/-- A visit to a block other than that of the phi. -/
theorem visit_other {X : Block} (hX : X ∈ f.blocks) (other : X ≠ B) {prev : Option Label}
    (enters : Enters f prev X.label) {a b : State V M} (agree : Agree f s a b) :
    (visit S args cell h prev X.label b).events.filterMap (observe svn) =
        (visit S args cell f prev X.label a).events.filterMap (observe svn) ∧
      InStep f s X.label (visit S args cell f prev X.label a)
        (visit S args cell h prev X.label b) := by
  have wf := verified.ssa.wf
  have same := lift_other verified alone (τ := τ) hX other
  have phis : (lift s τ X).phis = X.phis := by rw [same]; rfl
  have body : (lift s τ X).body = X.body := by rw [same]; rfl
  obtain ⟨regs, entered⟩ := enterPhis_isSome S args wf hX enters a.regs
  have keptPhis : ∀ p ∈ X.phis, Kept f s (p.incoming.map Prod.fst) := by
    intro p hp
    refine kept_of_use verified alone lifted hX fun v hv => ?_
    exact List.mem_append_left _ (List.mem_append_left _ (List.mem_flatMap.mpr ⟨p, phis ▸ hp, hv⟩))
  obtain ⟨regs', entered', agree'⟩ := enterPhis_agree agree keptPhis entered
  rw [visit_eq (wf.block_of_label hX) entered,
    visit_eq (lifted_block verified lifted hX) (phis.symm ▸ entered'), body]
  have keptBody := kept_body verified alone lifted hX
  rw [body] at keptBody
  obtain ⟨observes, rel⟩ := execBody_agree cell svn agree' keptBody
  refine ⟨?_, finish_inStep rel (lifted.terms X hX) (lifted.gone X hX)
    (kept_term verified alone lifted hX)⟩
  rw [finish_events, finish_events]
  exact observes

include records

omit verified alone lifted in
/-- A call of setvirusname is observed and changes its own register only. -/
theorem exec_virusname {i : Inst} {se : Bool} {vs : List Value}
    (op : i.op = .call se (.api svn.id) vs) (a : State V M) :
    ∃ v, exec S args cell i a = some (v, a) ∧
      ∀ r, observe svn (⟨i.id, a, i.op.map (eval S args a.regs), r⟩ : Event V M) =
        some (.virusname (vs.map (eval S args a.regs))) := by
  obtain ⟨v, result⟩ := records i.ty se (vs.map (eval S args a.regs)) a.mem
  refine ⟨v, ?_, fun r => ?_⟩
  · unfold exec
    rw [op]
    dsimp only
    unfold execPlain
    rw [op]
    dsimp only [Op.map]
    rw [result]
    rfl
  · rw [op]
    simp [observe, Op.map]

/-- A visit to the block on an edge. -/
theorem visit_new {j : Nat} {e : Value × Label} (at_j : s.phi.incoming[j]? = some e)
    (prev : Option Label) {a b : State V M} (agree : Agree f s a b) :
    ∃ b', next (visit S args cell h prev (newLabel f j) b) = some (s.parent, b') ∧ Agree f s a b' ∧
      (visit S args cell h prev (newLabel f j) b).events.filterMap (observe svn) =
        [.virusname ((e.1 :: rest).map (eval S args a.regs))] := by
  let call : Inst := ⟨f.nextId + 2 * j, svn.ty, .call svn.sideEffects (.api svn.id) (e.1 :: rest)⟩
  obtain ⟨v, ran, sees⟩ := exec_virusname args cell records (i := call) rfl b
  have values :
      (e.1 :: rest).map (eval S args b.regs) = (e.1 :: rest).map (eval S args a.regs) := by
    refine List.map_congr_left ?_
    refine agree.reads fun i hi => ?_
    obtain ⟨used, kept⟩ := new_use verified alone (List.mem_of_getElem? at_j) hi
    exact ⟨verified.ssa.wf.uses_lt alone.member used, kept i rfl⟩
  rw [visit_eq (lifted_new verified lifted at_j) rfl]
  have body : (callBlock svn (newLabel f j) (f.nextId + 2 * j) s.parent (e.1 :: rest)).body =
    [call] := rfl
  have done : execBody S args cell [call] { b with regs := b.regs } =
      ([⟨call.id, b, call.op.map (eval S args b.regs), some v⟩], some (b.setReg call.id v)) := by
    simp only [execBody, ran]
  rw [body, done]
  refine ⟨b.setReg call.id v, rfl, ⟨?_, agree.cells, agree.mem⟩, ?_⟩
  · intro i old stays
    have differ : i ≠ f.nextId + 2 * j := by omega
    have untouched : (b.setReg call.id v).regs i = b.regs i := by simp [State.setReg, call, differ]
    rw [untouched]
    exact agree.regs i old stays
  · rw [finish_events, List.filterMap_cons, sees, values]
    rfl

/-- A visit to the block of the phi, against the visit to what is left of it. -/
theorem visit_parent {j : Nat} {e : Value × Label} (at_j : s.phi.incoming[j]? = some e)
    {a b : State V M} (agree : Agree f s a b) :
    (visit S args cell f (some e.2) B.label a).events.filterMap (observe svn) =
        .virusname ((e.1 :: rest).map (eval S args a.regs)) ::
          (visit S args cell h (some (newLabel f j)) B.label b).events.filterMap (observe svn) ∧
      InStep f s B.label (visit S args cell f (some e.2) B.label a)
        (visit S args cell h (some (newLabel f j)) B.label b) := by
  have wf := verified.ssa.wf
  have listed : e ∈ s.phi.incoming := List.mem_of_getElem? at_j
  obtain ⟨se, op⟩ := alone.call
  -- the phi takes the value that the new block uses
  obtain ⟨A, hA, here, leads⟩ := wf.preds B alone.member s.phi alone.phi_mem e.1 e.2 listed
  have enters : Enters f (some e.2) B.label := here ▸ .edge hA leads
  obtain ⟨regs, entered⟩ := enterPhis_isSome S args wf alone.member enters a.regs
  obtain ⟨v, chosen, value⟩ :=
    enterPhis_phi S args entered (wf.phi_ids_nodup alone.member) alone.phi_mem
  obtain ⟨l, eq, listed'⟩ := valueFrom_mem chosen
  cases eq
  have same : v = e.1 := wf.agree B alone.member s.phi alone.phi_mem e.2 v e.1 listed' listed
  subst same
  have others : ∀ i, i ≠ s.phi.id → regs i = a.regs i := by
    intro i other
    refine enterPhis_other S args entered ?_
    rw [alone.phis]
    exact fun member => other (List.mem_singleton.mp member)
  have agree0 : Agree f s { a with regs := regs } b := by
    refine ⟨fun i old stays => ?_, agree.cells, agree.mem⟩
    have : i ≠ s.phi.id := fun eq => stays (mem_erased.mpr (.inr eq))
    rw [agree.regs i old stays]
    exact (others i this).symm
  -- what stands before the call
  obtain ⟨es, a1, ran, quiet⟩ :=
    execBody_silent args cell (a := { a with regs := regs }) alone.silent alone.goesOn
  have keptBody := kept_body verified alone lifted alone.member
  rw [lift_body verified alone] at keptBody
  obtain ⟨quiet', rel⟩ :=
    execBody_agree cell svn agree0 fun i hi => keptBody i (List.mem_append_left _ hi)
  rw [ran] at quiet' rel
  rw [quiet] at quiet'
  obtain ⟨b1, ran', agree1⟩ : ∃ b1, (execBody S args cell before b).2 = some b1 ∧
      Agree f s a1 b1 := by
    generalize (execBody S args cell before b).2 = out at rel
    cases rel with
    | some agree1 => exact ⟨_, rfl, agree1⟩
  -- the call itself, whose arguments have the values of the edge
  obtain ⟨result, called, sees⟩ := exec_virusname args cell records op a1
  have unchanged : ∀ i, i ∉ before.map Inst.id → a1.regs i = regs i :=
    fun i other => execBody_regs_other ran other
  have inBody : ∀ i ∈ before, i ∈ B.body := fun i hi => by
    rw [alone.body]
    exact List.mem_append_left _ hi
  have values : (Value.inst s.phi.id :: rest).map (eval S args a1.regs) =
      (e.1 :: rest).map (eval S args a.regs) := by
    rw [List.map_cons, List.map_cons]
    congr 1
    · refine Eq.trans ?_ value
      refine unchanged _ fun member => ?_
      obtain ⟨i, hi, eq⟩ := List.mem_map.mp member
      exact wf.phi_id_ne_inst_id alone.member alone.member alone.phi_mem (inBody i hi) eq
    · refine List.map_congr_left fun v hv => ?_
      cases v with
      | inst d =>
        obtain ⟨notPhi, notHere⟩ := alone.restOutside d hv
        refine (unchanged d fun member => ?_).trans (others d notPhi)
        obtain ⟨i, hi, eq⟩ := List.mem_map.mp member
        exact notHere (eq ▸ List.mem_map_of_mem (inBody i hi))
      | arg i => rfl
      | const c => rfl
  have agree2 : Agree f s (a1.setReg s.call.id result) b1 := by
    refine ⟨fun i old stays => ?_, agree1.cells, agree1.mem⟩
    have other : i ≠ s.call.id := fun eq => stays (mem_erased.mpr (.inl eq))
    rw [agree1.regs i old stays]
    simp [State.setReg, other]
  -- what stands behind it
  obtain ⟨observes, rel2⟩ :=
    execBody_agree cell svn agree2 fun i hi => keptBody i (List.mem_append_right _ hi)
  have first : execBody S args cell B.body { a with regs := regs } =
      (es ++ ⟨s.call.id, a1, s.call.op.map (eval S args a1.regs), some result⟩ ::
        (execBody S args cell after (a1.setReg s.call.id result)).1,
          (execBody S args cell after (a1.setReg s.call.id result)).2) := by
    rw [alone.body, execBody_append, ran]
    simp only [execBody, called]
  have second : execBody S args cell (before ++ after) b =
      ((execBody S args cell before b).1 ++ (execBody S args cell after b1).1,
        (execBody S args cell after b1).2) := by
    have split : execBody S args cell before b = ((execBody S args cell before b).1, some b1) :=
      Prod.ext rfl ran'
    rw [execBody_append, split]
  have bare : enterPhis S args (some (newLabel f j)) b.regs (lift s τ B).phis = some b.regs := by
    rw [lift_phis alone]
    rfl
  rw [visit_eq (wf.block_of_label alone.member) entered,
    visit_eq (lifted_block verified lifted alone.member) bare, lift_body verified alone,
    first]
  have whole : ({ b with regs := b.regs } : State V M) = b := rfl
  rw [whole, second]
  refine ⟨?_, finish_inStep rel2 (lifted.terms B alone.member) (lifted.gone B alone.member)
    (kept_term verified alone lifted alone.member)⟩
  rw [finish_events, finish_events, List.filterMap_append, quiet, List.nil_append,
    List.filterMap_cons, sees, values,
    List.filterMap_append, quiet', List.nil_append, observes]

/-! ## Runs -/

/-- Where the two runs are when they are in step. -/
inductive Matched (f : Function) (s : Site) (prev : Option Label) (l : Label) : Label → Prop
  | same : l ≠ s.parent → Matched f s prev l l
  | edge {j : Nat} {e : Value × Label} : l = s.parent → s.phi.incoming[j]? = some e →
      prev = some e.2 → Matched f s prev l (newLabel f j)

omit verified alone lifted records in
theorem visitedIn_cons_old {X : Block} (hX : X ∈ f.blocks) {v : Visit V M}
    (label : v.label = X.label) (vs : List (Visit V M)) :
    visitedIn f (v :: vs) = X.label :: visitedIn f vs := by
  have has : hasBlock f X.label = true := List.any_eq_true.mpr ⟨X, hX, by simp⟩
  simp [visitedIn, label, has]

omit verified alone lifted records in
theorem visitedIn_cons_new {j : Nat} {v : Visit V M} (label : v.label = newLabel f j)
    (vs : List (Visit V M)) :
    visitedIn f (v :: vs) = visitedIn f vs := by
  have has : hasBlock f (newLabel f j) = false := by
    rw [Bool.eq_false_iff]
    intro has
    obtain ⟨X, hX, same⟩ := List.any_eq_true.mp has
    exact newLabel_ne hX j (by simpa using same : X.label = newLabel f j).symm
  simp [visitedIn, label, has]

theorem run_matched (n : Nat) {prev : Option Label} {X : Block} (hX : X ∈ f.blocks)
    (enters : Enters f prev X.label) {l' : Label} (matched : Matched f s prev X.label l')
    {a b : State V M} (agree : Agree f s a b) :
    ∃ n', n ≤ n' ∧
      observed svn (run S args cell h n' prev l' b) =
        observed svn (run S args cell f n prev X.label a) ∧
      visitedIn f (run S args cell h n' prev l' b) =
        visitedIn f (run S args cell f n prev X.label a) := by
  have wf := verified.ssa.wf
  induction n generalizing prev X l' a b with
  | zero => exact ⟨0, Nat.le_refl 0, rfl, rfl⟩
  | succ n ih =>
    -- after visits in step the rest follows by induction
    have rest : ∀ {v w : Visit V M}, v = visit S args cell f prev X.label a →
        InStep f s X.label v w →
        ∃ n', n ≤ n' ∧
          observed svn (match next w with
            | some (m', b') => run S args cell h n' (some X.label) m' b'
            | none => []) = observed svn (match next v with
            | some (m, a') => run S args cell f n (some X.label) m a'
            | none => []) ∧
          visitedIn f (match next w with
            | some (m', b') => run S args cell h n' (some X.label) m' b'
            | none => []) = visitedIn f (match next v with
            | some (m, a') => run S args cell f n (some X.label) m a'
            | none => []) := by
      rintro v w rfl step
      cases goes : next (visit S args cell f prev X.label a) with
      | none =>
        rw [step.ends goes]
        exact ⟨n, Nat.le_refl n, rfl, rfl⟩
      | some target =>
        obtain ⟨m, a'⟩ := target
        obtain ⟨m', b', goes', agree', way⟩ := step.goes m a' goes
        rw [goes']
        have exit : (visit S args cell f prev X.label a).exit = .goto m := by
          unfold next at goes
          split at goes
          · rename_i exit after
            cases goes
            exact exit
          · cases goes
        have enters' := visit_enters S args exit
        obtain ⟨Y, hY, rfl⟩ : ∃ Y ∈ f.blocks, Y.label = m := by
          generalize hprev : some X.label = q at enters'
          cases enters' with
          | entry entry => cases hprev
          | @edge A hA _ leads => exact verified.targets A hA m leads
        refine ih hY enters' ?_ agree'
        rcases way with ⟨rfl, notParent⟩ | ⟨parent, j, e, at_j, label, rfl⟩
        · exact .same notParent
        · exact .edge parent at_j (by rw [label])
    cases matched with
    | same notParent =>
      have other : X ≠ B := fun eq => notParent (eq ▸ alone.label)
      obtain ⟨observes, step⟩ := visit_other args cell verified alone lifted hX other enters agree
      obtain ⟨n', le, sameObserved, sameVisited⟩ := rest rfl step
      refine ⟨n' + 1, by omega, ?_, ?_⟩
      · rw [run_succ, run_succ]
        simp only [observed, List.flatMap_cons] at sameObserved ⊢
        rw [observes, sameObserved]
      · rw [run_succ, run_succ, visitedIn_cons_old hX (visit_label S args cell h prev X.label b),
          visitedIn_cons_old hX (visit_label S args cell f prev X.label a), sameVisited]
    | @edge j e parent at_j from_ =>
      have sameBlock : X = B :=
        List.inj_on_of_nodup_map wf.labels hX alone.member (parent.trans alone.label.symm)
      subst sameBlock
      subst from_
      obtain ⟨b', goes, agree', sees⟩ :=
        visit_new args cell verified alone lifted records at_j (some e.2) agree
      obtain ⟨observes, step⟩ := visit_parent args cell verified alone lifted records at_j agree'
      obtain ⟨n', le, sameObserved, sameVisited⟩ := rest rfl step
      refine ⟨n' + 2, by omega, ?_, ?_⟩
      · rw [run_succ, goes, ← alone.label]
        dsimp only
        rw [run_succ, run_succ]
        simp only [observed, List.flatMap_cons] at sameObserved ⊢
        rw [sees, observes, sameObserved]
        rfl
      · rw [run_succ, goes, ← alone.label]
        dsimp only
        rw [visitedIn_cons_new (visit_label S args cell h (some e.2) (newLabel f j) b),
          run_succ, run_succ,
          visitedIn_cons_old hX (visit_label S args cell h _ X.label b'),
          visitedIn_cons_old hX (visit_label S args cell f (some e.2) X.label a), sameVisited]

omit args cell in
/-- One call: the runs are the same. -/
theorem lifted_sameRuns : SameRuns S svn f h := by
  intro args cell mem n
  obtain ⟨E, entry⟩ : ∃ E, f.entry = some E := by
    cases first : f.entry with
    | none =>
      have empty : f.blocks = [] := List.head?_eq_none_iff.mp first
      have member := alone.member
      rw [empty] at member
      cases member
    | some E => exact ⟨E, rfl⟩
  have hE : E ∈ f.blocks := List.mem_of_head? entry
  have start := run_matched args cell verified alone lifted records n hE (.entry entry)
    (.same (label_ne_parent verified alone hE (entry_other verified alone entry)))
      (a := initial S mem) (b := initial S mem)
    ⟨fun _ _ _ => rfl, rfl, rfl⟩
  unfold call
  rw [entry, lifted.entry E entry]
  exact start

end

theorem SameRuns.refl (S : Sem V M) (svn : Api) (f : Function) : SameRuns S svn f f :=
  fun _ _ _ n => ⟨n, Nat.le_refl n, rfl, rfl⟩

theorem SameRuns.trans {S : Sem V M} {svn : Api} {f g h : Function} (first : SameRuns S svn f g)
    (second : SameRuns S svn g h) (kept : ∀ l, hasBlock f l = true → hasBlock g l = true) :
    SameRuns S svn f h := by
  intro args cell mem n
  obtain ⟨n', le, observes, visited⟩ := first args cell mem n
  obtain ⟨n'', le', observes', visited'⟩ := second args cell mem n'
  refine ⟨n'', Nat.le_trans le le', observes'.trans observes, ?_⟩
  have coarse : ∀ vs : List (Visit V M), visitedIn f vs = (visitedIn g vs).filter (hasBlock f) := by
    intro vs
    unfold visitedIn
    rw [List.filter_filter]
    refine List.filter_congr fun l _ => ?_
    cases has : hasBlock f l with
    | true => simp [kept l has]
    | false => rfl
  rw [coarse, visited', ← coarse]
  exact visited

section
variable {S : Sem V M} {svn : Api} {f h : Function} {s : Site} {B : Block}
  {before after : List Inst} {rest : List Value}
variable {τ : Block → Term Value}

theorem lifted_hasBlock (lifted : Lifted svn f s rest τ h) (l : Label) (has : hasBlock f l = true) :
    hasBlock h l = true := by
  obtain ⟨X, hX, same⟩ := List.any_eq_true.mp has
  exact List.any_eq_true.mpr ⟨lift s τ X, (mem_lifted lifted).mpr (.inr ⟨X, hX, rfl⟩), same⟩

theorem eraseBlock_other {gone : List Nat} {X : Block} (other : ∀ i ∈ X.ids, i ∉ gone) :
    eraseBlock gone X = X := by
  have phis : X.phis.filter (fun p => p.id ∉ gone) = X.phis := by
    refine List.filter_eq_self.mpr fun p hp => decide_eq_true (other _ ?_)
    exact List.mem_append_left _ (List.mem_append_left _ (List.mem_map_of_mem hp))
  have body : X.body.filter (fun i => i.id ∉ gone) = X.body := by
    refine List.filter_eq_self.mpr fun i hi => decide_eq_true (other _ ?_)
    exact List.mem_append_left _ (List.mem_append_right _ (List.mem_map_of_mem hi))
  unfold eraseBlock
  rw [phis, body]

/-- A call in another block is still alone with its phi. -/
theorem alone_kept (verified : Verified f) (alone : Alone S svn f s B before after rest)
    (lifted : Lifted svn f s rest τ h) {s' : Site} {B' : Block} {before' after' : List Inst}
    {rest' : List Value} (alone' : Alone S svn f s' B' before' after' rest')
    (apart : s'.parent ≠ s.parent) : Alone S svn h s' (lift s τ B') before' after' rest' := by
  have wf := verified.ssa.wf
  have other : B' ≠ B := by
    rintro rfl
    exact apart (alone'.label.symm.trans alone.label)
  have same := lift_other verified alone (τ := τ) alone'.member other
  have body : (lift s τ B').body = B'.body := by rw [same]; rfl
  have newUses : ∀ {j : Nat} {e : Value × Label} {v}, s.phi.incoming[j]? = some e →
      v ∈ (callBlock svn (newLabel f j) (f.nextId + 2 * j) s.parent (e.1 :: rest)).uses →
        v ∈ B.uses := by
    intro j e v at_j use
    have listed :
      v ∈ e.1 :: rest := by simpa [Block.uses, callBlock, Op.operands, Term.operands] using use
    exact (new_use verified alone (List.mem_of_getElem? at_j) listed).1
  have phiUnusedB : .inst s'.phi.id ∉ B.uses := by
    have unused := alone'.phiUnused B alone.member
    rwa [eraseBlock_other] at unused
    intro i hi gone
    rw [List.mem_singleton.mp gone] at hi
    exact other (wf.block_of_id alone'.member alone.member alone'.call_id hi)
  have fewer : ∀ {X : Block}, X ∈ f.blocks →
      ∀ v ∈ (eraseBlock [s'.call.id] (lift s τ X)).uses, v ∈ (eraseBlock [s'.call.id] X).uses := by
    intro X hX v use
    unfold Block.uses at use ⊢
    rcases List.mem_append.mp use with use | use
    · rcases List.mem_append.mp use with use | use
      · obtain ⟨p, hp, use⟩ := List.mem_flatMap.mp use
        obtain ⟨hp, kept⟩ := List.mem_filter.mp hp
        refine List.mem_append_left _ (List.mem_append_left _ (List.mem_flatMap.mpr ⟨p, ?_, use⟩))
        exact List.mem_filter.mpr ⟨List.mem_of_mem_filter hp, kept⟩
      · obtain ⟨i, hi, use⟩ := List.mem_flatMap.mp use
        obtain ⟨hi, kept⟩ := List.mem_filter.mp hi
        refine List.mem_append_left _ (List.mem_append_right _ (List.mem_flatMap.mpr ⟨i, ?_, use⟩))
        exact List.mem_filter.mpr ⟨List.mem_of_mem_filter hi, kept⟩
    · refine List.mem_append_right _ ?_
      have term : (eraseBlock [s'.call.id] (lift s τ X)).term = τ X := rfl
      rw [term, (lifted.terms X hX).operands] at use
      exact use
  constructor
  case member => exact (mem_lifted lifted).mpr (.inr ⟨B', alone'.member, rfl⟩)
  case label => exact alone'.label
  case phis => rw [same]; exact alone'.phis
  case body => rw [body]; exact alone'.body
  case call => exact alone'.call
  case phiUnused =>
    intro A hA use
    rcases (mem_lifted lifted).mp hA with ⟨j, e, at_j, rfl⟩ | ⟨X, hX, rfl⟩
    · exact phiUnusedB (newUses at_j (mem_erase_uses use))
    · exact alone'.phiUnused X hX (fewer hX _ use)
  case callUnused =>
    intro A hA use
    rcases (mem_lifted lifted).mp hA with ⟨j, e, at_j, rfl⟩ | ⟨X, hX, rfl⟩
    · exact alone'.callUnused B alone.member (newUses at_j use)
    · exact alone'.callUnused X hX (mem_erase_uses (mem_lift_uses lifted hX use))
  case restOutside => rw [body]; exact alone'.restOutside
  case restPlain => exact alone'.restPlain
  case silent => exact alone'.silent
  case goesOn => exact alone'.goesOn

/-- Two calls that are alone with their phis are in different blocks. -/
theorem parents_apart (verified : Verified f) {s' : Site} (clean : Clean S svn f s)
    (clean' : Clean S svn f s') (differ : s.call.id ≠ s'.call.id) : s.parent ≠ s'.parent := by
  intro same
  obtain ⟨B, before, after, rest, alone⟩ := clean
  obtain ⟨B', before', after', rest', alone'⟩ := clean'
  have sameBlock : B = B' :=
    List.inj_on_of_nodup_map verified.ssa.wf.labels alone.member alone'.member
      ((alone.label.trans same).trans alone'.label.symm)
  subst sameBlock
  have samePhi : s'.phi = s.phi := List.mem_singleton.mp (alone.phis ▸ alone'.phi_mem)
  obtain ⟨se, op⟩ := alone'.call
  refine alone.phiUnused B alone.member ?_
  refine List.mem_append_left _ (List.mem_append_right _ (List.mem_flatMap.mpr ⟨s'.call, ?_, ?_⟩))
  · exact List.mem_filter.mpr ⟨alone'.call_mem, decide_eq_true fun gone =>
      differ (List.mem_singleton.mp gone).symm⟩
  · rw [op, samePhi]
    exact List.mem_cons_self

end

/-- All calls, one after the other. -/
theorem splitCalls_preserve {S : Sem V M} {svn : Api} (records : Records S svn) {calls : List Site}
    {f f' : Function} (verified : Verified f) (clean : ∀ s ∈ calls, Clean S svn f s)
    (apart : (calls.map Site.parent).Nodup) (ok : calls.foldlM (splitCall svn) f = .ok f') :
    Verified f' ∧ SameRuns S svn f f' := by
  induction calls generalizing f with
  | nil =>
    cases ok
    exact ⟨verified, .refl S svn _⟩
  | cons s calls ih =>
    rw [List.foldlM_cons] at ok
    obtain ⟨g, first, later⟩ := bind_eq_ok.mp ok
    obtain ⟨B, before, after, rest, alone⟩ := clean s List.mem_cons_self
    obtain ⟨τ, lifted⟩ := splitCall_lifted verified alone first
    rw [List.map_cons, List.nodup_cons] at apart
    have clean' : ∀ s' ∈ calls, Clean S svn g s' := by
      intro s' hs'
      obtain ⟨B', before', after', rest', alone'⟩ := clean s' (List.mem_cons_of_mem _ hs')
      refine ⟨_, _, _, _, alone_kept verified alone lifted alone' fun same => apart.1 ?_⟩
      exact same ▸ List.mem_map_of_mem hs'
    obtain ⟨verified', runs⟩ := ih (lifted_verified verified alone lifted) clean' apart.2 later
    exact ⟨verified',
      (lifted_sameRuns verified alone lifted records).trans runs (lifted_hasBlock lifted)⟩

/-- A clean call is found once among the users of setvirusname. -/
theorem Clean.usesOf_eq {S : Sem V M} {svn : Api} {f : Function} {s : Site}
    (clean : Clean S svn f s) : usesOf svn s.call.op = 1 := by
  obtain ⟨B, before, after, rest, alone⟩ := clean
  obtain ⟨se, op⟩ := alone.call
  have none : rest.countP (isFunction svn.id) = 0 :=
    List.countP_eq_zero.mpr fun v hv => by simp [alone.restPlain v hv]
  rw [op]
  simp [usesOf, isFunction, none]

theorem siteOf_call {f : Function} {i : Inst} {s : Site} (found : siteOf f i = some s) :
    s.call = i := by
  unfold siteOf at found
  split at found
  · obtain ⟨B, -, inner⟩ := List.exists_of_findSome?_eq_some found
    obtain ⟨p, -, rfl⟩ := Option.map_eq_some_iff.mp inner
    rfl
  · cases found

theorem sites_nodup {S : Sem V M} {svn : Api} {f : Function} (wf : f.WellFormed)
    (clean : ∀ s ∈ sites svn f, Clean S svn f s) :
    ((sites svn f).map fun s => s.call.id).Nodup := by
  have each : ∀ A ∈ f.blocks, ∀ i ∈ A.body,
      (((List.replicate (usesOf svn i.op) i).filterMap (siteOf f)).map fun s =>
        s.call.id).Sublist [i.id] := by
    intro A hA i hi
    cases found : siteOf f i with
    | none => simp [List.filterMap_replicate_of_none found]
    | some s =>
      rw [List.filterMap_replicate_of_some found, List.map_replicate, siteOf_call found]
      by_cases unused : usesOf svn i.op = 0
      · rw [unused]
        exact List.nil_sublist _
      · have member : s ∈ sites svn f := by
          refine List.mem_flatMap.mpr ⟨A, hA, List.mem_flatMap.mpr ⟨i, hi, ?_⟩⟩
          rw [List.filterMap_replicate_of_some found]
          exact List.mem_replicate.mpr ⟨unused, rfl⟩
        have once := (clean s member).usesOf_eq
        rw [siteOf_call found] at once
        rw [once]
        exact List.Sublist.refl _
  have inBlock : ∀ A ∈ f.blocks,
      ((A.body.flatMap fun i => (List.replicate (usesOf svn i.op) i).filterMap (siteOf f)).map
      fun s => s.call.id).Sublist A.ids := by
    intro A hA
    have inBody := List.Sublist.flatMap_right A.body (each A hA)
    rw [← List.map_flatMap, ← List.map_eq_flatMap] at inBody
    exact inBody.trans ((List.sublist_append_right _ _).trans (List.sublist_append_left _ _))
  have whole := List.Sublist.flatMap_right f.blocks inBlock
  rw [← List.map_flatMap] at whole
  exact wf.ids.sublist whole

/-- Splitting the calls of setvirusname keeps the function well formed and every run the same,
if every call with a phi as its name is alone with that phi. -/
theorem fixup_preserves {S : Sem V M} {svn : Api} (records : Records S svn)
    {f f' : Function} (verified : Verified f) (clean : ∀ s ∈ sites svn f, Clean S svn f s)
    (transforms : Transforms svn f f') : Verified f' ∧ SameRuns S svn f f' := by
  have wf := verified.ssa.wf
  obtain ⟨calls, perm, ok⟩ := transforms
  have cleanCalls : ∀ s ∈ calls, Clean S svn f s := fun s hs => clean s (perm.mem_iff.mp hs)
  have ids : (calls.map fun s => s.call.id).Nodup :=
    (perm.map _).nodup_iff.mpr (sites_nodup wf clean)
  have parents : (calls.map Site.parent).Nodup := by
    refine List.Nodup.map_on (fun s hs s' hs' same => ?_) (List.Nodup.of_map _ ids)
    by_contra differ
    refine parents_apart verified (cleanCalls s hs) (cleanCalls s' hs')
      (fun sameId => differ ?_) same
    exact List.inj_on_of_nodup_map ids hs hs' sameId
  have old : ∀ s ∈ calls, ∀ i ∈ s.erased, i < f.nextId := by
    intro s hs
    obtain ⟨B, before, after, rest, alone⟩ := cleanCalls s hs
    exact alone.erased_lt wf
  exact splitCalls_preserve records verified cleanCalls parents (fixup_eq old ok)

/-! Two names for one call, and the same with a second phi for the result. -/

def nameApi : Api := ⟨5, .int 32, true⟩

def nameCall : Inst := ⟨11, .int 32, .call true (.api 5) [.inst 10, .const (.int 32 0)]⟩

def namePhi : Phi := ⟨10, .ptr, [(.const (.global 1), 1), (.const (.global 2), 2)]⟩

def joinedNames (phis : List Phi) (result : Value) : Function where
  args := [.int 1]
  blocks :=
    [⟨0, [], [], 20, .condBr (.arg 0) 1 2⟩, ⟨1, [], [], 21, .br 3⟩, ⟨2, [], [], 22, .br 3⟩,
      ⟨3, namePhi :: phis, [nameCall], 23, .ret (some result)⟩]
  nextId := 30

/-- The address of a global is its number, so that the names are told apart. All instructions give
zero. -/
def numberedNames : Sem Nat Unit where
  const := fun c =>
    match c with
    | .global id => id
    | .int _ value => value
    | _ => 0
  undef := 0
  op := fun _ _ _ => some (0, ())
  truth := fun v => v = 1
  toNat := id

theorem joinedNames_verified : Verified (joinedNames [] (.const (.int 32 0))) :=
  ⟨(SsaChecks.ssa_of_checks (by decide)).1, by decide, by unfold EntryPerEdge; decide⟩

theorem joinedNames_sites :
    sites nameApi (joinedNames [] (.const (.int 32 0))) = [⟨3, namePhi, nameCall⟩] := rfl

theorem fixup_preserves_joinedNames :
    ∃ f', Transforms nameApi (joinedNames [] (.const (.int 32 0))) f' ∧ Verified f' ∧
    SameRuns numberedNames nameApi (joinedNames [] (.const (.int 32 0))) f' := by
  have clean : ∀ s ∈ sites nameApi (joinedNames [] (.const (.int 32 0))),
      Clean numberedNames nameApi (joinedNames [] (.const (.int 32 0))) s := by
    intro s hs
    rw [joinedNames_sites] at hs
    rw [List.mem_singleton.mp hs]
    refine ⟨⟨3, [namePhi], [nameCall], 23, .ret (some (.const (.int 32 0)))⟩, [], [],
      [.const (.int 32 0)], ?_⟩
    refine ⟨by simp [joinedNames], rfl, rfl, rfl, ⟨true, rfl⟩, ?_,
      ?_, by simp, by simp [isFunction], by simp, by simp⟩
    · simp [joinedNames, eraseBlock, Block.uses, nameCall, namePhi, Term.operands]
    · simp [joinedNames, Block.uses, nameCall, namePhi, Op.operands, Term.operands]
  obtain ⟨f', transforms⟩ : ∃ f', Transforms nameApi (joinedNames [] (.const (.int 32 0))) f' :=
    ⟨_, _, List.Perm.refl _, rfl⟩
  exact ⟨f', transforms,
    fixup_preserves (fun _ _ _ _ => ⟨0, rfl⟩) joinedNames_verified clean transforms⟩

def resultPhi : Phi := ⟨12, .int 32, [(.const (.int 32 0), 1), (.const (.int 32 1), 2)]⟩

def brokenNames : Function where
  args := [.int 1]
  blocks :=
    [⟨0, [], [], 20, .condBr (.arg 0) 1 2⟩, ⟨1, [], [], 21, .br 4⟩, ⟨2, [], [], 22, .br 5⟩,
      callBlock nameApi 4 30 3 [.const (.global 1), .const (.int 32 0)],
      callBlock nameApi 5 32 3 [.const (.global 2), .const (.int 32 0)],
      ⟨3, [resultPhi], [], 23, .ret (some (.inst 12))⟩]
  nextId := 34

/-- The second phi still lists the old predecessors. -/
theorem second_phi_broken : Verified (joinedNames [resultPhi] (.inst 12)) ∧
    Transforms nameApi (joinedNames [resultPhi] (.inst 12)) brokenNames ∧
      ¬ brokenNames.WellFormed := by
  refine ⟨⟨(SsaChecks.ssa_of_checks (by decide)).1, by decide, by unfold EntryPerEdge; decide⟩,
    ⟨_, List.Perm.refl _, rfl⟩, ?_⟩
  intro wf
  have pred := wf.preds ⟨3, [resultPhi], [], 23, .ret (some (.inst 12))⟩ (by simp [brokenNames])
    resultPhi (by simp)
    (.const (.int 32 0)) 1 (by simp [resultPhi])
  revert pred
  decide

end SetVirusName
