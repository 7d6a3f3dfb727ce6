import ClamBC.LogicalCompiler
import ClamBC.LogicalShape

/-!
# What an accepted function leaves behind

Every instruction is processed once, with the map as it is then. Entries do not change
afterwards, so at the end each entry is what its instruction gets from the final map
itself: the order in which the blocks were processed no longer matters. The exits are
those of the return blocks, in layout order.
-/

namespace LogicalMap

open Ir LogicalNode LogicalCompiler LogicalShape Fallible

/-- The second map has every entry of the first. -/
def Ext (m m' : Nat → Option Ptr) : Prop := ∀ i p, m i = some p → m' i = some p

theorem Ext.refl (m : Nat → Option Ptr) : Ext m m := fun _ _ h => h

theorem Ext.trans {m m' m'' : Nat → Option Ptr} (first : Ext m m') (second : Ext m' m'') :
    Ext m m'' :=
  fun i p h => second i p (first i p h)

theorem Ext.lookup {m m' : Nat → Option Ptr} (ext : Ext m m') {v : Value} {p : Ptr}
    (found : lookup m v = some p) : LogicalCompiler.lookup m' v = some p := by
  cases v with
  | inst i => exact ext i p found
  | arg i => cases found
  | const c => cases found

theorem Ext.absent {m m' : Nat → Option Ptr} (ext : Ext m m') {v : Value}
    (absent : LogicalCompiler.lookup m' v = none) : LogicalCompiler.lookup m v = none := by
  by_contra there
  obtain ⟨p, found⟩ := Option.ne_none_iff_exists'.mp there
  rw [ext.lookup found] at absent
  cases absent

section
variable {o : PtrOrder} {gv : GlobalId} {f : Function} {m m' : Nat → Option Ptr} (ext : Ext m m')
include ext

/-! More entries do not change what has been found. -/

theorem getLogicalNode_mono {r : Route} {acc n : Ptr}
    (h : getLogicalNode o (lookup m) r acc = .ok n) :
    getLogicalNode o (lookup m') r acc = .ok n := by
  induction r generalizing acc with
  | nil => exact h
  | cons hop r ih =>
    unfold getLogicalNode at h ⊢
    split at h
    · exact ih h
    · split at h
      · cases h
      · next found =>
        rw [ext.lookup found]
        obtain ⟨ln, direction, h⟩ := bind_eq_ok.mp h
        refine bind_eq_ok.mpr ⟨ln, direction, ?_⟩
        cases acc with
        | none => exact ih h
        | some a =>
          obtain ⟨both, conjunction, h⟩ := bind_eq_ok.mp h
          exact bind_eq_ok.mpr ⟨both, conjunction, ih h⟩

theorem withIncoming_mono {v : Value} {path n : Ptr}
    (h : withIncoming o (lookup m) v path = .ok n) :
    withIncoming o (lookup m') v path = .ok n := by
  unfold withIncoming at h ⊢
  split_ifs at h ⊢
  · exact h
  · split at h
    · cases h
    · next found => rw [ext.lookup found]; exact h

theorem phiRoutes_mono {v : Value}
    {routes : List Route} {acc n : Ptr} (h : phiRoutes o (lookup m) v routes acc = .ok n) :
    phiRoutes o (lookup m') v routes acc = .ok n := by
  induction routes generalizing acc with
  | nil => exact h
  | cons r routes ih =>
    unfold phiRoutes at h ⊢
    obtain ⟨path, along, h⟩ := bind_eq_ok.mp h
    obtain ⟨tmp, incoming, h⟩ := bind_eq_ok.mp h
    refine bind_eq_ok.mpr ⟨path, getLogicalNode_mono ext along, ?_⟩
    refine bind_eq_ok.mpr ⟨tmp, withIncoming_mono ext incoming, ?_⟩
    cases acc with
    | none => exact ih h
    | some a =>
      obtain ⟨either, disjunction, h⟩ := bind_eq_ok.mp h
      exact bind_eq_ok.mpr ⟨either, disjunction, ih h⟩

theorem processPHI_mono {l : Label} {p : Phi} {n : Ptr}
    (h : processPHI o (lookup m) f l p = .ok n) :
    processPHI o (lookup m') f l p = .ok n := by
  have incoming : ∀ (routes : List Route) (es : List (Value × Label)) (acc : Ptr),
      phiIncoming o (lookup m) routes es acc = .ok n →
        phiIncoming o (lookup m') routes es acc = .ok n := by
    intro routes es
    induction es with
    | nil => exact fun _ h => h
    | cons e es ih =>
      intro acc h
      unfold phiIncoming at h ⊢
      split_ifs at h ⊢
      · exact ih acc h
      · obtain ⟨found, ends, h⟩ := bind_eq_ok.mp h
        obtain ⟨acc', either, h⟩ := bind_eq_ok.mp h
        refine bind_eq_ok.mpr ⟨found, ends, ?_⟩
        exact bind_eq_ok.mpr ⟨acc', phiRoutes_mono ext either, ih acc' h⟩
  unfold processPHI at h ⊢
  split at h
  · exact h
  · exact incoming _ _ _ h

theorem selectArm_mono {guard : Ptr} {msg : Message}
    {arm : Value} {r : Message ⊕ Ptr} (h : selectArm o (lookup m) guard msg arm = .ok r) :
    selectArm o (lookup m') guard msg arm = .ok r := by
  unfold selectArm at h ⊢
  split at h
  · next found => rw [ext.lookup found]; exact h
  · split at h
    · exact h
    · exact h
    · exact h
    · cases h

theorem processICmp_mono {pred : Predicate} {lhs rhs : Value} {n : Ptr}
    (h : processICmp o (lookup m) pred lhs rhs = .ok (.bind n)) :
    processICmp o (lookup m') pred lhs rhs = .ok (.bind n) := by
  have compared : ∀ op0 op1, compareWith o (lookup m) pred op0 op1 = .ok (.bind n) →
      compareWith o (lookup m') pred op0 op1 = .ok (.bind n) := by
    intro op0 op1 h
    unfold compareWith at h ⊢
    split at h
    · obtain ⟨v, fits, h⟩ := bind_eq_ok.mp h
      refine bind_eq_ok.mpr ⟨v, fits, ?_⟩
      split_ifs at h ⊢
      · cases h
      · split at h
        · cases h
        · next found => rw [ext.lookup found]; exact h
    · cases h
  unfold processICmp at h ⊢
  split_ifs at h ⊢
  · exact compared _ _ h
  · exact compared _ _ h

theorem processSelect_mono {c t e : Value} {n : Ptr}
    (h : processSelect o (lookup m) c t e = .ok (.bind n)) :
    processSelect o (lookup m') c t e = .ok (.bind n) := by
  unfold processSelect at h ⊢
  split at h
  · cases h
  · next found =>
    rw [ext.lookup found]
    split_ifs at h with neither
    · cases h
    · have neither' : ¬ (lookup m' t = none ∧ lookup m' e = none) :=
        fun absent => neither ⟨ext.absent absent.1, ext.absent absent.2⟩
      simp only [if_neg neither']
      obtain ⟨first, armTrue, h⟩ := bind_eq_ok.mp h
      refine bind_eq_ok.mpr ⟨first, selectArm_mono ext armTrue, ?_⟩
      cases first with
      | inl msg => cases h
      | inr n =>
        obtain ⟨notCond, negation, h⟩ := bind_eq_ok.mp h
        obtain ⟨second, armFalse, h⟩ := bind_eq_ok.mp h
        exact bind_eq_ok.mpr ⟨notCond, negation,
          bind_eq_ok.mpr ⟨second, selectArm_mono ext armFalse, h⟩⟩

theorem processAdd_mono {lhs rhs : Value} {n : Ptr}
    (h : processAdd (lookup m) lhs rhs = .ok (.bind n)) :
    processAdd (lookup m') lhs rhs = .ok (.bind n) := by
  unfold processAdd at h ⊢
  split at h
  · cases h
  · next found =>
    rw [ext.lookup found]
    split at h
    · exact h
    · split at h
      · cases h
      · next found' => rw [ext.lookup found']; exact h

/-- An instruction that is bound to a node is bound to the same node when there are more entries. -/
theorem processInst_mono {i : Inst} {n : Ptr} (h : processInst o gv (lookup m) i = .ok (.bind n)) :
    processInst o gv (lookup m') i = .ok (.bind n) := by
  unfold processInst at h ⊢
  split at h
  · cases h
  · cases h
  · exact h
  · exact processICmp_mono ext h
  · exact processSelect_mono ext h
  · exact processAdd_mono ext h
  · split at h
    · next left right => rw [ext.lookup left, ext.lookup right]; exact h
    · cases h
  · split at h
    · next left right => rw [ext.lookup left, ext.lookup right]; exact h
    · cases h
  · unfold processXor at h ⊢
    split at h
    · split at h
      · cases h
      · next found => rw [ext.lookup found]; exact h
    · cases h
  · unfold processZExt at h ⊢
    split at h
    · cases h
    · next found => rw [ext.lookup found]; exact h
  · cases h

end

/-! The walk over the function. -/

/-- A state changes only in the map, at new places. -/
structure Grows (ids : List Nat) (s s' : State) : Prop where
  elsewhere : ∀ i, i ∉ ids → s'.map i = s.map i
  stack : s'.stack = s.stack
  exitNodesOr : s'.exitNodesOr = s.exitNodesOr
  exitNodesAnd : s'.exitNodesAnd = s.exitNodesAnd

def Fresh (ids : List Nat) (m : Nat → Option Ptr) : Prop := ∀ i ∈ ids, m i = none

theorem Grows.ext {ids : List Nat} {s s' : State} (grows : Grows ids s s')
    (fresh : Fresh ids s.map) :
    Ext s.map s'.map := by
  intro i p found
  rw [grows.elsewhere i fun member => by rw [fresh i member] at found; cases found]
  exact found

theorem Grows.cons {i : Nat} {ids : List Nat} {s s' : State} {p : Ptr}
    (grows : Grows ids (s.setNode i p) s') :
    Grows (i :: ids) s s' := by
  refine ⟨fun j hj => ?_, grows.stack, grows.exitNodesOr, grows.exitNodesAnd⟩
  rw [List.mem_cons, not_or] at hj
  rw [grows.elsewhere j hj.2]
  exact Function.update_of_ne hj.1 _ _

theorem Fresh.setNode {i : Nat} {ids : List Nat} {s : State} {p : Ptr}
    (fresh : Fresh (i :: ids) s.map) (notMem : i ∉ ids) : Fresh ids (s.setNode i p).map := by
  intro j hj
  have ne : j ≠ i := by
    rintro rfl
    exact notMem hj
  simp only [State.setNode, Function.update_of_ne ne]
  exact fresh j (List.mem_cons_of_mem i hj)

/-- An instruction is bound to what it gets from the map, or it has no entry. -/
def InstSettled (o : PtrOrder) (gv : GlobalId) (map : Nat → Option Ptr) (i : Inst) : Prop :=
  map i.id = none ∨ ∃ n, map i.id = some n ∧ processInst o gv (lookup map) i = .ok (.bind n)

def PhiSettled (o : PtrOrder) (f : Function) (map : Nat → Option Ptr) (l : Label)
    (p : Phi) : Prop :=
  ∃ n, map p.id = some n ∧ processPHI o (lookup map) f l p = .ok n

section
variable {o : PtrOrder} {gv : GlobalId} {f : Function}

theorem processPhis_settled {l : Label} {ps : List Phi}
    {s s' : State} (ran : processPhis o f l ps s = .ok s') (nodup : (ps.map Phi.id).Nodup)
    (fresh : Fresh (ps.map Phi.id) s.map) :
    Grows (ps.map Phi.id) s s' ∧ ∀ p ∈ ps, PhiSettled o f s'.map l p := by
  induction ps generalizing s with
  | nil =>
    cases ran
    exact ⟨⟨fun _ _ => rfl, rfl, rfl, rfl⟩, by simp⟩
  | cons p ps ih =>
    rw [List.map_cons, List.nodup_cons] at nodup
    obtain ⟨n, here, rest⟩ := bind_eq_ok.mp ran
    have fresh' := Fresh.setNode (p := n) fresh nodup.1
    obtain ⟨grows, settled⟩ := ih rest nodup.2 fresh'
    have whole := grows.cons
    refine ⟨whole, fun q hq => ?_⟩
    rcases List.mem_cons.mp hq with rfl | hq
    · refine ⟨n, ?_, processPHI_mono (whole.ext fresh) here⟩
      rw [grows.elsewhere _ nodup.1]
      exact Function.update_self _ _ _
    · exact settled q hq

theorem processBody_settled {is : List Inst} {s s' : State} {valid valid' : Bool}
    (ran : processBody o gv is s valid = .ok (.on s' valid')) (nodup : (is.map Inst.id).Nodup)
    (fresh : Fresh (is.map Inst.id) s.map) :
    Grows (is.map Inst.id) s s' ∧ ∀ i ∈ is, InstSettled o gv s'.map i := by
  induction is generalizing s valid with
  | nil =>
    cases ran
    exact ⟨⟨fun _ _ => rfl, rfl, rfl, rfl⟩, by simp⟩
  | cons i is ih =>
    rw [List.map_cons, List.nodup_cons] at nodup
    have fresh' : Fresh (is.map Inst.id) s.map := fun j hj => fresh j (List.mem_cons_of_mem _ hj)
    simp only [processBody] at ran
    obtain ⟨step, here, rest⟩ := bind_eq_ok.mp ran
    -- an instruction without an entry stays without one
    have unbound : ∀ t : State, t.map = s.map → t.stack = s.stack → t.exitNodesOr = s.exitNodesOr →
        t.exitNodesAnd = s.exitNodesAnd → Grows (is.map Inst.id) t s' →
          (∀ j ∈ is, InstSettled o gv s'.map j) →
        Grows ((i :: is).map Inst.id) s s' ∧ ∀ j ∈ i :: is, InstSettled o gv s'.map j := by
      intro t map stack exitsOr exitsAnd grows settled
      refine ⟨⟨fun j hj => ?_, grows.stack.trans stack, grows.exitNodesOr.trans exitsOr,
        grows.exitNodesAnd.trans exitsAnd⟩, fun j hj => ?_⟩
      · rw [grows.elsewhere j fun member => hj (List.mem_cons_of_mem _ member), map]
      · rcases List.mem_cons.mp hj with rfl | hj
        · left
          rw [grows.elsewhere _ nodup.1, map]
          exact fresh _ List.mem_cons_self
        · exact settled j hj
    cases step with
    | skip =>
      obtain ⟨grows, settled⟩ := ih rest nodup.2 fresh'
      exact unbound s rfl rfl rfl rfl grows settled
    | flag msg =>
      obtain ⟨grows, settled⟩ := ih rest nodup.2 fresh'
      exact unbound (s.report msg (some i.id)) rfl rfl rfl rfl grows settled
    | reject msg => cases rest
    | bind n =>
      obtain ⟨grows, settled⟩ := ih rest nodup.2 (Fresh.setNode fresh nodup.1)
      have whole := grows.cons
      refine ⟨whole, fun j hj => ?_⟩
      rcases List.mem_cons.mp hj with rfl | hj
      · refine Or.inr ⟨n, ?_, processInst_mono (whole.ext fresh) here⟩
        rw [grows.elsewhere _ nodup.1]
        exact Function.update_self _ _ _
      · exact settled j hj

end

/-- What a return adds to the nodes that are or-ed: FALSE for the constant false, and the node of
a computed value. -/
def exitOr (o : PtrOrder) (map : Nat → Option Ptr) : Term Value → List Node
  | .ret (some (.const (.int _ c))) => if c = 0 then [.const false] else []
  | .ret (some v) =>
    match lookup map v with
    | some (some n) => [getAnd o [n]]
    | _ => []
  | _ => []

def exitAnd : Term Value → List Node
  | .ret (some (.const (.int _ c))) => if c = 0 then [] else [.const true]
  | _ => []

/-- What an accepted terminator has found. -/
def TermSettled (o : PtrOrder) (map : Nat → Option Ptr) : Term Value → Prop
  | .br _ => True
  | .condBr c _ _ => ∃ n negated, lookup map c = some (some n) ∧ getNot o n = .ok negated
  | .ret (some v) => isConstantInt v = true ∨ ∃ n, lookup map v = some (some n)
  | _ => False

structure BlockSettled (o : PtrOrder) (gv : GlobalId) (f : Function)
    (map : Nat → Option Ptr) (B : Block) :
    Prop where
  phi : ∀ p ∈ B.phis, PhiSettled o f map B.label p
  inst : ∀ i ∈ B.body, InstSettled o gv map i
  term : TermSettled o map B.term

section
variable {o : PtrOrder} {gv : GlobalId} {f : Function}

theorem processTerm_settled {id : Nat} {t : Term Value} {s s' : State} {valid : Bool}
    (empty : s.stack = []) (ran : processTerm o id t s valid = .ok (s', true)) :
    s'.map = s.map ∧ s'.stack = [] ∧ s'.exitNodesOr = s.exitNodesOr ++ exitOr o s.map t ∧
      s'.exitNodesAnd = s.exitNodesAnd ++ exitAnd t ∧ TermSettled o s.map t := by
  cases t with
  | br l =>
    cases ran
    exact ⟨rfl, empty, by simp [exitOr], by simp [exitAnd], trivial⟩
  | switch c d cases => cases ran
  | unreachable => cases ran
  | condBr c t e =>
    simp only [processTerm] at ran
    split at ran
    · cases ran
    · next p found =>
      cases p with
      | none => cases ran
      | some n =>
        obtain ⟨_, same, ran⟩ := bind_eq_ok.mp ran
        cases same
        obtain ⟨negated, negation, ran⟩ := bind_eq_ok.mp ran
        cases ran
        refine ⟨rfl,
          ?_, by simp [exitOr, State.push, State.pop], by simp [exitAnd, State.push, State.pop],
          n, negated, found, negation⟩
        simp [State.push, State.pop, empty]
  | ret v =>
    cases v with
    | none => cases ran
    | some v =>
      simp only [processTerm] at ran
      split at ran
      · next bits c =>
        rw [empty, getAnd_nil] at ran
        split_ifs at ran with zero
        · cases ran
          exact ⟨rfl,
            empty, by simp [exitOr, zero, State.pushOr], by simp [exitAnd, zero, State.pushOr],
            Or.inl rfl⟩
        · cases ran
          exact ⟨rfl,
            empty, by simp [exitOr, zero, State.pushAnd], by simp [exitAnd, zero, State.pushAnd],
            Or.inl rfl⟩
      · next notInt =>
        split at ran
        · cases ran
        · next p found =>
          cases p with
          | none => cases ran
          | some n =>
            cases ran
            refine ⟨rfl, by simp [State.push, State.pop, State.pushOr, empty], ?_, ?_,
              Or.inr ⟨n, found⟩⟩
            · cases v with
              | inst d => simp [exitOr, found, State.push, State.pop, State.pushOr, empty]
              | arg i => cases found
              | const c => cases found
            · cases v with
              | inst d => simp [exitAnd, State.push, State.pop, State.pushOr]
              | arg i => cases found
              | const c => cases found

/-- An accepted block. -/
theorem processBB_settled {B : Block} {s s' : State}
    (nodup : B.ids.Nodup) (fresh : Fresh B.ids s.map) (empty : s.stack = [])
    (ran : processBB o gv f B s = .ok (s', true)) :
    (∀ i, i ∉ B.ids → s'.map i = s.map i) ∧ s'.stack = [] ∧
      s'.exitNodesOr = s.exitNodesOr ++ exitOr o s'.map B.term ∧
      s'.exitNodesAnd = s.exitNodesAnd ++ exitAnd B.term ∧ BlockSettled o gv f s'.map B := by
  have apart := List.nodup_append.mp (List.nodup_append.mp nodup).1
  simp only [Block.ids] at fresh
  have freshPhis : Fresh (B.phis.map Phi.id) s.map :=
    fun i hi => fresh i (List.mem_append_left _ (List.mem_append_left _ hi))
  simp only [processBB] at ran
  obtain ⟨s₁, phis, ran⟩ := bind_eq_ok.mp ran
  obtain ⟨walk, body, ran⟩ := bind_eq_ok.mp ran
  cases walk with
  | rejected s₂ => cases ran
  | on s₂ valid =>
    obtain ⟨growsPhis, settledPhis⟩ := processPhis_settled phis apart.1 freshPhis
    have freshBody : Fresh (B.body.map Inst.id) s₁.map := by
      intro i hi
      rw [growsPhis.elsewhere i fun member => apart.2.2 i member i hi rfl]
      exact fresh i (List.mem_append_left _ (List.mem_append_right _ hi))
    obtain ⟨growsBody, settledBody⟩ := processBody_settled body apart.2.1 freshBody
    have ext := growsBody.ext freshBody
    obtain ⟨map, stack, exitsOr, exitsAnd, settledTerm⟩ :=
      processTerm_settled (growsBody.stack.trans (growsPhis.stack.trans empty)) ran
    refine ⟨fun i hi => ?_, stack, ?_, ?_, ?_⟩
    · simp only [Block.ids, List.mem_append, not_or] at hi
      rw [map, growsBody.elsewhere i hi.1.2, growsPhis.elsewhere i hi.1.1]
    · rw [exitsOr, map, growsBody.exitNodesOr, growsPhis.exitNodesOr]
    · rw [exitsAnd, growsBody.exitNodesAnd, growsPhis.exitNodesAnd]
    · rw [map]
      refine ⟨fun p hp => ?_, settledBody, settledTerm⟩
      obtain ⟨n, found, processed⟩ := settledPhis p hp
      exact ⟨n, ext _ _ found, processPHI_mono ext processed⟩

theorem TermSettled.ext {m m' : Nat → Option Ptr} (ext : Ext m m') {t : Term Value}
    (h : TermSettled o m t) :
    TermSettled o m' t ∧ exitOr o m' t = exitOr o m t := by
  cases t with
  | br l => exact ⟨trivial, rfl⟩
  | switch c d cases => exact h.elim
  | unreachable => exact h.elim
  | condBr c t e =>
    obtain ⟨n, negated, found, negation⟩ := h
    exact ⟨⟨n, negated, ext.lookup found, negation⟩, rfl⟩
  | ret v =>
    cases v with
    | none => exact h.elim
    | some v =>
      rcases h with constant | ⟨n, found⟩
      · refine ⟨Or.inl constant, ?_⟩
        unfold isConstantInt at constant
        split at constant
        · rfl
        · cases constant
      · refine ⟨Or.inr ⟨n, ext.lookup found⟩, ?_⟩
        cases v with
        | inst d => simp [exitOr, found, ext.lookup found]
        | arg i => cases found
        | const c => cases found

/-- All blocks of an accepted function. -/
theorem processBlocks_settled {blocks : List Block} {s s' : State}
    (nodup : (blocks.flatMap Block.ids).Nodup) (fresh : Fresh (blocks.flatMap Block.ids) s.map)
    (empty : s.stack = []) (ran : processBlocks o gv f blocks s = .ok (s', true)) :
    (∀ i, i ∉ blocks.flatMap Block.ids → s'.map i = s.map i) ∧
      s'.exitNodesOr = s.exitNodesOr ++ blocks.flatMap (fun B => exitOr o s'.map B.term) ∧
      s'.exitNodesAnd = s.exitNodesAnd ++ blocks.flatMap (fun B => exitAnd B.term) ∧
      ∀ B ∈ blocks, BlockSettled o gv f s'.map B := by
  induction blocks generalizing s with
  | nil =>
    cases ran
    simp
  | cons B rest ih =>
    simp only [processBlocks] at ran
    obtain ⟨⟨t, accepted⟩, here, ran⟩ := bind_eq_ok.mp ran
    rw [List.flatMap_cons, List.nodup_append] at nodup
    cases accepted with
    | false => cases ran
    | true =>
      have freshHere : Fresh B.ids s.map := fun i hi => fresh i (List.mem_append_left _ hi)
      obtain ⟨elsewhere, stack, exitsOr, exitsAnd, settled⟩ :=
        processBB_settled nodup.1 freshHere empty here
      have freshRest : Fresh (rest.flatMap Block.ids) t.map := by
        intro i hi
        rw [elsewhere i fun member => nodup.2.2 i member i hi rfl]
        exact fresh i (List.mem_append_right _ hi)
      obtain ⟨elsewhere', exitsOr', exitsAnd', settled'⟩ := ih nodup.2.1 freshRest stack ran
      have later : ∀ i ∈ B.ids, s'.map i = t.map i :=
        fun i hi => elsewhere' i fun member => nodup.2.2 i hi i member rfl
      have ext : Ext t.map s'.map := by
        intro i p found
        rw [elsewhere' i fun member => by rw [freshRest i member] at found; cases found]
        exact found
      obtain ⟨term, sameExit⟩ := settled.term.ext ext
      refine ⟨fun i hi => ?_, ?_, ?_, fun C hC => ?_⟩
      · rw [List.flatMap_cons, List.mem_append, not_or] at hi
        rw [elsewhere' i hi.2, elsewhere i hi.1]
      · rw [exitsOr', exitsOr, List.flatMap_cons, List.append_assoc, sameExit]
      · rw [exitsAnd', exitsAnd, List.flatMap_cons, List.append_assoc]
      · rcases List.mem_cons.mp hC with rfl | hC
        · refine ⟨fun p hp => ?_, fun i hi => ?_, term⟩
          · obtain ⟨n, found, processed⟩ := settled.phi p hp
            exact ⟨n, ext _ _ found, processPHI_mono ext processed⟩
          · have inside : i.id ∈ C.ids := by
              simp only [Block.ids, List.mem_append, List.mem_map]
              exact Or.inl (Or.inr ⟨i, hi, rfl⟩)
            rcases settled.inst i hi with absent | ⟨n, found, processed⟩
            · exact Or.inl ((later _ inside).trans absent)
            · exact Or.inr ⟨n, ext _ _ found, processInst_mono ext processed⟩
        · exact settled' C hC

/-! What every new entry keeps holds of the map at the end. -/

section
variable {P : (Nat → Option Ptr) → Prop}

theorem processTerm_map {id : Nat} {t : Term Value} {s s' : State} {valid b : Bool}
    (ran : processTerm o id t s valid = .ok (s', b)) : s'.map = s.map := by
  cases t with
  | br l =>
    cases ran
    rfl
  | switch c d cases =>
    cases ran
    rfl
  | unreachable =>
    cases ran
    rfl
  | condBr c t e =>
    simp only [processTerm] at ran
    split at ran
    · cases ran
      rfl
    · obtain ⟨n, -, ran⟩ := bind_eq_ok.mp ran
      obtain ⟨negated, -, ran⟩ := bind_eq_ok.mp ran
      cases ran
      rfl
  | ret v =>
    cases v with
    | none => cases ran
    | some v =>
      simp only [processTerm] at ran
      split at ran
      · split_ifs at ran
        · obtain ⟨n, -, ran⟩ := bind_eq_ok.mp ran
          cases ran
          rfl
        · cases ran
          rfl
      · split at ran
        · cases ran
          rfl
        · obtain ⟨n, -, ran⟩ := bind_eq_ok.mp ran
          cases ran
          rfl

theorem processPhis_map {l : Label} {ps : List Phi} {s s' : State} (phi : ∀ p ∈ ps, ∀ m n, P m →
      processPHI o (lookup m) f l p = .ok n → P (Function.update m p.id (some n))) (start : P s.map)
    (ran : processPhis o f l ps s = .ok s') : P s'.map := by
  induction ps generalizing s with
  | nil =>
    cases ran
    exact start
  | cons p ps ih =>
    obtain ⟨n, here, rest⟩ := bind_eq_ok.mp ran
    exact ih (fun q hq => phi q (List.mem_cons_of_mem p hq))
      (phi p List.mem_cons_self s.map n start here) rest

theorem processBody_map {is : List Inst} {s s' : State}
    {valid valid' : Bool} (inst : ∀ i ∈ is, ∀ m n, P m → processInst o gv (lookup m) i = .ok
      (.bind n) → P (Function.update m i.id (some n))) (start : P s.map)
    (ran : processBody o gv is s valid = .ok (.on s' valid')) : P s'.map := by
  induction is generalizing s valid with
  | nil =>
    cases ran
    exact start
  | cons i is ih =>
    have rest := fun j hj => inst j (List.mem_cons_of_mem i hj)
    simp only [processBody] at ran
    obtain ⟨step, here, ran⟩ := bind_eq_ok.mp ran
    cases step with
    | skip => exact ih rest start ran
    | flag msg => exact ih rest (s := s.report msg (some i.id)) start ran
    | reject msg => cases ran
    | bind n => exact ih rest (inst i List.mem_cons_self s.map n start here) ran

theorem processBlocks_map {blocks : List Block} {s s' : State}
    (phi : ∀ B ∈ blocks, ∀ p ∈ B.phis, ∀ m n, P m → processPHI o (lookup m) f B.label p = .ok n →
      P (Function.update m p.id (some n)))
    (inst : ∀ B ∈ blocks, ∀ i ∈ B.body, ∀ m n, P m → processInst o gv (lookup m) i = .ok (.bind n) →
      P (Function.update m i.id (some n)))
    (start : P s.map) (ran : processBlocks o gv f blocks s = .ok (s', true)) : P s'.map := by
  induction blocks generalizing s with
  | nil =>
    cases ran
    exact start
  | cons B rest ih =>
    simp only [processBlocks] at ran
    obtain ⟨⟨t, accepted⟩, here, ran⟩ := bind_eq_ok.mp ran
    cases accepted with
    | false => cases ran
    | true =>
      refine ih (fun C hC => phi C (List.mem_cons_of_mem B hC))
        (fun C hC => inst C (List.mem_cons_of_mem B hC)) ?_ ran
      simp only [processBB] at here
      obtain ⟨s₁, phis, here⟩ := bind_eq_ok.mp here
      obtain ⟨walk, body, here⟩ := bind_eq_ok.mp here
      have afterPhis := processPhis_map (phi B List.mem_cons_self) start phis
      cases walk with
      | rejected s₂ => cases here
      | on s₂ valid =>
        rw [processTerm_map here]
        exact processBody_map (inst B List.mem_cons_self) afterPhis body

end

/-- What an accepted function leaves behind, and the node it gets. -/
structure Settled (o : PtrOrder) (gv : GlobalId) (f : Function) (map : Nat → Option Ptr)
    (node : Node) :
    Prop where
  block : ∀ B ∈ f.blocks, BlockSettled o gv f map B
  node : node = getAnd o [getOrExits o (f.blocks.flatMap fun B => exitOr o map B.term),
    getAnd o (f.blocks.flatMap fun B => exitAnd B.term)]

theorem compile_settled (wf : f.WellFormed) {s : State} {node : Node}
    (compiled : compile o (some gv) f = .ok (s, some node)) : Settled o gv f s.map node := by
  simp only [compile] at compiled
  obtain ⟨⟨t, accepted⟩, ran, compiled⟩ := bind_eq_ok.mp compiled
  cases accepted with
  | false => cases compiled
  | true =>
    cases compiled
    have fresh : Fresh (f.blocks.flatMap Block.ids) State.initial.map := fun _ _ => rfl
    obtain ⟨-, exitsOr, exitsAnd, settled⟩ := processBlocks_settled wf.ids fresh rfl ran
    refine ⟨settled, ?_⟩
    simp only at exitsOr exitsAnd ⊢
    rw [exitsOr, exitsAnd]
    rfl

theorem compile_map {P : (Nat → Option Ptr) → Prop} {s : State} {node : Node}
    (phi : ∀ B ∈ f.blocks, ∀ p ∈ B.phis, ∀ m n, P m → processPHI o (lookup m) f B.label p = .ok n →
      P (Function.update m p.id (some n)))
    (inst : ∀ B ∈ f.blocks, ∀ i ∈ B.body, ∀ m n, P m → processInst o gv
      (lookup m) i = .ok (.bind n) →
      P (Function.update m i.id (some n)))
    (start : P fun _ => none) (compiled : compile o (some gv) f = .ok (s, some node)) :
    P s.map := by
  simp only [compile] at compiled
  obtain ⟨⟨t, accepted⟩, ran, compiled⟩ := bind_eq_ok.mp compiled
  cases accepted with
  | false => cases compiled
  | true =>
    cases compiled
    exact processBlocks_map phi inst start ran

end

end LogicalMap
