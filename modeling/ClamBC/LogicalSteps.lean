import ClamBC.LogicalInstructions
import ClamBC.LogicalMap

/-!
# The steps of a compilation

A compilation is a sequence of steps: a phi, an instruction or a terminator is processed in
the state that the steps before it have left. A property of the states that every step
keeps holds of all states on the way and at the end.
-/

namespace LogicalSteps

open Ir LogicalNode LogicalCompiler LogicalInstructions LogicalMap Fallible

section
variable (o : PtrOrder) (gv : GlobalId) (f : Function)

/-- The blocks that are still to be processed. -/
inductive AtBlock : State → List Block → Prop
  | start : AtBlock State.initial f.blocks
  | next {s s' : State} {B : Block} {rest : List Block} (before : AtBlock s (B :: rest))
      (ran : processBB o gv f B s = .ok (s', true)) : AtBlock s' rest

/-- The phis of a block that are still to be processed. -/
inductive AtPhi (B : Block) : State → List Phi → Prop
  | start {s : State} {rest : List Block} (before : AtBlock o gv f s (B :: rest)) : AtPhi B s B.phis
  | next {s : State} {p : Phi} {ps : List Phi} {n : Ptr} (before : AtPhi B s (p :: ps))
      (ran : processPHI o (lookup s.map) f B.label p = .ok n) : AtPhi B (s.setNode p.id n) ps

/-- The body instructions of a block that are still to be processed, and the flag. -/
inductive AtInst (B : Block) : State → Bool → List Inst → Prop
  | start {s : State} (before : AtPhi o gv f B s []) : AtInst B s true B.body
  | skip {s : State} {valid : Bool} {i : Inst} {is : List Inst}
      (before : AtInst B s valid (i :: is))
      (ran : processInst o gv (lookup s.map) i = .ok .skip) : AtInst B s valid is
  | bind {s : State} {valid : Bool} {i : Inst} {is : List Inst} {n : Ptr}
      (before : AtInst B s valid (i :: is))
      (ran : processInst o gv (lookup s.map) i = .ok (.bind n)) :
    AtInst B (s.setNode i.id n) valid is
  | flag {s : State} {valid : Bool} {i : Inst} {is : List Inst} {m : Message}
      (before : AtInst B s valid (i :: is))
      (ran : processInst o gv (lookup s.map) i = .ok (.flag m)) :
      AtInst B (s.report m (some i.id)) false is

/-- What every step keeps of a state, and which faults a step may end in. -/
structure Keeps (E : Fault → Prop) (I : State → Prop) : Prop where
  initial : I State.initial
  report : ∀ {s}, I s → ∀ m i, I (s.report m i)
  phi : ∀ {B s p ps}, AtPhi o gv f B s (p :: ps) → I s →
    Meets E (fun n => I (s.setNode p.id n)) (processPHI o (lookup s.map) f B.label p)
  inst : ∀ {B s valid i is}, AtInst o gv f B s valid (i :: is) → I s →
    Meets E (fun st => ∀ n, st = .bind n → I (s.setNode i.id n))
      (processInst o gv (lookup s.map) i)
  term : ∀ {B s valid}, AtInst o gv f B s valid [] → I s →
    Meets E (fun r => I r.1) (processTerm o B.termId B.term s valid)

end

section
variable {o : PtrOrder} {gv : GlobalId} {f : Function} {B : Block} {s : State}

/-! The blocks, phis and instructions of a step are those of the function. -/

theorem atBlock_split {bs : List Block} (reached : AtBlock o gv f s bs) :
    ∃ done, f.blocks = done ++ bs := by
  induction reached with
  | start => exact ⟨[], rfl⟩
  | @next s s' B rest _ _ ih =>
    obtain ⟨done, split⟩ := ih
    exact ⟨done ++ [B], by simp [split]⟩

theorem atPhi_split {ps : List Phi} (reached : AtPhi o gv f B s ps) :
    B ∈ f.blocks ∧ ∃ done, B.phis = done ++ ps := by
  induction reached with
  | start before =>
    obtain ⟨done, split⟩ := atBlock_split before
    exact ⟨by simp [split], [], rfl⟩
  | @next s p ps n _ _ ih =>
    obtain ⟨hB, done, split⟩ := ih
    exact ⟨hB, done ++ [p], by simp [split]⟩

theorem atInst_split {valid : Bool} {is : List Inst} (reached : AtInst o gv f B s valid is) :
    B ∈ f.blocks ∧ ∃ done, B.body = done ++ is := by
  have more : ∀ {i : Inst} {is : List Inst}, (B ∈ f.blocks ∧ ∃ done, B.body = done ++ i :: is) →
      B ∈ f.blocks ∧ ∃ done, B.body = done ++ is := by
    rintro i is ⟨hB, done, split⟩
    exact ⟨hB, done ++ [i], by simp [split]⟩
  induction reached with
  | start before => exact ⟨(atPhi_split before).1, [], rfl⟩
  | skip _ _ ih => exact more ih
  | bind _ _ ih => exact more ih
  | flag _ _ ih => exact more ih

/-! What a processed block has gone through. -/

theorem processPhis_steps {ps : List Phi} {s' : State} (reached : AtPhi o gv f B s ps)
    (ran : processPhis o f B.label ps s = .ok s') : AtPhi o gv f B s' [] := by
  induction ps generalizing s with
  | nil =>
    cases ran
    exact reached
  | cons p ps ih =>
    obtain ⟨n, here, rest⟩ := bind_eq_ok.mp ran
    exact ih (.next reached here) rest

theorem processBody_steps {is : List Inst} {valid valid' : Bool} {s' : State}
    (reached : AtInst o gv f B s valid is)
    (ran : processBody o gv is s valid = .ok (.on s' valid')) : AtInst o gv f B s' valid' [] := by
  induction is generalizing s valid with
  | nil =>
    cases ran
    exact reached
  | cons i is ih =>
    simp only [processBody] at ran
    obtain ⟨step, here, ran⟩ := bind_eq_ok.mp ran
    cases step with
    | skip => exact ih (.skip reached here) ran
    | flag msg => exact ih (.flag reached here) ran
    | reject msg => cases ran
    | bind n => exact ih (.bind reached here) ran

theorem processBB_steps {rest : List Block} {s' : State} (reached : AtBlock o gv f s (B :: rest))
    (ran : processBB o gv f B s = .ok (s', true)) :
    ∃ t valid, AtInst o gv f B t valid [] ∧ processTerm o B.termId B.term t valid = .ok (s', true)
    := by
  simp only [processBB] at ran
  obtain ⟨s₁, phis, ran⟩ := bind_eq_ok.mp ran
  obtain ⟨walk, body, ran⟩ := bind_eq_ok.mp ran
  cases walk with
  | rejected s₂ => cases ran
  | on s₂ valid =>
    have atPhis := processPhis_steps (.start reached) phis
    exact ⟨s₂, valid, processBody_steps (.start atPhis) body, ran⟩

end

/-! What all steps keep. -/

namespace Keeps
variable {o : PtrOrder} {gv : GlobalId} {f : Function} {E : Fault → Prop} {I : State → Prop}
  (keeps : Keeps o gv f E I)
include keeps

theorem processPhis {B : Block} {s : State} {ps : List Phi} (reached : AtPhi o gv f B s ps)
    (here : I s) :
    Meets E (fun s' => I s' ∧ AtPhi o gv f B s' []) (processPhis o f B.label ps s) := by
  induction ps generalizing s with
  | nil => exact ⟨here, reached⟩
  | cons p ps ih =>
    exact (keeps.phi reached here).bind fun n ran after => ih (.next reached ran) after

theorem processBody {B : Block} {s : State} {valid : Bool} {is : List Inst}
    (reached : AtInst o gv f B s valid is) (here : I s) :
    Meets E (fun w => match w with
      | .on s' valid' => I s' ∧ AtInst o gv f B s' valid' []
      | .rejected s' => I s' ∧ s'.diagnostics ≠ []) (processBody o gv is s valid) := by
  induction is generalizing s valid with
  | nil => exact ⟨here, reached⟩
  | cons i is ih =>
    refine (keeps.inst reached here).bind fun st ran after => ?_
    cases st with
    | skip => exact ih (.skip reached ran) here
    | bind n => exact ih (.bind reached ran) (after n rfl)
    | flag m => exact ih (.flag reached ran) (keeps.report here m _)
    | reject m => exact ⟨keeps.report here m _, by simp [State.report]⟩

theorem processBB {B : Block} {s : State} {rest : List Block}
    (reached : AtBlock o gv f s (B :: rest)) (here : I s) :
    Meets E (fun r => I r.1) (processBB o gv f B s) := by
  unfold LogicalCompiler.processBB
  refine (keeps.processPhis (.start reached) here).bind fun s₁ _ afterPhis => ?_
  refine (keeps.processBody (.start afterPhis.2) afterPhis.1).bind fun w _ afterBody => ?_
  cases w with
  | on s₂ valid => exact keeps.term afterBody.2 afterBody.1
  | rejected s₂ => exact afterBody.1

/-- The end of the compilation: a block that is not accepted leaves a message. -/
theorem processBlocks {s : State} {bs : List Block} (reached : AtBlock o gv f s bs)
    (here : I s) :
    Meets E (fun r => I r.1 ∧ (r.2 = false → r.1.diagnostics ≠ []))
      (processBlocks o gv f bs s) := by
  induction bs generalizing s with
  | nil => exact ⟨here, nofun⟩
  | cons B rest ih =>
    refine (keeps.processBB reached here).bind fun r ran after => ?_
    obtain ⟨s', accepted⟩ := r
    cases accepted with
    | true => exact ih (.next reached ran) after
    | false => exact ⟨keeps.report after _ _, fun _ => by simp [State.report]⟩

theorem compiled : Meets E (fun r => I r.1 ∧ (r.2 = false → r.1.diagnostics ≠ []))
    (LogicalCompiler.processBlocks o gv f f.blocks State.initial) :=
  keeps.processBlocks .start keeps.initial

theorem atBlock {s : State} {bs : List Block} (reached : AtBlock o gv f s bs) : I s := by
  induction reached with
  | start => exact keeps.initial
  | next before ran ih => exact (keeps.processBB before ih).of_ok ran

theorem atPhi {B : Block} {s : State} {ps : List Phi} (reached : AtPhi o gv f B s ps) : I s := by
  induction reached with
  | start before => exact keeps.atBlock before
  | next before ran ih => exact (keeps.phi before ih).of_ok ran

theorem atInst {B : Block} {s : State} {valid : Bool} {is : List Inst}
    (reached : AtInst o gv f B s valid is) : I s := by
  induction reached with
  | start before => exact keeps.atPhi before
  | skip _ _ ih => exact ih
  | bind before ran ih => exact (keeps.inst before ih).of_ok ran _ rfl
  | flag _ _ ih => exact keeps.report ih _ _

end Keeps

/-! The map of an accepted compilation. -/

section
variable {o : PtrOrder} {gv : GlobalId} {f : Function} {map : Nat → Option Ptr}

/-- This map has all entries that the instructions get from it. -/
structure Closed (o : PtrOrder) (gv : GlobalId) (f : Function) (map : Nat → Option Ptr) : Prop where
  phi : ∀ B ∈ f.blocks, ∀ p ∈ B.phis, ∀ n, processPHI o (lookup map) f B.label p = .ok n →
    map p.id = some n
  inst : ∀ B ∈ f.blocks, ∀ i ∈ B.body, ∀ n, processInst o gv (lookup map) i = .ok (.bind n) →
    map i.id = some n

theorem ext_setNode {s : State} (ext : Ext s.map map) {i : Nat} {n : Ptr}
    (entry : map i = some n) : Ext (s.setNode i n).map map := by
  intro d p found
  by_cases same : d = i
  · subst same
    simp only [State.setNode, Function.update_self] at found
    exact found ▸ entry
  · simp only [State.setNode, Function.update_of_ne same] at found
    exact ext d p found

/-- No state of the compilation has an entry that is not in the map. -/
theorem Closed.keeps (closed : Closed o gv f map) :
    Keeps o gv f (fun _ => True) fun s => Ext s.map map where
  initial := nofun
  report := fun ext _ _ => ext
  phi := fun {B s p ps} reached ext => by
    obtain ⟨hB, done, split⟩ := atPhi_split reached
    cases ran : processPHI o (lookup s.map) f B.label p with
    | error e => trivial
    | ok n =>
      exact ext_setNode ext (closed.phi B hB p (by simp [split]) n (processPHI_mono ext ran))
  inst := fun {B s valid i is} reached ext => by
    obtain ⟨hB, done, split⟩ := atInst_split reached
    cases ran : processInst o gv (lookup s.map) i with
    | error e => trivial
    | ok st =>
      rintro n rfl
      exact ext_setNode ext (closed.inst B hB i (by simp [split]) n (processInst_mono ext ran))
  term := fun {B s valid} _ ext => by
    cases ran : processTerm o B.termId B.term s valid with
    | error e => trivial
    | ok r =>
      change Ext r.1.map map
      rwa [processTerm_map ran]

end

/-- More than three matches of the first two subsignatures together, or none of the third. -/
def sumOrThird : Function where
  args := []
  nextId := 11
  blocks :=
    [⟨0, [], [⟨0, .int 32, .load false (.const (.global 0))⟩,
        ⟨1, .int 32, .load false (.const (.getElementPtrExpr (.global 0) [.int 64 0, .int 64 1]))⟩,
        ⟨2, .int 32, .binary .add (.inst 0) (.inst 1)⟩,
        ⟨3, .int 1, .icmp .ugt (.inst 2) (.const (.int 32 3))⟩], 4, .condBr (.inst 3) 1 2⟩,
     ⟨1, [], [], 5, .br 3⟩,
     ⟨2, [], [⟨6, .int 32,
        .load false (.const (.getElementPtrExpr (.global 0) [.int 64 0, .int 64 2]))⟩,
        ⟨7, .int 1, .icmp .eq (.inst 6) (.const (.int 32 0))⟩], 8, .br 3⟩,
     ⟨3, [⟨9, .int 1, [(.const (.int 1 1), 1), (.inst 7, 2)]⟩], [], 10, .ret (some (.inst 9))⟩]

theorem sumOrThird_routes : routesTo sumOrThird 0 3 =
    [[⟨0, some (.inst 3), true⟩, ⟨1, none, true⟩],
      [⟨0, some (.inst 3), false⟩, ⟨2, none, true⟩]] := rfl

/-- Only the branch of the entry has a condition. -/
theorem sumOrThird_condition {r : Route} {hop : Hop} {c : Value} (hr : r ∈ routesTo sumOrThird 0 3)
    (inside : hop ∈ r) (cond : hop.cond = some c) : c = .inst 3 := by
  rw [sumOrThird_routes] at hr
  simp only [List.mem_cons, List.not_mem_nil, or_false] at hr
  rcases hr with rfl | rfl
  · simp only [List.mem_cons, List.not_mem_nil, or_false] at inside
    rcases inside with rfl | rfl
    · exact (Option.some.inj cond).symm
    · cases cond
  · simp only [List.mem_cons, List.not_mem_nil, or_false] at inside
    rcases inside with rfl | rfl
    · exact (Option.some.inj cond).symm
    · cases cond

def sumTypes : Nat → Ty
  | 3 => .int 1
  | 7 => .int 1
  | 9 => .int 1
  | _ => .int 32

def sumNode : Node :=
  .or [.gt 3 (.sums .sum [.subsig 0, .subsig 1]), .and [.eq 0 maxWord (.subsig 2),
    .or [.lt 3 (.sums .sum [.subsig 0, .subsig 1]),
      .eq 3 maxWord (.sums .both [.subsig 0, .subsig 1])]]]

/-- Its map at the end. -/
def sumMap : Nat → Option Ptr
  | 0 => some (some (.subsig 0))
  | 1 => some (some (.subsig 1))
  | 2 => some (some (.sums .sum [.subsig 0, .subsig 1]))
  | 3 => some (some (.gt 3 (.sums .sum [.subsig 0, .subsig 1])))
  | 6 => some (some (.subsig 2))
  | 7 => some (some (.eq 0 maxWord (.subsig 2)))
  | 9 => some (some sumNode)
  | _ => none

theorem sumOrThird_closed : Closed .inOrder 0 sumOrThird sumMap where
  phi := by
    intro B hB p hp n ran
    simp only [sumOrThird, List.mem_cons, List.not_mem_nil, or_false] at hB
    rcases hB with rfl | rfl | rfl | rfl
    · cases hp
    · cases hp
    · cases hp
    · cases List.mem_singleton.mp hp
      cases ran
      rfl
  inst := by
    intro B hB i hi n ran
    simp only [sumOrThird, List.mem_cons, List.not_mem_nil, or_false] at hB
    rcases hB with rfl | rfl | rfl | rfl
    · simp only [List.mem_cons, List.not_mem_nil, or_false] at hi
      rcases hi with rfl | rfl | rfl | rfl
      · cases ran
        rfl
      · cases ran
        rfl
      · change processAdd (lookup sumMap) (.inst 0) (.inst 1) = _ at ran
        rw [processAdd_pair rfl rfl] at ran
        cases ran
        rfl
      · cases ran
        rfl
    · cases hi
    · simp only [List.mem_cons, List.not_mem_nil, or_false] at hi
      rcases hi with rfl | rfl
      · cases ran
        rfl
      · cases ran
        rfl
    · cases hi

/-- Its map behind the first body. -/
def sumState : LogicalCompiler.State :=
  (((State.initial.setNode 0 (some (.subsig 0))).setNode 1 (some (.subsig 1))).setNode 2
    (some (.sums .sum [.subsig 0, .subsig 1]))).setNode 3
      (some (.gt 3 (.sums .sum [.subsig 0, .subsig 1])))

theorem sumOrThird_compiled :
    ∃ s, compile .inOrder (some 0) sumOrThird = .ok (s, some sumNode) := by
  have first : processBody .inOrder 0 [⟨0, .int 32, .load false (.const (.global 0))⟩,
      ⟨1, .int 32, .load false (.const (.getElementPtrExpr (.global 0) [.int 64 0, .int 64 1]))⟩,
      ⟨2, .int 32, .binary .add (.inst 0) (.inst 1)⟩,
      ⟨3, .int 1, .icmp .ugt (.inst 2) (.const (.int 32 3))⟩] State.initial true =
        .ok (.on sumState true) := by
    change (processAdd
      (lookup ((State.initial.setNode 0 (some (.subsig 0))).setNode 1 (some (.subsig 1))).map)
      (.inst 0) (.inst 1) >>= _) = _
    rw [processAdd_pair rfl rfl]
    rfl
  simp only [compile, sumOrThird, processBlocks, processBB, processPhis, ok_bind, first]
  exact ⟨_, rfl⟩

end LogicalSteps
