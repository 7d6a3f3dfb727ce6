import ClamBC.LogicalCompiler
import ClamBC.Fallible
import ClamBC.SsaChecks

/-!
# Diagnosed functions and the signatures they still get

Reads and comparisons that are not understood clear the flag `valid` of their block; every
other instruction that is not understood ends the compilation. A block that ends in an
unconditional branch returns true without looking at the flag, so what its reads and
comparisons report is forgotten.
-/

namespace LogicalDiagnostics

open Ir LogicalNode LogicalCompiler Fallible

/-- The instructions that are handed to `processLoad` and `processICmp`. -/
def flags (i : Inst) : Bool :=
  match i.op with
  | .load _ _ => true
  | .icmp _ _ _ => true
  | _ => false

def returnsTrue : Term Value → Bool
  | .br _ => true
  | _ => false

/-- A read or comparison in a block that ends in an unconditional branch. -/
def Forgotten (f : Function) (id : Nat) : Prop :=
  ∃ B ∈ f.blocks, returnsTrue B.term = true ∧ ∃ i ∈ B.body, i.id = id ∧ flags i = true

def Reported (s : State) (id : Nat) : Prop := ∃ m, (m, some id) ∈ s.diagnostics

section
variable {o : PtrOrder} {gv : GlobalId} {find : Value → Option Ptr} {i : Inst} {m : Message}

/-! A read or comparison gets a node or is reported, and the walk goes on behind it. Everything else
that is handled gets a node or ends the compilation. -/

def GoesOn (st : Step) : Prop := (∃ n, st = .bind n) ∨ ∃ m, st = .flag m

def Decides (st : Step) : Prop := (∃ n, st = .bind n) ∨ ∃ m, st = .reject m

theorem goesOn_bind {x : Except Fault Ptr} {st : Step}
    (ran : (do return Step.bind (← x)) = .ok st) : GoesOn st := by
  obtain ⟨n, -, ran⟩ := bind_eq_ok.mp ran
  cases ran
  exact .inl ⟨n, rfl⟩

theorem goesOn_node {x : Except Fault Node} {st : Step}
    (ran : (do return Step.bind (some (← x))) = .ok st) : GoesOn st := by
  obtain ⟨n, -, ran⟩ := bind_eq_ok.mp ran
  cases ran
  exact .inl ⟨_, rfl⟩

theorem goesOn_flag {st : Step} (ran : (.ok (.flag m) : Except Fault Step) = .ok st) :
    GoesOn st := by
  cases ran
  exact .inr ⟨m, rfl⟩

theorem decides_node {x : Except Fault Node} {st : Step}
    (ran : (do return Step.bind (some (← x))) = .ok st) : Decides st := by
  obtain ⟨n, -, ran⟩ := bind_eq_ok.mp ran
  cases ran
  exact .inl ⟨_, rfl⟩

theorem decides_reject {st : Step} (ran : (.ok (.reject m) : Except Fault Step) = .ok st) :
    Decides st := by
  cases ran
  exact .inr ⟨m, rfl⟩

theorem processLoad_goesOn {ptr : Value} {st : Step} (ran : processLoad gv ptr = .ok st) :
    GoesOn st := by
  unfold processLoad at ran
  split at ran
  · split_ifs at ran
    · exact goesOn_flag ran
    · split at ran
      · obtain ⟨k, -, ran⟩ := bind_eq_ok.mp ran
        cases ran
        exact .inl ⟨_, rfl⟩
      · cases ran
      · exact goesOn_flag ran
      · cases ran
  · exact goesOn_flag ran
  · exact goesOn_flag ran
  · exact goesOn_flag ran
  · cases ran
    exact .inl ⟨_, rfl⟩

theorem compareNode_goesOn {pred : Predicate} {n : Ptr} {rhs : Word} {st : Step}
    (ran : compareNode o pred n rhs = .ok st) : GoesOn st := by
  cases pred with
  | eq =>
    obtain ⟨n, -, ran⟩ := bind_eq_ok.mp ran
    exact goesOn_node ran
  | ne =>
    obtain ⟨n, -, ran⟩ := bind_eq_ok.mp ran
    obtain ⟨e, -, ran⟩ := bind_eq_ok.mp ran
    exact goesOn_node ran
  | ugt => exact goesOn_bind ran
  | uge =>
    simp only [compareNode] at ran
    split_ifs at ran
    · exact goesOn_flag ran
    · exact goesOn_bind ran
  | ult =>
    obtain ⟨n, -, ran⟩ := bind_eq_ok.mp ran
    exact goesOn_node ran
  | ule =>
    simp only [compareNode] at ran
    split_ifs at ran
    · exact goesOn_flag ran
    · obtain ⟨n, -, ran⟩ := bind_eq_ok.mp ran
      exact goesOn_node ran
  | sgt | sge | slt | sle => exact goesOn_flag ran

theorem compareWith_goesOn {pred : Predicate} {op0 op1 : Value} {st : Step}
    (ran : compareWith o find pred op0 op1 = .ok st) : GoesOn st := by
  unfold compareWith at ran
  split at ran
  · obtain ⟨v, -, ran⟩ := bind_eq_ok.mp ran
    split_ifs at ran
    · exact goesOn_flag ran
    · split at ran
      · exact goesOn_flag ran
      · exact compareNode_goesOn ran
  · exact goesOn_flag ran

theorem processICmp_goesOn {pred : Predicate} {lhs rhs : Value} {st : Step}
    (ran : processICmp o find pred lhs rhs = .ok st) : GoesOn st := by
  unfold processICmp at ran
  split_ifs at ran
  · exact compareWith_goesOn ran
  · exact compareWith_goesOn ran

theorem processSelect_decides {c t e : Value} {st : Step}
    (ran : processSelect o find c t e = .ok st) : Decides st := by
  unfold processSelect at ran
  split at ran
  · exact decides_reject ran
  · split_ifs at ran
    · exact decides_reject ran
    · obtain ⟨first, -, ran⟩ := bind_eq_ok.mp ran
      split at ran
      · exact decides_reject ran
      · obtain ⟨notCond, -, ran⟩ := bind_eq_ok.mp ran
        obtain ⟨second, -, ran⟩ := bind_eq_ok.mp ran
        split at ran
        · exact decides_reject ran
        · split at ran
          · cases ran
            exact .inl ⟨_, rfl⟩
          · cases ran
            exact .inl ⟨_, rfl⟩
          · cases ran
            exact .inl ⟨_, rfl⟩
          · exact decides_reject ran

theorem processAdd_decides {lhs rhs : Value} {st : Step}
    (ran : processAdd find lhs rhs = .ok st) : Decides st := by
  unfold processAdd at ran
  split at ran
  · exact decides_reject ran
  · split at ran
    · obtain ⟨v, -, ran⟩ := bind_eq_ok.mp ran
      obtain ⟨l, -, ran⟩ := bind_eq_ok.mp ran
      cases ran
      exact .inl ⟨_, rfl⟩
    · split at ran
      · exact decides_reject ran
      · obtain ⟨l, -, ran⟩ := bind_eq_ok.mp ran
        obtain ⟨r, -, ran⟩ := bind_eq_ok.mp ran
        obtain ⟨sum, -, ran⟩ := bind_eq_ok.mp ran
        split at ran
        · exact decides_reject ran
        · split_ifs at ran
          · cases ran
            exact .inl ⟨_, rfl⟩
          · exact decides_reject ran

theorem processXor_decides {lhs rhs : Value} {st : Step}
    (ran : processXor o find lhs rhs = .ok st) : Decides st := by
  unfold processXor at ran
  split at ran
  · split at ran
    · exact decides_reject ran
    · exact decides_node ran
  · exact decides_reject ran

theorem processZExt_decides {src dst : Ty} {v : Value} {st : Step}
    (ran : processZExt find src dst v = .ok st) : Decides st := by
  unfold processZExt at ran
  split at ran
  · exact decides_reject ran
  · split_ifs at ran
    · exact decides_reject ran
    · obtain ⟨n, -, ran⟩ := bind_eq_ok.mp ran
      cases ran
      exact .inl ⟨_, rfl⟩

theorem not_decides_flag : ¬ Decides (.flag m) := by
  rintro (⟨n, same⟩ | ⟨m', same⟩) <;> cases same

theorem not_goesOn_reject : ¬ GoesOn (.reject m) := by
  rintro (⟨n, same⟩ | ⟨m', same⟩) <;> cases same

theorem not_goesOn_skip : ¬ GoesOn .skip := by
  rintro (⟨n, same⟩ | ⟨m', same⟩) <;> cases same

/-- Everything but a read, a comparison and what is skipped. -/
theorem processInst_decides {st : Step} (noFlag : flags i = false) (notDbg : i.op ≠ .dbg)
    (notAlloca : ∀ size, i.op ≠ .alloca size) (ran : processInst o gv find i = .ok st) :
    Decides st := by
  unfold processInst at ran
  unfold flags at noFlag
  split at ran
  case h_1 op => exact absurd op notDbg
  case h_2 size op => exact absurd op (notAlloca size)
  case h_3 op =>
    rw [op] at noFlag
    cases noFlag
  case h_4 op =>
    rw [op] at noFlag
    cases noFlag
  case h_5 => exact processSelect_decides ran
  case h_6 => exact processAdd_decides ran
  case h_7 =>
    split at ran
    · exact decides_node ran
    · exact decides_reject ran
  case h_8 =>
    split at ran
    · exact decides_node ran
    · exact decides_reject ran
  case h_9 => exact processXor_decides ran
  case h_10 => exact processZExt_decides ran
  case h_11 => exact decides_reject ran

/-- Only reads and comparisons clear `valid`. -/
theorem flags_of_flag (h : processInst o gv find i = .ok (.flag m)) : flags i = true := by
  by_contra noFlag
  refine not_decides_flag (processInst_decides (by simpa using noFlag) (fun dbg => ?_)
    (fun size alloca => ?_) h)
  · simp [processInst, dbg] at h
  · simp [processInst, alloca] at h

/-- Reads and comparisons do not end the compilation. -/
theorem not_flags_of_reject (h : processInst o gv find i = .ok (.reject m)) : flags i = false := by
  unfold flags
  split
  · next op =>
    simp only [processInst, op] at h
    exact absurd (processLoad_goesOn h) not_goesOn_reject
  · next op =>
    simp only [processInst, op] at h
    exact absurd (processICmp_goesOn h) not_goesOn_reject
  · rfl

end

section
variable {o : PtrOrder} {gv : GlobalId} {f : Function}

theorem processPhis_diagnostics {l : Label} {ps : List Phi} {s s' : State}
    (ran : processPhis o f l ps s = .ok s') : s'.diagnostics = s.diagnostics := by
  induction ps generalizing s with
  | nil => cases ran; rfl
  | cons p ps ih =>
    obtain ⟨n, -, rest⟩ := bind_eq_ok.mp ran
    have tail := ih rest
    exact tail

/-- What the walk over a body reports, and that it keeps `valid` only if it reports nothing. -/
def Flagged (is : List Inst) (s s' : State) (valid valid' : Bool) : Prop :=
  ∃ reports, s'.diagnostics = s.diagnostics ++ reports ∧
    (valid' = true → valid = true ∧ reports = []) ∧
    (valid' = false → valid = true → reports ≠ []) ∧
    ∀ r ∈ reports, ∃ i ∈ is, r.2 = some i.id ∧ flags i = true

theorem Flagged.cons_clean {is : List Inst} {i : Inst} {s t s' : State} {valid valid' : Bool}
    (same : t.diagnostics = s.diagnostics) (h : Flagged is t s' valid valid') :
    Flagged (i :: is) s s' valid valid' := by
  obtain ⟨reports, eq, kept, lost, about⟩ := h
  refine ⟨reports, by rw [eq, same], kept, lost, ?_⟩
  intro r hr
  obtain ⟨j, hj, id, flag⟩ := about r hr
  exact ⟨j, List.mem_cons_of_mem i hj, id, flag⟩

theorem processBody_on {is : List Inst} {s s' : State} {valid valid' : Bool}
    (ran : processBody o gv is s valid = .ok (.on s' valid')) : Flagged is s s' valid valid' := by
  induction is generalizing s valid with
  | nil =>
    cases ran
    exact ⟨[], by simp, fun h => ⟨h, rfl⟩, fun h h' => by simp [h] at h', by simp⟩
  | cons i is ih =>
    simp only [processBody] at ran
    obtain ⟨step, here, rest⟩ := bind_eq_ok.mp ran
    cases step with
    | skip => exact (ih rest).cons_clean rfl
    | bind n => exact (ih rest).cons_clean rfl
    | flag m =>
      obtain ⟨reports, eq, kept, -, about⟩ := ih rest
      refine ⟨(m, some i.id) :: reports, by simp [eq, State.report], ?_, by simp, ?_⟩
      · intro valid
        exact absurd (kept valid).1 (by simp)
      · intro r hr
        rcases List.mem_cons.mp hr with rfl | hr
        · exact ⟨i, List.mem_cons_self, rfl, flags_of_flag here⟩
        · obtain ⟨j, hj, id, flag⟩ := about r hr
          exact ⟨j, List.mem_cons_of_mem i hj, id, flag⟩
    | reject m => cases rest

theorem processBody_rejected {is : List Inst} {s s' : State} {valid : Bool}
    (ran : processBody o gv is s valid = .ok (.rejected s')) :
    ∃ i ∈ is, Reported s' i.id ∧ flags i = false := by
  induction is generalizing s valid with
  | nil => cases ran
  | cons i is ih =>
    simp only [processBody] at ran
    obtain ⟨step, here, rest⟩ := bind_eq_ok.mp ran
    have later : (∃ j ∈ is, Reported s' j.id ∧ flags j = false) →
        ∃ j ∈ i :: is, Reported s' j.id ∧ flags j = false := by
      rintro ⟨j, hj, reported⟩
      exact ⟨j, List.mem_cons_of_mem i hj, reported⟩
    cases step with
    | skip => exact later (ih rest)
    | bind n => exact later (ih rest)
    | flag m => exact later (ih rest)
    | reject m =>
      cases rest
      exact ⟨i, List.mem_cons_self, ⟨m, by simp [State.report]⟩, not_flags_of_reject here⟩

/-- A terminator reports and returns false, or it returns `valid` and reports nothing, or it is an
unconditional branch. -/
theorem processTerm_result {id : Nat} {t : Term Value} {s s' : State} {valid b : Bool}
    (ran : processTerm o id t s valid = .ok (s', b)) :
    (b = false ∧ Reported s' id) ∨
      (s'.diagnostics = s.diagnostics ∧ (b = valid ∨ returnsTrue t = true ∧ b = true)) := by
  cases t with
  | br l => cases ran; exact Or.inr ⟨rfl, Or.inr ⟨rfl, rfl⟩⟩
  | condBr c t e =>
    simp only [processTerm] at ran
    split at ran
    · cases ran
      exact Or.inl ⟨rfl, .branchCondition, by simp [State.report]⟩
    · obtain ⟨n, -, ran⟩ := bind_eq_ok.mp ran
      obtain ⟨negated, -, ran⟩ := bind_eq_ok.mp ran
      cases ran
      exact Or.inr ⟨rfl, Or.inl rfl⟩
  | ret v =>
    cases v with
    | none => cases ran
    | some v =>
      simp only [processTerm] at ran
      split at ran
      · split_ifs at ran
        · obtain ⟨negated, -, ran⟩ := bind_eq_ok.mp ran
          cases ran
          exact Or.inr ⟨rfl, Or.inl rfl⟩
        · cases ran
          exact Or.inr ⟨rfl, Or.inl rfl⟩
      · split at ran
        · cases ran
          exact Or.inl ⟨rfl, .returnValue, by simp [State.report]⟩
        · obtain ⟨n, -, ran⟩ := bind_eq_ok.mp ran
          cases ran
          exact Or.inr ⟨rfl, Or.inl rfl⟩
  | switch c d cases =>
      cases ran; exact Or.inl ⟨rfl, .unsupportedInstruction, by simp [State.report]⟩
  | unreachable => cases ran; exact Or.inl ⟨rfl, .unsupportedInstruction, by simp [State.report]⟩

/-- A block that is accepted reports only what is forgotten. -/
theorem processBB_accepted {B : Block} (hB : B ∈ f.blocks) {s s' : State}
    (ran : processBB o gv f B s = .ok (s', true)) {id : Nat} (reported : Reported s' id) :
    Reported s id ∨ Forgotten f id := by
  simp only [processBB] at ran
  obtain ⟨s₁, phis, ran⟩ := bind_eq_ok.mp ran
  obtain ⟨walk, body, ran⟩ := bind_eq_ok.mp ran
  cases walk with
  | rejected s₂ => cases ran
  | on s₂ valid =>
    obtain ⟨reports, eq, kept, -, about⟩ := processBody_on body
    rcases processTerm_result ran with ⟨no, -⟩ | ⟨same, result⟩
    · cases no
    obtain ⟨m, hm⟩ := reported
    rw [same, eq, processPhis_diagnostics phis] at hm
    rcases List.mem_append.mp hm with old | new
    · exact Or.inl ⟨m, old⟩
    · obtain ⟨i, hi, named, flag⟩ := about _ new
      rcases result with valid | ⟨br, -⟩
      · rw [(kept valid.symm).2] at new
        cases new
      · exact Or.inr ⟨B, hB, br, i, hi, (Option.some.inj named).symm, flag⟩

/-- A block that is not accepted reports something that is not forgotten. -/
theorem processBB_not_accepted (wf : f.WellFormed) {B : Block} (hB : B ∈ f.blocks) {s s' : State}
    (ran : processBB o gv f B s = .ok (s', false)) : ∃ id, Reported s' id ∧ ¬ Forgotten f id := by
  simp only [processBB] at ran
  obtain ⟨s₁, phis, ran⟩ := bind_eq_ok.mp ran
  obtain ⟨walk, body, ran⟩ := bind_eq_ok.mp ran
  cases walk with
  | rejected s₂ =>
    cases ran
    obtain ⟨i, hi, reported, flag⟩ := processBody_rejected body
    refine ⟨i.id, reported, ?_⟩
    rintro ⟨C, hC, -, j, hj, same, flag'⟩
    rw [(wf.inst_unique hC hB hj hi same).2, flag] at flag'
    cases flag'
  | on s₂ valid =>
    obtain ⟨reports, eq, -, lost, about⟩ := processBody_on body
    rcases processTerm_result ran with ⟨-, reported⟩ | ⟨same, result⟩
    · refine ⟨B.termId, reported, ?_⟩
      rintro ⟨C, hC, -, j, hj, same, -⟩
      exact wf.inst_id_ne_term_id hC hB hj same
    · rcases result with rfl | ⟨-, no⟩
      swap
      · cases no
      obtain ⟨r, more, cons⟩ := List.exists_cons_of_ne_nil (lost rfl rfl)
      have first : r ∈ reports := by rw [cons]; exact List.mem_cons_self
      obtain ⟨i, hi, named, flag⟩ := about r first
      refine ⟨i.id, ⟨r.1, ?_⟩, ?_⟩
      · rw [same, eq, ← named]
        exact List.mem_append_right _ first
      · rintro ⟨C, hC, br, j, hj, sameId, -⟩
        obtain ⟨rfl, rfl⟩ := wf.inst_unique hC hB hj hi sameId
        -- an unconditional branch would have returned true
        cases term : C.term with
        | br l =>
          rw [term] at ran
          cases ran
        | _ => rw [term] at br; cases br

/-- Over all blocks: an accepted function has reported only what is forgotten, and a function
that is not accepted has reported something else. -/
theorem processBlocks_reports (wf : f.WellFormed)
    {blocks : List Block} (sub : ∀ B ∈ blocks, B ∈ f.blocks) {s s' : State}
    {b : Bool} (before : ∀ id, Reported s id → Forgotten f id)
    (ran : processBlocks o gv f blocks s = .ok (s', b)) :
    b = true ↔ ∀ id, Reported s' id → Forgotten f id := by
  induction blocks generalizing s with
  | nil =>
    cases ran
    simpa using before
  | cons B rest ih =>
    have hB := sub B List.mem_cons_self
    simp only [processBlocks] at ran
    obtain ⟨⟨t, accepted⟩, here, ran⟩ := bind_eq_ok.mp ran
    cases accepted with
    | true =>
      refine ih (fun C hC => sub C (List.mem_cons_of_mem B hC)) ?_ ran
      intro id reported
      rcases processBB_accepted hB here reported with old | forgotten
      · exact before id old
      · exact forgotten
    | false =>
      cases ran
      obtain ⟨id, ⟨m, hm⟩, kept⟩ := processBB_not_accepted wf hB here
      constructor
      · intro h
        cases h
      · intro all
        exact absurd (all id ⟨m, List.mem_append_left _ hm⟩) kept

end

/-- A signed comparison, in a block that ends in the given terminator. -/
def signedCompare (t : Term Value) : Function where
  args := []
  nextId := 5
  blocks :=
    [⟨0, [], [⟨0, .int 32, .load false (.const (.global 0))⟩,
        ⟨1, .int 1, .icmp .sgt (.inst 0) (.const (.int 32 3))⟩], 2, t⟩,
     ⟨1, [], [⟨3, .int 1, .icmp .ugt (.inst 0) (.const (.int 32 3))⟩], 4, .ret (some (.inst 3))⟩]

def signedReturn : Function := signedCompare (.ret (some (.const (.int 1 1))))

end LogicalDiagnostics
