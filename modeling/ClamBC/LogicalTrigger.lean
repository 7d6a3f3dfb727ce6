import ClamBC.LogicalFragment
import ClamBC.LogicalReturns
import ClamBC.LogicalSteps

/-!
# The text of a function with one return

Along a run of a function of the fragment every register holds a number of its type, and the
node of the instruction says which one. The run takes a walk through the graph whose branches
are decided by the nodes of their conditions, and since there are no loops it comes to the
return.
-/

namespace LogicalTrigger

open Ir IrExec LogicalNode LogicalCompiler LogicalShape LogicalMap LogicalMeaning
  LogicalConjunction LogicalConstructed LogicalCompare LogicalRoutes
  LogicalInstructions LogicalPhi LogicalSelection LogicalText LogicalFragment LogicalReturns
    LogicalSteps TriggerRun SsaForm Fallible

section
variable (τ : Nat → Ty) (map : Nat → Option Ptr) (counts : Counts)

/-- A register holds a number of its type, the one that the node says. -/
def Good (d : Nat) (x : Val) : Prop :=
  ∃ bits k, τ d = .int bits ∧ x = .num k ∧ k < 2 ^ bits ∧ ∀ n, map d = some (some n) →
    Denotes counts (.int bits) n x

/-- An operand that is a bit, the one that its node says. -/
def GoodBit (v : Value) (x : Val) : Prop :=
  ∃ k : Nat, x = .num k ∧ k < 2 ∧ ∀ n, lookup map v = some (some n) → Denotes counts (.int 1) n x

end

section
variable {o : PtrOrder} {gv : GlobalId} {f : Function} {τ : Nat → Ty} {counts : Counts}
  {map : Nat → Option Ptr}
  {mem : Memory} {regs : Nat → Val}

theorem Good.bit {v : Value} (bit : Bit τ v)
    (good : ∀ d, v = .inst d → Good τ map counts d (regs d)) :
    GoodBit map counts v (eval sem (fun _ => .other 0) regs v) := by
  cases bit with
  | @inst d typed =>
    obtain ⟨bits, k, typed', value, small, denotes⟩ := good d rfl
    cases typed.symm.trans typed'
    exact ⟨k, value, small, denotes⟩
  | @const b small => exact ⟨b, rfl, small, nofun⟩

theorem Good.number {d : Nat} {x : Val} (typed : τ d = .int 32) (good : Good τ map counts d x) :
    ∃ k : Nat, x = .num k ∧ k < 2 ^ 32 ∧ ∀ n, map d = some (some n) →
      Denotes counts (.int 32) n x := by
  obtain ⟨bits, k, typed', value, small, denotes⟩ := good
  cases typed.symm.trans typed'
  exact ⟨k, value, small, denotes⟩

theorem GoodBit.truth {v : Value} {x : Val} {n : Node} (good : GoodBit map counts v x)
    (found : lookup map v = some (some n)) : Holds counts n ↔ truthVal x = true := by
  obtain ⟨k, -, -, denotes⟩ := good
  obtain ⟨b, rfl, -, holds⟩ := (denotes n found).bit
  rw [holds]
  simp [truthVal]

/-! ## One instruction -/

theorem constVal_count {ptr : Value} {k : Nat} (address : CountAt gv ptr k) :
    eval sem (fun _ => .other 0) regs ptr = .slot gv k := by
  cases address <;> rfl

theorem isCount_of_address {ptr : Value} {k : Nat} (address : CountAt gv ptr k) :
    IsCount gv ptr := by
  cases address with
  | first => rfl
  | element bits bits' small => exact ⟨rfl, small⟩

theorem bitwise_small {a b : Nat} (left : a < 2) (right : b < 2) :
    a &&& b < 2 ∧ a ||| b < 2 ∧ a ^^^ b < 2 :=
  ⟨Nat.and_lt_two_pow (n := 1) a right, Nat.or_lt_two_pow (n := 1) left right,
    Nat.xor_lt_two_pow (n := 1) left right⟩

/-- An instruction of the fragment computes a number of its type. -/
theorem opVal_number
    (inMemory : ∀ k, mem (.slot gv k) = .num (counts k).toNat) {i : Inst} (simple : Simple gv τ i)
    (operands : ∀ d, .inst d ∈ i.op.operands → Good τ map counts d (regs d)) :
    ∃ bits k, i.ty = .int bits ∧ k < 2 ^ bits ∧
      opVal i.ty (i.op.map (eval sem (fun _ => .other 0) regs)) mem = some (.num k) := by
  cases simple with
  | @count id vol ptr k address =>
    refine ⟨32, (counts k).toNat % 2 ^ 32, rfl, Nat.mod_lt _ (by decide), ?_⟩
    simp only [Op.map, constVal_count address, opVal, inMemory, loadVal, Nat.le_refl, if_true]
  | @sum id a b left right =>
    obtain ⟨k, valueL, -, -⟩ := (operands a (by simp [Op.operands])).number left
    obtain ⟨l, valueR, -, -⟩ := (operands b (by simp [Op.operands])).number right
    refine ⟨32, (k + l) % 2 ^ 32, rfl, Nat.mod_lt _ (by decide), ?_⟩
    simp [Op.map, eval, valueL, valueR, opVal, binaryVal]
  | @compare id a c pred left small isUnsigned =>
    obtain ⟨k, value, -, -⟩ := (operands a (by simp [Op.operands])).number left
    obtain ⟨r, compared⟩ : ∃ r, compareVal k c pred = some r := by
      cases pred <;> first | exact ⟨_, rfl⟩ | cases isUnsigned
    refine ⟨1, r.toNat, rfl, by cases r <;> decide, ?_⟩
    simp [Op.map, eval, value, sem, constVal, opVal, compared]
  | @and id a b left right =>
    obtain ⟨k, valueL, smallL, -⟩ :=
      Good.bit left fun d same => operands d (by simp [Op.operands, same])
    obtain ⟨l, valueR, smallR, -⟩ :=
      Good.bit right fun d same => operands d (by simp [Op.operands, same])
    refine ⟨1, k &&& l, rfl, (bitwise_small smallL smallR).1, ?_⟩
    simp [Op.map, valueL, valueR, opVal, binaryVal]
  | @or id a b left right =>
    obtain ⟨k, valueL, smallL, -⟩ :=
      Good.bit left fun d same => operands d (by simp [Op.operands, same])
    obtain ⟨l, valueR, smallR, -⟩ :=
      Good.bit right fun d same => operands d (by simp [Op.operands, same])
    refine ⟨1, k ||| l, rfl, (bitwise_small smallL smallR).2.1, ?_⟩
    simp [Op.map, valueL, valueR, opVal, binaryVal]
  | @not id a operand =>
    obtain ⟨k, valueL, smallL, -⟩ :=
      Good.bit operand fun d same => operands d (by simp [Op.operands, same])
    refine ⟨1, k ^^^ 1, rfl, (bitwise_small smallL (by decide)).2.2, ?_⟩
    simp only [Op.map, valueL]
    rfl
  | @select id c t e cond ifTrue ifFalse =>
    obtain ⟨k, valueT, smallT, -⟩ :=
      Good.bit ifTrue fun d same => operands d (by simp [Op.operands, same])
    obtain ⟨l, valueE, smallE, -⟩ :=
      Good.bit ifFalse fun d same => operands d (by simp [Op.operands, same])
    refine ⟨1, if truthVal (eval sem (fun _ => .other 0) regs c) then k else l, rfl, ?_, ?_⟩
    · split_ifs
      · exact smallT
      · exact smallE
    · simp only [Op.map, opVal, valueT, valueE]
      split_ifs <;> rfl

/-! Nothing that is added, compared or conjoined in the fragment loses its meaning. -/

theorem addOk_of_shaped (noOverflow : NoOverflow gv f counts) (shaped : ShapedMap gv f τ counts map)
    {a b : Nat} (left : τ a = .int 32) (right : τ b = .int 32) :
    AddOk map (.int 32) (.inst a) (.inst b) := by
  intro p foundL
  refine ⟨fun same => (by cases same), fun q m foundR _ _ => ?_⟩
  obtain ⟨is, countL, -⟩ := shaped.number noOverflow left foundL
  obtain ⟨js, countR, -⟩ := shaped.number noOverflow right foundR
  refine ⟨rfl, countL.whole, countR.whole, ?_, fun offset => ?_⟩
  · cases countL <;> cases countR <;> rfl
  · rw [countL.not_add] at offset
    cases offset

theorem icmpOk_of_shaped (noOverflow : NoOverflow gv f counts)
    (shaped : ShapedMap gv f τ counts map) {a c : Nat} {pred : Predicate} (left : τ a = .int 32) :
    ICmpOk o map τ pred (.inst a) (.const (.int 32 c)) := by
  rintro op bits c' m (⟨rfl, same⟩ | ⟨rfl, same⟩) - found -
  · cases same
    obtain ⟨is, count, fits⟩ := shaped.number noOverflow left found
    refine ⟨fun isRight => (by cases isRight), Or.inl fun isBit => ?_,
      compareOk_group count.group fits⟩
    rw [typeOf, left] at isBit
    cases isBit
  · cases same

theorem selectOk_of_shaped (shaped : ShapedMap gv f τ counts map) {c t e : Value}
    (cond : Bit τ c) (ifTrue : Bit τ t) (ifFalse : Bit τ e) :
    SelectOk o map (.int 1) c t e := by
  intro g found _ _ _
  have guard := shaped.bit cond found
  refine ⟨rfl, fun _ => notOk_settles guard, fun t found => ?_, fun e negated found negation => ?_⟩
  · exact andKept_settle guard (shaped.bit ifTrue found)
  · exact andKept_settle (getNot_settles guard negation) (shaped.bit ifFalse found)

/-- The node of an instruction of the fragment says what the instruction computes. -/
theorem opVal_denotes (noOverflow : NoOverflow gv f counts) (shaped : ShapedMap gv f τ counts map)
    (inMemory : ∀ k, mem (.slot gv k) = .num (counts k).toNat) {i : Inst} (simple : Simple gv τ i)
    (operands : ∀ d, .inst d ∈ i.op.operands → Good τ map counts d (regs d))
    {n : Node} {x : Val} (bound : processInst o gv (lookup map) i = .ok (.bind (some n)))
    (ran : opVal i.ty (i.op.map (eval sem (fun _ => .other 0) regs)) mem = some x) :
    Denotes counts i.ty n x := by
  have constants : ∀ c, eval sem (fun _ => .other 0) regs (.const c) = constVal c := fun _ => rfl
  cases simple with
  | @count id vol ptr k address =>
    exact load_denotes constants inMemory (isCount_of_address address) bound ran
  | @sum id a b left right =>
    obtain ⟨k, -, -, denotesL⟩ := (operands a (by simp [Op.operands])).number left
    obtain ⟨l, -, -, denotesR⟩ := (operands b (by simp [Op.operands])).number right
    have sum : processAdd (lookup map) (.inst a) (.inst b) = .ok (.bind (some n)) := bound
    have fits : LogicalInstructions.Fits (.inst b) := trivial
    have typed : typeOf τ (.inst b) = .int 32 := right
    refine add_denotes constants fits typed (fun v hv p found => ?_)
      (addOk_of_shaped noOverflow shaped left right) sum ran
    simp only [List.mem_cons, List.not_mem_nil, or_false] at hv
    rcases hv with rfl | rfl
    · exact denotesL p found
    · exact denotesR p found
  | @compare id a c pred left small isUnsigned =>
    obtain ⟨k, -, -, denotes⟩ := (operands a (by simp [Op.operands])).number left
    have compared : processICmp o (lookup map) pred (.inst a) (.const (.int 32 c)) =
      .ok (.bind (some n)) := bound
    refine icmp_denotes constants (fun v hv p found => ?_)
      (icmpOk_of_shaped noOverflow shaped left) compared ran
    simp only [List.mem_cons, List.not_mem_nil, or_false] at hv
    rcases hv with rfl | rfl
    · rw [typeOf, left]
      exact denotes p found
    · cases found
  | @and id a b left right =>
    obtain ⟨k, -, -, denotesL⟩ :=
      Good.bit left fun d same => operands d (by simp [Op.operands, same])
    obtain ⟨l, -, -, denotesR⟩ :=
      Good.bit right fun d same => operands d (by simp [Op.operands, same])
    obtain ⟨p, q, foundL, foundR, conjunction⟩ := processAnd_parts bound
    refine and_denotes ?_ (fun p q foundL foundR => ?_) foundL foundR conjunction ran
    · intro v hv p found
      simp only [List.mem_cons, List.not_mem_nil, or_false] at hv
      rcases hv with rfl | rfl
      · exact denotesL p found
      · exact denotesR p found
    · exact andKept_settle (shaped.bit left foundL) (shaped.bit right foundR)
  | @or id a b left right =>
    obtain ⟨k, -, -, denotesL⟩ :=
      Good.bit left fun d same => operands d (by simp [Op.operands, same])
    obtain ⟨l, valueR, smallR, denotesR⟩ :=
      Good.bit right fun d same => operands d (by simp [Op.operands, same])
    obtain ⟨p, q, foundL, foundR, disjunction⟩ := processOr_parts bound
    exact or_denotes denotesL denotesR ⟨l, valueR, smallR⟩ foundL foundR disjunction ran
  | @not id a operand =>
    obtain ⟨k, -, -, denotes⟩ :=
      Good.bit operand fun d same => operands d (by simp [Op.operands, same])
    have negation : processXor o (lookup map) a (.const (.int 1 1)) = .ok (.bind (some n)) := bound
    exact xor_denotes constants denotes
      (fun m found => notOk_settles (shaped.bit operand found)) negation ran
  | @select id c t e cond ifTrue ifFalse =>
    obtain ⟨k, -, -, denotesC⟩ :=
      Good.bit cond fun d same => operands d (by simp [Op.operands, same])
    obtain ⟨l, -, -, denotesT⟩ :=
      Good.bit ifTrue fun d same => operands d (by simp [Op.operands, same])
    obtain ⟨m, -, -, denotesE⟩ :=
      Good.bit ifFalse fun d same => operands d (by simp [Op.operands, same])
    refine select_denotes constants (fun v hv p found => ?_)
      (selectOk_of_shaped shaped cond ifTrue ifFalse) bound ran
    simp only [List.mem_cons, List.not_mem_nil, or_false] at hv
    rcases hv with rfl | rfl | rfl
    · exact denotesC p found
    · exact denotesT p found
    · exact denotesE p found

/-- An instruction of the fragment does not trap, and its register is good. -/
theorem exec_good (noOverflow : NoOverflow gv f counts) (shaped : ShapedMap gv f τ counts map)
    {i : Inst} (typed : τ i.id = i.ty) (simple : Simple gv τ i) (settled : InstSettled o gv map i)
    {s : State Val Memory} (inMemory : ∀ k, s.mem (.slot gv k) = .num (counts k).toNat)
    (operands : ∀ d, .inst d ∈ i.op.operands → Good τ map counts d (s.regs d)) :
    ∃ x, exec sem (fun _ => .other 0) (fun _ => false) i s = some (x, s) ∧
      Good τ map counts i.id x := by
  obtain ⟨bits, k, width, small, ran⟩ := opVal_number inMemory simple operands
  have plain : exec sem (fun _ => .other 0) (fun _ => false) i s =
      execPlain sem (fun _ => .other 0) i s := by
    cases simple with
    | count address => cases address <;> rfl
    | _ => rfl
  refine ⟨.num k, ?_, bits, k, typed.trans width, rfl, small, fun n found => ?_⟩
  · rw [plain]
    change (Option.map _ (opVal i.ty (i.op.map (eval sem (fun _ => .other 0) s.regs)) s.mem)).map
      _ = _
    rw [ran]
    rfl
  · rw [← width]
    rcases settled with absent | ⟨p, found', bound⟩
    · cases found.symm.trans absent
    · cases found.symm.trans found'
      exact opVal_denotes noOverflow shaped inMemory simple operands bound ran

/-! ## One block -/

section
variable (noOverflow : NoOverflow gv f counts) (shaped : ShapedMap gv f τ counts map)
  (fragment : Fragment gv τ f)
  (ssa : Ssa f)
include noOverflow shaped fragment ssa

/-- The body, from the registers that are available in front of it. -/
theorem execBody_good {B : Block} (hB : B ∈ f.blocks)
    (reach : Reachable f B.label) (settled : ∀ i ∈ B.body, InstSettled o gv map i)
    {done is : List Inst} (split : B.body = done ++ is)
    {s : State Val Memory} (inMemory : ∀ k, s.mem (.slot gv k) = .num (counts k).toNat)
    (good : ∀ d, Available f d B.label done.length → Good τ map counts d (s.regs d)) :
    ∃ s', (execBody sem (fun _ => .other 0) (fun _ => false) is s).2 = some s' ∧ s'.mem = s.mem ∧
      ∀ d, Available f d B.label B.body.length → Good τ map counts d (s'.regs d) := by
  induction is generalizing done s with
  | nil =>
    refine ⟨s, rfl, rfl, fun d available => good d ?_⟩
    rwa [split, List.append_nil] at available
  | cons i is ih =>
    have here : B.body[done.length]? = some i := by simp [split]
    have hi : i ∈ B.body := List.mem_of_getElem? here
    obtain ⟨typed, simple⟩ := fragment.insts B hB i hi
    obtain ⟨x, ran, goodX⟩ := exec_good noOverflow shaped typed simple (settled i hi) inMemory
      fun d used => good d (ssa.body B hB reach done.length i here d used)
    have next : ∀ d, Available f d B.label (done ++ [i]).length →
        Good τ map counts d ((s.setReg i.id x).regs d) := by
      intro d available
      by_cases same : d = i.id
      · subst same
        simpa [State.setReg] using goodX
      · have before : Available f d B.label done.length := by
          cases available with
          | phi block member => exact .phi block member
          | dominated member inside dom => exact .dominated member inside dom
          | @earlier C block member =>
            cases block.symm.trans (ssa.wf.block_of_label hB)
            have whole : B.body = (done ++ [i]) ++ is := by simp [split]
            rw [whole, List.take_left, List.map_append, List.mem_append] at member
            refine .earlier block ?_
            rw [split, List.take_left]
            refine member.resolve_right fun last => same ?_
            simpa using last
        simpa [State.setReg, same] using good d before
    obtain ⟨s', rest, memory, goodEnd⟩ :=
      @ih (done ++ [i]) (by simp [split]) (s.setReg i.id x) inMemory next
    refine ⟨s', ?_, memory, goodEnd⟩
    simp only [execBody, ran]
    exact rest

end

/-! ## Phis -/

/-- Every branch of a compiled function of the fragment has a node that can be negated. -/
theorem conditionsHaveNodes (settled : ∀ B ∈ f.blocks, BlockSettled o gv f map B) :
    ConditionsHaveNodes o (lookup map) f := by
  intro B hB
  have term := (settled B hB).term
  cases hterm : B.term with
  | condBr c t e =>
    rw [hterm] at term
    exact term
  | switch c d cases =>
    rw [hterm] at term
    exact term.elim
  | _ => trivial

section
variable (fragment : Fragment gv τ f) (shaped : ShapedMap gv f τ counts map)
include fragment shaped

/-- Nothing is lost along a route of the fragment. -/
theorem routesKept {B : Block} (hB : B ∈ f.blocks) {p : Phi} (hp : p ∈ B.phis) :
    RoutesKept o (lookup map) f B.label p := by
  intro E entry r hr e he _ _
  refine chainKept_of (P := Settles counts) ?_ (fun _ _ => andKept_settle) fun m hm => ?_
  · exact fun a n first second => settles_formed.getAnd (settle_pair first second)
  rcases List.mem_append.mp hm with hm | hm
  · obtain ⟨hop, inside, hm⟩ := List.mem_flatMap.mp hm
    unfold hopNodes at hm
    split at hm
    · cases hm
    · next c cond =>
      split at hm
      · cases hm
      · next ln found =>
        split at hm
        · next n direction =>
          rw [List.mem_singleton.mp hm]
          have here := fun (k : Node) (same : ln = some k) =>
            fragment.routeHolds (o := o) shaped hr hop inside c k cond (same ▸ found)
          have directed := directed_meets joined_settles (fun k same => (here k same).1)
            fun no k same => (here k same).2 no
          exact directed.of_ok direction n rfl
        · cases hm
  · unfold inputNodes at hm
    split_ifs at hm
    · cases hm
    · split at hm
      · next n found =>
        rw [List.mem_singleton.mp hm]
        exact shaped.bit ((fragment.phis B hB p hp).2 e he) found
      · cases hm

/-- The node of a phi is the input that the walk selects. -/
theorem phi_selects (settled : ∀ B ∈ f.blocks, BlockSettled o gv f map B) (wf : f.WellFormed)
    (free : f.LoopFree) {E B : Block}
    (entry : f.entry = some E) (hB : B ∈ f.blocks) {p : Phi} (hp : p ∈ B.phis) {n : Node}
    (found : map p.id = some (some n)) {hops : Route} (walk : Walks f E.label hops B.label)
    (decided : ∀ hop ∈ hops, Decided o (lookup map) counts hop)
    {v : Value} {b : Label} (member : (v, b) ∈ p.incoming)
    (ends : EndsIn hops b) {s : State Val Memory} (good : GoodBit map counts v (valueIn s v)) :
    Holds counts n ↔ truthVal (valueIn s v) = true := by
  obtain ⟨q, found', ran⟩ := (settled B hB).phi p hp
  cases found.symm.trans found'
  have ran' : phiIncoming o (lookup map) (routesTo f E.label B.label) p.incoming none =
      .ok (some n) := by
    rw [processPHI, entry] at ran
    exact ran
  obtain ⟨among, -⟩ := routesTo_of_walk free walk
  have conditional : ∃ hop ∈ hops, hop.cond ≠ none := by
    by_contra plain
    push Not at plain
    have only : routesTo f E.label B.label = [hops] := by
      rw [routesTo_eq] at among ⊢
      exact extended_unconditional among plain
    have null := phiIncoming_unconditional (by simpa [only] using plain) ran'
    cases null
  have present : ∀ e ∈ p.incoming, isConstantInt e.1 = false →
      (∃ r ∈ routesTo f E.label B.label, EndsIn r e.2) →
      ∃ m, lookup map e.1 = some (some m) :=
    fun e he notConstant ends => phiIncoming_present ran' he notConstant ends
  obtain ⟨ln, ran'', -, spec⟩ :=
    processPHI_of_walk free entry walk conditional (conditionsHaveNodes settled) present
    (routesKept fragment shaped hB hp) decided
  cases ran.symm.trans ran''
  rw [spec n rfl]
  refine selected_iff wf hB hp member ends fun notConstant => ?_
  obtain ⟨m, foundV⟩ := present (v, b) member notConstant ⟨hops, among, ends⟩
  exact ⟨m, foundV, good.truth foundV⟩

end

end

/-! ## The run -/

/-- A function of the fragment with the map that its compilation leaves behind. -/
structure Accepted (o : PtrOrder) (gv : GlobalId) (f : Function) (τ : Nat → Ty) (counts : Counts)
    (map : Nat → Option Ptr) : Prop where
  ssa : Ssa f
  free : f.LoopFree
  fragment : Fragment gv τ f
  noOverflow : NoOverflow gv f counts
  shaped : ShapedMap gv f τ counts map
  settled : ∀ B ∈ f.blocks, BlockSettled o gv f map B

section
variable (o : PtrOrder) (f : Function) (τ : Nat → Ty) (counts : Counts) (map : Nat → Option Ptr)
  (mem : Memory)

/-- Control is in front of a block, after a walk with decided branches, and what was available at
the end of the previous block is good. -/
structure At (hops : Route) (prev : Option Label) (l : Label) (s : State Val Memory) : Prop where
  walk : ∃ E, f.entry = some E ∧ Walks f E.label hops l
  decided : ∀ hop ∈ hops, Decided o (lookup map) counts hop
  ends : ∀ b, prev = some b → EndsIn hops b
  enters : Enters f prev l
  memory : s.mem = mem
  good : ∀ A ∈ f.blocks, prev = some A.label → Reachable f A.label ∧
    ∀ d, Available f d A.label A.body.length → Good τ map counts d (s.regs d)

end

section
variable {o : PtrOrder} {gv : GlobalId} {f : Function} {τ : Nat → Ty} {counts : Counts}
  {map : Nat → Option Ptr}
  {mem : Memory} {hops : Route} {prev : Option Label} {l : Label} {s : State Val Memory}

theorem At.start {E : Block} (entry : f.entry = some E) :
    At o f τ counts map mem [] none E.label (initial sem mem) where
  walk := ⟨E, entry, .nil _⟩
  decided := nofun
  ends := nofun
  enters := .entry entry
  memory := rfl
  good := nofun

theorem At.reachable (here : At o f τ counts map mem hops prev l s) : Reachable f l := by
  obtain ⟨E, entry, walk⟩ := here.walk
  exact ⟨E, entry, walk.reaches⟩

/-- The registers behind the phis of a block. -/
theorem At.phis
    (accepted : Accepted o gv f τ counts map) (here : At o f τ counts map mem hops prev l s)
    {B : Block} (block : f.block l = some B) {regs : Nat → Val}
    (entered : enterPhis sem (fun _ => .other 0) prev s.regs B.phis = some regs) :
    ∀ d, Available f d l 0 → Good τ map counts d (regs d) := by
  have wf := accepted.ssa.wf
  have hB : B ∈ f.blocks := List.mem_of_find?_eq_some block
  have label : B.label = l := by simpa using List.find?_some block
  obtain ⟨E, entry, walk⟩ := here.walk
  -- a phi selects the input of the previous block
  have phi : ∀ p ∈ B.phis, Good τ map counts p.id (regs p.id) := by
    intro p hp
    obtain ⟨typed, inputs⟩ := accepted.fragment.phis B hB p hp
    obtain ⟨v, listed, value⟩ := enterPhis_phi sem _ entered (wf.phi_ids_nodup hB) hp
    obtain ⟨b, rfl, member⟩ := valueFrom_mem listed
    obtain ⟨A, hA, labelA, -⟩ := wf.preds B hB p hp v b member
    subst labelA
    obtain ⟨reach, good⟩ := here.good A hA rfl
    have bit : GoodBit map counts v (valueIn s v) := by
      refine Good.bit (inputs _ member) fun d same => good d ?_
      subst same
      exact accepted.ssa.phi B hB p hp A hA reach d member
    have selects : ∀ n, map p.id = some (some n) →
        (Holds counts n ↔ truthVal (valueIn s v) = true) := by
      intro n found
      exact phi_selects accepted.fragment accepted.shaped accepted.settled wf accepted.free entry hB
        hp found (label ▸ walk)
        here.decided member (here.ends _ rfl) bit
    obtain ⟨k, isNum, small, -⟩ := bit
    refine ⟨1, k, typed, value.trans isNum, small, fun n found => ?_⟩
    have holds := selects n found
    rw [value]
    change Denotes counts (.int 1) n (valueIn s v)
    rw [isNum] at holds ⊢
    change k = if Holds counts n then 1 else 0
    by_cases truth : Holds counts n
    · have nonzero : k ≠ 0 := by simpa [truthVal] using holds.mp truth
      rw [if_pos truth]
      omega
    · have zero : k = 0 := by simpa [truthVal] using mt holds.mpr truth
      rw [if_neg truth, zero]
  intro d available
  by_cases own : d ∈ B.phis.map Phi.id
  · obtain ⟨p, hp, rfl⟩ := List.mem_map.mp own
    exact phi p hp
  · rw [enterPhis_other sem _ entered own]
    cases enters : here.enters with
    | @entry C first =>
      cases available with
      | phi block' member =>
        cases block.symm.trans block'
        exact absurd member own
      | earlier _ member => simp at member
      | dominated _ _ dom =>
        obtain ⟨E', entry', dom⟩ := dom
        cases first.symm.trans entry'
        exact absurd .refl dom
    | @edge A hA l edge =>
      rcases available.of_edge wf hA edge with ⟨C, hC, labelC, member⟩ | before
      · have same : C = B := List.inj_on_of_nodup_map wf.labels hC hB (labelC.trans label.symm)
        subst same
        exact absurd member own
      · exact (here.good A hA rfl).2 d before

/-- A visit comes to the end of its block. -/
theorem At.visit (accepted : Accepted o gv f τ counts map)
    (inMemory : ∀ k, mem (.slot gv k) = .num (counts k).toNat)
    (here : At o f τ counts map mem hops prev l s) :
    ∃ B s', f.block l = some B ∧ (visitOf f prev l s).after = some s' ∧
      (visitOf f prev l s).exit = leave sem (B.term.map (valueIn s')) ∧ s'.mem = mem ∧
      ∀ d, Available f d B.label B.body.length → Good τ map counts d (s'.regs d) := by
  have wf := accepted.ssa.wf
  obtain ⟨B, hB, label⟩ : ∃ B ∈ f.blocks, B.label = l := by
    cases here.enters with
    | entry first => exact ⟨_, List.mem_of_head? first, rfl⟩
    | edge hA edge => exact accepted.fragment.targets _ hA _ edge
  subst label
  have block : f.block B.label = some B := wf.block_of_label hB
  obtain ⟨regs, entered⟩ := enterPhis_isSome sem (fun _ => .other 0) wf hB here.enters s.regs
  have good := here.phis accepted block entered
  obtain ⟨s', ran, memory, goodEnd⟩ :=
    @execBody_good o gv f τ counts map accepted.noOverflow accepted.shaped
    accepted.fragment accepted.ssa B hB here.reachable (accepted.settled B hB).inst [] B.body rfl
      { s with regs := regs }
    (fun k => by rw [← inMemory, ← here.memory]) good
  refine ⟨B, s', block, ?_, ?_, memory.trans here.memory, goodEnd⟩
  · simp only [visitOf, IrExec.visit, block, entered]
    cases result :
      execBody sem (fun _ => .other 0) (fun _ => false) B.body { s with regs := regs } with
    | mk events after =>
      rw [result] at ran
      cases ran
      rfl
  · simp only [visitOf, IrExec.visit, block, entered]
    cases result :
      execBody sem (fun _ => .other 0) (fun _ => false) B.body { s with regs := regs } with
    | mk events after =>
      rw [result] at ran
      cases ran
      rfl

/-- The walk goes on with the branch that the visit takes. -/
theorem At.next (accepted : Accepted o gv f τ counts map)
    (inMemory : ∀ k, mem (.slot gv k) = .num (counts k).toNat)
    (here : At o f τ counts map mem hops prev l s) {l' : Label} {s' : State Val Memory}
    (exit : (visitOf f prev l s).exit = .goto l') (after : (visitOf f prev l s).after = some s') :
    ∃ hop, At o f τ counts map mem (hops ++ [hop]) (some l) l' s' := by
  have wf := accepted.ssa.wf
  obtain ⟨B, t, block, ended, leaves, memory, good⟩ := here.visit accepted inMemory
  cases after.symm.trans ended
  have hB : B ∈ f.blocks := List.mem_of_find?_eq_some block
  have label : B.label = l := by simpa using List.find?_some block
  have nodes := conditionsHaveNodes accepted.settled
  -- the node of the condition says how the branch goes
  have evaluates : ∀ c t e, B.term = .condBr c t e → ∀ n, lookup map c = some (some n) →
      (Holds counts n ↔ truthVal (valueIn s' c) = true) ∧
        ∀ m, getNot o n = .ok m → (Holds counts m ↔ ¬ Holds counts n) := by
    intro c t e term n found
    have ends := accepted.fragment.terms B hB
    rw [term] at ends
    cases ends with
    | condBr t e bit =>
      have bitGood : GoodBit map counts c (valueIn s' c) := by
        refine Good.bit bit fun d same => good d ?_
        subst same
        exact accepted.ssa.term B hB (label ▸ here.reachable) d (by simp [term, Term.operands])
      refine ⟨bitGood.truth found, fun m negation => ?_⟩
      exact holds_getNot (notOk_settles (accepted.shaped.bit bit found)) negation
  obtain ⟨hop, move, decided⟩ := branch_decided nodes block (leaves.symm.trans exit) evaluates
  obtain ⟨E, entry, walk⟩ := here.walk
  refine ⟨hop, ⟨E, entry, walk.snoc move⟩, decided_snoc here.decided decided, ?_,
    visit_enters sem _ exit, memory, ?_⟩
  · rintro b same
    cases same
    exact ⟨hop, by simp, move.block⟩
  · intro A hA same
    have isB : A = B :=
      List.inj_on_of_nodup_map wf.labels hA hB (label.trans (Option.some.inj same)).symm
    subst isB
    exact ⟨label ▸ here.reachable, good⟩

/-- The run comes to a return: every block that is not one moves the walk on, and a walk is not
longer than the function. -/
theorem At.returns (accepted : Accepted o gv f τ counts map)
    (inMemory : ∀ k, mem (.slot gv k) = .num (counts k).toNat)
    (here : At o f τ counts map mem hops prev l s) {n : Nat}
    (enough : f.blocks.length < hops.length + n) :
    ∃ w ∈ run sem (fun _ => .other 0) (fun _ => false) f n prev l s, ∃ B x,
      f.block w.label = some B ∧
      w.exit = .ret (some x) := by
  induction n generalizing hops prev l s with
  | zero =>
    obtain ⟨E, -, walk⟩ := here.walk
    have short := walk.length_le accepted.free
    omega
  | succ n ih =>
    obtain ⟨B, s', block, after, exit, -, -⟩ := here.visit accepted inMemory
    have hB : B ∈ f.blocks := List.mem_of_find?_eq_some block
    have onward : ∀ l', (visitOf f prev l s).exit = .goto l' →
        ∃ w ∈ run sem (fun _ => .other 0) (fun _ => false) f (n + 1) prev l s, ∃ B x,
          f.block w.label = some B ∧
          w.exit = .ret (some x) := by
      intro l' exit
      obtain ⟨hop, next⟩ := here.next accepted inMemory exit after
      obtain ⟨w, member, found⟩ :=
        ih next (by simp only [List.length_append, List.length_singleton]; omega)
      have step : run sem (fun _ => .other 0) (fun _ => false) f (n + 1) prev l s =
          visitOf f prev l s ::
            run sem (fun _ => .other 0) (fun _ => false) f n (some l) l' s' := by
        have exit' : (IrExec.visit sem (fun _ => .other 0) (fun _ => false) f prev l s).exit =
          .goto l' := exit
        have after' : (IrExec.visit sem (fun _ => .other 0) (fun _ => false) f prev l s).after =
          some s' := after
        simp only [run, exit', after']
        rfl
      exact ⟨w, step ▸ List.mem_cons_of_mem _ member, found⟩
    have ends := accepted.fragment.terms B hB
    cases term : B.term with
    | br dest => exact onward dest (by rw [exit, term]; rfl)
    | condBr c t e => exact onward _ (by rw [exit, term]; rfl)
    | ret v =>
      rw [term] at ends
      cases ends with
      | @ret v bit =>
        refine ⟨visitOf f prev l s, ?_, B, valueIn s' v, ?_, by rw [exit, term]; rfl⟩
        · have returned : (IrExec.visit sem (fun _ => .other 0) (fun _ => false) f prev l s).exit =
              .ret (some (valueIn s' v)) := by
            rw [visitOf, term] at exit
            exact exit
          simp only [run, returned]
          exact List.mem_singleton_self _
        · rw [visitOf, visit_label]
          exact block
    | switch c d cases =>
      rw [term] at ends
      cases ends
    | unreachable =>
      rw [term] at ends
      cases ends

/-! ## The node of the function -/

theorem Fragment.returned (fragment : Fragment gv τ f) {d : Nat} (returned : Returned f d) :
    τ d = .int 1 := by
  obtain ⟨B, hB, term⟩ := returned
  have ends := fragment.terms B hB
  rw [term] at ends
  cases ends with
  | ret bit =>
    cases bit with
    | inst typed => exact typed

theorem kept_returned (accepted : Accepted o gv f τ counts map) :
    ∀ d n, Returned f d → map d = some (some n) → AndKept [n] := by
  intro d n returned found
  have settles := (accepted.shaped d n found).1 (Fragment.returned accepted.fragment returned)
  exact andKept_of_noClash (noClash_popped_settle (by simpa using settles))

theorem node_settles (accepted : Accepted o gv f τ counts map) {node : Node}
    (settled : Settled o gv f map node) :
    Settles counts node := by
  rw [settled.node]
  refine settles_formed.getAnd
    (settle_pair (settles_formed.getOrExits fun n hn => ?_) (settles_formed.getAnd fun n hn => ?_))
  · rcases mem_exits settled.block hn with rfl | ⟨d, m, returned, found, rfl⟩
    · exact .const false
    · have typed := Fragment.returned accepted.fragment returned
      exact settles_formed.getAnd (by simpa using (accepted.shaped d m found).1 typed)
  · rw [exitAnd_true hn]
    exact .const true

/-- At the return the node says what is returned. -/
theorem holds_iff_returned (accepted : Accepted o gv f τ counts map) {node : Node}
    (settled : Settled o gv f map node) (constructed : ConstructedMap map) {B : Block}
    (hB : B ∈ f.blocks) (reach : Reachable f B.label) {v : Value} (term : B.term = .ret (some v))
    (good : ∀ d, Available f d B.label B.body.length → Good τ map counts d (s.regs d)) :
    Holds counts node ↔ truthVal (valueIn s v) = true := by
  have only : ∀ C ∈ f.blocks, ∀ w, C.term = .ret (some w) → w = v := by
    intro C hC w termC
    obtain ⟨R, -, unique⟩ := accepted.fragment.oneReturn
    have same : C = B := (unique C ⟨hC, _, termC⟩).trans (unique B ⟨hB, _, term⟩).symm
    subst same
    cases term.symm.trans termC
    rfl
  have bit : Bit τ v := by
    have ends := accepted.fragment.terms B hB
    rw [term] at ends
    cases ends with
    | ret bit => exact bit
  have goodBit : GoodBit map counts v (valueIn s v) := by
    refine Good.bit bit fun d same => good d ?_
    subst same
    exact accepted.ssa.term B hB reach d (by simp [term, Term.operands])
  have evaluates : ∀ d n, Returned f d → map d = some (some n) →
      (Holds counts n ↔ truthVal (s.regs d) = true) := by
    rintro d n ⟨C, hC, termC⟩ found
    cases only C hC _ termC
    exact goodBit.truth found
  rw [holds_node settled constructed (kept_returned accepted) evaluates]
  cases bit with
  | @inst d typed =>
    constructor
    · rintro (allTrue | ⟨e, ⟨C, hC, termC⟩, truth⟩)
      · obtain ⟨bits, c, same, -⟩ := allTrue B hB _ term
        cases same
      · cases only C hC _ termC
        exact truth
    · exact fun truth => Or.inr ⟨d, ⟨B, hB, term⟩, truth⟩
  | @const b small =>
    have truth : truthVal (valueIn s (.const (.int 1 b))) = true ↔ b ≠ 0 := by
      simp [valueIn, eval, sem, constVal, truthVal]
    rw [truth]
    constructor
    · rintro (allTrue | ⟨e, ⟨C, hC, termC⟩, -⟩)
      · obtain ⟨bits, c, same, nonzero⟩ := allTrue B hB _ term
        cases same
        exact nonzero
      · cases only C hC _ termC
    · intro nonzero
      refine Or.inl fun C hC w termC => ?_
      rw [only C hC w termC]
      exact ⟨1, b, rfl, nonzero⟩

end

/-- The node holds on the counts in memory exactly if the function returns true, and
the function does return. -/
theorem holds_iff_returns {o : PtrOrder} {gv : GlobalId} {f : Function} {τ : Nat → Ty}
    {s : LogicalCompiler.State} {node : Node} {counts : Counts} {mem : Memory} (ssa : Ssa f)
    (free : f.LoopFree) (fragment : Fragment gv τ f) (noOverflow : NoOverflow gv f counts)
    (inMemory : ∀ k, mem (.slot gv k) = .num (counts k).toNat)
    (compiled : compile o (some gv) f = .ok (s, some node))
    (notConst : ∀ b, node ≠ .const b) :
    Plain counts node ∧ (∃ B x, Returns f mem B x) ∧
      ∀ B x, Returns f mem B x → (Holds counts node ↔ truthVal x = true) := by
  have settled := compile_settled ssa.wf compiled
  have constructed := compile_constructedMap compiled
  have shaped := compile_shaped fragment noOverflow compiled
  have accepted : Accepted o gv f τ counts s.map :=
    ⟨ssa, free, fragment, noOverflow, shaped, settled.block⟩
  obtain ⟨E, entry⟩ : ∃ E, f.entry = some E := by
    obtain ⟨R, ⟨hR, -⟩, -⟩ := fragment.oneReturn
    cases blocks : f.blocks with
    | nil =>
      rw [blocks] at hR
      cases hR
    | cons E rest => exact ⟨E, by rw [Function.entry, blocks]; rfl⟩
  have start : At o f τ counts s.map mem [] none E.label (initial sem mem) := .start entry
  refine ⟨(node_settles accepted settled).plain notConst, ?_, ?_⟩
  · obtain ⟨w, member, B, x, block, exit⟩ :=
      start.returns accepted inMemory (n := f.blocks.length + 1) (by simp)
    exact ⟨B, x, f.blocks.length + 1, w, by rw [runs, call, entry]; exact member, block, exit⟩
  · rintro B x ⟨n, w, member, block, exit⟩
    rw [runs, call, entry] at member
    -- The hops so far lead from the entry to the block that is left.
    obtain ⟨q, l, t, rfl, hops, here⟩ :=
      run_invariant sem _ _ f (fun q l t => ∃ hops, At o f τ counts s.map mem hops q l t)
        (by
          rintro prev l s l' s' ⟨hops, here⟩ exit after
          obtain ⟨hop, next⟩ := here.next accepted inMemory exit after
          exact ⟨_, next⟩) n ⟨[], start⟩ w member
    obtain ⟨C, v, s', found, term, after, rfl⟩ := visit_ret sem _ exit
    obtain ⟨D, s'', found', after', -, -, good⟩ := here.visit accepted inMemory
    cases found.symm.trans found'
    cases after.symm.trans after'
    have label : C.label = l := by simpa using List.find?_some found
    exact holds_iff_returned accepted settled constructed (List.mem_of_find?_eq_some found)
      (label ▸ here.reachable) term good

/-- The text of a function of the fragment, read as an expression, is true on the counts in memory
exactly if the function returns true, and the function does return. Sums with a count twice are
rejected by the compiler. -/
theorem text_means_return {o : PtrOrder}
    {gv : GlobalId} {f : Function} {τ : Nat → Ty} {s : LogicalCompiler.State} {node : Node}
    {counts : Counts} {mem : Memory} (ssa : Ssa f) (free : f.LoopFree) (fragment : Fragment gv τ f)
    (noOverflow : NoOverflow gv f counts) (inMemory : ∀ k, mem (.slot gv k) = .num (counts k).toNat)
    (compiled : compile o (some gv) f = .ok (s, some node)) (notConst : ∀ b, node ≠ .const b) :
    ∃ text groups e, node2String node 0 = .ok (text, groups) ∧ LdbText.read text.toList = some e ∧
      (∃ B x, Returns f mem B x) ∧
      ∀ B x, Returns f mem B x → (e.holds (natCounts counts) = true ↔ truthVal x = true) := by
  obtain ⟨plain, returns, holds⟩ :=
    holds_iff_returns ssa free fragment noOverflow inMemory compiled notConst
  refine ⟨String.ofList (tree node).print, groups node, tree node, ?_, ?_, returns, ?_⟩
  · rw [node2String, text_printable plain.printable]
    simp [Except.map]
  · rw [String.toList_ofList]
    exact LdbText.read_print (wide_printable plain.printable)
  · intro B x returned
    rw [holds_tree plain, holds B x returned]

theorem sumOrThird_fragment : Fragment 0 sumTypes sumOrThird where
  insts := by
    have second : CountAt 0 (.const (.getElementPtrExpr (.global 0) [.int 64 0, .int 64 1])) 1 :=
      .element _ _ (by decide)
    have third : CountAt 0 (.const (.getElementPtrExpr (.global 0) [.int 64 0, .int 64 2])) 2 :=
      .element _ _ (by decide)
    simp only [sumOrThird, List.forall_mem_cons, List.not_mem_nil, false_implies, implies_true,
      and_true, true_and]
    exact ⟨⟨⟨rfl, .count .first⟩, ⟨rfl, .count second⟩, ⟨rfl, .sum rfl rfl⟩,
      ⟨rfl, .compare rfl (by decide) rfl⟩⟩,
      ⟨rfl, .count third⟩, ⟨rfl, .compare rfl (by decide) rfl⟩⟩
  phis := by
    simp only [sumOrThird, List.forall_mem_cons, List.not_mem_nil, false_implies, implies_true,
      and_true, true_and]
    exact ⟨rfl, .const (by decide), .inst rfl⟩
  terms := by
    simp only [sumOrThird, List.forall_mem_cons, List.not_mem_nil, false_implies,
      implies_true, and_true]
    exact ⟨.condBr 1 2 (.inst rfl), .br 3, .br 3, .ret (.inst rfl)⟩
  targets := by decide
  oneReturn := by
    refine ⟨⟨3, [⟨9, .int 1, [(.const (.int 1 1), 1), (.inst 7, 2)]⟩], [], 10,
      .ret (some (.inst 9))⟩, ?_, ?_⟩
    · exact ⟨by simp [sumOrThird], _, rfl⟩
    · rintro B ⟨hB, v, term⟩
      simp only [sumOrThird, List.mem_cons, List.not_mem_nil, or_false] at hB
      rcases hB with rfl | rfl | rfl | rfl
      · cases term
      · cases term
      · cases term
      · rfl

theorem sumOrThird_adds {d : Nat} {ks : List Nat} (adds : Adds 0 sumOrThird d ks) :
    ks.length ≤ if d = 2 then 2 else 1 := by
  induction adds with
  | count => split_ifs <;> simp
  | @sum B i a b ks ls hB hi op _ _ left right =>
    simp only [sumOrThird, List.mem_cons, List.not_mem_nil, or_false] at hB
    rcases hB with rfl | rfl | rfl | rfl
    · simp only [List.mem_cons, List.not_mem_nil, or_false] at hi
      rcases hi with rfl | rfl | rfl | rfl
      · cases op
      · cases op
      · cases op
        have first : ks.length ≤ 1 := left
        have second : ls.length ≤ 1 := right
        rw [if_pos rfl, List.length_append]
        omega
      · cases op
    · cases hi
    · simp only [List.mem_cons, List.not_mem_nil, or_false] at hi
      rcases hi with rfl | rfl
      · cases op
      · cases op
    · cases hi

theorem text_means_return_sumOrThird :
    ∃ s, compile .inOrder (some 0) sumOrThird = .ok (s, some sumNode) ∧
    ∃ text groups e, node2String sumNode 0 = .ok (text, groups) ∧
      LdbText.read text.toList = some e ∧
      (∃ B x, Returns sumOrThird (sameCount 2) B x) ∧
      ∀ B x, Returns sumOrThird (sameCount 2) B x →
        (e.holds (natCounts fun _ => 2) = true ↔ truthVal x = true) := by
  obtain ⟨ssa, free⟩ := SsaChecks.ssa_of_checks (f := sumOrThird) (by decide)
  have noOverflow : NoOverflow 0 sumOrThird fun _ => 2 := by
    intro d ks adds
    have short := sumOrThird_adds adds
    have two : natCounts (fun _ => 2) = fun _ => 2 := rfl
    rw [two, List.map_const', List.sum_replicate_nat]
    split_ifs at short <;> omega
  obtain ⟨s, compiled⟩ := sumOrThird_compiled
  exact ⟨s, compiled,
    text_means_return ssa free sumOrThird_fragment noOverflow (fun _ => rfl) compiled nofun⟩

end LogicalTrigger
