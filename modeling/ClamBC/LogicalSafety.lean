import ClamBC.LogicalPhi

/-!
# Absent and null nodes in a step

`ReadyPhi`, `ReadyInst` and `ReadyTerm` say of the state of a compilation that the next step
finds what it follows. Such a step meets no absent entry, null pointer, empty route or
failed assertion, and makes no node with a null child. The node of a phi is null only if no
route to its inputs has a condition.
-/

namespace LogicalSafety

open Ir LogicalNode LogicalCompiler LogicalRoutes LogicalShape LogicalPhi Fallible

/-! What a step follows. -/

section
variable (map : Nat → Option Ptr)

def NotNull (v : Value) : Prop := lookup map v ≠ some none

def Present (v : Value) : Prop := ∃ n, lookup map v = some (some n)

def CanNegate (v : Value) : Prop := ∀ n, lookup map v = some (some n) → negatable n = true

/-- Every condition of the route has a node, and one that can be negated where the branch is
taken in the false direction. -/
def RouteReady (r : Route) : Prop :=
  ∀ hop ∈ r, ∀ c, hop.cond = some c → Present map c ∧ (hop.isTrue = false → CanNegate map c)

/-- No route to the phi is empty. The routes that end in an incoming block are ready; where the
incoming value is not a constant, it has a node and the route has a condition. -/
def ReadyPhi (f : Function) (l : Label) (p : Phi) : Prop :=
  ∀ E, f.entry = some E → ∀ e ∈ p.incoming, isZero e.1 = false →
    (∀ r ∈ routesTo f E.label l, r ≠ []) ∧
    ∀ r ∈ routesTo f E.label l, EndsIn r e.2 → RouteReady map r ∧
      (isConstantInt e.1 = false → Present map e.1 ∧ ∃ hop ∈ r, hop.cond ≠ none)

/-- On no way to an input other than the constant false there is a condition. -/
def Unconditional (f : Function) (l : Label) (p : Phi) : Prop :=
  ∀ E, f.entry = some E → ∀ e ∈ p.incoming, isZero e.1 = false →
    ∀ r ∈ routesTo f E.label l, EndsIn r e.2 → ∀ hop ∈ r, hop.cond = none

def FitsInt64 (v : Value) : Prop := ∀ bits n, v = .const (.int bits n) → n < 2 ^ 64

/-- The indices of a read of the match counts are integers. -/
def ReadyLoad (gv : GlobalId) : Value → Prop
  | .const (.getElementPtrExpr (.global g) [first, index]) =>
    g = gv → ∃ bits n, first = .int bits n ∧ (n = 0 → ∃ bits k, index = .int bits k ∧ k < 2 ^ 64)
  | _ => True

def ReadyArm (v : Value) : Prop := lookup map v = none → isConstantInt v = true

/-- What an instruction takes for granted, given which operands are not null and which arms of a
select have a node or are constants. -/
def InstFollows (notNull arm : Value → Prop) (gv : GlobalId) (i : Inst) : Prop :=
  match i.op with
  | .load _ ptr => ReadyLoad gv ptr
  | .icmp _ lhs rhs => FitsInt64 lhs ∧ FitsInt64 rhs ∧ notNull lhs ∧ notNull rhs
  | .select cond ifTrue ifFalse =>
    lookup map cond ≠ none → lookup map ifTrue ≠ none ∨ lookup map ifFalse ≠ none →
      notNull cond ∧ CanNegate map cond ∧ notNull ifTrue ∧ notNull ifFalse ∧ arm ifTrue ∧
        arm ifFalse
  | .binary .add lhs rhs =>
    FitsInt64 rhs ∧ notNull lhs ∧ notNull rhs ∧
      ∀ a b, lookup map lhs = some (some a) → lookup map rhs = some (some b) → addable a b = true
  | .binary .and lhs rhs =>
    lookup map lhs ≠ none → lookup map rhs ≠ none → notNull lhs ∧ notNull rhs
  | .binary .or lhs rhs =>
    lookup map lhs ≠ none → lookup map rhs ≠ none → notNull lhs ∧ notNull rhs
  | .binary .xor lhs rhs =>
    (∃ bits, rhs = .const (.int bits 1)) → notNull lhs ∧ CanNegate map lhs
  | .cast .zext src v =>
    primitiveSizeInBits src = 1 → primitiveSizeInBits i.ty = 32 → notNull v
  | _ => True

def ReadyInst (gv : GlobalId) (i : Inst) : Prop :=
  InstFollows map (NotNull map) (ReadyArm map) gv i

def TermFollows (notNull : Value → Prop) : Term Value → Prop
  | .condBr c _ _ => notNull c ∧ CanNegate map c
  | .ret (some v) => notNull v
  | .ret none => False
  | _ => True

def ReadyTerm (t : Term Value) : Prop := TermFollows map (NotNull map) t

/-- All nodes that instructions are bound to are whole. -/
def WholeMap : Prop := ∀ i n, map i = some (some n) → Whole n

end

/-! One step. -/

section
variable {o : PtrOrder} {gv : GlobalId} {f : Function} {map : Nat → Option Ptr}

theorem InstFollows.mono {notNull notNull' arm arm' : Value → Prop}
    (imp : ∀ v, notNull v → notNull' v) (imp' : ∀ v, arm v → arm' v) {i : Inst}
    (follows : InstFollows map notNull arm gv i) : InstFollows map notNull' arm' gv i := by
  obtain ⟨id, ty, op⟩ := i
  cases op with
  | load vol ptr => exact follows
  | icmp pred lhs rhs =>
    obtain ⟨left, right, first, second⟩ := follows
    exact ⟨left, right, imp _ first, imp _ second⟩
  | select c t e =>
    intro cond some
    obtain ⟨first, negate, second, third, armTrue, armFalse⟩ := follows cond some
    exact ⟨imp _ first, negate, imp _ second, imp _ third, imp' _ armTrue, imp' _ armFalse⟩
  | binary op lhs rhs =>
    cases op with
    | add =>
      obtain ⟨fits, first, second, sum⟩ := follows
      exact ⟨fits, imp _ first, imp _ second, sum⟩
    | and => exact fun left right => (follows left right).imp (imp _) (imp _)
    | or => exact fun left right => (follows left right).imp (imp _) (imp _)
    | xor => exact fun one => (follows one).imp_left (imp _)
    | _ => trivial
  | cast op src v =>
    cases op with
    | zext => exact fun source target => imp _ (follows source target)
    | _ => trivial
  | _ => trivial

/-- A pointer that is null or to a whole node. -/
def WholePtr (p : Ptr) : Prop := ∀ n, p = some n → Whole n

theorem Present.of_notNull {v : Value} {p : Ptr} (found : lookup map v = some p)
    (h : NotNull map v) :
    ∃ n, p = some n := by
  cases p with
  | none => exact absurd found h
  | some n => exact ⟨n, rfl⟩

theorem WholeMap.lookup (whole : WholeMap map) {v : Value} {n : Node}
    (found : lookup map v = some (some n)) :
    Whole n := by
  cases v with
  | inst i => exact whole i n found
  | arg i => cases found
  | const c => cases found

theorem getAndPtr_whole {a b : Node} (ha : Whole a) (hb : Whole b) :
    Yields (getAndPtr o (some a) (some b)) Whole :=
  .ok (whole_kept.getAnd (by simp [ha, hb]))

theorem getOrPtr_whole {a b : Node} (ha : Whole a) (hb : Whole b) :
    Yields (getOrPtr o (some a) (some b)) Whole := by
  unfold getOrPtr
  by_cases isTrue : a = .const true
  · exact ⟨.const true, by simp [deref, isTrue], rfl⟩
  · exact ⟨LogicalNode.getOr o [a, b], by simp [deref, isTrue], whole_kept.getOr (by simp [ha, hb])⟩

theorem getZExtValue_yields {v : Nat} (fits : v < 2 ^ 64) :
    Yields (getZExtValue v) fun u => u = v := by
  unfold getZExtValue
  rw [if_pos fits]
  exact .ok rfl

/-- What a step binds is whole and not null. -/
def WholeStep (st : Step) : Prop := ∀ p, st = .bind p → ∃ n, p = some n ∧ Whole n

theorem WholeStep.bind {n : Node} (h : Whole n) : WholeStep (.bind (some n)) := by
  intro p same
  cases same
  exact ⟨n, rfl, h⟩

/-- Nothing is bound. -/
theorem wholeStep_skip : WholeStep .skip := nofun

theorem wholeStep_reject (m : Message) : WholeStep (.reject m) := nofun

theorem processLoad_whole {ptr : Value} (ready : ReadyLoad gv ptr) :
    Yields (processLoad gv ptr) WholeStep := by
  unfold processLoad
  split
  · next g first index =>
    split_ifs with other
    · exact .ok nofun
    · obtain ⟨bits, n, rfl, integer⟩ := ready (not_not.mp other)
      cases n with
      | zero =>
        obtain ⟨bits', k, rfl, fits⟩ := integer rfl
        exact (getZExtValue_yields fits).bind fun k _ => .ok (WholeStep.bind rfl)
      | succ n => exact .ok nofun
  · exact .ok nofun
  · exact .ok nofun
  · exact .ok nofun
  · exact .ok (WholeStep.bind rfl)

theorem compareNode_whole {n : Node} (h : Whole n) (pred : Predicate) (rhs : Word) :
    Yields (compareNode o pred (some n) rhs) WholeStep := by
  obtain ⟨lt, gt⟩ := getLT_getGT_whole (o := o) h
  have above : ∀ v, Yields (getGTPtr o (some n) v) fun p => ∃ m, p = some m ∧ Whole m := by
    intro v
    unfold getGTPtr
    split_ifs
    · exact .ok ⟨n, rfl, h⟩
    · exact (gt v).bind fun m hm => .ok ⟨m, rfl, hm⟩
  have bound : ∀ v, Yields (do return Step.bind (← getGTPtr o (some n) v)) WholeStep := by
    intro v
    refine (above v).bind fun p hp => .ok ?_
    obtain ⟨m, rfl, hm⟩ := hp
    exact WholeStep.bind hm
  cases pred with
  | eq => exact (getEQ_whole h rhs).bind fun m hm => .ok (WholeStep.bind hm.1)
  | ne =>
    refine (getEQ_whole h rhs).bind fun m hm => (getNot_whole hm.1 hm.2).bind fun m' hm' => ?_
    exact .ok (WholeStep.bind hm')
  | ugt => exact bound rhs
  | uge =>
    simp only [compareNode]
    split_ifs
    · exact .ok nofun
    · exact bound _
  | ult => exact (lt rhs).bind fun m hm => .ok (WholeStep.bind hm)
  | ule =>
    simp only [compareNode]
    split_ifs
    · exact .ok nofun
    · exact (lt _).bind fun m hm => .ok (WholeStep.bind hm)
  | _ => exact .ok nofun

theorem processICmp_whole (whole : WholeMap map) {pred : Predicate}
    {lhs rhs : Value} (left : FitsInt64 lhs) (right : FitsInt64 rhs) (notNull : NotNull map lhs)
    (notNull' : NotNull map rhs) :
    Yields (processICmp o (lookup map) pred lhs rhs) WholeStep := by
  have compared : ∀ op0 op1, FitsInt64 op1 → NotNull map op0 →
      Yields (compareWith o (lookup map) pred op0 op1) WholeStep := by
    intro op0 op1 fits notNull
    unfold compareWith
    split
    · next bits v =>
      refine (getZExtValue_yields (fits bits v rfl)).bind fun u _ => ?_
      split_ifs
      · exact .ok nofun
      · split
        · exact .ok nofun
        · next n found =>
          obtain ⟨n, rfl⟩ := Present.of_notNull found notNull
          exact compareNode_whole (whole.lookup found) pred _
    · exact .ok nofun
  unfold processICmp
  split_ifs
  · exact compared rhs lhs left notNull'
  · exact compared lhs rhs right notNull

theorem selectArm_whole (whole : WholeMap map) {guard : Node} (hg : Whole guard) {m : Message}
    {arm : Value} (notNull : NotNull map arm) (ready : ReadyArm map arm) :
    Yields (selectArm o (lookup map) (some guard) m arm) fun r => ∀ n, r =
      .inr (some n) → Whole n := by
  have keep : ∀ {n : Node}, Whole n → ∀ n', (.inr (some n) : Message ⊕ Ptr) = .inr (some n') →
      Whole n' := by
    intro n hn n' same
    cases same
    exact hn
  unfold selectArm
  split
  · next found =>
    obtain ⟨n, rfl⟩ := Present.of_notNull found notNull
    exact (getAndPtr_whole hg (whole.lookup found)).bind fun both hb => .ok (keep hb)
  · next absent =>
    have constant := ready absent
    split
    · exact .ok nofun
    · exact .ok (keep hg)
    · exact .ok nofun
    · next notInt =>
      unfold isConstantInt at constant
      split at constant
      · next bits n _ _ => exact absurd rfl (notInt bits n)
      · cases constant

theorem processSelect_whole (whole : WholeMap map) {c t e : Value}
    (ready : lookup map c ≠ none → lookup map t ≠ none ∨ lookup map e ≠ none →
      NotNull map c ∧ CanNegate map c ∧ NotNull map t ∧ NotNull map e ∧ ReadyArm map t ∧
        ReadyArm map e) :
    Yields (processSelect o (lookup map) c t e) WholeStep := by
  unfold processSelect
  split
  · exact .ok nofun
  · next found =>
    split_ifs with neither
    · exact .ok nofun
    · have some_arm : lookup map t ≠ none ∨ lookup map e ≠ none := by
        by_cases absent : lookup map t = none
        · exact Or.inr fun absent' => neither ⟨absent, absent'⟩
        · exact Or.inl absent
      obtain ⟨notNull, negate, nt, ne, rt, re⟩ := ready (by simp [found]) some_arm
      obtain ⟨cond, rfl⟩ := Present.of_notNull found notNull
      have hc := whole.lookup found
      refine (selectArm_whole whole hc nt rt).bind fun first hf => ?_
      cases first with
      | inl m => exact .ok nofun
      | inr n =>
        refine (getNot_whole hc (negate cond found)).bind fun notCond hn => ?_
        refine (selectArm_whole whole hn ne re).bind fun second hs => ?_
        cases second with
        | inl m => exact .ok nofun
        | inr n2 =>
          cases n with
          | none =>
            cases n2 with
            | none => exact .ok nofun
            | some n2 => exact .ok (WholeStep.bind (hs n2 rfl))
          | some n =>
            cases n2 with
            | none => exact .ok (WholeStep.bind (hf n rfl))
            | some n2 =>
                exact .ok (WholeStep.bind (whole_kept.getOr (by simp [hf n rfl, hs n2 rfl])))

theorem processAdd_whole (whole : WholeMap map) {lhs rhs : Value} (fits : FitsInt64 rhs)
    (left : NotNull map lhs) (right : NotNull map rhs) (ok : ∀ a b, lookup map lhs = some (some a) →
      lookup map rhs = some (some b) → addable a b = true) :
    Yields (processAdd (lookup map) lhs rhs) WholeStep := by
  unfold processAdd
  split
  · exact .ok nofun
  · next found =>
    obtain ⟨a, rfl⟩ := Present.of_notNull found left
    have ha := whole.lookup found
    split
    · next bits v =>
      exact (getZExtValue_yields (fits bits v rfl)).bind fun u _ => .ok (WholeStep.bind ha)
    · split
      · exact .ok nofun
      · next found' =>
        obtain ⟨b, rfl⟩ := Present.of_notNull found' right
        refine (getAdd_whole ha (whole.lookup found') (ok a b found found')).bind fun sum hs => ?_
        cases sum with
        | none => exact .ok nofun
        | some n =>
          by_cases uniq : checkUniq n = true
          · exact ⟨.bind (some n), by simp [uniq], WholeStep.bind (hs n rfl)⟩
          · exact ⟨.reject .addDuplicate, by simp [uniq], nofun⟩

/-- An instruction whose operands are there is processed, and binds neither null nor a node with
a null child. -/
theorem processInst_whole (whole : WholeMap map) {i : Inst} (ready : ReadyInst map gv i) :
    Yields (processInst o gv (lookup map) i) WholeStep := by
  unfold ReadyInst InstFollows at ready
  unfold processInst
  split
  case h_1 => exact .ok wholeStep_skip
  case h_2 => exact .ok wholeStep_skip
  case h_3 op => rw [op] at ready; exact processLoad_whole ready
  case h_4 op =>
    rw [op] at ready
    exact processICmp_whole whole ready.1 ready.2.1 ready.2.2.1 ready.2.2.2
  case h_5 op => rw [op] at ready; exact processSelect_whole whole ready
  case h_6 op =>
    rw [op] at ready
    exact processAdd_whole whole ready.1 ready.2.1 ready.2.2.1 ready.2.2.2
  case h_7 op =>
    rw [op] at ready
    split
    · next a b left right =>
      obtain ⟨notNull, notNull'⟩ := ready (by simp [left]) (by simp [right])
      obtain ⟨a, rfl⟩ := Present.of_notNull left notNull
      obtain ⟨b, rfl⟩ := Present.of_notNull right notNull'
      exact (getAndPtr_whole (whole.lookup left) (whole.lookup right)).bind fun n hn =>
        .ok (WholeStep.bind hn)
    · exact .ok (wholeStep_reject _)
  case h_8 op =>
    rw [op] at ready
    split
    · next a b left right =>
      obtain ⟨notNull, notNull'⟩ := ready (by simp [left]) (by simp [right])
      obtain ⟨a, rfl⟩ := Present.of_notNull left notNull
      obtain ⟨b, rfl⟩ := Present.of_notNull right notNull'
      exact (getOrPtr_whole (whole.lookup left) (whole.lookup right)).bind fun n hn =>
        .ok (WholeStep.bind hn)
    · exact .ok (wholeStep_reject _)
  case h_9 op =>
    rw [op] at ready
    unfold processXor
    split
    · split
      · exact .ok (wholeStep_reject _)
      · next found =>
        obtain ⟨notNull, negate⟩ := ready ⟨_, rfl⟩
        obtain ⟨n, rfl⟩ := Present.of_notNull found notNull
        exact (getNot_whole (whole.lookup found) (negate n found)).bind fun m hm =>
          .ok (WholeStep.bind hm)
    · exact .ok (wholeStep_reject _)
  case h_10 op =>
    rw [op] at ready
    unfold processZExt
    split
    · exact .ok (wholeStep_reject _)
    · next found =>
      split_ifs with widths
      · exact .ok (wholeStep_reject _)
      · rw [not_or, not_not, not_not] at widths
        obtain ⟨n, rfl⟩ := Present.of_notNull found (ready widths.1 widths.2)
        exact .ok (WholeStep.bind
          (by simpa [Whole, LogicalShape.whole, wholeAll, getUniqueSigs] using whole.lookup found))
  case h_11 => exact .ok (wholeStep_reject _)

/-! Phis. -/

theorem directed_whole {n : Node} (h : Whole n) {isTrue : Bool}
    (negate : isTrue = false → negatable n = true) :
    Yields (directed o isTrue (some n)) fun p => ∃ m, p = some m ∧ Whole m := by
  cases isTrue with
  | true => exact .ok ⟨n, rfl, h⟩
  | false => exact (getNot_whole h (negate rfl)).map fun m hm => ⟨m, rfl, hm⟩

/-- The node of a route is null exactly if the route has no condition. -/
theorem getLogicalNode_whole (whole : WholeMap map) {r : Route} (ready : RouteReady map r)
    {acc : Ptr} (hacc : WholePtr acc) :
    Yields (getLogicalNode o (lookup map) r acc) fun p =>
      WholePtr p ∧ (p = none ↔ acc = none ∧ ∀ hop ∈ r, hop.cond = none) := by
  induction r generalizing acc with
  | nil => exact .ok ⟨hacc, by simp⟩
  | cons hop r ih =>
    have later : RouteReady map r := fun h hh => ready h (List.mem_cons_of_mem hop hh)
    unfold getLogicalNode
    cases cond : hop.cond with
    | none =>
      refine (ih later hacc).mono fun p hp => ⟨hp.1, hp.2.trans ?_⟩
      simp [cond]
    | some c =>
      obtain ⟨⟨n, found⟩, negate⟩ := ready hop List.mem_cons_self c cond
      simp only [found]
      have direction := directed_whole (o := o) (whole.lookup found) fun no => negate no n found
      refine direction.bind fun ln hln => ?_
      obtain ⟨m, rfl, hm⟩ := hln
      have some_whole : ∀ {m}, Whole m → WholePtr (some m) := by
        intro m hm m' same
        cases same
        exact hm
      cases acc with
      | none =>
        refine (ih later (some_whole hm)).mono fun p hp => ⟨hp.1, ?_⟩
        rw [hp.2]
        simp [cond]
      | some a =>
        refine (getAndPtr_whole (hacc a rfl) hm).bind fun both hb => ?_
        refine (ih later (some_whole hb)).mono fun p hp => ⟨hp.1, ?_⟩
        rw [hp.2]
        simp

theorem findRoute_yields {routes : List Route} (nonempty : ∀ r ∈ routes, r ≠ []) (l : Label) :
    Yields (findRoute l routes) fun found => ∀ r, r ∈ found ↔ r ∈ routes ∧ EndsIn r l := by
  induction routes with
  | nil => exact .ok (by simp)
  | cons r routes ih =>
    obtain ⟨hop, last⟩ := Option.ne_none_iff_exists'.mp
      (mt List.getLast?_eq_none_iff.mp (nonempty r List.mem_cons_self))
    have tail := ih fun r' hr => nonempty r' (List.mem_cons_of_mem r hr)
    unfold findRoute
    simp only [last]
    refine tail.bind fun found hf => ?_
    by_cases here : hop.block = l
    · refine ⟨r :: found, by simp [here], fun r' => ?_⟩
      have ends : EndsIn r l := ⟨hop, last, here⟩
      rw [List.mem_cons, List.mem_cons, hf]
      constructor
      · rintro (rfl | ⟨member, ends'⟩)
        · exact ⟨.inl rfl, ends⟩
        · exact ⟨.inr member, ends'⟩
      · rintro ⟨rfl | member, ends'⟩
        · exact .inl rfl
        · exact .inr ⟨member, ends'⟩
    · refine ⟨found, by simp [here], fun r' => ?_⟩
      have notHere : ¬ EndsIn r l := by
        rintro ⟨hop', last', block⟩
        cases last.symm.trans last'
        exact here block
      rw [List.mem_cons, hf]
      constructor
      · rintro ⟨member, ends⟩
        exact ⟨.inr member, ends⟩
      · rintro ⟨rfl | member, ends⟩
        · exact absurd ends notHere
        · exact ⟨member, ends⟩

/-- The routes to one incoming block are or-ed. Either all of them have a condition, and nothing is
null from the first on, or the value is a constant and all of them are null. -/
theorem phiRoutes_whole (whole : WholeMap map) {v : Value} {routes : List Route} {acc : Ptr}
    (ready : ∀ r ∈ routes, RouteReady map r)
    (present : routes ≠ [] → isConstantInt v = false → Present map v)
    (shape : (∀ r ∈ routes, ∃ hop ∈ r, hop.cond ≠ none) ∨
      (acc = none ∧ (routes ≠ [] → isConstantInt v = true) ∧
        ∀ r ∈ routes, ∀ hop ∈ r, hop.cond = none))
    (hacc : WholePtr acc) :
    Yields (phiRoutes o (lookup map) v routes acc) fun p => WholePtr p ∧
      ((∀ r ∈ routes, ∀ hop ∈ r, hop.cond = none) → acc = none → p = none) ∧
      ((∀ r ∈ routes, ∃ hop ∈ r, hop.cond ≠ none) → routes ≠ [] ∨ acc ≠ none → p ≠ none) := by
  induction routes generalizing acc with
  | nil => exact .ok ⟨hacc, fun _ h => h, fun _ some => some.resolve_left fun ne => ne rfl⟩
  | cons r routes ih =>
    have later : ∀ r' ∈ routes, RouteReady map r' :=
      fun r' hr => ready r' (List.mem_cons_of_mem r hr)
    have present' : routes ≠ [] → isConstantInt v = false → Present map v :=
      fun _ => present (by simp)
    unfold phiRoutes
    have start : WholePtr none := by
      rintro n ⟨⟩
    refine (getLogicalNode_whole whole (ready r List.mem_cons_self) start).bind fun path hpath => ?_
    rcases shape with conditional | ⟨rfl, constant, plain⟩
    · -- every route has a condition, so nothing is null from here on
      obtain ⟨hop, member, cond⟩ := conditional r List.mem_cons_self
      have notNull : path ≠ none := fun null => cond ((hpath.2.mp null).2 hop member)
      obtain ⟨n, rfl⟩ := Option.ne_none_iff_exists'.mp notNull
      have incoming : Yields (withIncoming o (lookup map) v (some n)) fun p => ∃ m, p =
          some m ∧ Whole m := by
        unfold withIncoming
        by_cases constant : isConstantInt v = true
        · rw [if_pos constant]
          exact .ok ⟨n, rfl, hpath.1 n rfl⟩
        · obtain ⟨l, found⟩ := present (by simp) (by simpa using constant)
          rw [if_neg constant, found]
          exact (getAndPtr_whole (hpath.1 n rfl) (whole.lookup found)).map fun m hm => ⟨m, rfl, hm⟩
      refine incoming.bind fun tmp htmp => ?_
      obtain ⟨m, rfl, hm⟩ := htmp
      have rest : ∀ r' ∈ routes, ∃ hop ∈ r', hop.cond ≠ none :=
        fun r' hr => conditional r' (List.mem_cons_of_mem r hr)
      have one : ∀ {k : Node}, Whole k →
          Yields (phiRoutes o (lookup map) v routes (some k)) fun p => WholePtr p ∧
            ((∀ r' ∈ r :: routes, ∀ hop ∈ r', hop.cond = none) → acc = none → p = none) ∧
            ((∀ r' ∈ r :: routes, ∃ hop ∈ r', hop.cond ≠ none) →
              r :: routes ≠ [] ∨ acc ≠ none → p ≠ none) := by
        intro k hk
        have start : WholePtr (some k) := by
          intro k' same
          cases same
          exact hk
        refine (ih later present' (Or.inl rest) start).mono fun p hp => ⟨hp.1, fun plain => ?_, ?_⟩
        · exact absurd (plain r List.mem_cons_self hop member) cond
        · exact fun _ _ => hp.2.2 rest (Or.inr (Option.some_ne_none _))
      cases acc with
      | none => exact one hm
      | some a => exact (getOrPtr_whole (hacc a rfl) hm).bind fun either he => one he
    · -- no route has a condition: the accumulator stays null
      have null : path = none := hpath.2.mpr ⟨rfl, plain r List.mem_cons_self⟩
      subst null
      have constant' := constant (by simp)
      have same : withIncoming o (lookup map) v none = .ok none := by
        unfold withIncoming
        rw [if_pos constant']
      rw [same]
      have rest : ∀ r' ∈ routes, ∀ hop ∈ r', hop.cond = none :=
        fun r' hr => plain r' (List.mem_cons_of_mem r hr)
      refine (ih later present' (Or.inr ⟨rfl, fun _ => constant', rest⟩) start).mono
        fun p hp => ⟨hp.1, fun _ _ => hp.2.1 rest rfl, fun conditional => ?_⟩
      obtain ⟨hop, member, cond⟩ := conditional r List.mem_cons_self
      exact absurd (plain r List.mem_cons_self hop member) cond

/-- The inputs, where every route to the phi has a condition, or none has. -/
theorem phiIncoming_whole (whole : WholeMap map) {routes : List Route}
    (shape : (∀ r ∈ routes, ∃ hop ∈ r, hop.cond ≠ none) ∨
      ∀ r ∈ routes, ∀ hop ∈ r, hop.cond = none) {es : List (Value × Label)}
    (ready : ∀ e ∈ es, isZero e.1 = false → (∀ r ∈ routes, r ≠ []) ∧
      ∀ r ∈ routes, EndsIn r e.2 → RouteReady map r ∧
        (isConstantInt e.1 = false → Present map e.1 ∧ ∃ hop ∈ r, hop.cond ≠ none))
    {acc : Ptr} (hacc : WholePtr acc)
    (start : (∀ r ∈ routes, ∃ hop ∈ r, hop.cond ≠ none) ∨ acc = none) :
    Yields (phiIncoming o (lookup map) routes es acc) fun p => WholePtr p ∧
      ((∀ r ∈ routes, ∃ hop ∈ r, hop.cond ≠ none) →
        (acc ≠ none ∨ ∃ e ∈ es, isZero e.1 = false ∧ ∃ r ∈ routes, EndsIn r e.2) → p ≠ none) := by
  induction es generalizing acc with
  | nil =>
    refine .ok ⟨hacc, fun _ some => some.resolve_right ?_⟩
    rintro ⟨e, he, -⟩
    cases he
  | cons e es ih =>
    have later := fun e' he => ready e' (List.mem_cons_of_mem e he)
    unfold phiIncoming
    split_ifs with zero
    · refine (ih later hacc start).mono fun p hp => ⟨hp.1, fun conditional some => ?_⟩
      refine hp.2 conditional (some.imp_right ?_)
      rintro ⟨e', he, notZero, route⟩
      rcases List.mem_cons.mp he with rfl | he
      · cases zero.symm.trans notZero
      · exact ⟨e', he, notZero, route⟩
    · obtain ⟨nonempty, routesReady⟩ := ready e List.mem_cons_self (by simpa using zero)
      refine (findRoute_yields nonempty e.2).bind fun found hf => ?_
      have there : ∀ r ∈ found, r ∈ routes ∧ RouteReady map r ∧
          (isConstantInt e.1 = false → Present map e.1 ∧ ∃ hop ∈ r, hop.cond ≠ none) := by
        intro r hr
        obtain ⟨member, ends⟩ := (hf r).mp hr
        exact ⟨member, routesReady r member ends⟩
      have present : found ≠ [] → isConstantInt e.1 = false → Present map e.1 := by
        intro some_route notConst
        obtain ⟨r, rest, rfl⟩ := List.exists_cons_of_ne_nil some_route
        exact ((there r List.mem_cons_self).2.2 notConst).1
      have shape' : (∀ r ∈ found, ∃ hop ∈ r, hop.cond ≠ none) ∨ (acc = none ∧
          (found ≠ [] → isConstantInt e.1 = true) ∧ ∀ r ∈ found, ∀ hop ∈ r, hop.cond = none) := by
        rcases shape with conditional | plain
        · exact Or.inl fun r hr => conditional r (there r hr).1
        · by_cases empty : found = []
          · left
            simp [empty]
          · have plain' : ∀ r ∈ found, ∀ hop ∈ r, hop.cond = none :=
              fun r hr => plain r (there r hr).1
            obtain ⟨r, rest, rfl⟩ := List.exists_cons_of_ne_nil empty
            refine Or.inr ⟨?_, fun _ => ?_, plain'⟩
            · rcases start with conditional | null
              · obtain ⟨hop, member, cond⟩ := conditional r (there r List.mem_cons_self).1
                exact absurd (plain' r List.mem_cons_self hop member) cond
              · exact null
            · by_contra notConst
              obtain ⟨hop, member, cond⟩ :=
                ((there r List.mem_cons_self).2.2 (by simpa using notConst)).2
              exact cond (plain' r List.mem_cons_self hop member)
      refine (phiRoutes_whole whole (fun r hr => (there r hr).2.1) present shape' hacc).bind
        fun acc' ha => ?_
      have start' : (∀ r ∈ routes, ∃ hop ∈ r, hop.cond ≠ none) ∨ acc' = none := by
        rcases shape with conditional | plain
        · exact Or.inl conditional
        · rcases start with conditional | null
          · exact Or.inl conditional
          · exact Or.inr (ha.2.1 (fun r hr => plain r (there r hr).1) null)
      refine (ih later ha.1 start').mono fun p hp => ⟨hp.1, fun conditional some => ?_⟩
      refine hp.2 conditional ?_
      have notNull := ha.2.2 fun r hr => conditional r (there r hr).1
      rcases some with some | ⟨e', he, notZero, r, hr, ends⟩
      · exact Or.inl (notNull (Or.inr some))
      · rcases List.mem_cons.mp he with rfl | he
        · exact Or.inl (notNull (Or.inl (List.ne_nil_of_mem ((hf r).mpr ⟨hr, ends⟩))))
        · exact Or.inr ⟨e', he, notZero, r, hr, ends⟩

/-- The node of a phi is whole. There is none if all ways to the phi are without a condition, or all
inputs are the constant false. -/
theorem processPHI_whole (whole : WholeMap map) {l : Label} {p : Phi} (ready : ReadyPhi map f l p) :
    Yields (processPHI o (lookup map) f l p) fun q => WholePtr q ∧
      (q = none → Unconditional f l p) := by
  unfold processPHI
  cases entry : f.entry with
  | none =>
    refine .ok ⟨nofun, fun _ E same => ?_⟩
    cases entry.symm.trans same
  | some E =>
    have ready := ready E entry
    -- a route without a condition is the only route
    have only : ∀ r ∈ routesTo f E.label l, (∀ hop ∈ r, hop.cond = none) →
        ∀ r' ∈ routesTo f E.label l, ∀ hop ∈ r', hop.cond = none := by
      intro r hr plain
      rw [routesTo_eq] at hr ⊢
      rw [extended_unconditional hr plain]
      intro r' hr'
      rw [List.mem_singleton.mp hr']
      exact plain
    have shape : (∀ r ∈ routesTo f E.label l, ∃ hop ∈ r, hop.cond ≠ none) ∨
        ∀ r ∈ routesTo f E.label l, ∀ hop ∈ r, hop.cond = none := by
      by_cases plain : ∃ r ∈ routesTo f E.label l, ∀ hop ∈ r, hop.cond = none
      · obtain ⟨r, hr, plain⟩ := plain
        exact Or.inr (only r hr plain)
      · push Not at plain
        exact Or.inl plain
    have start : WholePtr none := by
      rintro n ⟨⟩
    refine (phiIncoming_whole whole shape ready start (Or.inr rfl)).mono fun q hq => ⟨hq.1, ?_⟩
    rintro null E' same e he notZero r hr ends
    cases entry.symm.trans same
    rcases shape with conditional | plain
    · exact absurd null (hq.2 conditional (Or.inr ⟨e, he, notZero, r, hr, ends⟩))
    · exact plain r hr

end

end LogicalSafety
