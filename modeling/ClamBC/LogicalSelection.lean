import ClamBC.LogicalPhi

/-!
# What comparisons, selects and phis keep

A select and a phi put the nodes of their operands together with those of conditions and of
negated conditions. A property that the connectives keep, and that all of these nodes have,
is a property of the result.
-/

namespace LogicalSelection

open Ir LogicalNode LogicalCompiler LogicalPhi Fallible

/-- Null, or a node with the property. -/
def Held (P : Node → Prop) (p : Ptr) : Prop := ∀ n, p = some n → P n

/-- A node that is bound has the property. -/
def Binds (P : Node → Prop) (st : Step) : Prop := ∀ p, st = .bind p → Held P p

/-- The connectives of two nodes keep the property. A compilation may end at an absent entry, a
null pointer, an empty route or a value that is no constant. -/
structure Joined (o : PtrOrder) (E : Fault → Prop) (P : Node → Prop) : Prop where
  and : ∀ {a b}, P a → P b → P (getAnd o [a, b])
  or : ∀ {a b}, P a → P b → P (getOr o [a, b])
  nullNode : E .nullNode
  missingEntry : E .missingEntry
  emptyRoute : E .emptyRoute
  badCast : E .badCast

theorem held_none {P : Node → Prop} : Held P none := nofun

theorem held_some {P : Node → Prop} {n : Node} (h : P n) : Held P (some n) := by
  rintro m ⟨⟩
  exact h

theorem binds_some {P : Node → Prop} {n : Node} (h : P n) : Binds P (.bind (some n)) := by
  rintro p ⟨⟩
  exact held_some h

theorem binds_skip {P : Node → Prop} : Binds P .skip := nofun

theorem binds_flag {P : Node → Prop} (m : Message) : Binds P (.flag m) := nofun

theorem binds_reject {P : Node → Prop} (m : Message) : Binds P (.reject m) := nofun

section
variable {o : PtrOrder} {E : Fault → Prop} {P : Node → Prop} {find : Value → Option Ptr}
  (joined : Joined o E P)
include joined

theorem deref_meets {p : Ptr} (held : Held P p) : Meets E P (deref p) := by
  cases p with
  | none => exact joined.nullNode
  | some n => exact held n rfl

theorem getAndPtr_meets {a b : Ptr} (first : Held P a) (second : Held P b) :
    Meets E P (getAndPtr o a b) :=
  (deref_meets joined first).bind fun _ _ left => (deref_meets joined second).bind fun _ _ right =>
    joined.and left right

theorem getOrPtr_meets {a b : Ptr} (first : Held P a) (second : Held P b) :
    Meets E P (getOrPtr o a b) := by
  refine (deref_meets joined first).bind fun n _ left => ?_
  split_ifs with isTrue
  · rw [isTrue] at left
    exact left
  · exact (deref_meets joined second).bind fun _ _ right => joined.or left right

theorem getNotPtr_meets {p : Ptr} (negated : ∀ n, p = some n → Meets E P (getNot o n)) :
    Meets E P (getNotPtr o p) := by
  cases p with
  | none => exact joined.nullNode
  | some n => exact negated n rfl

theorem getGTPtr_meets {p : Ptr} {v : Word} (compared : ∀ n, p = some n → Meets E P (getGT o n v)) :
    Meets E (Held P) (getGTPtr o p v) := by
  unfold getGTPtr
  cases p with
  | none =>
    split_ifs
    · exact held_none
    · exact joined.nullNode
  | some n =>
    have here := compared n rfl
    split_ifs with zero
    · rw [zero, LogicalShape.getGT_zero] at here
      exact held_some here
    · exact here.bind fun m _ => held_some

/-- The node of a comparison, given what the constructors make of the operand. -/
def Compares (o : PtrOrder) (E : Fault → Prop) (P : Node → Prop) (pred : Predicate) (n : Node)
    (rhs : Word) : Prop :=
  match pred with
  | .eq => Meets E P (getEQ n rhs)
  | .ne => Meets E (fun m => Meets E P (getNot o m)) (getEQ n rhs)
  | .ugt => Meets E P (getGT o n rhs)
  | .uge => rhs ≠ 0 → Meets E P (getGT o n (rhs - 1))
  | .ult => Meets E P (getLT o n rhs)
  | .ule => rhs ≠ maxWord → Meets E P (getLT o n (rhs + 1))
  | _ => True

theorem compareNode_meets {pred : Predicate} {p : Ptr} {rhs : Word}
    (compares : ∀ n, p = some n → Compares o E P pred n rhs) :
    Meets E (Binds P) (compareNode o pred p rhs) := by
  have follow : ∀ {k : Node → Except Fault Step}, (∀ n, p = some n → Meets E (Binds P) (k n)) →
      Meets E (Binds P) (deref p >>= k) := by
    intro k each
    cases p with
    | none => exact joined.nullNode
    | some n => exact each n rfl
  have above : ∀ {q : Ptr}, Held P q → Binds P (.bind q) := by
    rintro q held r ⟨⟩
    exact held
  cases pred with
  | eq => exact follow fun n here => (compares n here).bind fun m _ => binds_some
  | ne => exact follow fun n here => (compares n here).bind fun m _ negated =>
      negated.bind fun m' _ => binds_some
  | ugt => exact (getGTPtr_meets joined compares).bind fun q _ => above
  | uge =>
    simp only [compareNode]
    split_ifs with zero
    · exact binds_flag _
    · exact (getGTPtr_meets joined fun n here => compares n here zero).bind fun q _ => above
  | ult => exact follow fun n here => (compares n here).bind fun m _ => binds_some
  | ule =>
    simp only [compareNode]
    split_ifs with largest
    · exact binds_flag _
    · exact follow fun n here => (compares n here largest).bind fun m _ => binds_some
  | _ => exact binds_flag _

theorem selectArm_meets {guard : Ptr} {m : Message} {arm : Value} (held : Held P guard)
    (operand : ∀ n, find arm = some (some n) → P n) :
    Meets E (fun r => ∀ p, r = .inr p → Held P p) (selectArm o find guard m arm) := by
  unfold selectArm
  split
  · next p found =>
    refine (getAndPtr_meets joined held fun n same => operand n (same ▸ found)).bind
      fun n _ both => ?_
    rintro p ⟨⟩
    exact held_some both
  · split
    · rintro p ⟨⟩
      exact nofun
    · refine (deref_meets joined held).bind fun n _ alone => ?_
      rintro p ⟨⟩
      exact held_some alone
    · exact nofun
    · exact joined.badCast

/-- The node of a select, whose condition can be negated. -/
theorem processSelect_meets
    {c t e : Value} (cond : ∀ n, find c = some (some n) → P n ∧ Meets E P (getNot o n))
    (ifTrue : ∀ n, find t = some (some n) → P n) (ifFalse : ∀ n, find e = some (some n) → P n) :
    Meets E (Binds P) (processSelect o find c t e) := by
  unfold processSelect
  split
  · exact binds_reject _
  · next p found =>
    split_ifs
    · exact binds_reject _
    · refine (selectArm_meets joined (fun n same => (cond n (same ▸ found)).1) ifTrue).bind
        fun first _ onTrue => ?_
      cases first with
      | inl m => exact binds_reject _
      | inr n =>
        refine (getNotPtr_meets joined fun n same => (cond n (same ▸ found)).2).bind
          fun notCond _ negated => ?_
        refine (selectArm_meets joined (held_some negated) ifFalse).bind fun second _ onFalse => ?_
        cases second with
        | inl m => exact binds_reject _
        | inr n2 =>
          cases n with
          | none =>
            cases n2 with
            | none => exact binds_reject _
            | some n2 => exact binds_some (onFalse _ rfl n2 rfl)
          | some n =>
            cases n2 with
            | none => exact binds_some (onTrue _ rfl n rfl)
            | some n2 => exact binds_some (joined.or (onTrue _ rfl n rfl) (onFalse _ rfl n2 rfl))

/-! The conditions along a route. -/

theorem directed_meets {isTrue : Bool} {p : Ptr}
    (held : Held P p) (negated : isTrue = false → ∀ n, p = some n → Meets E P (getNot o n)) :
    Meets E (Held P) (directed o isTrue p) := by
  cases isTrue with
  | true => exact held
  | false => exact (getNotPtr_meets joined (negated rfl)).map fun n => held_some

/-- The conditions have the property, and their negations have it where the branch is taken in the
false direction. -/
def RouteHolds (o : PtrOrder) (E : Fault → Prop) (P : Node → Prop) (find : Value → Option Ptr)
    (r : Route) : Prop :=
  ∀ hop ∈ r, ∀ c n, hop.cond = some c → find c = some (some n) →
    P n ∧ (hop.isTrue = false → Meets E P (getNot o n))

theorem getLogicalNode_meets {r : Route} (conditions : RouteHolds o E P find r) {acc : Ptr}
    (before : Held P acc) :
    Meets E (Held P) (getLogicalNode o find r acc) := by
  induction r generalizing acc with
  | nil => exact before
  | cons hop r ih =>
    have rest : RouteHolds o E P find r :=
      fun hop' inside => conditions hop' (List.mem_cons_of_mem hop inside)
    unfold getLogicalNode
    split
    · exact ih rest before
    · next c cond =>
      split
      · exact joined.missingEntry
      · next ln found =>
        have here := fun (n : Node) (same : ln = some n) =>
          conditions hop List.mem_cons_self c n cond (same ▸ found)
        refine (directed_meets joined (fun n same => (here n same).1) fun no n same =>
          (here n same).2 no).bind
          fun dir _ directed => ?_
        cases acc with
        | none => exact ih rest directed
        | some a =>
          exact (getAndPtr_meets joined before directed).bind fun both _ conj =>
            ih rest (held_some conj)

theorem withIncoming_meets {v : Value} {path : Ptr} (before : Held P path)
    (input : ∀ n, find v = some (some n) → P n) :
    Meets E (Held P) (withIncoming o find v path) := by
  unfold withIncoming
  split_ifs
  · exact before
  · split
    · exact joined.missingEntry
    · next l found =>
        exact (getAndPtr_meets joined before fun n same => input n (same ▸ found)).map
          fun n => held_some

theorem phiRoutes_meets {v : Value} {routes : List Route}
    (conditions : ∀ r ∈ routes, RouteHolds o E P find r) (input : ∀ n, find v = some (some n) → P n)
    {acc : Ptr} (before : Held P acc) :
    Meets E (Held P) (phiRoutes o find v routes acc) := by
  induction routes generalizing acc with
  | nil => exact before
  | cons r routes ih =>
    have rest := fun q hq => conditions q (List.mem_cons_of_mem r hq)
    unfold phiRoutes
    refine (getLogicalNode_meets joined (conditions r List.mem_cons_self) held_none).bind
      fun path _ along => ?_
    refine (withIncoming_meets joined along input).bind fun tmp _ here => ?_
    cases acc with
    | none => exact ih rest here
    | some a =>
        exact (getOrPtr_meets joined before here).bind fun either _ disj => ih rest (held_some disj)

theorem findRoute_meets (l : Label) (routes : List Route) :
    Meets E (fun found => ∀ r ∈ found, r ∈ routes ∧ EndsIn r l) (findRoute l routes) := by
  induction routes with
  | nil => exact nofun
  | cons r routes ih =>
    unfold findRoute
    split
    · exact joined.emptyRoute
    · next hop last =>
      refine ih.bind fun found _ ends => ?_
      have older : ∀ q ∈ found, q ∈ r :: routes ∧ EndsIn q l :=
        fun q hq => ⟨List.mem_cons_of_mem r (ends q hq).1, (ends q hq).2⟩
      split_ifs with here
      · exact List.forall_mem_cons.mpr ⟨⟨List.mem_cons_self, hop, last, here⟩, older⟩
      · exact older

theorem phiIncoming_meets {routes : List Route} {incoming : List (Value × Label)}
    (inputs : ∀ e ∈ incoming, isZero e.1 = false → (∀ n, find e.1 = some (some n) → P n) ∧
      ∀ r ∈ routes, EndsIn r e.2 → RouteHolds o E P find r)
    {acc : Ptr} (before : Held P acc) :
    Meets E (Held P) (phiIncoming o find routes incoming acc) := by
  induction incoming generalizing acc with
  | nil => exact before
  | cons e incoming ih =>
    have rest := fun e' he => inputs e' (List.mem_cons_of_mem e he)
    unfold phiIncoming
    split_ifs with zero
    · exact ih rest before
    · obtain ⟨input, conditions⟩ := inputs e List.mem_cons_self (by simpa using zero)
      refine (findRoute_meets joined e.2 routes).bind fun found _ ends => ?_
      refine (phiRoutes_meets joined (fun r hr => ?_) input before).bind
        fun acc' _ after => ih rest after
      exact conditions r (ends r hr).1 (ends r hr).2

/-- The node of a phi, or null. -/
theorem processPHI_meets {f : Function} {l : Label} {p : Phi} (inputs : ∀ B, f.entry = some B →
      ∀ e ∈ p.incoming, isZero e.1 = false → (∀ n, find e.1 = some (some n) → P n) ∧
      ∀ r ∈ routesTo f B.label l, EndsIn r e.2 → RouteHolds o E P find r) :
    Meets E (Held P) (processPHI o find f l p) := by
  unfold processPHI
  split
  · exact nofun
  · next B entry => exact phiIncoming_meets joined (inputs B entry) held_none

end

end LogicalSelection
