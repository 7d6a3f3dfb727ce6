import ClamBC.LogicalCompare
import ClamBC.LogicalCompiler
import ClamBC.LogicalRoutes
import ClamBC.SsaChecks
import ClamBC.TriggerRun

/-!
# The value of a phi

The node of a phi is a disjunction over routes. On the route that a run has taken all
conditions hold, and every other route turns off it somewhere.
-/

namespace LogicalPhi

open Ir IrExec LogicalNode LogicalCompiler LogicalShape LogicalMeaning LogicalConjunction
  LogicalCompare LogicalRoutes TriggerRun Fallible

section
variable (o : PtrOrder) (find : Value → Option Ptr)

/-- The node of the condition of a hop, in the direction taken. -/
def HopNode (hop : Hop) (n : Node) : Prop :=
  ∃ c ln, hop.cond = some c ∧ find c = some ln ∧ directed o hop.isTrue ln = .ok (some n)

def hopNodes (hop : Hop) : List Node :=
  match hop.cond with
  | none => []
  | some c =>
    match find c with
    | none => []
    | some ln =>
      match directed o hop.isTrue ln with
      | .ok (some n) => [n]
      | _ => []

def inputNodes (v : Value) : List Node :=
  if isConstantInt v then []
  else
    match find v with
    | some (some n) => [n]
    | _ => []

/-- What is conjoined for a route and the input of a phi behind it, in this order. -/
def routeNodes (r : Route) (v : Value) : List Node :=
  r.flatMap (hopNodes o find) ++ inputNodes find v

/-- The last branch of a route is in the given block. -/
def EndsIn (r : Route) (l : Label) : Prop := ∃ hop, r.getLast? = some hop ∧ hop.block = l

/-- The conjunctions along the routes to the inputs other than the constant false lose nothing. -/
def RoutesKept (f : Function) (l : Label) (p : Phi) : Prop :=
  ∀ E, f.entry = some E → ∀ r ∈ routesTo f E.label l, ∀ e ∈ p.incoming, isZero e.1 = false →
    EndsIn r e.2 → ChainKept o (routeNodes o find r e.1)

/-- Every branch has a condition with a node that can be negated. -/
def ConditionsHaveNodes (f : Function) : Prop :=
  ∀ B ∈ f.blocks,
    match B.term with
    | .condBr c _ _ => ∃ n m, find c = some (some n) ∧ getNot o n = .ok m
    | .switch _ _ _ => False
    | _ => True

def InputsHaveNodes (p : Phi) : Prop :=
  ∀ e ∈ p.incoming, isConstantInt e.1 = false → ∃ n, find e.1 = some (some n)

end

section
variable {o : PtrOrder} {find : Value → Option Ptr} {counts : Counts}

theorem HopNode.unique {hop : Hop} {n m : Node} (left : HopNode o find hop n)
    (right : HopNode o find hop m) :
    n = m := by
  obtain ⟨c, ln, cond, found, dir⟩ := left
  obtain ⟨c', ln', cond', found', dir'⟩ := right
  cases cond.symm.trans cond'
  cases found.symm.trans found'
  cases dir.symm.trans dir'
  rfl

theorem mem_hopNodes {hop : Hop} {n : Node} : n ∈ hopNodes o find hop ↔ HopNode o find hop n := by
  unfold hopNodes HopNode
  constructor
  · intro h
    split at h
    · cases h
    · next c cond =>
      split at h
      · cases h
      · next ln found =>
        split at h
        · next dir =>
          rw [List.mem_singleton.mp h]
          exact ⟨c, ln, cond, found, dir⟩
        · cases h
  · rintro ⟨c, ln, cond, found, dir⟩
    rw [cond]
    dsimp only
    rw [found]
    dsimp only
    rw [dir]
    exact List.mem_singleton_self n

theorem hopNodes_of_node {hop : Hop} {n : Node} (node : HopNode o find hop n) :
    hopNodes o find hop = [n] := by
  obtain ⟨c, ln, cond, found, dir⟩ := node
  simp only [hopNodes, cond, found, dir]

theorem hopNodes_of_plain {hop : Hop} (plain : hop.cond = none) : hopNodes o find hop = [] := by
  simp only [hopNodes, plain]

theorem getOrPtr_holds (a b : Node) :
    ∃ n, getOrPtr o (some a) (some b) = .ok n ∧
      (Holds counts n ↔ Holds counts a ∨ Holds counts b) := by
  by_cases isTrue : a = .const true
  · subst isTrue
    exact ⟨.const true, rfl, by simp⟩
  · refine ⟨getOr o [a, b], ?_, ?_⟩
    · simp only [getOrPtr, deref, ok_bind, if_neg isTrue]
      rfl
    · rw [holds_getOr]
      simp

section
variable (o find counts)

/-- All conditions of a route hold. -/
def RouteHolds (r : Route) : Prop := ∀ hop ∈ r, ∀ n, HopNode o find hop n → Holds counts n

/-- An input that is not a constant holds; constants that get here are true. -/
def InputHolds (v : Value) : Prop :=
  isConstantInt v = true ∨ ∃ n, find v = some (some n) ∧ Holds counts n

end

/-- What a route starts with and its conditions, conjoined one after the other. -/
def conjoin (o : PtrOrder) : Ptr → List Node → Ptr
  | some a, ns => some (andAll o a ns)
  | none, n :: ns => some (andAll o n ns)
  | none, [] => none

theorem getLogicalNode_eq {r : Route}
    (nodes : ∀ hop ∈ r, hop.cond = none ∨ ∃ n, HopNode o find hop n) (acc : Ptr) :
    getLogicalNode o find r acc = .ok (conjoin o acc (r.flatMap (hopNodes o find))) := by
  induction r generalizing acc with
  | nil => cases acc <;> rfl
  | cons hop r ih =>
    have rest := ih fun h hr => nodes h (List.mem_cons_of_mem hop hr)
    rw [List.flatMap_cons]
    rcases nodes hop List.mem_cons_self with plain | ⟨n, node⟩
    · rw [getLogicalNode, hopNodes_of_plain plain, plain]
      exact rest acc
    · rw [hopNodes_of_node node]
      obtain ⟨c, ln, cond, found, dir⟩ := node
      simp only [getLogicalNode, cond, found, dir, ok_bind]
      cases acc with
      | none => exact rest (some n)
      | some a => exact rest (some (getAnd o [a, n]))

theorem withIncoming_eq {v : Value} (node : isConstantInt v = false → ∃ m, find v = some (some m))
    (n : Node) :
    withIncoming o find v (some n) = .ok (some (andAll o n (inputNodes find v))) := by
  cases constant : isConstantInt v with
  | true =>
    rw [withIncoming, if_pos constant, inputNodes, if_pos constant]
    rfl
  | false =>
    obtain ⟨m, found⟩ := node constant
    simp only [withIncoming, inputNodes, constant, found]
    rfl

theorem mem_inputNodes {v : Value} (node : isConstantInt v = false → ∃ m, find v = some (some m)) :
    (∀ n ∈ inputNodes find v, Holds counts n) ↔ InputHolds find counts v := by
  unfold inputNodes InputHolds
  cases constant : isConstantInt v with
  | true => simp
  | false =>
    obtain ⟨m, found⟩ := node constant
    simp [found]

/-- What is needed of a route that is matched with an input. -/
structure RouteOk (v : Value) (r : Route) : Prop where
  nodes : ∀ hop ∈ r, hop.cond = none ∨ ∃ n, HopNode o find hop n
  conditional : ∃ hop ∈ r, hop.cond ≠ none
  kept : ChainKept o (routeNodes o find r v)

/-- The node of a route and an input behind it is the conjunction of its conditions. -/
theorem RouteOk.holds {v : Value} {r : Route} (ok : @RouteOk o find v r)
    (node : isConstantInt v = false → ∃ m, find v = some (some m)) :
    ∃ path m, getLogicalNode o find r none = .ok path ∧ withIncoming o find v path = .ok (some m) ∧
      (Holds counts m ↔ RouteHolds o find counts r ∧ InputHolds find counts v) := by
  have along := getLogicalNode_eq ok.nodes none
  have kept := ok.kept
  have route : (∀ n ∈ r.flatMap (hopNodes o find), Holds counts n) ↔
      RouteHolds o find counts r := by
    simp only [RouteHolds, List.mem_flatMap, mem_hopNodes]
    constructor
    · exact fun all hop inside n node => all n ⟨hop, inside, node⟩
    · rintro all n ⟨hop, inside, node⟩
      exact all hop inside n node
  unfold routeNodes at kept
  cases conditions : r.flatMap (hopNodes o find) with
  | nil =>
    obtain ⟨hop, inside, cond⟩ := ok.conditional
    obtain ⟨n, node⟩ := (ok.nodes hop inside).resolve_left cond
    have member : n ∈ r.flatMap (hopNodes o find) :=
      List.mem_flatMap.mpr ⟨hop, inside, mem_hopNodes.mpr node⟩
    rw [conditions] at member
    cases member
  | cons n ns =>
    rw [conditions] at along kept route
    rw [List.cons_append] at kept
    refine ⟨_, _, along, withIncoming_eq node _, ?_⟩
    have whole : andAll o (andAll o n ns) (inputNodes find v) =
        andAll o n (ns ++ inputNodes find v) := (List.foldl_append ..).symm
    rw [whole, holds_andAll kept, ← mem_inputNodes node, ← route, ← List.cons_append]
    exact List.forall_mem_append

theorem phiRoutes_holds {v : Value} {routes : List Route}
    (node : isConstantInt v = false → routes ≠ [] → ∃ m, find v = some (some m))
    (ok : ∀ r ∈ routes, @RouteOk o find v r) (acc : Ptr) :
    ∃ ln, phiRoutes o find v routes acc = .ok ln ∧ (ln = none ↔ acc = none ∧ routes = []) ∧
      ∀ n, ln = some n → (Holds counts n ↔ (∃ m, acc = some m ∧ Holds counts m) ∨
        ∃ r ∈ routes, RouteHolds o find counts r ∧ InputHolds find counts v) := by
  induction routes generalizing acc with
  | nil => exact ⟨acc, rfl, by simp, fun n same => by simp [same]⟩
  | cons r routes ih =>
    have here := ok r List.mem_cons_self
    have rest := fun q hq => ok q (List.mem_cons_of_mem r hq)
    have node := fun notConstant => node notConstant (List.cons_ne_nil r routes)
    obtain ⟨path, m, ran, tmp, first⟩ := @RouteOk.holds o find counts _ _ here node
    cases acc with
    | none =>
      obtain ⟨ln, ran', null', spec'⟩ := ih (fun notConstant _ => node notConstant) rest (some m)
      refine ⟨ln, ?_, ?_, ?_⟩
      · simp only [phiRoutes, ran, tmp, ok_bind]
        exact ran'
      · simp [null']
      · intro k same
        rw [spec' k same]
        simp [first]
    | some a =>
      obtain ⟨either, disj, holdsEither⟩ := @getOrPtr_holds o counts a m
      obtain ⟨ln, ran', null', spec'⟩ :=
        ih (fun notConstant _ => node notConstant) rest (some either)
      refine ⟨ln, ?_, ?_, ?_⟩
      · simp only [phiRoutes, ran, tmp, ok_bind, disj]
        exact ran'
      · simp [null']
      · intro k same
        rw [spec' k same]
        simp [holdsEither, first, or_assoc]

theorem findRoute_ok {l : Label} {routes : List Route} (nonempty : ∀ r ∈ routes, r ≠ []) :
    ∃ found, findRoute l routes = .ok found ∧ ∀ r, r ∈ found ↔ r ∈ routes ∧ EndsIn r l := by
  induction routes with
  | nil => exact ⟨[], rfl, by simp⟩
  | cons r routes ih =>
    obtain ⟨found, ran, spec⟩ := ih fun q hq => nonempty q (List.mem_cons_of_mem r hq)
    obtain ⟨hop, last⟩ :=
      List.getLast?_isSome.mpr (nonempty r List.mem_cons_self) |> Option.isSome_iff_exists.mp
    by_cases here : hop.block = l
    · refine ⟨r :: found, by simp only [findRoute, last, ran, ok_bind, if_pos here]; rfl, ?_⟩
      intro q
      have ends : EndsIn r l := ⟨hop, last, here⟩
      simp only [List.mem_cons, spec]
      constructor
      · rintro (rfl | ⟨member, ends⟩)
        · exact ⟨Or.inl rfl, ends⟩
        · exact ⟨Or.inr member, ends⟩
      · rintro ⟨rfl | member, ends⟩
        · exact Or.inl rfl
        · exact Or.inr ⟨member, ends⟩
    · refine ⟨found, by simp only [findRoute, last, ran, ok_bind, if_neg here]; rfl, ?_⟩
      intro q
      rw [spec, List.mem_cons]
      constructor
      · exact fun h => ⟨Or.inr h.1, h.2⟩
      · rintro ⟨rfl | member, ends⟩
        · obtain ⟨hop', last', block⟩ := ends
          cases last.symm.trans last'
          exact absurd block here
        · exact ⟨member, ends⟩

theorem mem_findRoute {l : Label} {routes found : List Route}
    (search : findRoute l routes = .ok found) (r : Route) :
    r ∈ found ↔ r ∈ routes ∧ EndsIn r l := by
  have nonempty : ∀ r ∈ routes, r ≠ [] := by
    clear r
    induction routes generalizing found with
    | nil => simp
    | cons r routes ih =>
      unfold findRoute at search
      split at search
      · cases search
      · next hop last =>
        obtain ⟨rest, search, -⟩ := bind_eq_ok.mp search
        rw [List.forall_mem_cons]
        refine ⟨?_, ih search⟩
        rintro rfl
        cases last
  obtain ⟨found', search', members⟩ := @findRoute_ok l routes nonempty
  cases search.symm.trans search'
  exact members r

theorem phiIncoming_holds {routes : List Route} (nonempty : ∀ r ∈ routes, r ≠ [])
    {incoming : List (Value × Label)} (nodes : ∀ e ∈ incoming, isConstantInt e.1 = false →
      (∃ r ∈ routes, EndsIn r e.2) → ∃ m, find e.1 = some (some m))
    (ok : ∀ e ∈ incoming, isZero e.1 = false → ∀ r ∈ routes, EndsIn r e.2 → @RouteOk o find e.1 r)
    (acc : Ptr) :
    ∃ ln, phiIncoming o find routes incoming acc = .ok ln ∧
      (ln = none ↔ acc = none ∧ ∀ e ∈ incoming, isZero e.1 = false → ∀ r ∈ routes, ¬ EndsIn r e.2) ∧
      ∀ n, ln = some n → (Holds counts n ↔ (∃ m, acc = some m ∧ Holds counts m) ∨
        ∃ e ∈ incoming, isZero e.1 = false ∧ ∃ r ∈ routes, EndsIn r e.2 ∧
          RouteHolds o find counts r ∧
          InputHolds find counts e.1) := by
  induction incoming generalizing acc with
  | nil => exact ⟨acc, rfl, by simp, fun n same => by simp [same]⟩
  | cons e incoming ih =>
    obtain ⟨v, l⟩ := e
    have rest := ih (fun e he => nodes e (List.mem_cons_of_mem _ he))
      (fun e he => ok e (List.mem_cons_of_mem _ he))
    by_cases zero : isZero v = true
    · obtain ⟨ln, ran, null, spec⟩ := rest acc
      refine ⟨ln, by rw [phiIncoming, if_pos zero]; exact ran, ?_, ?_⟩
      · simp [null, zero]
      · intro n same
        rw [spec n same]
        simp [zero]
    · obtain ⟨found, search, members⟩ := @findRoute_ok l routes nonempty
      have node : isConstantInt v = false → found ≠ [] → ∃ m, find v = some (some m) := by
        intro notConstant some
        obtain ⟨r, hr⟩ := List.exists_mem_of_ne_nil found some
        exact nodes (v, l) List.mem_cons_self notConstant ⟨r, (members r).mp hr⟩
      obtain ⟨mid, ran, null, spec⟩ := @phiRoutes_holds o find counts v found node
        (fun r hr => ok (v, l) List.mem_cons_self (by simpa using zero) r ((members r).mp hr).1
          ((members r).mp hr).2) acc
      obtain ⟨ln, ran', null', spec'⟩ := rest mid
      have none : found = [] ↔ ∀ r ∈ routes, ¬ EndsIn r l := by
        rw [List.eq_nil_iff_forall_not_mem]
        simp [members]
      refine ⟨ln, ?_, ?_, ?_⟩
      · simp only [phiIncoming, if_neg zero, search, ran, ok_bind]
        exact ran'
      · rw [null', null, none]
        simp [zero, and_assoc]
      · intro n same
        rw [spec' n same]
        have first : (∃ m, mid = some m ∧ Holds counts m) ↔ (∃ m, acc = some m ∧ Holds counts m) ∨
            ∃ r ∈ routes, EndsIn r l ∧ RouteHolds o find counts r ∧ InputHolds find counts v := by
          cases mid with
          | none =>
            obtain ⟨noAcc, noRoute⟩ := null.mp rfl
            have empty := none.mp noRoute
            constructor
            · rintro ⟨m, isSome, -⟩
              cases isSome
            · rintro (⟨m, isSome, -⟩ | ⟨r, hr, ends, -⟩)
              · cases noAcc.symm.trans isSome
              · exact absurd ends (empty r hr)
          | some k =>
            have holds := spec k rfl
            simp only [Option.some.injEq, exists_eq_left', holds, members, and_assoc]
        rw [first]
        simp [zero, or_assoc]

/-! What a phi that has been processed tells about its inputs. -/

theorem isConstantInt_of_isZero {v : Value} (zero : isZero v = true) : isConstantInt v = true := by
  unfold isZero at zero
  split at zero
  · rfl
  · cases zero

/-- An input that is not a constant has a node, if some route ends in its block. -/
theorem phiIncoming_present {routes : List Route} {incoming : List (Value × Label)} {acc ln : Ptr}
    (h : phiIncoming o find routes incoming acc = .ok ln) {e : Value × Label} (he : e ∈ incoming)
    (notConstant : isConstantInt e.1 = false) (ends : ∃ r ∈ routes, EndsIn r e.2) :
    ∃ m, find e.1 = some (some m) := by
  have joined : ∀ {v path tmp}, isConstantInt v = false → withIncoming o find v path = .ok tmp →
      ∃ m, find v = some (some m) := by
    intro v path tmp notConstant ran
    unfold withIncoming at ran
    rw [if_neg (by simp [notConstant])] at ran
    split at ran
    · cases ran
    · next l found =>
      obtain ⟨n, conjunction, -⟩ := map_eq_ok.mp ran
      obtain ⟨a, -, conjunction⟩ := bind_eq_ok.mp conjunction
      obtain ⟨b, there, -⟩ := bind_eq_ok.mp conjunction
      cases l with
      | none => cases there
      | some m => exact ⟨m, found⟩
  induction incoming generalizing acc with
  | nil => cases he
  | cons e' incoming ih =>
    unfold phiIncoming at h
    split_ifs at h with zero
    · rcases List.mem_cons.mp he with rfl | he
      · cases (isConstantInt_of_isZero zero).symm.trans notConstant
      · exact ih h he
    · obtain ⟨found, search, h⟩ := bind_eq_ok.mp h
      obtain ⟨acc', either, h⟩ := bind_eq_ok.mp h
      rcases List.mem_cons.mp he with rfl | he
      · obtain ⟨r, hr, last⟩ := ends
        have inside := (mem_findRoute search r).mpr ⟨hr, last⟩
        cases found with
        | nil => cases inside
        | cons q found =>
          unfold phiRoutes at either
          obtain ⟨path, -, either⟩ := bind_eq_ok.mp either
          obtain ⟨tmp, input, -⟩ := bind_eq_ok.mp either
          exact joined notConstant input
      · exact ih h he

/-- Routes without a condition leave the node null. -/
theorem phiIncoming_unconditional {routes : List Route}
    (plain : ∀ r ∈ routes, ∀ hop ∈ r, hop.cond = none) {incoming : List (Value × Label)} {ln : Ptr}
    (h : phiIncoming o find routes incoming none = .ok ln) : ln = none := by
  have along : ∀ {r : Route} {path : Ptr}, (∀ hop ∈ r, hop.cond = none) →
      getLogicalNode o find r none = .ok path →
      path = none := by
    intro r path plain ran
    induction r with
    | nil =>
      cases ran
      rfl
    | cons hop r ih =>
      rw [getLogicalNode, plain hop List.mem_cons_self] at ran
      exact ih (fun hop' inside => plain hop' (List.mem_cons_of_mem hop inside)) ran
  have each : ∀ {v : Value} {found : List Route} {acc : Ptr},
      (∀ r ∈ found, ∀ hop ∈ r, hop.cond = none) →
      phiRoutes o find v found none = .ok acc → acc = none := by
    intro v found acc plain ran
    induction found with
    | nil =>
      cases ran
      rfl
    | cons r found ih =>
      unfold phiRoutes at ran
      obtain ⟨path, ran', ran⟩ := bind_eq_ok.mp ran
      obtain ⟨tmp, input, ran⟩ := bind_eq_ok.mp ran
      cases along (plain r List.mem_cons_self) ran'
      have null : tmp = none := by
        unfold withIncoming at input
        split_ifs at input
        · cases input
          rfl
        · split at input
          · cases input
          · cases input
      subst null
      exact ih (fun q hq => plain q (List.mem_cons_of_mem r hq)) ran
  induction incoming with
  | nil =>
    cases h
    rfl
  | cons e incoming ih =>
    unfold phiIncoming at h
    split_ifs at h
    · exact ih h
    · obtain ⟨found, search, h⟩ := bind_eq_ok.mp h
      obtain ⟨acc, either, h⟩ := bind_eq_ok.mp h
      cases each (fun r hr => plain r ((mem_findRoute search r).mp hr).1) either
      exact ih h

/-- The condition of the hop holds or not as the hop says, and so does its negation. -/
def Decided (o : PtrOrder) (find : Value → Option Ptr) (counts : Counts) (hop : Hop) : Prop :=
  ∀ c n, hop.cond = some c → find c = some (some n) →
    (Holds counts n ↔ hop.isTrue = true) ∧ ∀ m, getNot o n = .ok m →
      (Holds counts m ↔ ¬ Holds counts n)

theorem Decided.holds {hop : Hop} (decided : Decided o find counts hop) {n : Node}
    (node : HopNode o find hop n) :
    Holds counts n := by
  obtain ⟨c, ln, cond, found, dir⟩ := node
  cases ln with
  | none => unfold directed at dir; split_ifs at dir <;> cases dir
  | some m =>
    obtain ⟨holds, negation⟩ := decided c m cond found
    unfold directed at dir
    split_ifs at dir with isTrue
    · cases dir
      exact holds.mpr isTrue
    · obtain ⟨k, negated, same⟩ := map_eq_ok.mp dir
      cases same
      have opposite : getNot o m = .ok n := negated
      rw [negation n opposite, holds]
      simpa using isTrue

/-- The branch of a decided hop does not go the other way. -/
theorem Decided.not_holds {b : Label} {c : Value}
    {d : Bool} (decided : Decided o find counts ⟨b, some c, d⟩) {n : Node}
    (node : HopNode o find ⟨b, some c, !d⟩ n) : ¬ Holds counts n := by
  obtain ⟨c', ln, cond, found, dir⟩ := node
  cases cond
  cases ln with
  | none => unfold directed at dir; split_ifs at dir <;> cases dir
  | some m =>
    obtain ⟨holds, negation⟩ := decided c m rfl found
    unfold directed at dir
    cases d with
    | true =>
      obtain ⟨k, negated, same⟩ := map_eq_ok.mp dir
      cases same
      have opposite : getNot o m = .ok n := negated
      rw [negation n opposite, holds]
      simp
    | false =>
      cases dir
      rw [holds]
      simp

theorem hopNode_of_walk {f : Function} (nodes : ConditionsHaveNodes o find f)
    {a b : Label} {r : Route} (walk : Walks f a r b) {hop : Hop} (h : hop ∈ r) :
    hop.cond = none ∨ ∃ n, HopNode o find hop n := by
  refine (walk.cond h).imp_right ?_
  rintro ⟨B, hB, c, t, e, term, cond⟩
  have here := nodes B hB
  rw [term] at here
  obtain ⟨n, m, found, negated⟩ := here
  cases dir : hop.isTrue with
  | true => exact ⟨n, c, some n, cond, found, by rw [dir]; rfl⟩
  | false =>
    refine ⟨m, c, some n, cond, found, ?_⟩
    rw [dir]
    simp only [directed, Bool.false_eq_true, if_false, getNotPtr, deref, ok_bind, negated]
    rfl

/-- The node of a phi, seen from a walk to its block all of whose branches are decided. -/
theorem processPHI_of_walk {f : Function}
    {E : Block} {l : Label} {p : Phi} {hops : Route} (free : f.LoopFree) (entry : f.entry = some E)
    (walk : Walks f E.label hops l) (conditional : ∃ hop ∈ hops, hop.cond ≠ none)
    (nodes : ConditionsHaveNodes o find f) (inputs : ∀ e ∈ p.incoming, isConstantInt e.1 = false →
      (∃ r ∈ routesTo f E.label l, EndsIn r e.2) →
      ∃ n, find e.1 = some (some n))
    (kept : RoutesKept o find f l p) (decided : ∀ hop ∈ hops, Decided o find counts hop) :
    ∃ ln, processPHI o find f l p = .ok ln ∧
      (ln = none ↔ ∀ e ∈ p.incoming, isZero e.1 = false →
        ∀ r ∈ routesTo f E.label l, ¬ EndsIn r e.2) ∧
      ∀ n, ln = some n →
        (Holds counts n ↔ ∃ e ∈ p.incoming, isZero e.1 = false ∧ EndsIn hops e.2 ∧
          InputHolds find counts e.1) := by
  obtain ⟨member, turned⟩ := routesTo_of_walk free walk
  have nonempty : ∀ r ∈ routesTo f E.label l, r ≠ [] := by
    rintro r hr rfl
    obtain ⟨hop, inside, -⟩ := routesTo_conditional member conditional hr
    cases inside
  have ok : ∀ e ∈ p.incoming, isZero e.1 = false → ∀ r ∈ routesTo f E.label l, EndsIn r e.2 →
      @RouteOk o find e.1 r := by
    intro e he notZero r hr ends
    obtain ⟨last, walks⟩ := walk_of_mem_routesTo hr
    exact ⟨fun hop inside => hopNode_of_walk nodes walks inside,
      routesTo_conditional member conditional hr,
      kept E entry r hr e he notZero ends⟩
  obtain ⟨ln, ran, null, spec⟩ :=
    @phiIncoming_holds o find counts _ nonempty p.incoming inputs ok none
  refine ⟨ln, by rw [processPHI, entry]; exact ran, ?_, ?_⟩
  · simpa using null
  · intro n same
    rw [spec n same]
    -- the conditions of the walk hold, and those of any other route do not all hold
    have taken : RouteHolds o find counts hops :=
      fun hop inside m node => (decided hop inside).holds node
    have other : ∀ r ∈ routesTo f E.label l, RouteHolds o find counts r → r = hops := by
      intro r hr holds
      rcases turned r hr with same | ⟨b, c, d, forth, back⟩
      · exact same
      · obtain ⟨last, walks⟩ := walk_of_mem_routesTo hr
        rcases hopNode_of_walk nodes walks back with none | ⟨m, node⟩
        · cases none
        · exact absurd (holds _ back m node) ((decided _ forth).not_holds node)
    constructor
    · rintro (⟨m, isSome, -⟩ | ⟨e, he, notZero, r, hr, ends, holds, input⟩)
      · cases isSome
      · cases other r hr holds
        exact ⟨e, he, notZero, ends, input⟩
    · rintro ⟨e, he, notZero, ends, input⟩
      exact Or.inr ⟨e, he, notZero, hops, member, ends, taken, input⟩

end

section
variable (o : PtrOrder) (find : Value → Option Ptr) (f : Function) (counts : Counts) (mem : Memory)

/-- Where a run comes to a conditional branch, the node of the condition says how it goes on, and
the negated node the opposite. -/
def ConditionsEvaluate : Prop :=
  ∀ prev l s s', Reached f mem prev l s → (visitOf f prev l s).after = some s' →
    ∀ B c t e, f.block l = some B → B.term = .condBr c t e → ∀ n, find c = some (some n) →
      (Holds counts n ↔ truthVal (valueIn s' c) = true) ∧
        ∀ m, getNot o n = .ok m → (Holds counts m ↔ ¬ Holds counts n)

/-- Where a run comes to the end of an incoming block, the node of the input says what it is worth.
-/
def InputsEvaluate (p : Phi) : Prop :=
  ∀ prev l s s', Reached f mem prev l s → (visitOf f prev l s).after = some s' →
    ∀ v, (v, l) ∈ p.incoming → ∀ n, find v = some (some n) →
      (Holds counts n ↔ truthVal (valueIn s' v) = true)

end

section
variable {o : PtrOrder} {find : Value → Option Ptr} {f : Function} {counts : Counts} {mem : Memory}

/-- A visit that goes on takes a branch, which is decided if the node of its condition says how it
goes. -/
theorem branch_decided
    (nodes : ConditionsHaveNodes o find f) {B : Block} {l l' : Label} {s : State Val Memory}
    (block : f.block l = some B) (out : leave sem (B.term.map (valueIn s)) = .goto l')
    (evaluates : ∀ c t e, B.term = .condBr c t e → ∀ n, find c = some (some n) →
      (Holds counts n ↔ truthVal (valueIn s c) = true) ∧ ∀ m, getNot o n = .ok m →
        (Holds counts m ↔ ¬ Holds counts n)) :
    ∃ hop, Moves f l hop l' ∧ Decided o find counts hop := by
  have hasNode := nodes B (List.mem_of_find?_eq_some block)
  cases term : B.term with
  | br dest =>
    rw [term] at out
    cases out
    exact ⟨_, .br block term, nofun⟩
  | condBr c t e =>
    rw [term] at out
    cases out
    refine ⟨_, .condBr block term (truthVal (valueIn s c)), ?_⟩
    intro c' n cond found
    cases cond
    exact evaluates c t e term n found
  | switch c d cases =>
    rw [term] at hasNode
    exact hasNode.elim
  | ret v =>
    rw [term] at out
    cases out
  | unreachable =>
    rw [term] at out
    cases out

/-- A walk whose branches are all decided, made longer by a decided branch. -/
theorem decided_snoc {hops : Route} {hop : Hop} (decided : ∀ h ∈ hops, Decided o find counts h)
    (last : Decided o find counts hop) : ∀ h ∈ hops ++ [hop], Decided o find counts h := by
  intro h member
  rcases List.mem_append.mp member with member | member
  · exact decided h member
  · rw [List.mem_singleton.mp member]
    exact last

/-- A run takes a walk whose branches are all decided. -/
theorem reached_walk (nodes : ConditionsHaveNodes o find f)
    (conditions : ConditionsEvaluate o find f counts mem) {prev : Option Label} {l : Label}
    {s : State Val Memory} (reached : Reached f mem prev l s) :
    ∃ E hops, f.entry = some E ∧ Walks f E.label hops l ∧
      (∀ hop ∈ hops, Decided o find counts hop) ∧
      ∀ b, prev = some b → EndsIn hops b := by
  induction reached with
  | start entry => exact ⟨_, [], entry, .nil _, nofun, nofun⟩
  | @step prev l l' s s' before exit after ih =>
    obtain ⟨E, hops, entry, walk, decided, -⟩ := ih
    obtain ⟨B, -, s'', block, -, -, ended, leaves⟩ := visit_leave sem _
      (by rw [visitOf] at exit; rw [exit]; exact nofun)
    cases after.symm.trans ended
    have out := leaves.symm.trans exit
    obtain ⟨hop, move, here⟩ := branch_decided nodes block out
      fun c t e term n found => conditions prev l s s' before after B c t e block term n found
    refine ⟨E, hops ++ [hop], entry, walk.snoc move, decided_snoc decided here, ?_⟩
    rintro b same
    cases same
    exact ⟨hop, by simp, move.block⟩

/-- A block that can be reached ends a route to each of its successors. -/
theorem exists_route (nodes : ConditionsHaveNodes o find f) (free : f.LoopFree)
    {E : Block} (entry : f.entry = some E) {b l : Label} (reachable : SsaForm.Reachable f b)
    (edge : f.Edge b l) :
    ∃ r ∈ routesTo f E.label l, EndsIn r b := by
  have moves : ∀ {a c}, f.Edge a c → ∃ hop, Moves f a hop c := by
    rintro a c ⟨B, block, successor⟩
    have hasNode := nodes B (List.mem_of_find?_eq_some block)
    cases term : B.term with
    | br dest =>
      simp only [term, Term.successors, List.mem_singleton] at successor
      subst successor
      exact ⟨_, .br block term⟩
    | condBr v t e =>
      simp only [term, Term.successors, List.mem_cons, List.not_mem_nil, or_false] at successor
      rcases successor with rfl | rfl
      · exact ⟨_, .condBr block term true⟩
      · exact ⟨_, .condBr block term false⟩
    | switch v d cases =>
      rw [term] at hasNode
      exact hasNode.elim
    | ret v => simp [term, Term.successors] at successor
    | unreachable => simp [term, Term.successors] at successor
  obtain ⟨E', entry', path⟩ := reachable
  cases entry.symm.trans entry'
  obtain ⟨hops, walk⟩ : ∃ hops, Walks f E.label hops b := by
    clear edge
    induction path with
    | refl => exact ⟨[], .nil _⟩
    | tail _ edge ih =>
      obtain ⟨hops, walk⟩ := ih
      obtain ⟨hop, move⟩ := moves edge
      exact ⟨_, walk.snoc move⟩
  obtain ⟨hop, move⟩ := moves edge
  exact ⟨_, (routesTo_of_walk free (walk.snoc move)).1, hop, by simp, move.block⟩

theorem constant_truth {v : Value} (constant : isConstantInt v = true) (s : State Val Memory) :
    truthVal (valueIn s v) = !isZero v := by
  unfold isConstantInt at constant
  split at constant
  · next bits c => cases c <;> rfl
  · cases constant

/-- The input that a phi lists for the last block of the walk decides. -/
theorem selected_iff {B : Block} {p : Phi} {v : Value} {b : Label}
    {hops : Route} {s : State Val Memory} (wf : f.WellFormed) (hB : B ∈ f.blocks) (phi : p ∈ B.phis)
    (member : (v, b) ∈ p.incoming) (ends : EndsIn hops b) (input : isConstantInt v = false →
      ∃ n, find v = some (some n) ∧ (Holds counts n ↔ truthVal (valueIn s v) = true)) :
    (∃ e ∈ p.incoming, isZero e.1 = false ∧ EndsIn hops e.2 ∧ InputHolds find counts e.1) ↔
      truthVal (valueIn s v) = true := by
  obtain ⟨hop, last, here⟩ := ends
  constructor
  · rintro ⟨⟨w, a⟩, listed, notZero, ⟨hop', last', there⟩, holds⟩
    cases last.symm.trans last'
    have same : a = b := there.symm.trans here
    subst same
    have agree : w = v := wf.agree B hB p phi a w v listed member
    subst agree
    by_cases constant : isConstantInt w = true
    · rw [constant_truth constant, notZero]
      rfl
    · obtain ⟨n, found, evaluates⟩ := input (by simpa using constant)
      rcases holds with constant' | ⟨n', found', holds⟩
      · exact absurd constant' constant
      · cases found.symm.trans found'
        exact evaluates.mp holds
  · intro isTrue
    by_cases constant : isConstantInt v = true
    · refine ⟨(v, b), member, ?_, ⟨hop, last, here⟩, Or.inl constant⟩
      rw [constant_truth constant] at isTrue
      simpa using isTrue
    · have notZero : isZero v = false := by
        by_contra zero
        exact constant (isConstantInt_of_isZero (by simpa using zero))
      obtain ⟨n, found, evaluates⟩ := input (by simpa using constant)
      exact ⟨(v, b), member, notZero, ⟨hop, last, here⟩, Or.inr ⟨n, found, evaluates.mpr isTrue⟩⟩

/-- Where a run comes to a phi, its node is the value that the run selects, exactly when some input
other than the constant false comes from a block that can be reached. -/
theorem processPHI_selects_iff {l : Label} {B : Block}
    {p : Phi} {prev : Option Label} {s : State Val Memory} (wf : f.WellFormed) (free : f.LoopFree)
    (block : f.block l = some B) (phi : p ∈ B.phis) (nodes : ConditionsHaveNodes o find f)
    (conditions : ConditionsEvaluate o find f counts mem) (inputs : InputsHaveNodes find p)
    (values : InputsEvaluate find f counts mem p) (conditional : ∀ E hops, f.entry = some E →
      Walks f E.label hops l → ∃ hop ∈ hops, hop.cond ≠ none) (kept : RoutesKept o find f l p)
    (reached : Reached f mem prev l s) :
    (∃ node v, processPHI o find f l p = .ok (some node) ∧ p.valueFrom prev = some v ∧
      (Holds counts node ↔ truthVal (valueIn s v) = true)) ↔
    ∃ e ∈ p.incoming, isZero e.1 = false ∧ SsaForm.Reachable f e.2 := by
  have hB : B ∈ f.blocks := List.mem_of_find?_eq_some block
  have label : B.label = l := by simpa using List.find?_some block
  obtain ⟨E, hops, entry, walk, decided, ends⟩ := reached_walk nodes conditions reached
  obtain ⟨ln, ran, null, spec⟩ :=
    processPHI_of_walk free entry walk (conditional E hops entry walk) nodes
    (fun e he notConstant _ => inputs e he notConstant) kept decided
  constructor
  · rintro ⟨node, v, stored, -, -⟩
    cases ran.symm.trans stored
    have some : ¬ ∀ e ∈ p.incoming, isZero e.1 = false →
        ∀ r ∈ routesTo f E.label l, ¬ EndsIn r e.2 :=
      fun h => nomatch null.mpr h
    push Not at some
    obtain ⟨e, he, notZero, r, hr, hop, last, same⟩ := some
    obtain ⟨stop, walks⟩ := walk_of_mem_routesTo hr
    exact ⟨e, he, notZero, E, entry, same ▸ (walks.mem (List.mem_of_getLast? last)).1⟩
  · rintro ⟨e, he, notZero, reachable⟩
    cases ln with
    | none =>
      obtain ⟨A, hA, labelA, edge⟩ := wf.preds B hB p phi e.1 e.2 he
      obtain ⟨r, hr, here⟩ :=
        exists_route nodes free entry reachable ⟨A, labelA ▸ wf.block_of_label hA, label ▸ edge⟩
      exact absurd here (null.mp rfl e he notZero r hr)
    | some node =>
      -- the previous block is the one that the phi lists
      cases reached with
      | start start =>
        cases block.symm.trans (wf.block_of_label (List.mem_of_head? start))
        rw [wf.entryPhis _ start] at phi
        cases phi
      | @step prev b _ s₀ _ before exit after =>
        have enters : Enters f (some b) B.label := label ▸ visit_enters sem _ exit
        obtain ⟨v, hv⟩ : ∃ v, p.valueFrom (some b) = some v := by
          obtain ⟨regs, entered⟩ := enterPhis_isSome sem (fun _ => .other 0) wf hB enters s.regs
          obtain ⟨v, hv, -⟩ := enterPhis_phi sem _ entered (wf.phi_ids_nodup hB) phi
          exact ⟨v, hv⟩
        obtain ⟨b', same, member⟩ := valueFrom_mem hv
        cases same
        refine ⟨node, v, ran, hv, ?_⟩
        rw [spec node rfl]
        refine selected_iff wf hB phi member (ends b rfl) fun notConstant => ?_
        obtain ⟨n, found⟩ := inputs (v, b) member notConstant
        exact ⟨n, found, values prev b s₀ s before after v member n found⟩

end

/-- A comparison decides between two blocks that join again; block 3 is dead. -/
def joined (phi : Phi) : Function where
  args := []
  nextId := 8
  blocks :=
    [⟨0, [], [⟨0, .int 32, .load false (.const (.global 0))⟩,
        ⟨1, .int 1, .icmp .ugt (.inst 0) (.const (.int 32 3))⟩], 2, .condBr (.inst 1) 1 2⟩,
     ⟨1, [], [], 3, .br 4⟩, ⟨2, [], [], 4, .br 4⟩, ⟨3, [], [], 5, .br 4⟩,
     ⟨4, [phi], [], 7, .ret (some (.inst 6))⟩]

/-- The nodes of the count and of its comparison. -/
def joinedNodes : Value → Option Ptr
  | .inst 0 => some (some (.subsig 0))
  | .inst 1 => some (some (.gt 3 (.subsig 0)))
  | _ => none

/-- Every address holds the first match count. -/
def firstCount (counts : Counts) : Memory := fun _ => .num (counts 0).toNat

theorem joined_conditions (o : PtrOrder) (phi : Phi) :
    ConditionsHaveNodes o joinedNodes (joined phi) := by
  intro B hB
  simp only [joined, List.mem_cons, List.not_mem_nil, or_false] at hB
  rcases hB with rfl | rfl | rfl | rfl | rfl
  · exact ⟨_, _, rfl, rfl⟩
  all_goals trivial

theorem joined_walk {phi : Phi} {l : Label} (ne : l ≠ 0) (E : Block) (hops : Route)
    (entry : (joined phi).entry = some E) (walk : Walks (joined phi) E.label hops l) :
    ∃ hop ∈ hops, hop.cond ≠ none := by
  cases entry
  cases walk with
  | nil => exact absurd rfl ne
  | cons first rest =>
    refine ⟨_, List.mem_cons_self, ?_⟩
    cases first with
    | br block term =>
      cases block
      cases term
    | condBr block term b => exact nofun

theorem joined_evaluate {phi : Phi} (wf : (joined phi).WellFormed) (o : PtrOrder)
    (counts : Counts) :
    ConditionsEvaluate o joinedNodes (joined phi) counts (firstCount counts) := by
  intro prev l s s' reached after B c t e block term n found
  have hB := List.mem_of_find?_eq_some block
  have label : B.label = l := by simpa using List.find?_some block
  simp only [joined, List.mem_cons, List.not_mem_nil, or_false] at hB
  rcases hB with rfl | rfl | rfl | rfl | rfl
  · cases term
    cases found
    subst label
    obtain ⟨rfl, rfl⟩ := reached.entry wf (E := ⟨0, [], _, 2, _⟩) rfl
    cases after
    have value : 3 < counts 0 ↔
        truthVal (.num (decide (3 < (counts 0).toNat % 2 ^ 32)).toNat) = true := by
      have toNat : 3 < counts 0 ↔ 3 < (counts 0).toNat := BitVec.lt_def
      rw [toNat, Nat.mod_eq_of_lt (counts 0).isLt]
      by_cases above : 3 < (counts 0).toNat <;> simp [above, truthVal]
    have negatable : NotOk o (.gt 3 (.subsig 0)) := by
      refine ⟨trivial, fun isUniq => ?_⟩
      cases isUniq
    exact ⟨holds_gt.trans value, fun m negated => holds_getNot negatable negated⟩
  all_goals cases term

theorem joined_plain (hop : Hop) : ∀ n ∈ hopNodes .inOrder joinedNodes hop, NoGroup n := by
  have first : ∀ d, ∀ n ∈ hopNodes .inOrder joinedNodes ⟨0, some (.inst 0), d⟩,
      ∀ m ∈ conjuncts n, groupComparison m = none := by decide
  have second : ∀ d, ∀ n ∈ hopNodes .inOrder joinedNodes ⟨0, some (.inst 1), d⟩,
      ∀ m ∈ conjuncts n, groupComparison m = none := by decide
  obtain ⟨b, cond, d⟩ := hop
  rcases cond with - | v
  · nofun
  · rcases v with i | i | c
    · rcases i with - | i | i
      · exact first d
      · exact second d
      · nofun
    · nofun
    · nofun

theorem joinedNodes_constant {v : Value} (constant : isConstantInt v = true) :
    joinedNodes v = none := by
  unfold isConstantInt at constant
  split at constant
  · rfl
  · cases constant

theorem joined_kept {phi : Phi} (constant : ∀ e ∈ phi.incoming, isConstantInt e.1 = true) :
    RoutesKept .inOrder joinedNodes (joined phi) 4 phi := by
  intro E entry r hr e he notZero ends
  refine chainKept_of_noGroup fun n hn => ?_
  rcases List.mem_append.mp hn with hn | hn
  · obtain ⟨hop, -, hn⟩ := List.mem_flatMap.mp hn
    exact joined_plain hop n hn
  · rw [inputNodes, if_pos (constant e he)] at hn
    cases hn

theorem joined_inputs {phi : Phi} (constant : ∀ e ∈ phi.incoming, isConstantInt e.1 = true)
    (counts : Counts) (mem : Memory) :
    InputsHaveNodes joinedNodes phi ∧ InputsEvaluate joinedNodes (joined phi) counts mem phi := by
  constructor
  · intro e he notConstant
    rw [constant e he] at notConstant
    cases notConstant
  · intro prev l s s' reached after v member n found
    rw [joinedNodes_constant (constant _ member)] at found
    cases found

/-- The phi is true behind the comparison. -/
def behind : Phi :=
  ⟨6, .int 1, [(.const (.int 1 1), 1), (.const (.int 1 0), 2), (.const (.int 1 0), 3)]⟩

theorem processPHI_selects_behind :
    ∃ s, Reached (joined behind) (firstCount fun _ => 5) (some 1) 4 s ∧
      ((∃ node v, processPHI .inOrder joinedNodes (joined behind) 4 behind = .ok (some node) ∧
        behind.valueFrom (some 1) = some v ∧
          (Holds (fun _ => 5) node ↔ truthVal (valueIn s v) = true)) ↔
      ∃ e ∈ behind.incoming, isZero e.1 = false ∧ SsaForm.Reachable (joined behind) e.2) := by
  have wf : (joined behind).WellFormed := SsaChecks.wellFormed_of_checks (by decide)
  have free : (joined behind).LoopFree := (SsaChecks.ssa_of_checks (by decide)).2
  have reached : ∃ s, Reached (joined behind) (firstCount fun _ => 5) (some 1) 4 s :=
    ⟨_, .step (.step (.start rfl) rfl rfl) rfl rfl⟩
  obtain ⟨s, reached⟩ := reached
  refine ⟨s, reached, ?_⟩
  have constant : ∀ e ∈ behind.incoming, isConstantInt e.1 = true := by decide
  obtain ⟨nodes, values⟩ := joined_inputs constant (fun _ => 5) (firstCount fun _ => 5)
  exact processPHI_selects_iff wf free rfl List.mem_cons_self (joined_conditions _ _)
    (joined_evaluate wf _ _) nodes
    values (joined_walk (by decide)) (joined_kept constant) reached

/-- The phi is false wherever control can come from; only the dead block lists true. -/
def deadInput : Phi :=
  ⟨6, .int 1, [(.const (.int 1 0), 1), (.const (.int 1 0), 2), (.const (.int 1 1), 3)]⟩

/-- The node of the phi is null, where every run selects the value false. -/
theorem deadInput_null :
    SsaForm.Ssa (joined deadInput) ∧ (joined deadInput).LoopFree ∧
    ConditionsHaveNodes .inOrder joinedNodes (joined deadInput) ∧
      InputsHaveNodes joinedNodes deadInput ∧
    (∀ counts,
      ConditionsEvaluate .inOrder joinedNodes (joined deadInput) counts (firstCount counts) ∧
      InputsEvaluate joinedNodes (joined deadInput) counts (firstCount counts) deadInput) ∧
    (∃ e ∈ deadInput.incoming, isZero e.1 = false) ∧
    (∀ E hops, (joined deadInput).entry = some E → Walks (joined deadInput) E.label hops 4 →
      ∃ hop ∈ hops, hop.cond ≠ none) ∧
    (∃ s, Reached (joined deadInput) (firstCount fun _ => 5) (some 1) 4 s) ∧
    deadInput.valueFrom (some 1) = some (.const (.int 1 0)) ∧
    processPHI .inOrder joinedNodes (joined deadInput) 4 deadInput = .ok none := by
  obtain ⟨ssa, free⟩ := SsaChecks.ssa_of_checks (f := joined deadInput) (by decide)
  have constant : ∀ e ∈ deadInput.incoming, isConstantInt e.1 = true := by decide
  refine ⟨ssa, free, joined_conditions _ _,
    (joined_inputs constant (fun _ => 5) (firstCount fun _ => 5)).1, ?_, by decide,
    joined_walk (by decide), ⟨_, .step (.step (.start rfl) rfl rfl) rfl rfl⟩, rfl, rfl⟩
  exact fun counts =>
    ⟨joined_evaluate ssa.wf _ counts, (joined_inputs constant counts (firstCount counts)).2⟩

end LogicalPhi
