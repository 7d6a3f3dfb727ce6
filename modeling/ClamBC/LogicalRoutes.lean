import ClamBC.LogicalCompiler
import Mathlib.Data.List.Infix

/-!
# The routes to a block

`populateRoutes` fills a vector of routes in place. Here the same routes are listed by a
recursion over the graph (`extend`), and a walk that control can take to a block is found
among them. Any other route then leaves the walk at a conditional branch, in the other
direction.
-/

namespace LogicalRoutes

open Ir LogicalCompiler Relation

section
variable (f : Function) (stop : Label)

/-- The continuations of one route: the one that stays in place, and the new ones in order. -/
def extend : Nat → Label → Route → Route × List Route
  | 0, _, route => (route, [])
  | fuel + 1, curr, route =>
    if curr = stop then (route, [])
    else if route.any fun h => h.block = curr then (route, [])
    else
      match (f.block curr).map Block.term with
      | some (.br dest) => extend fuel dest (route ++ [⟨curr, none, true⟩])
      | some (.condBr c t e) =>
        let onTrue := extend fuel t (route ++ [⟨curr, some c, true⟩])
        let onFalse := extend fuel e (route ++ [⟨curr, some c, false⟩])
        (onTrue.1, onFalse.1 :: (onTrue.2 ++ onFalse.2))
      | _ => (route, [])

def extended (fuel : Nat) (curr : Label) (route : Route) : List Route :=
  (extend f stop fuel curr route).1 :: (extend f stop fuel curr route).2

end

variable {f : Function} {stop : Label}

theorem set_same {routes : List Route} {idx : Nat} {route : Route}
    (here : routes[idx]? = some route) :
    routes.set idx route = routes := by
  obtain ⟨short, rfl⟩ := List.getElem?_eq_some_iff.mp here
  exact List.set_getElem_self short

theorem populateRoutes_eq {fuel : Nat} {curr : Label} {routes : List Route} {idx : Nat}
    {route : Route} (here : routes[idx]? = some route) :
    populateRoutes f stop fuel curr routes idx =
      routes.set idx (extend f stop fuel curr route).1 ++ (extend f stop fuel curr route).2 := by
  induction fuel generalizing curr routes idx route with
  | zero => simp [populateRoutes, extend, set_same here]
  | succ fuel ih =>
    have short : idx < routes.length := (List.getElem?_eq_some_iff.mp here).1
    have stays :
        routes = routes.set idx (route, ([] : List Route)).1 ++ (route, ([] : List Route)).2 := by
      simp [set_same here]
    simp only [populateRoutes, extend, here, Option.getD_some]
    split_ifs
    · exact stays
    · exact stays
    generalize (f.block curr).map Block.term = term
    rcases term with _ | _ | dest | ⟨c, t, e⟩ | _ | _
    case some.br =>
      have moved : (routes.set idx (route ++ [⟨curr, none, true⟩]))[idx]? =
          some (route ++ [⟨curr, none, true⟩]) := by
        simp [short]
      simp only [ih moved, List.set_set]
    case some.condBr =>
      let yes : Route := route ++ [⟨curr, some c, true⟩]
      let no : Route := route ++ [⟨curr, some c, false⟩]
      have taken : ((routes ++ [no]).set idx yes)[idx]? = some yes := by
        simp [Nat.lt_succ_of_lt short]
      have first : populateRoutes f stop fuel t ((routes ++ [no]).set idx yes) idx =
          routes.set idx (extend f stop fuel t yes).1 ++ no :: (extend f stop fuel t yes).2 := by
        rw [ih taken, List.set_set, List.set_append_left _ _ short, List.append_assoc,
          List.singleton_append]
      have copied : (routes.set idx (extend f stop fuel t yes).1 ++ no ::
          (extend f stop fuel t yes).2)[routes.length]? =
          some no := by
        simp
      change populateRoutes f stop fuel e
        (populateRoutes f stop fuel t ((routes ++ [no]).set idx yes) idx) _ = _
      rw [first, ih copied]
      simp [List.set_append_right, yes, no]
    all_goals exact stays

theorem routesTo_eq (f : Function) (start stop : Label) :
    routesTo f start stop = extended f stop (f.blocks.length + 1) start [] := by
  unfold routesTo extended
  rw [@populateRoutes_eq f stop _ _ _ _ [] rfl]
  rfl

/-- A route ends here, follows the branch, or is copied at a conditional branch. -/
theorem extended_succ (f : Function) (stop : Label) (fuel : Nat) (curr : Label) (route : Route) :
    (extended f stop (fuel + 1) curr route = [route] ∧
      (curr ≠ stop → (∀ hop ∈ route, hop.block ≠ curr) → ∀ B, f.block curr = some B →
        (∀ d, B.term ≠ .br d) ∧ ∀ c t e, B.term ≠ .condBr c t e)) ∨
    (curr ≠ stop ∧ ∃ B dest, f.block curr = some B ∧ B.term = .br dest ∧
      extended f stop (fuel + 1) curr route =
        extended f stop fuel dest (route ++ [⟨curr, none, true⟩])) ∨
    (curr ≠ stop ∧ ∃ B c t e, f.block curr = some B ∧ B.term = .condBr c t e ∧
      (extended f stop (fuel + 1) curr route).Perm
        (extended f stop fuel t (route ++ [⟨curr, some c, true⟩]) ++
          extended f stop fuel e (route ++ [⟨curr, some c, false⟩]))) := by
  simp only [extended, extend]
  by_cases atStop : curr = stop
  · exact Or.inl ⟨by simp [atStop], fun ne => absurd atStop ne⟩
  by_cases again : (route.any fun h => decide (h.block = curr)) = true
  · refine Or.inl ⟨by simp [atStop, again], fun _ fresh => ?_⟩
    obtain ⟨hop, member, same⟩ := List.any_eq_true.mp again
    exact absurd (by simpa using same) (fresh hop member)
  simp only [atStop, again, if_false, Bool.false_eq_true]
  cases block : f.block curr with
  | none => exact Or.inl ⟨rfl, fun _ _ => nofun⟩
  | some B =>
    cases term : B.term with
    | br dest => exact Or.inr (Or.inl ⟨atStop, B, dest, rfl, term, by simp [term]⟩)
    | condBr c t e =>
      refine Or.inr (Or.inr ⟨atStop, B, c, t, e, rfl, term, ?_⟩)
      simp only [Option.map_some, term, List.cons_append]
      exact (List.perm_middle.symm).cons _
    | ret v =>
      refine Or.inl ⟨by simp [term], fun _ _ C same => ?_⟩
      cases same
      simp [term]
    | switch c d cases =>
      refine Or.inl ⟨by simp [term], fun _ _ C same => ?_⟩
      cases same
      simp [term]
    | unreachable =>
      refine Or.inl ⟨by simp [term], fun _ _ C same => ?_⟩
      cases same
      simp [term]

/-- A route is only made longer. -/
theorem prefix_of_mem_extended {fuel : Nat} {curr : Label} {route r : Route}
    (h : r ∈ extended f stop fuel curr route) : route <+: r := by
  induction fuel generalizing curr route with
  | zero => rw [List.mem_singleton.mp h]; exact List.prefix_rfl
  | succ fuel ih =>
    have longer : ∀ {l hop}, r ∈ extended f stop fuel l (route ++ [hop]) → route <+: r :=
      fun hr => (List.prefix_append route _).trans (ih hr)
    rcases extended_succ f stop fuel curr route with
      ⟨same, -⟩ | ⟨-, B, dest, -, -, same⟩ | ⟨-, B, c, t, e, -, -, perm⟩
    · rw [same] at h
      rw [List.mem_singleton.mp h]
    · rw [same] at h
      exact longer h
    · rcases List.mem_append.mp (perm.mem_iff.mp h) with h | h
      · exact longer h
      · exact longer h

/-- A route without a condition is the only one. -/
theorem extended_unconditional {fuel : Nat} {curr : Label} {route r : Route}
    (h : r ∈ extended f stop fuel curr route) (plain : ∀ hop ∈ r, hop.cond = none) :
    extended f stop fuel curr route = [r] := by
  induction fuel generalizing curr route with
  | zero => rw [List.mem_singleton.mp h]; rfl
  | succ fuel ih =>
    have conditional : ∀ {l c b}, r ∉ extended f stop fuel l (route ++ [⟨curr, some c, b⟩]) := by
      intro l c b hr
      have inside := (prefix_of_mem_extended hr).subset (List.mem_append_right _ List.mem_cons_self)
      cases plain _ inside
    rcases extended_succ f stop fuel curr route with
      ⟨same, -⟩ | ⟨-, B, dest, -, -, same⟩ | ⟨-, B, c, t, e, -, -, perm⟩
    · rw [same] at h ⊢
      rw [List.mem_singleton.mp h]
    · rw [same] at h ⊢
      exact ih h
    · rcases List.mem_append.mp (perm.mem_iff.mp h) with h | h
      · exact absurd h conditional
      · exact absurd h conditional

/-! Walks of the control-flow graph. -/

/-- Control moves from one block to the next with this branch. -/
inductive Moves (f : Function) (a : Label) : Hop → Label → Prop
  | br {B : Block} {dest : Label} (block : f.block a = some B) (term : B.term = .br dest) :
      Moves f a ⟨a, none, true⟩ dest
  | condBr {B : Block} {c : Value} {t e : Label} (block : f.block a = some B)
      (term : B.term = .condBr c t e) (b : Bool) : Moves f a ⟨a, some c, b⟩ (if b then t else e)

inductive Walks (f : Function) : Label → Route → Label → Prop
  | nil (a : Label) : Walks f a [] a
  | cons {a b c : Label} {hop : Hop} {route : Route} (first : Moves f a hop b)
      (rest : Walks f b route c) :
      Walks f a (hop :: route) c

theorem Moves.edge {a b : Label} {hop : Hop} (h : Moves f a hop b) : f.Edge a b := by
  cases h with
  | br block term => exact ⟨_, block, by simp [term, Term.successors]⟩
  | condBr block term b => exact ⟨_, block, by cases b <;> simp [term, Term.successors]⟩

theorem Moves.block {a b : Label} {hop : Hop} (h : Moves f a hop b) : hop.block = a := by
  cases h <;> rfl

theorem Walks.snoc {a b c : Label} {route : Route} {hop : Hop} (walk : Walks f a route b)
    (last : Moves f b hop c) : Walks f a (route ++ [hop]) c := by
  induction walk with
  | nil a => exact .cons last (.nil c)
  | cons first _ ih => exact .cons first (ih last)

theorem Walks.reaches {a b : Label} {route : Route} (walk : Walks f a route b) :
    ReflTransGen f.Edge a b := by
  induction walk with
  | nil a => exact .refl
  | cons first _ ih => exact .head first.edge ih

/-- Every branch of a walk is in a block that leads to the end. -/
theorem Walks.mem {a b : Label} {route : Route} (walk : Walks f a route b) {hop : Hop}
    (h : hop ∈ route) :
    ReflTransGen f.Edge a hop.block ∧ TransGen f.Edge hop.block b := by
  induction walk with
  | nil a => cases h
  | cons first rest ih =>
    rcases List.mem_cons.mp h with rfl | h
    · rw [first.block]
      exact ⟨.refl, TransGen.head' first.edge rest.reaches⟩
    · exact ⟨.head first.edge (ih h).1, (ih h).2⟩

/-- The conditions of a walk are the conditions of its branches. -/
theorem Walks.cond {a b : Label} {route : Route} (walk : Walks f a route b) {hop : Hop}
    (h : hop ∈ route) :
    hop.cond = none ∨ ∃ B ∈ f.blocks, ∃ c t e, B.term = .condBr c t e ∧ hop.cond = some c := by
  induction walk with
  | nil a => cases h
  | cons first rest ih =>
    rcases List.mem_cons.mp h with rfl | h
    · cases first with
      | br block term => exact Or.inl rfl
      | condBr block term b => exact Or.inr ⟨_, List.mem_of_find?_eq_some block, _, _, _, term, rfl⟩
    · exact ih h

/-- Every route is a walk to some block. -/
theorem walk_of_mem_extended {fuel : Nat} {start curr : Label} {route r : Route}
    (before : Walks f start route curr) (h : r ∈ extended f stop fuel curr route) :
    ∃ last, Walks f start r last := by
  induction fuel generalizing curr route with
  | zero =>
    rw [List.mem_singleton.mp h]
    exact ⟨curr, before⟩
  | succ fuel ih =>
    rcases extended_succ f stop fuel curr route with
      ⟨same, -⟩ | ⟨-, B, dest, block, term, same⟩ | ⟨-, B, c, t, e, block, term, perm⟩
    · rw [same] at h
      rw [List.mem_singleton.mp h]
      exact ⟨curr, before⟩
    · rw [same] at h
      exact ih (before.snoc (.br block term)) h
    · rcases List.mem_append.mp (perm.mem_iff.mp h) with h | h
      · exact ih (before.snoc (.condBr block term true)) h
      · exact ih (before.snoc (.condBr block term false)) h

theorem walk_of_mem_routesTo {start : Label} {r : Route} (h : r ∈ routesTo f start stop) :
    ∃ last, Walks f start r last := by
  rw [routesTo_eq] at h
  exact walk_of_mem_extended (.nil start) h

/-- If a walk with a condition reaches the block, then no route is without one. -/
theorem routesTo_conditional {start : Label} {hops r : Route} (walk : hops ∈ routesTo f start stop)
    (conditional : ∃ hop ∈ hops, hop.cond ≠ none) (h : r ∈ routesTo f start stop) :
    ∃ hop ∈ r, hop.cond ≠ none := by
  by_contra plain
  push Not at plain
  rw [routesTo_eq] at h walk
  rw [extended_unconditional h plain] at walk
  obtain ⟨hop, member, cond⟩ := conditional
  rw [List.mem_singleton.mp walk] at member
  exact cond (plain hop member)

/-- In a loop-free function the blocks of a walk are pairwise different. -/
theorem Walks.nodup (free : f.LoopFree) {a b : Label} {route : Route} (walk : Walks f a route b) :
    (route.map Hop.block).Nodup := by
  induction walk with
  | nil a => simp
  | cons first rest ih =>
    rw [List.map_cons, List.nodup_cons]
    refine ⟨?_, ih⟩
    intro again
    obtain ⟨hop, member, same⟩ := List.mem_map.mp again
    apply free hop.block
    have back := (rest.mem member).1
    rw [same, first.block]
    exact TransGen.head' first.edge (first.block ▸ same ▸ back)

/-- A walk is not longer than the function. -/
theorem Walks.length_le (free : f.LoopFree) {a b : Label} {route : Route}
    (walk : Walks f a route b) :
    route.length ≤ f.blocks.length := by
  have inside : route.map Hop.block ⊆ f.blocks.map Block.label := by
    intro l member
    obtain ⟨hop, here, rfl⟩ := List.mem_map.mp member
    obtain ⟨-, path⟩ := walk.mem here
    obtain ⟨c, ⟨B, block, -⟩, -⟩ := TransGen.head'_iff.mp path
    have label : B.label = hop.block := by simpa using List.find?_some block
    exact label ▸ List.mem_map_of_mem (List.mem_of_find?_eq_some block)
  have short := ((walk.nodup free).subperm inside).length_le
  simpa using short

/-- The walk is among the routes, and every other route takes one of its conditional branches
in the other direction. -/
theorem mem_extended_of_walk (free : f.LoopFree) {fuel : Nat} {curr : Label} {route hops : Route}
    (walk : Walks f curr hops stop) (enough : hops.length < fuel)
    (before : ∀ hop ∈ route, TransGen f.Edge hop.block curr) :
    route ++ hops ∈ extended f stop fuel curr route ∧
    ∀ r ∈ extended f stop fuel curr route, r = route ++ hops ∨
      ∃ b c d, ⟨b, some c, d⟩ ∈ hops ∧ ⟨b, some c, !d⟩ ∈ r := by
  induction fuel generalizing curr route hops with
  | zero => omega
  | succ fuel ih =>
    cases walk with
    | nil =>
      have here : extended f stop (fuel + 1) stop route = [route] := by simp [extended, extend]
      simp [here]
    | @cons _ next _ hop hops first rest =>
      have ne : curr ≠ stop := by
        rintro rfl
        exact free curr (TransGen.head' first.edge rest.reaches)
      have fresh : ∀ hop ∈ route, hop.block ≠ curr := by
        rintro hop member rfl
        exact free hop.block (before hop member)
      have after : ∀ h ∈ route ++ [hop], TransGen f.Edge h.block next := by
        intro h member
        rcases List.mem_append.mp member with member | member
        · exact (before h member).tail first.edge
        · rw [List.mem_singleton.mp member, first.block]
          exact .single first.edge
      have step := ih rest (by simpa using enough) after
      rw [List.append_assoc, List.singleton_append] at step
      rcases extended_succ f stop fuel curr route with
        ⟨-, ends⟩ | ⟨-, B, dest, block, term, same⟩ | ⟨-, B, c, t, e, block, term, perm⟩
      · cases first with
        | br block term => exact absurd term ((ends ne fresh _ block).1 _)
        | condBr block term b => exact absurd term ((ends ne fresh _ block).2 _ _ _)
      · cases first with
        | br block' term' =>
          cases block.symm.trans block'
          cases term.symm.trans term'
          rw [same]
          refine ⟨step.1, fun r hr => (step.2 r hr).imp_right ?_⟩
          rintro ⟨b, c, d, inside, other⟩
          exact ⟨b, c, d, List.mem_cons_of_mem _ inside, other⟩
        | condBr block' term' b =>
          cases block.symm.trans block'
          cases term.symm.trans term'
      · cases first with
        | br block' term' =>
          cases block.symm.trans block'
          cases term.symm.trans term'
        | condBr block' term' b =>
          cases block.symm.trans block'
          cases term.symm.trans term'
          have turned : ∀ {l r}, r ∈ extended f stop fuel l (route ++ [⟨curr, some c, !b⟩]) →
              ∃ b' c' d, ⟨b', some c', d⟩ ∈ (⟨curr, some c, b⟩ : Hop) :: hops ∧
                ⟨b', some c', !d⟩ ∈ r :=
            fun hr => ⟨curr, c, b, List.mem_cons_self,
              (prefix_of_mem_extended hr).subset (List.mem_append_right _ List.mem_cons_self)⟩
          have kept :
              ∀ r ∈ extended f stop fuel (if b then t else e) (route ++ [⟨curr, some c, b⟩]),
              r = route ++ ⟨curr, some c, b⟩ :: hops ∨
                ∃ b' c' d, ⟨b', some c', d⟩ ∈ (⟨curr, some c, b⟩ : Hop) :: hops ∧
                  ⟨b', some c', !d⟩ ∈ r := by
            intro r hr
            refine (step.2 r hr).imp_right ?_
            rintro ⟨b', c', d, inside, other⟩
            exact ⟨b', c', d, List.mem_cons_of_mem _ inside, other⟩
          refine ⟨perm.mem_iff.mpr ?_, fun r hr => ?_⟩
          · cases b with
            | true => exact List.mem_append_left _ step.1
            | false => exact List.mem_append_right _ step.1
          · rcases List.mem_append.mp (perm.mem_iff.mp hr) with hr | hr
            · cases b with
              | true => exact kept r hr
              | false => exact Or.inr (turned hr)
            · cases b with
              | true => exact Or.inr (turned hr)
              | false => exact kept r hr

/-- The routes to a block, seen from a walk that reaches it. -/
theorem routesTo_of_walk (free : f.LoopFree) {start : Label} {hops : Route}
    (walk : Walks f start hops stop) :
    hops ∈ routesTo f start stop ∧ ∀ r ∈ routesTo f start stop, r = hops ∨
      ∃ b c d, ⟨b, some c, d⟩ ∈ hops ∧ ⟨b, some c, !d⟩ ∈ r := by
  rw [routesTo_eq]
  exact mem_extended_of_walk free walk (Nat.lt_succ_of_le (walk.length_le free)) (by simp)

end LogicalRoutes
