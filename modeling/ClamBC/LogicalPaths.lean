import ClamBC.LogicalRoutes
import ClamBC.SsaChecks

/-!
# The routes are the paths

`populateRoutes` returns for every graph, because no block is twice on a route, and without loops
the routes are the maximal paths, each of them once.
-/

namespace LogicalPaths

open Ir LogicalCompiler LogicalRoutes Relation

section
variable (f : Function) (stop : Label)

/-- A call of `populateRoutes` that returns, with the vector before and after it. -/
inductive Populates : Label → List Route → Nat → List Route → Prop
  | stop {routes : List Route} {idx : Nat} {route : Route} (here : routes[idx]? = some route) :
      Populates stop routes idx routes
  | again {curr : Label} {routes : List Route} {idx : Nat} {route : Route} (ne : curr ≠ stop)
      (here : routes[idx]? = some route) (old : ∃ hop ∈ route, hop.block = curr) :
      Populates curr routes idx routes
  | br {curr : Label} {routes after : List Route} {idx : Nat} {route : Route} {B : Block}
      {dest : Label} (ne : curr ≠ stop) (here : routes[idx]? = some route)
      (fresh : ∀ hop ∈ route, hop.block ≠ curr) (block : f.block curr = some B)
      (term : B.term = .br dest)
      (rest : Populates dest (routes.set idx (route ++ [⟨curr, none, true⟩])) idx after) :
      Populates curr routes idx after
  | condBr {curr : Label} {routes mid after : List Route} {idx : Nat} {route : Route} {B : Block}
      {c : Value} {t e : Label} (ne : curr ≠ stop) (here : routes[idx]? = some route)
      (fresh : ∀ hop ∈ route, hop.block ≠ curr) (block : f.block curr = some B)
      (term : B.term = .condBr c t e)
      (onTrue : Populates t ((routes ++ [route ++ [Hop.mk curr (some c) false]]).set idx
        (route ++ [Hop.mk curr (some c) true])) idx mid)
      (onFalse : Populates e mid routes.length after) : Populates curr routes idx after
  | exit {curr : Label} {routes : List Route} {idx : Nat} {route : Route} (ne : curr ≠ stop)
      (here : routes[idx]? = some route) (fresh : ∀ hop ∈ route, hop.block ≠ curr)
      (noBranch : ∀ hop next, ¬ Moves f curr hop next) : Populates curr routes idx routes

/-- A path that ends where it reaches the block, or at a block without a branch. -/
inductive MaximalPath : Label → Route → Prop
  | stop : MaximalPath stop []
  | exit {curr : Label} (noBranch : ∀ hop next, ¬ Moves f curr hop next) : MaximalPath curr []
  | step {curr next : Label} {hop : Hop} {route : Route} (ne : curr ≠ stop)
      (first : Moves f curr hop next) (rest : MaximalPath next route) :
      MaximalPath curr (hop :: route)

/-- The blocks of the route are blocks of the function, each of them once. -/
structure Simple (route : Route) : Prop where
  nodup : (route.map Hop.block).Nodup
  inside : route.map Hop.block ⊆ f.blocks.map Block.label

end

variable {f : Function} {stop : Label}

theorem Simple.nil : Simple f [] := ⟨List.nodup_nil, List.nil_subset _⟩

theorem Simple.length_le {route : Route} (simple : Simple f route) :
    route.length ≤ f.blocks.length := by
  simpa using (simple.nodup.subperm simple.inside).length_le

theorem Simple.snoc {route : Route} {curr next : Label} {hop : Hop} (simple : Simple f route)
    (fresh : ∀ hop ∈ route, hop.block ≠ curr) (move : Moves f curr hop next) :
    Simple f (route ++ [hop]) := by
  have here : hop.block ∈ f.blocks.map Block.label := by
    obtain ⟨B, block, -⟩ := move.edge
    have label : B.label = curr := by simpa using List.find?_some block
    rw [move.block, ← label]
    exact List.mem_map_of_mem (List.mem_of_find?_eq_some block)
  have new : hop.block ∉ route.map Hop.block := by
    intro old
    obtain ⟨other, member, same⟩ := List.mem_map.mp old
    exact fresh other member (same.trans move.block)
  refine ⟨?_, ?_⟩
  · rw [List.map_append, List.nodup_append]
    refine ⟨simple.nodup, List.nodup_singleton _, fun a ha b hb same => new ?_⟩
    rwa [← List.mem_singleton.mp hb, ← same]
  · rw [List.map_append]
    exact List.append_subset.mpr
      ⟨simple.inside, List.cons_subset.mpr ⟨here, List.nil_subset _⟩⟩

/-- No branch leaves a block that ends in another way. -/
theorem not_moves {curr : Label}
    (ends : ∀ B, f.block curr = some B → (∀ d, B.term ≠ .br d) ∧ ∀ c t e, B.term ≠ .condBr c t e)
    (hop : Hop) (next : Label) : ¬ Moves f curr hop next := by
  rintro (⟨block, term⟩ | ⟨block, term, b⟩)
  · exact (ends _ block).1 _ term
  · exact (ends _ block).2 _ _ _ term

/-- The recursion is never deeper than the fuel. -/
theorem populates_populateRoutes {fuel : Nat} {curr : Label} {routes : List Route} {idx : Nat}
    {route : Route} (here : routes[idx]? = some route) (simple : Simple f route)
    (enough : f.blocks.length < fuel + route.length) :
    Populates f stop curr routes idx (populateRoutes f stop fuel curr routes idx) := by
  induction fuel generalizing curr routes idx route with
  | zero =>
    have := simple.length_le
    omega
  | succ fuel ih =>
    have short : idx < routes.length := (List.getElem?_eq_some_iff.mp here).1
    simp only [populateRoutes, here, Option.getD_some]
    split_ifs with atStop again
    · subst atStop
      exact .stop here
    · obtain ⟨hop, member, same⟩ := List.any_eq_true.mp again
      exact .again atStop here ⟨hop, member, by simpa using same⟩
    have fresh : ∀ hop ∈ route, hop.block ≠ curr := by
      intro hop member same
      exact again (List.any_eq_true.mpr ⟨hop, member, by simpa using same⟩)
    cases block : f.block curr with
    | none => exact .exit atStop here fresh (not_moves (by simp [block]))
    | some B =>
      cases term : B.term with
      | br dest =>
        have next : (routes.set idx (route ++ [⟨curr, none, true⟩]))[idx]? =
            some (route ++ [⟨curr, none, true⟩]) := by
          simp [short]
        have longer : f.blocks.length < fuel + (route ++ [Hop.mk curr none true]).length := by
          rw [List.length_append, List.length_singleton]
          omega
        simp only [Option.map_some, term]
        exact .br atStop here fresh block term
          (ih next (simple.snoc fresh (.br block term)) longer)
      | condBr c t e =>
        have onTrue : ((routes ++ [route ++ [Hop.mk curr (some c) false]]).set idx
            (route ++ [Hop.mk curr (some c) true]))[idx]? =
            some (route ++ [Hop.mk curr (some c) true]) := by
          simp [Nat.lt_succ_of_lt short]
        have longer (b : Bool) :
            f.blocks.length < fuel + (route ++ [Hop.mk curr (some c) b]).length := by
          rw [List.length_append, List.length_singleton]
          omega
        have onFalse : (populateRoutes f stop fuel t
            ((routes ++ [route ++ [Hop.mk curr (some c) false]]).set idx
              (route ++ [Hop.mk curr (some c) true])) idx)[routes.length]? =
            some (route ++ [Hop.mk curr (some c) false]) := by
          rw [populateRoutes_eq onTrue, List.set_set, List.set_append_left _ _ short,
            List.append_assoc]
          simp
        simp only [Option.map_some, term]
        exact .condBr atStop here fresh block term
          (ih onTrue (simple.snoc fresh (.condBr block term true)) (longer true))
          (ih onFalse (simple.snoc fresh (.condBr block term false)) (longer false))
      | _ =>
        simp only [Option.map_some, term]
        refine .exit atStop here fresh (not_moves fun B' block' => ?_)
        cases block.symm.trans block'
        simp [term]

/-- A call has one result. -/
theorem Populates.unique {curr : Label} {routes after after' : List Route} {idx : Nat}
    (call : Populates f stop curr routes idx after)
    (call' : Populates f stop curr routes idx after') : after = after' := by
  induction call generalizing after' with
  | stop here =>
    cases call' with
    | stop => rfl
    | again ne | br ne | condBr ne | exit ne => exact absurd rfl ne
  | again ne here old =>
    obtain ⟨hop, member, same⟩ := old
    cases call' with
    | stop => exact absurd rfl ne
    | again | exit => rfl
    | br _ here' fresh | condBr _ here' fresh =>
      cases here.symm.trans here'
      exact absurd same (fresh hop member)
  | br ne here fresh block term rest ih =>
    cases call' with
    | stop => exact absurd rfl ne
    | again _ here' old =>
      obtain ⟨hop, member, same⟩ := old
      cases here.symm.trans here'
      exact absurd same (fresh hop member)
    | br _ here' _ block' term' rest' =>
      cases here.symm.trans here'
      cases block.symm.trans block'
      cases term.symm.trans term'
      exact ih rest'
    | condBr _ _ _ block' term' =>
      cases block.symm.trans block'
      cases term.symm.trans term'
    | exit _ _ _ noBranch => exact absurd (.br block term) (noBranch _ _)
  | condBr ne here fresh block term onTrue onFalse ihTrue ihFalse =>
    cases call' with
    | stop => exact absurd rfl ne
    | again _ here' old =>
      obtain ⟨hop, member, same⟩ := old
      cases here.symm.trans here'
      exact absurd same (fresh hop member)
    | br _ _ _ block' term' =>
      cases block.symm.trans block'
      cases term.symm.trans term'
    | condBr _ here' _ block' term' onTrue' onFalse' =>
      cases here.symm.trans here'
      cases block.symm.trans block'
      cases term.symm.trans term'
      cases ihTrue onTrue'
      exact ihFalse onFalse'
    | exit _ _ _ noBranch => exact absurd (.condBr block term true) (noBranch _ _)
  | exit ne here fresh noBranch =>
    cases call' with
    | stop | again | exit => rfl
    | br _ _ _ block term => exact absurd (.br block term) (noBranch _ _)
    | condBr _ _ _ block term => exact absurd (.condBr block term true) (noBranch _ _)

/-! ## Functions without loops -/

theorem MaximalPath.br_iff {curr dest : Label} {B : Block} (ne : curr ≠ stop)
    (block : f.block curr = some B) (term : B.term = .br dest) {path : Route} :
    MaximalPath f stop curr path ↔
      ∃ rest, path = ⟨curr, none, true⟩ :: rest ∧ MaximalPath f stop dest rest := by
  constructor
  · rintro (_ | noBranch | ⟨-, move, rest⟩)
    · exact absurd rfl ne
    · exact absurd (.br block term) (noBranch _ _)
    · cases move with
      | br block' term' =>
        cases block.symm.trans block'
        cases term.symm.trans term'
        exact ⟨_, rfl, rest⟩
      | condBr block' term' =>
        cases block.symm.trans block'
        cases term.symm.trans term'
  · rintro ⟨rest, rfl, path⟩
    exact .step ne (.br block term) path

theorem MaximalPath.condBr_iff {curr t e : Label} {c : Value} {B : Block} (ne : curr ≠ stop)
    (block : f.block curr = some B) (term : B.term = .condBr c t e) {path : Route} :
    MaximalPath f stop curr path ↔
      (∃ rest, path = ⟨curr, some c, true⟩ :: rest ∧ MaximalPath f stop t rest) ∨
        ∃ rest, path = ⟨curr, some c, false⟩ :: rest ∧ MaximalPath f stop e rest := by
  constructor
  · rintro (_ | noBranch | ⟨-, move, rest⟩)
    · exact absurd rfl ne
    · exact absurd (.condBr block term true) (noBranch _ _)
    · cases move with
      | br block' term' =>
        cases block.symm.trans block'
        cases term.symm.trans term'
      | condBr block' term' b =>
        cases block.symm.trans block'
        cases term.symm.trans term'
        cases b with
        | true => exact .inl ⟨_, rfl, rest⟩
        | false => exact .inr ⟨_, rfl, rest⟩
  · rintro (⟨rest, rfl, path⟩ | ⟨rest, rfl, path⟩)
    · exact .step ne (.condBr block term true) path
    · exact .step ne (.condBr block term false) path

/-- The continuations of a route are the maximal paths from where it stands, each once. -/
theorem extended_exact (free : f.LoopFree) {fuel : Nat} {curr : Label} {route : Route}
    (simple : Simple f route) (before : ∀ hop ∈ route, TransGen f.Edge hop.block curr)
    (enough : f.blocks.length < fuel + route.length) :
    (extended f stop fuel curr route).Nodup ∧ ∀ r, r ∈ extended f stop fuel curr route ↔
      ∃ rest, r = route ++ rest ∧ MaximalPath f stop curr rest := by
  induction fuel generalizing curr route with
  | zero =>
    have := simple.length_le
    omega
  | succ fuel ih =>
    have fresh : ∀ hop ∈ route, hop.block ≠ curr := by
      rintro hop member rfl
      exact free hop.block (before hop member)
    have next {hop : Hop} {l : Label} (move : Moves f curr hop l) :
        (extended f stop fuel l (route ++ [hop])).Nodup ∧
        ∀ r, r ∈ extended f stop fuel l (route ++ [hop]) ↔
          ∃ rest, r = route ++ hop :: rest ∧ MaximalPath f stop l rest := by
      have after : ∀ h ∈ route ++ [hop], TransGen f.Edge h.block l := by
        intro h member
        rcases List.mem_append.mp member with member | member
        · exact (before h member).tail move.edge
        · rw [List.mem_singleton.mp member, move.block]
          exact .single move.edge
      have longer : f.blocks.length < fuel + (route ++ [hop]).length := by
        rw [List.length_append, List.length_singleton]
        omega
      simpa only [List.append_assoc, List.singleton_append] using
        ih (simple.snoc fresh move) after longer
    rcases extended_succ f stop fuel curr route with
      ⟨same, ends⟩ | ⟨ne, B, dest, block, term, same⟩ | ⟨ne, B, c, t, e, block, term, perm⟩
    · rw [same]
      refine ⟨List.nodup_singleton _, fun r => ?_⟩
      rw [List.mem_singleton]
      constructor
      · rintro rfl
        refine ⟨[], (List.append_nil _).symm, ?_⟩
        by_cases atStop : curr = stop
        · subst atStop
          exact .stop
        · exact .exit (not_moves (ends atStop fresh))
      · rintro ⟨rest, rfl, path⟩
        cases path with
        | stop | exit => exact List.append_nil _
        | step ne move => exact absurd move (not_moves (ends ne fresh) _ _)
    · obtain ⟨nodup, exactly⟩ := next (.br block term)
      rw [same]
      refine ⟨nodup, fun r => (exactly r).trans ?_⟩
      simp only [MaximalPath.br_iff ne block term]
      constructor
      · rintro ⟨rest, rfl, path⟩
        exact ⟨_, rfl, rest, rfl, path⟩
      · rintro ⟨-, rfl, rest, rfl, path⟩
        exact ⟨rest, rfl, path⟩
    · obtain ⟨nodupTrue, exactlyTrue⟩ := next (.condBr block term true)
      obtain ⟨nodupFalse, exactlyFalse⟩ := next (.condBr block term false)
      constructor
      · refine perm.nodup_iff.mpr (List.nodup_append.mpr ⟨nodupTrue, nodupFalse, ?_⟩)
        -- The routes differ at this branch.
        rintro r onTrue _ onFalse rfl
        obtain ⟨rest, same, -⟩ := (exactlyTrue r).mp onTrue
        obtain ⟨rest', same', -⟩ := (exactlyFalse r).mp onFalse
        have heads := List.cons.inj (List.append_cancel_left (same.symm.trans same'))
        cases congrArg Hop.isTrue heads.1
      · intro r
        rw [perm.mem_iff, List.mem_append]
        refine (or_congr (exactlyTrue r) (exactlyFalse r)).trans ?_
        simp only [MaximalPath.condBr_iff ne block term]
        constructor
        · rintro (⟨rest, rfl, path⟩ | ⟨rest, rfl, path⟩)
          · exact ⟨_, rfl, .inl ⟨rest, rfl, path⟩⟩
          · exact ⟨_, rfl, .inr ⟨rest, rfl, path⟩⟩
        · rintro ⟨-, rfl, ⟨rest, rfl, path⟩ | ⟨rest, rfl, path⟩⟩
          · exact .inl ⟨rest, rfl, path⟩
          · exact .inr ⟨rest, rfl, path⟩

/-- The call returns for every function. Without loops its result are the maximal paths, each
once. -/
theorem populateRoutes_exact (f : Function) (start stop : Label) :
    ∃ routes, (∀ after, Populates f stop start [[]] 0 after ↔ after = routes) ∧
      (f.LoopFree → routes.Nodup ∧ ∀ r, r ∈ routes ↔ MaximalPath f stop start r) := by
  have enough : f.blocks.length < f.blocks.length + 1 + ([] : Route).length := Nat.lt_succ_self _
  have returns : Populates f stop start [[]] 0 (routesTo f start stop) :=
    populates_populateRoutes rfl .nil enough
  refine ⟨routesTo f start stop, fun after => ⟨fun call => call.unique returns, ?_⟩, fun free => ?_⟩
  · rintro rfl
    exact returns
  · rw [routesTo_eq]
    simpa using extended_exact free .nil nofun enough

def diamond : Function where
  args := [.int 1]
  blocks := [
    ⟨0, [], [], 0, .condBr (.arg 0) 1 2⟩,
    ⟨1, [], [], 1, .br 3⟩,
    ⟨2, [], [], 2, .br 3⟩,
    ⟨3, [], [], 3, .ret none⟩]
  nextId := 4

theorem diamond_paths : ∃ routes, (∀ after, Populates diamond 3 0 [[]] 0 after ↔ after = routes) ∧
    routes.Nodup ∧ ∀ r, r ∈ routes ↔ MaximalPath diamond 3 0 r := by
  obtain ⟨routes, returns, exactly⟩ := populateRoutes_exact diamond 0 3
  exact ⟨routes, returns, exactly (SsaChecks.loopFree_of_ascending (by decide))⟩

example : routesTo diamond 0 3 = [[⟨0, some (.arg 0), true⟩, ⟨1, none, true⟩],
    [⟨0, some (.arg 0), false⟩, ⟨2, none, true⟩]] := rfl

end LogicalPaths
