import ClamBC.GlobalIdsTurns

/-!
# The numbers of the globals

Consecutive numbers for the ordinary globals, fixed ones for the special ones. All parts of
consistency but one follow from the numbering alone; that everything written has an id is what
the loop over the globals is for.
-/

namespace GlobalIds

open Fallible

section
variable {m : State}

/-! ## The numbers -/

/-- What the numbering loop produces: consecutive numbers, in step with the initializers. -/
structure Numbered (st : State) (i : Nat) (gs : List Global)
    (r : List (Nat × Nat) × List Init) : Prop where
  values : r.1.map Prod.snd = List.range' i r.1.length
  entry : ∀ p ∈ r.1, ∃ g ∈ gs, g.ref = p.1 ∧ g.ref ∉ specialGlobals st ∧ i ≤ p.2 ∧ p.2 < 32768 ∧
    ∃ C, g.init = some C ∧ r.2[p.2 - i]? = some C
  all : ∀ g ∈ gs, g.ref ∉ specialGlobals st → ∃ C, g.init = some C ∧
    (useEmpty st C = false → ∃ k, (g.ref, k) ∈ r.1)

theorem Numbered.skip {st : State} {i : Nat} {g : Global}
    {gs : List Global} {r : List (Nat × Nat) × List Init} (numbered : Numbered st i gs r)
    (unneeded : g.ref ∉ specialGlobals st → ∃ C, g.init = some C ∧ useEmpty st C = true) :
    Numbered st i (g :: gs) r where
  values := numbered.values
  entry := fun p hp => by
    obtain ⟨g', hg', rest⟩ := numbered.entry p hp
    exact ⟨g', List.mem_cons_of_mem _ hg', rest⟩
  all := fun g' hg' ordinary => by
    rcases List.mem_cons.mp hg' with rfl | hg'
    · obtain ⟨C, isInit, empty⟩ := unneeded ordinary
      refine ⟨C, isInit, fun used => ?_⟩
      rw [empty] at used
      cases used
    · exact numbered.all g' hg' ordinary

theorem Numbered.cons {st : State} {i : Nat} {g : Global} {gs : List Global}
    {r : List (Nat × Nat) × List Init} {C : Init} (numbered : Numbered st (i + 1) gs r)
    (ordinary : g.ref ∉ specialGlobals st) (isInit : g.init = some C) (small : i < 32768) :
    Numbered st i (g :: gs) ((g.ref, i) :: r.1, C :: r.2) where
  values := by
    simp only [List.map_cons, List.length_cons, numbered.values]
    exact List.range'_succ.symm
  entry := fun p hp => by
    rcases List.mem_cons.mp hp with rfl | hp
    · exact ⟨g, List.mem_cons_self, rfl, ordinary, Nat.le_refl _, small, C, isInit, by simp⟩
    · obtain ⟨g', hg', same, ordinary', above, below, C', isInit', at'⟩ := numbered.entry p hp
      refine ⟨g', List.mem_cons_of_mem _ hg', same, ordinary', by omega, below, C', isInit', ?_⟩
      rw [show p.2 - i = (p.2 - (i + 1)) + 1 by omega]
      exact at'
  all := fun g' hg' ordinary' => by
    rcases List.mem_cons.mp hg' with rfl | hg'
    · exact ⟨C, isInit, fun _ => ⟨i, List.mem_cons_self⟩⟩
    · obtain ⟨C', isInit', used⟩ := numbered.all g' hg' ordinary'
      refine ⟨C', isInit', fun inUse => ?_⟩
      obtain ⟨k, hk⟩ := used inUse
      exact ⟨k, List.mem_cons_of_mem _ hk⟩

theorem number_spec {st : State} {i : Nat} {gs : List Global} {r : List (Nat × Nat) × List Init}
    (ok : number st i gs = .ok r) :
    Numbered st i gs r := by
  induction gs generalizing i r with
  | nil =>
    cases ok
    exact ⟨rfl, nofun, nofun⟩
  | cons g gs ih =>
    unfold number at ok
    by_cases isSpecial : g.ref ∈ specialGlobals st
    · rw [if_pos isSpecial] at ok
      exact (ih ok).skip fun ordinary => absurd isSpecial ordinary
    rw [if_neg isSpecial] at ok
    split at ok
    · cases ok
    split at ok
    · cases ok
    rename_i C isInit
    split at ok
    · cases ok
    split at ok
    · cases ok
    split at ok
    · cases ok
    split at ok
    · rename_i empty
      exact (ih ok).skip fun _ => ⟨C, isInit, empty⟩
    split at ok
    · cases ok
    · rename_i fits
      obtain ⟨rest, numbered, rfl⟩ := map_eq_ok.mp ok
      exact (ih numbered).cons isSpecial isInit (by omega)

theorem mem_of_lookup {ps : List (Nat × Nat)} {r k : Nat} (found : ps.lookup r = some k) :
    (r, k) ∈ ps := by
  obtain ⟨before, after, rfl, -⟩ := List.lookup_eq_some_iff.mp found
  exact List.mem_append_right _ List.mem_cons_self

theorem lookup_isSome_of_mem {α β : Type} [DecidableEq α] {ps : List (α × β)} {a : α} {b : β}
    (member : (a, b) ∈ ps) :
    (ps.lookup a).isSome := List.lookup_isSome_iff.mpr ⟨(a, b), member, beq_self_eq_true a⟩

theorem mem_specialIds {st : State} {r k : Nat} :
    (r, k) ∈ specialIds st ↔ ∃ name, (name, k) ∈ globalsMap ∧
      ∃ g, getGlobalVariable st name = some g ∧ g.ref = r := by
  simp only [specialIds, List.mem_filterMap, Option.map_eq_some_iff, Prod.exists]
  constructor
  · rintro ⟨name, id, entry, g, found, eq⟩
    obtain ⟨rfl, rfl⟩ := Prod.mk.inj eq
    exact ⟨name, entry, g, found, rfl⟩
  · rintro ⟨name, entry, g, found, rfl⟩
    exact ⟨name, k, entry, g, found, rfl⟩

theorem globalsMap_high {name : String} {k : Nat} (entry : (name, k) ∈ globalsMap) : 32768 ≤ k := by
  have all : ∀ p ∈ globalsMap, 32768 ≤ p.2 := by decide
  exact all _ entry

theorem globalsMap_injective {name name' : String} {k : Nat} (entry : (name, k) ∈ globalsMap)
    (entry' : (name', k) ∈ globalsMap) : name = name' := by
  have all : ∀ p ∈ globalsMap, ∀ q ∈ globalsMap, p.2 = q.2 → p.1 = q.1 := by decide
  exact all _ entry _ entry' rfl

theorem le_foldl_max {ks : List Nat} {start k : Nat} (member : k ≤ start ∨ k ∈ ks) :
    k ≤ ks.foldl max start := by
  induction ks generalizing start with
  | nil =>
    rcases member with below | member
    · exact below
    · cases member
  | cons k' ks ih =>
    refine ih ?_
    rcases member with below | member
    · exact .inl (Nat.le_trans below (Nat.le_max_left _ _))
    · rcases List.mem_cons.mp member with rfl | member
      · exact .inl (Nat.le_max_right _ _)
      · exact .inr member

/-- The parts of an id table that numbering makes. -/
theorem printGlobals_spec {st : State} {ids : Ids} (ok : printGlobals st = .ok ids) :
    ∃ r, Numbered st 1 st.globals r ∧ ids.globals = specialIds st ++ r.1 ∧
      ids.globalInits = none :: r.2.map some ∧
      ids.maxGlobal = ((specialIds st).map Prod.snd).foldl max 0 := by
  obtain ⟨r, numbered, rfl⟩ := map_eq_ok.mp ok
  exact ⟨r, number_spec numbered, rfl, rfl, rfl⟩

theorem special_of_mem {st : State} {r k : Nat} (member : (r, k) ∈ specialIds st) :
    r ∈ specialGlobals st :=
  List.mem_append_left _ (List.mem_map_of_mem member)

section
variable {st : State} {r : List (Nat × Nat) × List Init}

theorem ids_injective (numbered : Numbered st 1 st.globals r) {s s' k : Nat}
    (found : (specialIds st ++ r.1).lookup s = some k)
    (found' : (specialIds st ++ r.1).lookup s' = some k) : s = s' := by
  have high : ∀ {t}, (t, k) ∈ specialIds st → 32768 ≤ k := by
    intro t member
    obtain ⟨name, entry, -⟩ := mem_specialIds.mp member
    exact globalsMap_high entry
  have low : ∀ {t}, (t, k) ∈ r.1 → k < 32768 := by
    intro t member
    obtain ⟨g, -, -, -, -, below, -⟩ := numbered.entry _ member
    exact below
  rcases List.mem_append.mp (mem_of_lookup found) with member | member
  · rcases List.mem_append.mp (mem_of_lookup found') with member' | member'
    · obtain ⟨name, entry, g, isGlobal, rfl⟩ := mem_specialIds.mp member
      obtain ⟨name', entry', g', isGlobal', rfl⟩ := mem_specialIds.mp member'
      rw [globalsMap_injective entry entry', isGlobal'] at isGlobal
      rw [Option.some.inj isGlobal]
    · have := high member
      have := low member'
      omega
  · rcases List.mem_append.mp (mem_of_lookup found') with member' | member'
    · have := low member
      have := high member'
      omega
    · have distinct : (r.1.map Prod.snd).Nodup := by
        rw [numbered.values]
        exact List.nodup_range'
      have same := List.inj_on_of_nodup_map distinct member member' rfl
      exact (Prod.mk.inj same).1

theorem ids_ordinary (numbered : Numbered st 1 st.globals r) (distinct : (refs st).Nodup)
    {g : Global} (hg : g ∈ st.globals) (ordinary : g.ref ∉ specialGlobals st) {k : Nat}
    (found : (specialIds st ++ r.1).lookup g.ref = some k) :
    k < 32768 ∧ (none :: r.2.map some)[k]? = some g.init ∧ g.init.isSome := by
  rcases List.mem_append.mp (mem_of_lookup found) with member | member
  · exact absurd (special_of_mem member) ordinary
  · obtain ⟨g', hg', same, -, above, below, C, isInit, at'⟩ := numbered.entry _ member
    have eq : g' = g := List.inj_on_of_nodup_map distinct hg' hg same
    subst eq
    refine ⟨below, ?_, by rw [isInit]; rfl⟩
    obtain ⟨j, rfl⟩ := Nat.exists_eq_add_of_le' above
    rw [List.getElem?_cons_succ, List.getElem?_map, isInit]
    rw [Nat.add_sub_cancel] at at'
    rw [at']
    rfl

theorem ids_special (numbered : Numbered st 1 st.globals r) {s k : Nat}
    (isSpecial : s ∈ specialGlobals st) (found : (specialIds st ++ r.1).lookup s = some k) :
    32768 ≤ k ∧ k ≤ ((specialIds st).map Prod.snd).foldl max 0 := by
  rcases List.mem_append.mp (mem_of_lookup found) with member | member
  · obtain ⟨name, entry, -⟩ := mem_specialIds.mp member
    exact ⟨globalsMap_high entry, le_foldl_max (.inr (List.mem_map_of_mem member))⟩
  · obtain ⟨g, -, same, ordinary, -⟩ := numbered.entry _ member
    rw [same] at ordinary
    exact absurd isSpecial ordinary

/-- Every global that is not `__clambc_kind` has a number: its own initializer is in use. -/
theorem ids_total (numbered : Numbered st 1 st.globals r) {g : Global} (hg : g ∈ st.globals)
    (notKind : ∀ k, getGlobalVariable st "__clambc_kind" = some k → g.ref ≠ k.ref) :
    ((specialIds st ++ r.1).lookup g.ref).isSome := by
  by_cases isSpecial : g.ref ∈ specialGlobals st
  · rcases List.mem_append.mp isSpecial with member | member
    · obtain ⟨p, hp, same⟩ := List.mem_map.mp member
      rw [← same]
      exact lookup_isSome_of_mem (List.mem_append_left _ hp)
    · obtain ⟨k, isKind, same⟩ := Option.map_eq_some_iff.mp (Option.mem_toList.mp member)
      exact absurd same.symm (notKind k isKind)
  · obtain ⟨C, isInit, used⟩ := numbered.all g hg isSpecial
    have inUse : useEmpty st C = false := by
      simp only [useEmpty, Bool.not_eq_false', List.any_eq_true, decide_eq_true_eq]
      exact ⟨g, hg, isInit⟩
    obtain ⟨k, member⟩ := used inUse
    exact lookup_isSome_of_mem (List.mem_append_right _ member)

end

section
variable {st : State} {r : List (Nat × Nat) × List Init} {ids : Ids}

theorem hasId_global (held : Held m st) (numbered : Numbered st 1 st.globals r)
    (table : ids.globals = specialIds st ++ r.1) {s : Nat} (known : s ∈ refs m)
    (notKind : ∀ k, getGlobalVariable m "__clambc_kind" = some k → s ≠ k.ref) :
    HasId st ids (.global s) := by
  have still : s ∈ refs st := by
    obtain ⟨added, eq⟩ := held.extends_.refs
    rw [eq]
    exact List.mem_append_left _ known
  obtain ⟨g, hg, rfl⟩ := List.mem_map.mp still
  show (ids.globals.lookup g.ref).isSome
  rw [table]
  refine ids_total numbered hg fun k isKind same => ?_
  have refs := held.extends_.getGlobalVariable "__clambc_kind"
  rw [isKind] at refs
  obtain ⟨k', isKind', same'⟩ := Option.map_eq_some_iff.mp refs.symm
  exact notKind k' isKind' (same.trans same'.symm)

theorem hasId_expr (held : Held m st) (numbered : Numbered st 1 st.globals r)
    (table : ids.globals = specialIds st ++ r.1) {e : Expr} (isExpr : e.isConstantExpr = true)
    (member : e ∈ keys st) : HasId st ids e := by
  have found : (st.ceMap.lookup e).isSome := by
    obtain ⟨⟨e', h⟩, hp, rfl⟩ := List.mem_map.mp member
    exact lookup_isSome_of_mem hp
  obtain ⟨h, isHelper⟩ := Option.isSome_iff_exists.mp found
  obtain ⟨before, after, split, -⟩ := List.lookup_eq_some_iff.mp isHelper
  obtain ⟨g, hg, rfl, isLocal⟩ :=
    held.helpers e h (by rw [split]; exact List.mem_append_right _ List.mem_cons_self)
  have total : (ids.globals.lookup g.ref).isSome := by
    rw [table]
    refine ids_total numbered hg fun k isKind same => ?_
    obtain ⟨hk, -, notLocal⟩ := getGlobalVariable_mem isKind
    rw [List.inj_on_of_nodup_map held.distinct hg hk same, notLocal] at isLocal
    cases isLocal
  have value : (st.ceMap.lookup e).bind (fun helper => ids.globals.lookup helper) =
      ids.globals.lookup g.ref := by
    rw [isHelper]
    rfl
  cases e with
  | global s | function s | null => cases isExpr
  | bitcast v ty =>
    show ((st.ceMap.lookup _).bind _).isSome
    rw [value]
    exact total
  | getElementPtr source base indices ty =>
    show ((st.ceMap.lookup _).bind _).isSome
    rw [value]
    exact total
  | other opcode first second third =>
    show ((st.ceMap.lookup _).bind _).isSome
    rw [value]
    exact total

theorem hasId_emitted (held : Held m st)
    (numbered : Numbered st 1 st.globals r) (table : ids.globals = specialIds st ++ r.1)
    (unused : ∀ k, getGlobalVariable m "__clambc_kind" = some k → Unused st k.ref)
    (mapped : ∀ x ∈ emitted st, x.isConstantExpr = true → x ∈ keys st) {e : Expr}
    (occurs : e ∈ emitted st) : HasId st ids e := by
  by_cases isExpr : e.isConstantExpr = true
  · exact hasId_expr held numbered table isExpr (mapped e occurs isExpr)
  · cases e with
    | global s =>
      refine hasId_global held numbered table (held.known _ (held.present _ occurs))
        fun k isKind same => ?_
      rw [same] at occurs
      exact (unused k isKind).1 occurs
    | function s | null => exact trivial
    | bitcast v ty | getElementPtr source base indices ty | other opcode first second third =>
        exact absurd rfl isExpr

end

/-- What is accepted and plain gets consistent ids. -/
theorem consistent_of_plain {llvm : Llvm} {order : AddressOrder}
    {m st : State} {ids : Ids} (sound : m.Sound) (keeps : llvm.KeepsAddresses) (plain : Plain m)
    (accepts : Accepts llvm order m st ids) : Consistent st ids := by
  obtain ⟨fuel, analyzed, printed⟩ := accepts
  obtain ⟨held, mapped⟩ := turns_spec sound.held keeps (sound.pending plain) analyzed
  have unused : ∀ k, getGlobalVariable m "__clambc_kind" = some k → Unused st k.ref :=
      fun k isKind =>
    turns_unused keeps sound.held (plain.kindUnused k isKind) analyzed
  obtain ⟨r, numbered, table, inits, bound⟩ := printGlobals_spec printed
  have all := fun e (he : e ∈ emitted st) => hasId_emitted held numbered table unused mapped he
  constructor
  case injective =>
    rw [table]
    exact fun s s' k found found' => ids_injective numbered found found'
  case ordinary =>
    rw [table, inits]
    exact fun g hg ordinary k found => ids_ordinary numbered held.distinct hg ordinary found
  case placeholder => rw [inits]; rfl
  case special =>
    rw [table, bound]
    exact fun s isSpecial k found => ids_special numbered isSpecial found
  case operands => exact fun ops hops e he => all e (mem_emitted.mpr (.inl ⟨ops, hops, he⟩))
  case initializers =>
    intro g hg ordinary e he
    have isEmitted : e ∈ emitted st := mem_emitted.mpr (.inr ⟨g, hg, ordinary, he⟩)
    refine ⟨all e isEmitted, fun s root => ?_⟩
    have part := Expr.root_mem_parts root
    refine hasId_global held numbered table
      (held.known s (held.closed e (held.present e isEmitted) _ part)) fun k isKind same => ?_
    rw [same] at part
    have alone := (unused k isKind).2 e (held.present e isEmitted) part
    rw [alone] at isEmitted
    exact (unused k isKind).1 isEmitted

end

end GlobalIds
