import ClamBC.GlobalIdsNumbers

/-!
# When the ids are consistent

The condition is also necessary. Only addresses in globals are found from globals, so no other
constant expression is in the map, and what is not found is not changed either. An expression
that contains `__clambc_kind` gets a helper, whose initializer then mentions a global without a
number.
-/

namespace GlobalIds

open Fallible

def Rooted (e : Expr) : Prop := ∃ r, e.root = some r

section
variable {llvm : Llvm} {m st st' : State} {e : Expr}

/-! ## Invariants of a step -/

/-- What extending the pool, replacing and adding a helper keep, a step keeps. -/
theorem processExpr_rule {P : State → Prop} (keeps : llvm.KeepsAddresses)
    (extend : ∀ {st more}, P st → P { st with pool := st.pool ++ more })
    (replace : ∀ {st new st'}, Held m st → e ∈ st.ces → e.isConstantExpr = true →
      (∀ r, e.root = some r → new.root = some r) → P st →
      replaceAllUsesWith llvm e new st = .ok st' → P st')
    (helper : ∀ {st name new}, Held m st → e ∈ st.ces → (∀ r, e.root = some r → new.root = some r) →
      P st → P (addHelper name new st))
    {name : String} (held : Held m st) (member : e ∈ st.ces) (holds : P st)
      (ok : processExpr llvm name st e = .ok st') : P st' := by
  have inPool := held.collected e member
  rcases processExpr_cases ok with ⟨value, ty, rfl, rfl⟩
    | ⟨source, base, indices, ty, added, st1, rfl, isExpr, replaced, rfl⟩
  · exact helper held member (fun _ root => root) holds
  · have same : ∀ r, (Expr.getElementPtr source base indices ty).root = some r →
        (byteOffset llvm source base indices ty).2.2.root = some r :=
          fun r root => byteOffset_root keeps root
    have inPieces :
        (byteOffset llvm source base indices ty).2.2 ∈ pieces llvm source base indices ty :=
      mem_pieces.mpr (.inr (.inr (Expr.self_mem_parts _)))
    have extended := held.extendPool keeps inPool
    unfold replaceIfDifferent at replaced
    split at replaced
    · cases replaced
      exact helper extended member same (extend holds)
    · have held1 :=
        extended.replace keeps (List.mem_append_left _ inPool) (List.mem_append_right _ inPieces)
        (fun r part => List.mem_cons_of_mem _ (pieces_globals keeps inPieces part)) replaced
      refine helper held1 ?_ same (replace extended member rfl same (extend holds) replaced)
      obtain ⟨-, -, rfl⟩ := replace_ok replaced
      exact List.mem_map.mpr ⟨_, member, by simp [fate]⟩

theorem fate_root (keeps : llvm.KeepsAddresses) {pool : List Expr} {old new : Expr}
    (same : ∀ r, old.root = some r → new.root = some r) {x : Expr} (rooted : Rooted x) :
    Rooted (fate llvm pool old new x).1 := by
  obtain ⟨r, root⟩ := rooted
  refine ⟨r, ?_⟩
  unfold fate
  split
  · exact root
  · exact rebuild_root keeps same root

/-- Everything collected and everything in the map is an address in a global. -/
def AllRooted (st : State) : Prop := ∀ x ∈ st.ces ++ keys st, Rooted x

theorem AllRooted.step (keeps : llvm.KeepsAddresses) {name : String} (held : Held m st)
    (member : e ∈ st.ces) (rooted : AllRooted st) (ok : processExpr llvm name st e = .ok st') :
    AllRooted st' := by
  refine @processExpr_rule llvm m st st' e AllRooted keeps (fun h => h) ?_ ?_ name held
    member rooted ok
  · intro s new s' held member isExpr same rooted ok x hx
    obtain ⟨-, -, rfl⟩ := replace_ok ok
    rcases List.mem_append.mp hx with hx | hx
    · obtain ⟨y, hy, rfl⟩ := List.mem_map.mp hx
      exact fate_root keeps same (rooted y (List.mem_append_left _ hy))
    · obtain ⟨p, hp, rfl⟩ := List.mem_map.mp hx
      obtain ⟨q, hq, rfl⟩ := List.mem_map.mp hp
      exact fate_root keeps same (rooted q.1 (List.mem_append_right _ (List.mem_map_of_mem hq)))
  · intro s name new held member same rooted x hx
    rcases List.mem_append.mp hx with hx | hx
    · exact rooted x (List.mem_append_left _ hx)
    · rcases List.mem_cons.mp hx with rfl | hx
      · obtain ⟨r, root⟩ := rooted e (List.mem_append_left _ member)
        exact ⟨r, same r root⟩
      · exact rooted x (List.mem_append_right _ hx)

/-- What is changed in place was not there before. -/
theorem rebuild_inPlace_new {pool : List Expr} (closed : ∀ e ∈ pool, ∀ p ∈ e.parts, p ∈ pool)
    {old new x : Expr} (part : old ∈ x.parts) (inPlace : (rebuild llvm pool old new x).2 = false) :
    (rebuild llvm pool old new x).1 ∉ pool := by
  have uniqueNew : ∀ {y : Expr}, (unique llvm pool true y).2 = false →
      (unique llvm pool true y).1 ∉ pool := by
    intro y same
    unfold unique at same ⊢
    split at same
    · cases same
    · rename_i fits
      rw [if_neg fits]
      exact fun there => fits ⟨rfl, .inr there⟩
  -- an operand that was not there before is enough
  have operandNew : ∀ {y o : Expr}, o ∈ y.operands → o ∉ pool →
      (unique llvm pool false y).1 ∉ pool := by
    intro y o operand fresh there
    have eq : (unique llvm pool false y).1 = y := by simp [unique]
    rw [eq] at there
    exact fresh (closed y there o (Expr.operand_mem_parts operand))
  induction x with
  | global s | function s | null =>
    unfold rebuild at inPlace
    rw [if_pos (List.mem_singleton.mp part).symm] at inPlace
    cases inPlace
  | bitcast value ty ih =>
    unfold rebuild at inPlace ⊢
    split at inPlace
    · cases inPlace
    · rename_i other
      rw [if_neg other]
      dsimp only at inPlace ⊢
      have inside : old ∈ value.parts := (List.mem_cons.mp part).resolve_left fun h => other h.symm
      cases moved : (rebuild llvm pool old new value).2 with
      | true =>
        rw [moved] at inPlace
        exact uniqueNew inPlace
      | false => exact operandNew (List.mem_singleton_self _) (ih inside moved)
  | getElementPtr source base indices ty ih =>
    unfold rebuild at inPlace ⊢
    split at inPlace
    · cases inPlace
    · rename_i other
      rw [if_neg other]
      dsimp only at inPlace ⊢
      have inside : old ∈ base.parts := (List.mem_cons.mp part).resolve_left fun h => other h.symm
      cases moved : (rebuild llvm pool old new base).2 with
      | true =>
        rw [moved] at inPlace
        exact uniqueNew inPlace
      | false => exact operandNew (List.mem_singleton_self _) (ih inside moved)
  | other opcode first second third ih1 ih2 ih3 =>
    unfold rebuild at inPlace ⊢
    split at inPlace
    · cases inPlace
    · rename_i other
      rw [if_neg other]
      dsimp only at inPlace ⊢
      have inside := (List.mem_cons.mp part).resolve_left fun h => other h.symm
      cases moved : (rebuild llvm pool old new first).2 || (rebuild llvm pool old new second).2 ||
          (rebuild llvm pool old new third).2 with
      | true =>
        rw [moved] at inPlace
        exact uniqueNew inPlace
      | false =>
        simp only [Bool.or_eq_false_iff] at moved
        rcases List.mem_append.mp inside with inside | inside
        · rcases List.mem_append.mp inside with inside | inside
          · exact operandNew (List.mem_cons_self) (ih1 inside moved.1.1)
          · exact operandNew (List.mem_cons_of_mem _ List.mem_cons_self) (ih2 inside moved.1.2)
        · exact operandNew (List.mem_cons_of_mem _ (List.mem_cons_of_mem _ List.mem_cons_self))
            (ih3 inside moved.2)

/-- A constant that contains nothing that was collected. -/
def Apart (x : Expr) (st : State) : Prop := x ∈ st.pool ∧ ∀ c ∈ st.ces, c ∉ x.parts

theorem Apart.replace {x new : Expr} (held : Held m st) (member : e ∈ st.ces) (apart : Apart x st)
    (ok : replaceAllUsesWith llvm e new st = .ok st') : Apart x st' := by
  have absent := apart.2 e member
  have other : x ≠ e := fun same => absent (same ▸ Expr.self_mem_parts x)
  have inPool : x ∈ st'.pool := by
    refine (replace_pool ok).mpr ⟨x, apart.1, ?_⟩
    rw [fate_other other, rebuild_absent absent]
    exact Expr.self_mem_parts x
  obtain ⟨-, noneFreed, rfl⟩ := replace_ok ok
  refine ⟨inPool, fun c hc part => ?_⟩
  obtain ⟨c', hc', rfl⟩ := List.mem_map.mp hc
  have kept := noneFreed c' (List.mem_append_left _ hc')
  by_cases same : c' = e
  · rw [fate, if_pos same] at part
    exact apart.2 c' hc' part
  · rw [fate_other same] at part kept
    by_cases inside : e ∈ c'.parts
    · exact rebuild_inPlace_new held.closed inside kept (held.closed x apart.1 _ part)
    · rw [rebuild_absent inside] at part
      exact apart.2 c' hc' part

theorem Apart.step (keeps : llvm.KeepsAddresses) {x : Expr} {name : String} (held : Held m st)
    (member : e ∈ st.ces) (apart : Apart x st) (ok : processExpr llvm name st e = .ok st') :
    Apart x st' := by
  refine @processExpr_rule llvm m st st' e (Apart x) keeps
    (fun h => ⟨List.mem_append_left _ h.1, h.2⟩) ?_ ?_ name held member apart ok
  · exact fun held member _ _ apart ok => apart.replace held member ok
  · exact fun _ _ _ apart => apart

theorem emitted_addHelper_of {name : String} {x new : Expr} (hx : x ∈ emitted st) :
    x ∈ emitted (addHelper name new st) := by
  rcases mem_emitted.mp hx with used | ⟨g, hg, ordinary, hx⟩
  · exact mem_emitted.mpr (.inl used)
  · refine mem_emitted.mpr (.inr ⟨g, List.mem_append_left _ hg, ?_, hx⟩)
    rw [(addHelper_extends name new st).specialGlobals]
    exact ordinary

/-- What is apart stays where it is. -/
theorem Apart.emitted_step (keeps : llvm.KeepsAddresses) {x : Expr} {name : String}
    (held : Held m st) (member : e ∈ st.ces) (apart : Apart x st) (isEmitted : x ∈ emitted st)
    (ok : processExpr llvm name st e = .ok st') : Apart x st' ∧ x ∈ emitted st' := by
  refine @processExpr_rule llvm m st st' e (fun s => Apart x s ∧ x ∈ emitted s) keeps
    (fun h => ⟨⟨List.mem_append_left _ h.1.1, h.1.2⟩, h.2⟩) ?_ ?_ name held member
      ⟨apart, isEmitted⟩ ok
  · rintro s new s' held member - - ⟨apart, isEmitted⟩ ok
    refine ⟨apart.replace held member ok, (replace_emitted ok).mpr ⟨x, isEmitted, ?_⟩⟩
    rw [rebuild_absent (apart.2 e member)]
  · rintro s name new - - - ⟨apart, isEmitted⟩
    exact ⟨apart, emitted_addHelper_of isEmitted⟩

/-- An address computed from a global in one step. -/
inductive Direct (k : Nat) : Expr → Prop
  | bitcast (ty : Nat) : Direct k (.bitcast (.global k) ty)
  | getElementPtr (source : Nat) (indices : List (Option Nat)) (ty : Nat) :
      Direct k (.getElementPtr source (.global k) indices ty)

theorem Direct.fate {k : Nat} {w : Expr} (direct : Direct k w) {pool : List Expr} {old new : Expr}
    (isExpr : old.isConstantExpr = true) :
    fate llvm pool old new w = (w, false) := by
  have leaf : rebuild llvm pool old new (.global k) = (.global k, false) := by
    refine rebuild_leaf rfl ?_
    rintro rfl
    cases isExpr
  unfold GlobalIds.fate
  split
  · rfl
  · rename_i other
    cases direct with
    | bitcast ty =>
      unfold rebuild
      rw [if_neg other]
      simp [leaf, unique]
    | getElementPtr source indices ty =>
      unfold rebuild
      rw [if_neg other]
      simp [leaf, unique]

theorem Direct.root {k : Nat} {w : Expr} (direct : Direct k w) : w.root = some k := by
  cases direct <;> rfl

theorem Direct.step_pool {k : Nat} {w : Expr} (direct : Direct k w) (keeps : llvm.KeepsAddresses)
    {name : String} (held : Held m st) (member : e ∈ st.ces) (inPool : w ∈ st.pool)
    (ok : processExpr llvm name st e = .ok st') : w ∈ st'.pool := by
  refine @processExpr_rule llvm m st st' e (fun s => w ∈ s.pool) keeps
    (fun h => List.mem_append_left _ h) ?_ ?_ name held member inPool ok
  · intro s new s' held member isExpr same inPool ok
    refine (replace_pool ok).mpr ⟨w, inPool, ?_⟩
    rw [direct.fate isExpr]
    exact Expr.self_mem_parts w
  · exact fun _ _ _ h => h

theorem Direct.step_collected {k n : Nat} {w : Expr} (direct : Direct k w)
    (keeps : llvm.KeepsAddresses) {name : String} (held : Held m st) (member : e ∈ st.ces)
    (atn : st.ces[n]? = some w) (ok : processExpr llvm name st e = .ok st') :
    st'.ces[n]? = some w := by
  refine @processExpr_rule llvm m st st' e (fun s => s.ces[n]? = some w) keeps (fun h => h) ?_ ?_
    name held member atn ok
  · intro s new s' held member isExpr same atn ok
    obtain ⟨-, -, rfl⟩ := replace_ok ok
    show (s.ces.map _)[n]? = some w
    rw [List.getElem?_map, atn, Option.map_some, direct.fate isExpr]
  · exact fun _ _ _ h => h

/-- An initializer that is written holds an address in the global. -/
def Mentioned (r : Nat) (st : State) : Prop :=
  ∃ g ∈ st.globals, g.ref ∉ specialGlobals st ∧ ∃ x ∈ g.leaves, x.root = some r

theorem Mentioned.step (keeps : llvm.KeepsAddresses) {r : Nat} {name : String} (held : Held m st)
    (member : e ∈ st.ces) (mentioned : Mentioned r st) (ok : processExpr llvm name st e = .ok st') :
    Mentioned r st' := by
  refine @processExpr_rule llvm m st st' e (Mentioned r) keeps (fun h => h) ?_ ?_ name held
    member mentioned ok
  · rintro s new s' - - - same ⟨g, hg, ordinary, x, hx, root⟩ ok
    have special := (replace_extends ok).specialGlobals
    obtain ⟨-, -, rfl⟩ := replace_ok ok
    refine ⟨_, List.mem_map_of_mem hg, ?_, (rebuild llvm s.pool e new x).1, ?_,
      rebuild_root keeps same root⟩
    · rw [special]
      exact ordinary
    · rw [leaves_rename]
      exact List.mem_map_of_mem hx
  · rintro s name new - - - ⟨g, hg, ordinary, leaf⟩
    refine ⟨g, List.mem_append_left _ hg, ?_, leaf⟩
    rw [(addHelper_extends name new s).specialGlobals]
    exact ordinary

theorem special_mem_refs {r : Nat} (isSpecial : r ∈ specialGlobals st) : r ∈ refs st := by
  rcases List.mem_append.mp isSpecial with member | member
  · obtain ⟨p, hp, rfl⟩ := List.mem_map.mp member
    obtain ⟨name, -, g, found, same⟩ := mem_specialIds.mp hp
    exact List.mem_map.mpr ⟨g, (getGlobalVariable_mem found).1, same⟩
  · obtain ⟨k, isKind, rfl⟩ := Option.map_eq_some_iff.mp (Option.mem_toList.mp member)
    exact List.mem_map_of_mem (getGlobalVariable_mem isKind).1

theorem mentioned_addHelper {r : Nat} {name : String} {new : Expr} (held : Held m st)
    (root : new.root = some r) :
    Mentioned r (addHelper name new st) := by
  refine ⟨_, List.mem_append_right _ (List.mem_singleton_self _), ?_, new,
    List.mem_singleton_self _, root⟩
  rw [(addHelper_extends name new st).specialGlobals]
  intro isSpecial
  exact Nat.lt_irrefl _ (held.fresh _ (special_mem_refs isSpecial))

/-- The helper of an address mentions the global of the address. -/
theorem mentioned_of_step (keeps : llvm.KeepsAddresses) {r : Nat} {name : String} (held : Held m st)
    (member : e ∈ st.ces) (root : e.root = some r) (ok : processExpr llvm name st e = .ok st') :
    Mentioned r st' := by
  have inPool := held.collected e member
  rcases processExpr_cases ok with ⟨value, ty, rfl, rfl⟩
    | ⟨source, base, indices, ty, added, st1, rfl, isExpr, replaced, rfl⟩
  · exact mentioned_addHelper held root
  · have inPieces :
        (byteOffset llvm source base indices ty).2.2 ∈ pieces llvm source base indices ty :=
      mem_pieces.mpr (.inr (.inr (Expr.self_mem_parts _)))
    obtain ⟨held1, -⟩ :=
      advances_replace (held.extendPool keeps inPool) keeps (List.mem_append_left _ inPool) rfl
      (List.mem_append_right _ inPieces)
        (fun r part => List.mem_cons_of_mem _ (pieces_globals keeps inPieces part))
      (fun r root => byteOffset_root keeps root) replaced
    exact mentioned_addHelper held1 (byteOffset_root keeps root)

theorem fate_other_inPlace {pool : List Expr} {old new first second third : Expr} {opcode : Nat}
    (kept : (fate llvm pool old new (.other opcode first second third)).2 = false) :
    ∃ opcode' first' second' third', (fate llvm pool old new (.other opcode first second third)).1 =
      .other opcode' first' second' third' := by
  unfold fate at kept ⊢
  split at kept
  · rename_i same
    rw [if_pos same]
    exact ⟨opcode, first, second, third, rfl⟩
  · rename_i other
    rw [if_neg other]
    unfold rebuild unique at kept ⊢
    rw [if_neg other] at kept ⊢
    dsimp only at kept ⊢
    split at kept
    · cases kept
    · rename_i fits
      rw [if_neg fits]
      exact ⟨_, _, _, _, rfl⟩

/-- An expression of an unsupported kind waits at a place. -/
def OtherAt (n : Nat) (st : State) : Prop :=
  ∃ opcode first second third, st.ces[n]? = some (.other opcode first second third)

theorem OtherAt.step (keeps : llvm.KeepsAddresses) {n : Nat} {name : String} (held : Held m st)
    (member : e ∈ st.ces) (waits : OtherAt n st) (ok : processExpr llvm name st e = .ok st') :
    OtherAt n st' := by
  refine @processExpr_rule llvm m st st' e (OtherAt n) keeps (fun h => h) ?_ ?_ name held
    member waits ok
  · rintro s new s' - - - - ⟨opcode, first, second, third, atn⟩ ok
    obtain ⟨-, noneFreed, rfl⟩ := replace_ok ok
    have kept := noneFreed _ (List.mem_append_left _ (List.mem_of_getElem? atn))
    obtain ⟨opcode', first', second', third', stays⟩ := fate_other_inPlace kept
    refine ⟨opcode', first', second', third', ?_⟩
    show (s.ces.map _)[n]? = _
    rw [List.getElem?_map, atn, Option.map_some, stays]
  · exact fun _ _ _ h => h

/-! ## What is found in a turn -/

/-- A step at a place of a pass, with what the steps before it keep. -/
theorem pass_at {P : State → Prop} (keeps : llvm.KeepsAddresses)
    (step : ∀ {name st e st'}, Held m st → e ∈ st.ces → P st → processExpr llvm name st e =
      .ok st' → P st') {name : String} {ns : List Nat} {n : Nat} (held : Held m st) (holds : P st)
    (member : n ∈ ns) (ok : ns.foldlM (processNth llvm name) st = .ok st') :
    ∃ (s s' : State) (later : List Nat), Held m s ∧ P s ∧ processNth llvm name s n = .ok s' ∧
      later.foldlM (processNth llvm name) s' = .ok st' := by
  obtain ⟨before, later, rfl⟩ := List.append_of_mem member
  rw [List.foldlM_append] at ok
  obtain ⟨s, first, rest⟩ := bind_eq_ok.mp ok
  rw [List.foldlM_cons] at rest
  obtain ⟨s', now, rest⟩ := bind_eq_ok.mp rest
  obtain ⟨held', holds'⟩ := pass_invariant keeps step held holds first
  exact ⟨s, s', later, held', holds', now, rest⟩

variable {order : AddressOrder} {g : Global}

theorem mem_passes {es : List Expr} {n : Nat} (inside : n < es.length) :
    n ∈ List.range es.length ++ List.range es.length :=
  List.mem_append_left _ (List.mem_range.mpr inside)

theorem Held.collectAll (held : Held m st) (hg : g ∈ st.globals) :
    Held m { st with ces := order.run (dependentExprs st g) } :=
  held.collect fun _ he => dependentExprs_pool held hg ((order.perm _).mem_iff.mp he)

theorem turn_noOther (keeps : llvm.KeepsAddresses) (held : Held m st) (hg : g ∈ st.globals)
    (ok : turn llvm order st g = .ok st') {opcode : Nat} {first second third : Expr} :
    .other opcode first second third ∉ dependentExprs st g := by
  intro found
  have listed : .other opcode first second third ∈ order.run (dependentExprs st g) :=
    (order.perm _).mem_iff.mpr found
  obtain ⟨n, atn⟩ := List.mem_iff_getElem?.mp listed
  have inside := (List.getElem?_eq_some_iff.mp atn).1
  obtain ⟨s, s', later, held', ⟨opcode', first', second', third', atn'⟩, now, -⟩ :=
    pass_at keeps (fun held member waits ok => OtherAt.step keeps held member waits ok)
      (held.collectAll hg)
      (⟨opcode, first, second, third, atn⟩ : OtherAt n _) (mem_passes inside) ok
  unfold processNth at now
  rw [atn'] at now
  rcases processExpr_cases now with ⟨_, _, eq, -⟩ | ⟨_, _, _, _, _, _, eq, -⟩ <;> cases eq

/-- Without unsupported expressions only addresses in globals are found. -/
theorem turn_rooted (keeps : llvm.KeepsAddresses) (held : Held m st) (hg : g ∈ st.globals)
    (ok : turn llvm order st g = .ok st') :
    ∀ x ∈ Worklist.reach (neighbours st) (points st) (.global g.ref), Rooted x := by
  refine Worklist.reach_induct ⟨g.ref, rfl⟩ fun x hx rooted y hy reached => ?_
  obtain ⟨r, root⟩ := rooted
  rcases List.mem_append.mp hy with hy | hy
  · rcases List.mem_append.mp hy with hy | hy
    · have operand := Option.mem_toList.mp hy
      cases x with
      | bitcast value ty =>
        cases operand
        exact ⟨r, root⟩
      | getElementPtr source base indices ty =>
        cases operand
        exact ⟨r, root⟩
      | other opcode first second third => cases root
      | global s | function s | null => cases operand
    · have operand := of_decide_eq_true (List.mem_filter.mp hy).2
      cases y with
      | bitcast value ty =>
        rw [List.mem_singleton.mp operand] at root
        exact ⟨r, root⟩
      | getElementPtr source base indices ty =>
        rw [List.mem_singleton.mp operand] at root
        exact ⟨r, root⟩
      | other opcode first second third =>
        exact absurd (List.mem_filter.mpr ⟨reached, rfl⟩) (turn_noOther keeps held hg ok)
      | global s | function s | null => cases operand
  · obtain ⟨g', -, rfl⟩ := List.mem_map.mp hy
    exact ⟨g'.ref, rfl⟩

theorem turn_allRooted (keeps : llvm.KeepsAddresses) (held : Held m st)
    (hg : g ∈ st.globals) (ok : turn llvm order st g = .ok st') (rooted : ∀ x ∈ keys st, Rooted x) :
    AllRooted { st with ces := order.run (dependentExprs st g) } := by
  intro x hx
  rcases List.mem_append.mp hx with hx | hx
  · exact turn_rooted keeps held hg ok x (List.mem_filter.mp ((order.perm _).mem_iff.mp hx)).1
  · exact rooted x hx

theorem turn_apart (keeps : llvm.KeepsAddresses) (held : Held m st) (hg : g ∈ st.globals)
    (ok : turn llvm order st g = .ok st') {x : Expr} (hx : x ∈ st.pool) (unrooted : ¬ Rooted x) :
    Apart x { st with ces := order.run (dependentExprs st g) } := by
  refine ⟨hx, fun c hc part => unrooted ?_⟩
  have reached := (List.mem_filter.mp ((order.perm _).mem_iff.mp hc)).1
  exact turn_rooted keeps held hg ok x (reach_upward held hg hx reached part)

/-! ## What the whole loop keeps -/

theorem turns_unrooted (keeps : llvm.KeepsAddresses) {fuel i : Nat}
    {x : Expr} (unrooted : ¬ Rooted x) (held : Held m st) (isEmitted : x ∈ emitted st)
    (rooted : ∀ y ∈ keys st, Rooted y) (ok : turns llvm order fuel i st = .ok st') :
    x ∈ emitted st' ∧ ∀ y ∈ keys st', Rooted y := by
  refine (@turns_invariant llvm m order (fun s => x ∈ emitted s ∧ ∀ y ∈ keys s, Rooted y) ?_
    fuel i st st' held
    ⟨isEmitted, rooted⟩ ok).2
  rintro s g s' held hg ⟨isEmitted, rooted⟩ ok
  have apart := turn_apart keeps held hg ok (held.present x isEmitted) unrooted
  obtain ⟨held', ⟨-, stays⟩, all⟩ :=
    @turn_invariant llvm m order (fun s => (Apart x s ∧ x ∈ emitted s) ∧ AllRooted s) keeps
    (fun held member holds ok =>
      ⟨holds.1.1.emitted_step keeps held member holds.1.2 ok, holds.2.step keeps held member ok⟩)
    s s' g held hg ⟨⟨apart, isEmitted⟩, turn_allRooted keeps held hg ok rooted⟩ ok
  exact ⟨held', stays, fun y hy => all y (List.mem_append_right _ hy)⟩

theorem turns_global (keeps : llvm.KeepsAddresses) {fuel i k : Nat} (held : Held m st)
    (isEmitted : .global k ∈ emitted st) (ok : turns llvm order fuel i st = .ok st') :
    .global k ∈ emitted st' := by
  refine (@turns_invariant llvm m order (fun s => .global k ∈ emitted s) ?_ fuel i st st' held
    isEmitted ok).2
  intro s g s' held hg isEmitted ok
  refine @turn_invariant llvm m order (fun s => .global k ∈ emitted s) keeps ?_ s s' g held
    hg isEmitted ok
  intro name s e s' held member isEmitted ok
  refine @processExpr_rule llvm m s s' e (fun s => .global k ∈ emitted s) keeps (fun h => h) ?_ ?_
    name held member isEmitted ok
  · intro s new s' held member isExpr same isEmitted ok
    refine (replace_emitted ok).mpr ⟨_, isEmitted, ?_⟩
    rw [rebuild_leaf rfl fun same => by rw [← same] at isExpr; cases isExpr]
  · exact fun _ _ _ h => emitted_addHelper_of h

theorem direct_of_rooted {k : Nat} {w : Expr} (operand : .global k ∈ w.operands)
    (rooted : Rooted w) : Direct k w := by
  cases w with
  | bitcast value ty =>
    rw [← List.mem_singleton.mp operand]
    exact .bitcast ty
  | getElementPtr source base indices ty =>
    rw [← List.mem_singleton.mp operand]
    exact .getElementPtr source indices ty
  | other opcode first second third =>
    obtain ⟨r, root⟩ := rooted
    cases root
  | global s | function s | null => cases operand

theorem turn_user (keeps : llvm.KeepsAddresses) (held : Held m st) (hg : g ∈ st.globals) {k : Nat}
    {w : Expr} (operand : .global k ∈ w.operands) (inPool : w ∈ st.pool)
    (ok : turn llvm order st g = .ok st') : w ∈ st'.pool := by
  by_cases rooted : Rooted w
  · have direct := direct_of_rooted operand rooted
    exact (@turn_invariant llvm m order (fun s => w ∈ s.pool) keeps
      (fun held member inPool ok => direct.step_pool keeps held member inPool ok) st st' g held
        hg inPool ok).2
  · have apart := turn_apart keeps held hg ok inPool rooted
    exact (@turn_invariant llvm m order (Apart w) keeps (fun held member apart ok =>
      apart.step keeps held member ok)
      st st' g held hg apart ok).2.1

theorem turn_mentioned (keeps : llvm.KeepsAddresses) (held : Held m st)
    (hg : g ∈ st.globals) {w : Expr} (operand : .global g.ref ∈ w.operands) (inPool : w ∈ st.pool)
    (ok : turn llvm order st g = .ok st') : Mentioned g.ref st' := by
  have start : Expr.global g.ref ∈ points st :=
    List.mem_append_right _ (List.mem_map.mpr ⟨g, hg, rfl⟩)
  have found := reach_upward held hg inPool (Worklist.reach_spec (points_closed held) start).1
    (Expr.operand_mem_parts operand)
  have direct := direct_of_rooted operand (turn_rooted keeps held hg ok w found)
  have isExpr : w.isConstantExpr = true := by cases direct <;> rfl
  have listed : w ∈ order.run (dependentExprs st g) :=
    (order.perm _).mem_iff.mpr (List.mem_filter.mpr ⟨found, isExpr⟩)
  obtain ⟨n, atn⟩ := List.mem_iff_getElem?.mp listed
  obtain ⟨s, s', later, held', atn', now, rest⟩ :=
    @pass_at llvm m _ st' (fun s => s.ces[n]? = some w) keeps
    (fun held member atn ok => direct.step_collected keeps held member atn ok) g.name _ n
      (held.collectAll hg) atn
    (mem_passes (List.getElem?_eq_some_iff.mp atn).1) ok
  unfold processNth at now
  rw [atn'] at now
  have member := List.mem_of_getElem? atn'
  have after := (processExpr_spec held' keeps (held'.collected w member) now).held
  exact (pass_invariant keeps (fun held member mentioned ok =>
    Mentioned.step keeps held member mentioned ok) after
    (mentioned_of_step keeps held' member direct.root now) rest).2

theorem turns_mentioned_stays (keeps : llvm.KeepsAddresses) {fuel i k : Nat} (held : Held m st)
    (mentioned : Mentioned k st) (ok : turns llvm order fuel i st = .ok st') : Mentioned k st' := by
  refine (@turns_invariant llvm m order (Mentioned k) ?_ fuel i st st' held mentioned ok).2
  intro s g s' held hg mentioned ok
  exact turn_invariant keeps (fun held member mentioned ok =>
    Mentioned.step keeps held member mentioned ok) held hg mentioned ok

/-- A global that is used in a constant expression is mentioned in the end. -/
theorem turns_mentioned (keeps : llvm.KeepsAddresses) {fuel i j k : Nat}
    {w : Expr} (held : Held m st) (later : i ≤ j)
    (atj : (refs m)[j]? = some k) (operand : .global k ∈ w.operands) (inPool : w ∈ st.pool)
    (ok : turns llvm order fuel i st = .ok st') : Mentioned k st' := by
  have place : ∀ {s : State}, Held m s → (refs s)[j]? = some k := by
    intro s held
    obtain ⟨added, eq⟩ := held.extends_.refs
    rw [eq, List.getElem?_append_left (List.getElem?_eq_some_iff.mp atj).1]
    exact atj
  have inside : ∀ {s : State}, Held m s → j < s.globals.length := by
    intro s held
    have bound := (List.getElem?_eq_some_iff.mp (place held)).1
    rwa [refs, List.length_map] at bound
  induction fuel generalizing i st with
  | zero =>
    unfold turns at ok
    have bound := inside held
    rw [if_neg (by omega)] at ok
    cases ok
  | succ fuel ih =>
    unfold turns at ok
    split at ok
    · rename_i past
      have bound := inside held
      have := List.getElem?_eq_none_iff.mp past
      omega
    · rename_i g hi
      obtain ⟨st1, first, rest⟩ := bind_eq_ok.mp ok
      have hg := List.mem_of_getElem? hi
      have held1 := (turn_invariant keeps (fun _ _ _ _ => trivial) held hg trivial first).1
      by_cases now : i = j
      · subst now
        have same : g.ref = k := by
          have eq := place held
          rw [refs, List.getElem?_map, hi] at eq
          exact Option.some.inj eq
        subst same
        exact turns_mentioned_stays keeps held1
          (turn_mentioned keeps held hg operand inPool first) rest
      · exact ih held1 (by omega) (turn_user keeps held hg operand inPool first) rest

/-! ## Consistency and the condition -/

theorem mem_keys_of_hasId {ids : Ids} (isExpr : e.isConstantExpr = true) (hasId : HasId st ids e) :
    e ∈ keys st := by
  have found : ((st.ceMap.lookup e).bind fun helper => ids.globals.lookup helper).isSome := by
    cases e with
    | global s | function s | null => cases isExpr
    | bitcast value ty | getElementPtr source base indices ty
        | other opcode first second third => exact hasId
  obtain ⟨id, isId⟩ := Option.isSome_iff_exists.mp found
  obtain ⟨helper, isHelper, -⟩ := Option.bind_eq_some_iff.mp isId
  obtain ⟨before, after, split, -⟩ := List.lookup_eq_some_iff.mp isHelper
  refine List.mem_map.mpr ⟨(e, helper), ?_, rfl⟩
  rw [split]
  exact List.mem_append_right _ List.mem_cons_self

theorem hasId_of_consistent {ids : Ids} (consistent : Consistent st ids)
    (isEmitted : e ∈ emitted st) : HasId st ids e := by
  rcases mem_emitted.mp isEmitted with ⟨ops, hops, he⟩ | ⟨g, hg, ordinary, he⟩
  · exact consistent.operands ops hops e he
  · exact (consistent.initializers g hg ordinary e he).1

theorem kind_noId {ids : Ids} {k : Global} (held : Held m st)
    (isKind : getGlobalVariable m "__clambc_kind" = some k) (printed : printGlobals st = .ok ids) :
    ¬ HasId st ids (.global k.ref) := by
  obtain ⟨r, numbered, table, -⟩ := printGlobals_spec printed
  have same := held.extends_.getGlobalVariable "__clambc_kind"
  rw [isKind] at same
  obtain ⟨k', isKind', eq⟩ := Option.map_eq_some_iff.mp same
  intro hasId
  obtain ⟨id, isId⟩ := Option.isSome_iff_exists.mp hasId
  have entry := mem_of_lookup isId
  rw [table] at entry
  rcases List.mem_append.mp entry with entry | entry
  · obtain ⟨name, special, g, found, sameRef⟩ := mem_specialIds.mp entry
    obtain ⟨hg, isName, -⟩ := getGlobalVariable_mem found
    obtain ⟨hk, isKindName, -⟩ := getGlobalVariable_mem isKind'
    have sameGlobal : g = k' := List.inj_on_of_nodup_map held.distinct hg hk (sameRef.trans eq.symm)
    rw [← isName, sameGlobal, isKindName] at special
    exact absurd (List.mem_map_of_mem special)
      (by decide : "__clambc_kind" ∉ globalsMap.map Prod.fst)
  · obtain ⟨g, -, sameRef, ordinary, -⟩ := numbered.entry _ entry
    refine ordinary (List.mem_append_right _ ?_)
    rw [sameRef, isKind']
    exact Option.mem_toList.mpr (congrArg some eq)

theorem exists_user {k : Nat} (part : .global k ∈ e.parts) (other : e ≠ .global k) :
    ∃ w ∈ e.parts, .global k ∈ w.operands := by
  have below : ∀ {v u : Expr}, v ∈ u.operands →
      (v ≠ .global k → ∃ w ∈ v.parts, .global k ∈ w.operands) →
      ∃ w ∈ u.parts, .global k ∈ w.operands := by
    intro v u operand inner
    by_cases same : v = .global k
    · exact ⟨u, Expr.self_mem_parts u, same ▸ operand⟩
    · obtain ⟨w, hw, found⟩ := inner same
      exact ⟨w, Expr.parts_trans (Expr.operand_mem_parts operand) hw, found⟩
  induction e with
  | global s | function s | null => exact absurd (List.mem_singleton.mp part).symm other
  | bitcast value ty ih =>
    rcases List.mem_cons.mp part with eq | part
    · cases eq
    · exact below (List.mem_singleton_self _) (ih part)
  | getElementPtr source base indices ty ih =>
    rcases List.mem_cons.mp part with eq | part
    · cases eq
    · exact below (List.mem_singleton_self _) (ih part)
  | other opcode first second third ih1 ih2 ih3 =>
    rcases List.mem_cons.mp part with eq | part
    · cases eq
    · rcases List.mem_append.mp part with part | part
      · rcases List.mem_append.mp part with part | part
        · exact below List.mem_cons_self (ih1 part)
        · exact below (List.mem_cons_of_mem _ List.mem_cons_self) (ih2 part)
      · exact below (List.mem_cons_of_mem _ (List.mem_cons_of_mem _ List.mem_cons_self)) (ih3 part)

theorem plain_of_consistent {ids : Ids} (sound : m.Sound) (keeps : llvm.KeepsAddresses)
    (accepts : Accepts llvm order m st ids) (consistent : Consistent st ids) : Plain m := by
  obtain ⟨fuel, analyzed, printed⟩ := accepts
  have held := (turns_invariant
    (fun held hg _ ok => turn_invariant keeps (fun _ _ _ _ => trivial) held hg trivial ok)
    sound.held trivial analyzed).1
  constructor
  case rooted =>
    intro e isEmitted isExpr
    by_contra unrooted
    obtain ⟨stays, rooted⟩ := turns_unrooted keeps unrooted sound.held isEmitted nofun analyzed
    exact unrooted (rooted e (mem_keys_of_hasId isExpr (hasId_of_consistent consistent stays)))
  case kindUnused =>
    intro k isKind
    have noId := kind_noId held isKind printed
    constructor
    · intro isEmitted
      exact noId (hasId_of_consistent consistent (turns_global keeps sound.held isEmitted analyzed))
    · intro e he part
      by_contra other
      obtain ⟨w, hw, operand⟩ := exists_user part other
      have known : k.ref ∈ refs m := List.mem_map_of_mem (getGlobalVariable_mem isKind).1
      obtain ⟨j, atj⟩ := List.mem_iff_getElem?.mp known
      obtain ⟨g, hg, ordinary, x, hx, root⟩ := turns_mentioned keeps sound.held (Nat.zero_le j) atj
        operand (sound.closed e he w hw) analyzed
      exact noId ((consistent.initializers g hg ordinary x hx).2 k.ref root)

end

/-- The ids of a module that is accepted are consistent if and only if the module is plain. -/
theorem accepts_consistent_iff (llvm : Llvm) (order : AddressOrder) (m st : State) (ids : Ids)
    (sound : m.Sound) (keeps : llvm.KeepsAddresses) (accepts : Accepts llvm order m st ids) :
    Consistent st ids ↔ Plain m :=
  ⟨plain_of_consistent sound keeps accepts,
    fun plain => consistent_of_plain sound keeps plain accepts⟩

/-- Constants that do not fold; type 0 is a byte pointer. -/
def plainLlvm : Llvm :=
  ⟨fun e ty => .bitcast e ty, fun e n => .getElementPtr 0 e [some n] 0, id,
    fun _ indices => 4 * (indices.getD 1 none).getD 0, 0⟩

def creationOrder : AddressOrder := ⟨id, fun _ => List.Perm.refl _⟩

theorem plainLlvm_keepsAddresses : plainLlvm.KeepsAddresses where
  pointerCast :=
    fun _ => ⟨fun _ _ part => (List.mem_cons.mp part).resolve_left nofun, fun _ _ root => root⟩
  getElementPtr :=
    fun _ => ⟨fun _ _ part => (List.mem_cons.mp part).resolve_left nofun, fun _ _ root => root⟩
  fold := ⟨fun _ _ part => part, fun _ _ root => root⟩

/-- A table of which an instruction uses the second element. -/
def tableModule : State :=
  ⟨[.global 0, .getElementPtr 1 (.global 0) [some 0, some 1] 2],
    [⟨0, "table", true, true, some ⟨7, []⟩, true, false, false⟩],
    [[.getElementPtr 1 (.global 0) [some 0, some 1] 2]], [], [], 1⟩

def analyzed (m : State) : State := (turns plainLlvm creationOrder 4 0 m).toOption.getD m

def printed (m : State) : Ids := (printGlobals (analyzed m)).toOption.getD ⟨[], [], 0⟩

theorem tableModule_sound : tableModule.Sound where
  refs := by decide
  fresh := by decide
  closed := by decide
  present := by decide
  known := fun r member => by
    rcases List.mem_cons.mp member with eq | member
    · cases eq
      exact List.mem_singleton_self _
    · cases List.mem_singleton.mp member

theorem accepts_consistent_iff_table :
    Accepts plainLlvm creationOrder tableModule (analyzed tableModule) (printed tableModule) ∧
    (Consistent (analyzed tableModule) (printed tableModule) ↔ Plain tableModule) ∧
      Plain tableModule := by
  have accepts : Accepts plainLlvm creationOrder tableModule (analyzed tableModule)
    (printed tableModule) := ⟨4, by rfl, by rfl⟩
  refine ⟨accepts,
    accepts_consistent_iff _ _ _ _ _ tableModule_sound plainLlvm_keepsAddresses accepts, ?_⟩
  constructor
  case rooted =>
    intro e member _
    have only : emitted tableModule = [.getElementPtr 1 (.global 0) [some 0, some 1] 2] := by rfl
    rw [only] at member
    rw [List.mem_singleton.mp member]
    exact ⟨0, rfl⟩
  case kindUnused =>
    intro k isKind
    cases isKind

/-- An instruction that reads the kind of the bytecode. -/
def kindModule : State :=
  ⟨[.global 0], [⟨0, "__clambc_kind", false, true, some ⟨0, []⟩, true, false, false⟩],
    [[.global 0]], [], [], 1⟩

theorem kind_without_id : ¬ ∀ (llvm : Llvm) (order : AddressOrder) (m st : State) (ids : Ids),
    m.Sound → llvm.KeepsAddresses →
    Accepts llvm order m st ids → Consistent st ids := by
  intro all
  have sound : kindModule.Sound := by
    refine ⟨by decide, by decide, by decide, by decide, fun r member => ?_⟩
    cases List.mem_singleton.mp member
    exact List.mem_singleton_self _
  have accepts : Accepts plainLlvm creationOrder kindModule (analyzed kindModule)
    (printed kindModule) := ⟨4, by rfl, by rfl⟩
  have consistent := all _ _ _ _ _ sound plainLlvm_keepsAddresses accepts
  have hasId := consistent.operands [.global 0] List.mem_cons_self (.global 0) List.mem_cons_self
  have none : (printed kindModule).globals.lookup 0 = none := by rfl
  have found : ((printed kindModule).globals.lookup 0).isSome := hasId
  rw [none] at found
  cases found

end GlobalIds
