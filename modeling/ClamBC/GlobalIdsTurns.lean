import ClamBC.DependentValues
import ClamBC.GlobalIdsSteps

/-!
# The loop over the globals

Everything computed from the address of a global is found in the turn of the global. An
expression without a helper is therefore collected and still to be treated, or its global is
still to come; in the end there is none.
-/

namespace GlobalIds

open Fallible

section
variable {llvm : Llvm} {m : State}

/-! ## What is found from a global -/

theorem points_closed {st : State} (held : Held m st) :
    ∀ x ∈ points st, ∀ y ∈ neighbours st x, y ∈ points st := by
  intro x hx y hy
  unfold neighbours at hy
  rcases List.mem_append.mp hy with hy | hy
  · rcases List.mem_append.mp hy with hy | hy
    · have operand : y ∈ x.operands := List.mem_of_mem_head? (Option.mem_toList.mp hy)
      rcases List.mem_append.mp hx with hx | hx
      · exact List.mem_append_left _ (held.closed x hx y (Expr.operand_mem_parts operand))
      · obtain ⟨g, -, rfl⟩ := List.mem_map.mp hx
        cases operand
    · exact List.mem_append_left _ (List.mem_filter.mp hy).1
  · obtain ⟨g, hg, rfl⟩ := List.mem_map.mp hy
    exact List.mem_append_right _ (List.mem_map.mpr ⟨g, (List.mem_filter.mp hg).1, rfl⟩)

/-- What contains something that was found is found as well. -/
theorem reach_upward {st : State} {g : Global} (held : Held m st) (hg : g ∈ st.globals) {c x : Expr}
    (hx : x ∈ st.pool) (reached : c ∈ Worklist.reach (neighbours st) (points st) (.global g.ref))
    (part : c ∈ x.parts) :
    x ∈ Worklist.reach (neighbours st) (points st) (.global g.ref) := by
  have start : Expr.global g.ref ∈ points st :=
    List.mem_append_right _ (List.mem_map.mpr ⟨g, hg, rfl⟩)
  obtain ⟨-, -, closed⟩ := Worklist.reach_spec (points_closed held) start
  have user : ∀ u v : Expr, v ∈ u.operands → u ∈ st.pool →
      v ∈ Worklist.reach (neighbours st) (points st) (.global g.ref) →
      u ∈ Worklist.reach (neighbours st) (points st) (.global g.ref) := by
    intro u v operand hu hv
    refine closed v hv u (List.mem_append_left _ (List.mem_append_right _ ?_))
    exact List.mem_filter.mpr ⟨hu, decide_eq_true operand⟩
  have inPool : ∀ {u v : Expr}, v ∈ u.operands → u ∈ st.pool → v ∈ st.pool := fun operand hu =>
    held.closed _ hu _ (Expr.operand_mem_parts operand)
  induction x with
  | global s | function s | null =>
    rw [← List.mem_singleton.mp part]
    exact reached
  | bitcast value ty ih =>
    have operand : value ∈ (Expr.bitcast value ty).operands := List.mem_singleton_self _
    rcases List.mem_cons.mp part with rfl | part
    · exact reached
    · exact user _ value operand hx (ih (inPool operand hx) part)
  | getElementPtr source base indices ty ih =>
    have operand : base ∈ (Expr.getElementPtr source base indices ty).operands :=
      List.mem_singleton_self _
    rcases List.mem_cons.mp part with rfl | part
    · exact reached
    · exact user _ base operand hx (ih (inPool operand hx) part)
  | other opcode first second third ih1 ih2 ih3 =>
    have operand1 : first ∈ (Expr.other opcode first second third).operands := List.mem_cons_self
    have operand2 : second ∈ (Expr.other opcode first second third).operands :=
      List.mem_cons_of_mem _ List.mem_cons_self
    have operand3 : third ∈ (Expr.other opcode first second third).operands :=
      List.mem_cons_of_mem _ (List.mem_cons_of_mem _ List.mem_cons_self)
    rcases List.mem_cons.mp part with rfl | part
    · exact reached
    · rcases List.mem_append.mp part with part | part
      · rcases List.mem_append.mp part with part | part
        · exact user _ first operand1 hx (ih1 (inPool operand1 hx) part)
        · exact user _ second operand2 hx (ih2 (inPool operand2 hx) part)
      · exact user _ third operand3 hx (ih3 (inPool operand3 hx) part)

def Expr.kind : Expr → DependentValues.Kind Expr
  | .global _ => .globalVariable
  | .bitcast value _ => .constantExpr .bitCast value
  | .getElementPtr _ base _ _ => .constantExpr .getElementPtr base
  | .other _ first _ _ => .constantExpr .other first
  | _ => .other

/-- The constants and globals, as `getDependentValues` sees them. -/
def uses (st : State) : DependentValues.UseGraph Expr where
  kind := Expr.kind
  users v := userExprs st v ++ userGlobals st v

theorem step_uses_iff {st : State} {ref : Nat} {x y : Expr} :
    DependentValues.Step (uses st) (.global ref) x y ↔ y ∈ neighbours st x := by
  rw [neighbours, List.append_assoc, List.mem_append]
  constructor
  · rintro (user | ⟨-, expr⟩)
    · exact .inr user
    · refine .inl ?_
      cases x <;> cases expr <;> exact List.mem_singleton_self _
  · rintro (operand | user)
    · cases x with
      | global | function | null => cases operand
      | bitcast | getElementPtr | other =>
        rw [List.mem_singleton.mp operand]
        exact .operand Expr.noConfusion rfl
    · exact .user user

/-- The traversal finds what the search of `getDependentValues` records as constant expressions. -/
theorem mem_dependentExprs_iff {st : State} (held : Held m st) {g : Global} (hg : g ∈ st.globals)
    {x : Expr} : x ∈ dependentExprs st g ↔ DependentValues.Depends (uses st) (.global g.ref) x ∧
      ∃ opcode operand, (uses st).kind x = .constantExpr opcode operand := by
  have start : Expr.global g.ref ∈ points st :=
    List.mem_append_right _ (List.mem_map.mpr ⟨g, hg, rfl⟩)
  obtain ⟨first, -, closed⟩ := Worklist.reach_spec (points_closed held) start
  have reached : x ∈ Worklist.reach (neighbours st) (points st) (.global g.ref) ↔
      Relation.ReflTransGen (DependentValues.Step (uses st) (.global g.ref)) (.global g.ref) x := by
    constructor
    · refine Worklist.reach_induct .refl (fun y _ path z edge _ => ?_) x
      exact path.tail (step_uses_iff.mpr edge)
    · intro path
      induction path with
      | refl => exact first
      | tail _ edge ih => exact closed _ ih _ (step_uses_iff.mp edge)
  have isExpr : x.isConstantExpr = true ↔ x ≠ .global g.ref ∧
      ∃ opcode operand, (uses st).kind x = .constantExpr opcode operand := by
    cases x <;> simp [Expr.isConstantExpr, Expr.operands, uses, Expr.kind]
  rw [dependentExprs, List.mem_filter, reached, isExpr, DependentValues.Depends]
  tauto

/-- From a global everything computed from its address is found. -/
theorem mem_dependentExprs {st : State} (held : Held m st) {g : Global} (hg : g ∈ st.globals)
    {x : Expr} (hx : x ∈ st.pool) (isExpr : x.isConstantExpr = true) (root : x.root = some g.ref) :
    x ∈ dependentExprs st g := by
  have start : Expr.global g.ref ∈ points st :=
    List.mem_append_right _ (List.mem_map.mpr ⟨g, hg, rfl⟩)
  have first := (Worklist.reach_spec (points_closed held) start).1
  exact List.mem_filter.mpr ⟨reach_upward held hg hx first (Expr.root_mem_parts root), isExpr⟩

theorem dependentExprs_pool {st : State} (held : Held m st) {g : Global} (hg : g ∈ st.globals)
    {x : Expr} (hx : x ∈ dependentExprs st g) : x ∈ st.pool := by
  have start : Expr.global g.ref ∈ points st :=
    List.mem_append_right _ (List.mem_map.mpr ⟨g, hg, rfl⟩)
  obtain ⟨-, inside, -⟩ := Worklist.reach_spec (points_closed held) start
  obtain ⟨reached, isExpr⟩ := List.mem_filter.mp hx
  rcases List.mem_append.mp (inside x reached) with hx | hx
  · exact hx
  · obtain ⟨g', -, rfl⟩ := List.mem_map.mp hx
    cases isExpr

/-! ## The two passes -/

/-- The global of an address is still to come. -/
def Waits (st : State) (i : Nat) (x : Expr) : Prop :=
  ∃ j r, i ≤ j ∧ (refs st)[j]? = some r ∧ x.root = some r

theorem Waits.advance {st st' : State} {e x y : Expr} {i : Nat} (waits : Waits st i y)
    (advances : Advances m st e st') (succeeds : Succeeds st st' y x) : Waits st' i x := by
  obtain ⟨j, r, later, atj, root⟩ := waits
  obtain ⟨added, eq⟩ := advances.refs
  refine ⟨j, r, later, ?_, succeeds.root r root⟩
  rw [eq, List.getElem?_append_left (List.getElem?_eq_some_iff.mp atj).1]
  exact atj

/-- The constant expressions without a helper are collected and still to be treated, or they
belong to globals that are still to come. -/
def Covered (st : State) (k i : Nat) : Prop :=
  ∀ x ∈ emitted st, x.isConstantExpr = true → x ∈ keys st ∨
    (∃ n, k ≤ n ∧ st.ces[n]? = some x) ∨ Waits st i x

theorem Covered.advance {st st' : State} {e : Expr} {k k' i : Nat} (covered : Covered st k i)
    (advances : Advances m st e st') (between : ∀ n, k ≤ n → n < k' → st.ces[n]? = some e) :
    Covered st' k' i := by
  intro x hx isExpr
  rcases advances.emits x hx with known | ⟨y, hy, other, succeeds⟩
  · exact .inl known
  · rcases covered y hy (succeeds.expr isExpr) with known | ⟨n, above, atn⟩ | waits
    · exact .inl (succeeds.key known)
    · by_cases treated : n < k'
      · have same := between n above treated
        rw [atn] at same
        exact absurd (Option.some.inj same) other
      · exact .inr (.inl ⟨n, Nat.le_of_not_lt treated, succeeds.collected n atn⟩)
    · exact .inr (.inr (waits.advance advances succeeds))

theorem processNth_spec {st st' : State} {name : String} {k k' i j : Nat} (held : Held m st)
    (keeps : llvm.KeepsAddresses) (covered : Covered st k i) (between : ∀ n, k ≤ n → n < k' → n = j)
    (ok : processNth llvm name st j = .ok st') :
    Held m st' ∧ st'.ces.length = st.ces.length ∧ Covered st' k' i := by
  unfold processNth at ok
  split at ok
  · rename_i past
    cases ok
    refine ⟨held, rfl, fun x hx isExpr => ?_⟩
    rcases covered x hx isExpr with known | ⟨n, above, atn⟩ | waits
    · exact .inl known
    · by_cases treated : n < k'
      · rw [between n above treated, past] at atn
        cases atn
      · exact .inr (.inl ⟨n, Nat.le_of_not_lt treated, atn⟩)
    · exact .inr (.inr waits)
  · rename_i e atj
    have advances := processExpr_spec held keeps (held.collected e (List.mem_of_getElem? atj)) ok
    refine ⟨advances.held, advances.length, covered.advance advances fun n above below => ?_⟩
    rw [between n above below]
    exact atj

/-- The first pass treats the collected expressions one after the other. -/
theorem pass_first {st st' : State} {name : String}
    {k i count : Nat} (held : Held m st) (keeps : llvm.KeepsAddresses) (covered : Covered st k i)
    (ok : (List.range' k count).foldlM (processNth llvm name) st = .ok st') :
    Held m st' ∧ st'.ces.length = st.ces.length ∧ Covered st' (k + count) i := by
  induction count generalizing k st with
  | zero =>
    cases ok
    exact ⟨held, rfl, covered⟩
  | succ count ih =>
    rw [List.range'_succ, List.foldlM_cons] at ok
    obtain ⟨st1, step, rest⟩ := bind_eq_ok.mp ok
    obtain ⟨held1, length1, covered1⟩ := @processNth_spec llvm m st st1 name k (k + 1) i k held
      keeps covered (fun n above below => by omega) step
    obtain ⟨held2, length2, covered2⟩ := ih held1 covered1 rest
    refine ⟨held2, length2.trans length1, ?_⟩
    rw [show k + (count + 1) = k + 1 + count by omega]
    exact covered2

/-- What every step keeps, any sequence of steps keeps. -/
theorem pass_invariant {P : State → Prop} (keeps : llvm.KeepsAddresses)
    (step : ∀ {name st e st'}, Held m st → e ∈ st.ces → P st → processExpr llvm name st e =
      .ok st' → P st') {st st' : State} {name : String} {ns : List Nat} (held : Held m st)
    (holds : P st) (ok : ns.foldlM (processNth llvm name) st = .ok st') : Held m st' ∧ P st' := by
  induction ns generalizing st with
  | nil =>
    cases ok
    exact ⟨held, holds⟩
  | cons n ns ih =>
    rw [List.foldlM_cons] at ok
    obtain ⟨st1, first, rest⟩ := bind_eq_ok.mp ok
    unfold processNth at first
    split at first
    · cases first
      exact ih held holds rest
    · rename_i e atn
      have member := List.mem_of_getElem? atn
      exact ih (processExpr_spec held keeps (held.collected e member) first).held
        (step held member holds first) rest

/-- The second pass loses nothing. -/
theorem pass_second {st st' : State} {name : String} {k i : Nat}
    {ns : List Nat} (held : Held m st) (keeps : llvm.KeepsAddresses) (covered : Covered st k i)
    (ok : ns.foldlM (processNth llvm name) st = .ok st') :
    Held m st' ∧ st'.ces.length = st.ces.length ∧ Covered st' k i := by
  refine @pass_invariant llvm m (fun s => s.ces.length = st.ces.length ∧ Covered s k i) keeps ?_ st
    st' name ns held ⟨rfl, covered⟩ ok
  rintro name s e s' held member ⟨length, covered⟩ ok
  have advances := processExpr_spec held keeps (held.collected e member) ok
  exact ⟨advances.length.trans length, covered.advance advances fun n above below => by omega⟩

/-! ## The loop over the globals -/

variable {order : AddressOrder}

/-- The constant expressions without a helper belong to globals that are still to come. -/
def Pending (st : State) (i : Nat) : Prop :=
  ∀ x ∈ emitted st, x.isConstantExpr = true → x ∈ keys st ∨ Waits st i x

theorem Held.collect {st : State} {es : List Expr} (held : Held m st)
    (members : ∀ e ∈ es, e ∈ st.pool) : Held m { st with ces := es } :=
  { held with collected := members }

theorem turn_pending {st st' : State} {i : Nat} {g : Global} (held : Held m st)
    (keeps : llvm.KeepsAddresses) (pending : Pending st i) (hi : st.globals[i]? = some g)
    (ok : turn llvm order st g = .ok st') :
    Held m st' ∧ Pending st' (i + 1) := by
  have hg := List.mem_of_getElem? hi
  have listed : ∀ e, e ∈ order.run (dependentExprs st g) ↔ e ∈ dependentExprs st g :=
    fun e => (order.perm _).mem_iff
  unfold turn at ok
  dsimp only at ok
  rw [List.foldlM_append, List.range_eq_range'] at ok
  obtain ⟨st1, first, second⟩ := bind_eq_ok.mp ok
  have collected := held.collect fun e he => dependentExprs_pool held hg ((listed e).mp he)
  have covered : Covered { st with ces := order.run (dependentExprs st g) } 0 (i + 1) := by
    intro x hx isExpr
    rcases pending x hx isExpr with known | ⟨j, r, later, atj, root⟩
    · exact .inl known
    · by_cases now : j = i
      · subst now
        have same : r = g.ref := by
          rw [refs, List.getElem?_map, hi] at atj
          exact (Option.some.inj atj).symm
        have found :=
          (listed x).mpr (mem_dependentExprs held hg (held.present x hx) isExpr (same ▸ root))
        obtain ⟨n, atn⟩ := List.mem_iff_getElem?.mp found
        exact .inr (.inl ⟨n, Nat.zero_le _, atn⟩)
      · exact .inr (.inr ⟨j, r, by omega, atj, root⟩)
  obtain ⟨held1, length1, covered1⟩ := pass_first collected keeps covered first
  obtain ⟨held2, length2, covered2⟩ := pass_second held1 keeps covered1 second
  refine ⟨held2, fun x hx isExpr => ?_⟩
  rcases covered2 x hx isExpr with known | ⟨n, above, atn⟩ | waits
  · exact .inl known
  · have inside := (List.getElem?_eq_some_iff.mp atn).1
    rw [length2, length1] at inside
    dsimp only at inside
    omega
  · exact .inr waits

theorem turn_invariant {P : State → Prop}
    (keeps : llvm.KeepsAddresses) (step : ∀ {name st e st'}, Held m st → e ∈ st.ces → P st →
      processExpr llvm name st e = .ok st' → P st') {st st' : State} {g : Global} (held : Held m st)
    (hg : g ∈ st.globals) (holds : P { st with ces := order.run (dependentExprs st g) })
    (ok : turn llvm order st g = .ok st') : Held m st' ∧ P st' := by
  refine pass_invariant keeps step (held.collect fun e he => ?_) holds ok
  exact dependentExprs_pool held hg ((order.perm _).mem_iff.mp he)

/-- What every turn keeps holds in the end. -/
theorem turns_invariant {P : State → Prop} (step : ∀ {st g st'}, Held m st → g ∈ st.globals →
      P st → turn llvm order st g = .ok st' → Held m st' ∧ P st') {fuel i : Nat} {st st' : State}
    (held : Held m st) (holds : P st) (ok : turns llvm order fuel i st = .ok st') :
    Held m st' ∧ P st' := by
  induction fuel generalizing i st with
  | zero =>
    unfold turns at ok
    split at ok
    · cases ok
      exact ⟨held, holds⟩
    · cases ok
  | succ fuel ih =>
    unfold turns at ok
    split at ok
    · cases ok
      exact ⟨held, holds⟩
    · rename_i g hi
      obtain ⟨st1, first, rest⟩ := bind_eq_ok.mp ok
      obtain ⟨held1, holds1⟩ := step held (List.mem_of_getElem? hi) holds first
      exact ih held1 holds1 rest

theorem turns_unused (keeps : llvm.KeepsAddresses) {fuel i k : Nat} {st st' : State}
    (held : Held m st) (unused : Unused st k) (ok : turns llvm order fuel i st = .ok st') :
    Unused st' k := by
  refine (@turns_invariant llvm m order (fun s => Unused s k) ?_ fuel i st st' held unused ok).2
  intro s g s' held hg unused ok
  refine @turn_invariant llvm m order (fun s => Unused s k) keeps ?_ s s' g held hg unused ok
  intro name t e t' held member unused ok
  exact (processExpr_spec held keeps (held.collected e member) ok).unused k unused

theorem turns_spec {fuel i : Nat} {st st' : State} (held : Held m st) (keeps : llvm.KeepsAddresses)
    (pending : Pending st i) (ok : turns llvm order fuel i st = .ok st') :
    Held m st' ∧ ∀ x ∈ emitted st', x.isConstantExpr = true → x ∈ keys st' := by
  have finish : ∀ {i : Nat} {st : State}, st.globals.length ≤ i → Pending st i →
      ∀ x ∈ emitted st, x.isConstantExpr = true → x ∈ keys st := by
    intro i st past pending x hx isExpr
    rcases pending x hx isExpr with known | ⟨j, r, later, atj, -⟩
    · exact known
    · have inside := (List.getElem?_eq_some_iff.mp atj).1
      rw [refs, List.length_map] at inside
      omega
  induction fuel generalizing i st with
  | zero =>
    unfold turns at ok
    split at ok
    · rename_i past
      cases ok
      exact ⟨held, finish past pending⟩
    · cases ok
  | succ fuel ih =>
    unfold turns at ok
    split at ok
    · rename_i past
      cases ok
      exact ⟨held, finish (List.getElem?_eq_none_iff.mp past) pending⟩
    · rename_i g hi
      obtain ⟨st1, step, rest⟩ := bind_eq_ok.mp ok
      obtain ⟨held', pending'⟩ := turn_pending held keeps pending hi step
      exact ih held' pending' rest

/-- The invariant holds of the module that the analyzer is given. -/
theorem State.Sound.held (sound : m.Sound) : Held m { m with ces := [], ceMap := [] } where
  distinct := sound.refs
  fresh := fun r hr => by
    obtain ⟨g, hg, rfl⟩ := List.mem_map.mp hr
    exact sound.fresh g hg
  closed := sound.closed
  present := sound.present
  collected := nofun
  helpers := nofun
  extends_ := ⟨[], (List.append_nil _).symm, nofun⟩
  known := sound.known

theorem State.Sound.pending (sound : m.Sound) (plain : Plain m) :
    Pending { m with ces := [], ceMap := [] } 0 := by
  intro x hx isExpr
  obtain ⟨r, root⟩ := plain.rooted x hx isExpr
  have member := sound.known r (sound.closed x (sound.present x hx) _ (Expr.root_mem_parts root))
  obtain ⟨j, atj⟩ := List.mem_iff_getElem?.mp member
  exact .inr ⟨j, r, Nat.zero_le _, atj, root⟩

end

end GlobalIds
