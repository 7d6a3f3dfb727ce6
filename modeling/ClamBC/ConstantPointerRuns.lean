import ClamBC.ConstantPointers

/-!
# Addresses in globals through the analysis

An expression is followed through the module in an instruction of its own. Before its treatment
it has its kind, its indices and its type, whatever happens to its operand; after it, it points
where the expression pointed. In the end it has been treated.
-/

namespace GlobalIds

open Fallible

namespace Expr
/-- A constant expression without its operands. -/
def head : Expr → Expr
  | .bitcast _ ty => .bitcast .null ty
  | .getElementPtr source _ indices ty => .getElementPtr source .null indices ty
  | .other opcode _ _ _ => .other opcode .null .null .null
  | e => e

theorem head_isBitcast (e : Expr) : e.head.isBitcast = e.isBitcast := by cases e <;> rfl

theorem head_isConstantExpr (e : Expr) : e.head.isConstantExpr = e.isConstantExpr := by
  cases e <;> rfl

theorem head_ty (e : Expr) : e.head.ty? = e.ty? := by cases e <;> rfl

theorem head_fits (e : Expr) : e.head.fits = e.fits := by cases e <;> rfl

theorem strip_root {e : Expr} {r : Nat} (stripped : e.stripPointerCasts = .global r) :
    e.root = some r := by
  induction e with
  | global s =>
    cases stripped
    rfl
  | bitcast value ty ih => exact ih stripped
  | getElementPtr source base indices ty ih =>
    unfold stripPointerCasts at stripped
    split at stripped
    · exact ih stripped
    · cases stripped
  | function s | null | other opcode first second third => cases stripped

end Expr

section
variable {llvm : Llvm} {order : AddressOrder} {m st st' : State} {source bytes r : Nat}

/-! ## The instructions do not matter -/

/-- The instructions follow the constants and nothing else depends on them. -/
def Follows (run : State → Except Fault State) (st st' : State) : Prop :=
  ∃ f : Expr → Expr, ∀ insts : List (List Expr),
    run { st with insts := insts } = .ok { st' with insts := insts.map fun ops => ops.map f }

theorem follows_id : Follows (fun st => .ok st) st st := by
  refine ⟨id, fun insts => ?_⟩
  simp

theorem Follows.bind {run next : State → Except Fault State} {st1 : State}
    (first : Follows run st st1) (second : Follows next st1 st') :
    Follows (fun st => run st >>= next) st st' := by
  obtain ⟨f, first⟩ := first
  obtain ⟨f', second⟩ := second
  refine ⟨f' ∘ f, fun insts => ?_⟩
  dsimp only
  rw [first insts]
  show next _ = _
  rw [second, List.map_map]
  congr 3
  funext ops
  exact List.map_map

theorem replace_follows {old new : Expr} (ok : replaceAllUsesWith llvm old new st = .ok st') :
    Follows (replaceAllUsesWith llvm old new) st st' := by
  obtain ⟨outside, noneFreed, rfl⟩ := replace_ok ok
  refine ⟨fun e => (rebuild llvm st.pool old new e).1, fun insts => ?_⟩
  have kept : ¬ (st.ces ++ st.ceMap.map Prod.fst).any (fun e => (fate llvm st.pool old new e).2) =
      true := by
    intro freed
    obtain ⟨e, he, isFreed⟩ := List.any_eq_true.mp freed
    exact Bool.false_ne_true ((noneFreed e he).symm.trans isFreed)
  unfold replaceAllUsesWith
  rw [if_neg outside, if_neg kept]

theorem replaceIfDifferent_follows {old new : Expr}
    (ok : replaceIfDifferent llvm old new st = .ok st') :
    Follows (replaceIfDifferent llvm old new) st st' := by
  unfold replaceIfDifferent at ok ⊢
  split at ok
  · rename_i same
    cases ok
    simp only [if_pos same]
    exact follows_id
  · rename_i other
    simp only [if_neg other]
    exact replace_follows ok

theorem processExpr_follows {name : String} {c : Expr} (ok : processExpr llvm name st c = .ok st') :
    Follows (fun st => processExpr llvm name st c) st st' := by
  unfold processExpr at ok ⊢
  split at ok
  · cases ok
    refine ⟨id, fun insts => ?_⟩
    simp [addHelper]
  · split at ok
    · cases ok
    · rename_i zero
      split at ok
      · cases ok
      · rename_i constant
        dsimp only at ok
        split at ok
        · rename_i both
          obtain ⟨st1, replaced, eq⟩ := bind_eq_ok.mp ok
          cases eq
          obtain ⟨f, follows⟩ := replaceIfDifferent_follows replaced
          refine ⟨f, fun insts => ?_⟩
          simp only [if_neg zero, if_neg constant, if_pos both]
          refine bind_eq_ok.mpr ⟨_, follows insts, rfl⟩
        · cases ok
  · cases ok
  · cases ok

theorem processNth_follows {name : String} {n : Nat} (ok : processNth llvm name st n = .ok st') :
    Follows (fun st => processNth llvm name st n) st st' := by
  unfold processNth at ok
  split at ok
  · rename_i past
    cases ok
    refine ⟨id, fun insts => ?_⟩
    simp [processNth, past]
  · rename_i c atn
    obtain ⟨f, follows⟩ := processExpr_follows ok
    refine ⟨f, fun insts => ?_⟩
    simp only [processNth, atn]
    exact follows insts

theorem pass_follows {name : String} {ns : List Nat}
    (ok : ns.foldlM (processNth llvm name) st = .ok st') :
    Follows (ns.foldlM (processNth llvm name)) st st' := by
  induction ns generalizing st with
  | nil =>
    cases ok
    exact follows_id
  | cons n ns ih =>
    rw [List.foldlM_cons] at ok
    obtain ⟨st1, first, rest⟩ := bind_eq_ok.mp ok
    obtain ⟨f, follows⟩ := (processNth_follows first).bind (ih rest)
    refine ⟨f, fun insts => ?_⟩
    simp only [List.foldlM_cons]
    exact follows insts

theorem turn_follows {g : Global} (ok : turn llvm order st g = .ok st') :
    Follows (fun st => turn llvm order st g) st st' :=
  pass_follows ok

theorem turns_follows {fuel i : Nat} (ok : turns llvm order fuel i st = .ok st') :
    Follows (turns llvm order fuel i) st st' := by
  induction fuel generalizing i st with
  | zero =>
    unfold turns at ok
    split at ok
    · rename_i past
      cases ok
      refine ⟨id, fun insts => ?_⟩
      simp [turns, past]
    · cases ok
  | succ fuel ih =>
    unfold turns at ok
    split at ok
    · rename_i past
      cases ok
      refine ⟨id, fun insts => ?_⟩
      simp [turns, past]
    · rename_i g hi
      obtain ⟨st1, first, rest⟩ := bind_eq_ok.mp ok
      obtain ⟨f, follows⟩ := (turn_follows first).bind (ih rest)
      refine ⟨f, fun insts => ?_⟩
      unfold turns
      simp only [hi]
      exact follows insts

/-! ## Kind, indices and type -/

theorem head_offset (e : Expr) : offset llvm e.head = offset llvm e := by cases e <;> rfl

theorem Over.root {e : Expr} (overGlobal : Over r e) : e.root = some r := by
  cases e with
  | bitcast value ty => exact Expr.strip_root (e := value) overGlobal
  | getElementPtr source base indices ty => exact Expr.strip_root (e := base) overGlobal
  | global s | function s | null | other opcode first second third => cases overGlobal

theorem Over.isConstantExpr {e : Expr} (overGlobal : Over r e) : e.isConstantExpr = true := by
  cases e with
  | bitcast value ty | getElementPtr source base indices ty => rfl
  | global s | function s | null | other opcode first second third => cases overGlobal

theorem rebuild_head {pool : List Expr} {old new e : Expr} (other : e ≠ old)
    (kept : (rebuild llvm pool old new e).2 = false) :
    (rebuild llvm pool old new e).1.head = e.head := by
  cases e with
  | global s | function s | null => rw [rebuild_leaf rfl other]
  | bitcast value ty =>
    rw [rebuild_bitcast_inPlace other kept]
    rfl
  | getElementPtr source base indices ty =>
    rw [rebuild_getElementPtr_inPlace other kept]
    rfl
  | other opcode first second third =>
    unfold rebuild at kept ⊢
    rw [if_neg other] at kept ⊢
    rw [unique_inPlace kept]
    rfl

theorem rebuild_over (ours : llvm.ByteAddresses source bytes) {pool : List Expr}
    {old new e : Expr} (same : ∀ r n, Points source bytes r n old → Points source bytes r n new)
    (other : e ≠ old) (kept : (rebuild llvm pool old new e).2 = false) (overGlobal : Over r e) :
    Over r (rebuild llvm pool old new e).1 := by
  cases e with
  | bitcast value ty =>
    rw [rebuild_bitcast_inPlace other kept]
    exact points_whole (rebuild_points ours same (.whole overGlobal))
  | getElementPtr source base indices ty =>
    rw [rebuild_getElementPtr_inPlace other kept]
    exact points_whole (rebuild_points ours same (.whole overGlobal))
  | global s | function s | null | other opcode first second third => cases overGlobal

theorem rebuild_indexed (ours : llvm.ByteAddresses source bytes)
    {pool : List Expr} {old new e : Expr} (same : new.ty? = old.ty?) (other : e ≠ old)
    (kept : (rebuild llvm pool old new e).2 = false) (indexed : Indexed llvm e) :
    Indexed llvm (rebuild llvm pool old new e).1 := by
  cases e with
  | global s | function s | null =>
    rw [rebuild_leaf rfl other]
    trivial
  | bitcast value ty =>
    rw [rebuild_bitcast_inPlace other kept]
    trivial
  | getElementPtr source' base indices ty =>
    rw [rebuild_getElementPtr_inPlace other kept]
    intro long isBytes
    rcases rebuild_type ours pool same base with none | kept
    · rw [none] at isBytes
      cases isBytes
    · exact indexed long (kept.symm.trans isBytes)
  | other opcode first second third =>
    unfold rebuild at kept ⊢
    rw [if_neg other] at kept ⊢
    rw [unique_inPlace kept]
    trivial

/-! ## One step -/

/-- What gets the helper when an expression is treated. -/
inductive Treated (llvm : Llvm) : Expr → Expr → Prop
  | bitcast (value : Expr) (ty : Nat) : Treated llvm (.bitcast value ty) (.bitcast value ty)
  | getElementPtr {source : Nat} {base : Expr} {indices : List (Option Nat)} {ty : Nat}
      (long : 2 ≤ indices.length)
      (isExpr : (byteOffset llvm source base indices ty).2.2.isConstantExpr = true) :
      Treated llvm (.getElementPtr source base indices ty)
        (byteOffset llvm source base indices ty).2.2

theorem processExpr_treated {name : String} {c : Expr} (member : c ∈ st.pool)
    (ok : processExpr llvm name st c = .ok st') :
    ∃ new more helper st1, Treated llvm c new ∧ new ∈ st.pool ++ more ∧
      replaceIfDifferent llvm c new { st with pool := st.pool ++ more } = .ok st1 ∧
        st' = addHelper helper new st1 := by
  rcases processExpr_cases ok with ⟨value, ty, rfl, rfl⟩
    | ⟨source, base, indices, ty, helper, st1, rfl, isExpr, replaced, rfl⟩
  · refine ⟨_, [], _, st, .bitcast value ty, List.mem_append_left _ member, ?_, rfl⟩
    unfold replaceIfDifferent
    rw [if_pos rfl, List.append_nil]
  · refine ⟨_, _, helper, st1, .getElementPtr (processExpr_long ok) isExpr,
      List.mem_append_right _ ?_, replaced, rfl⟩
    exact mem_pieces.mpr (.inr (.inr (Expr.self_mem_parts _)))

theorem Treated.points {c new : Expr} (treated : Treated llvm c new)
    (ours : llvm.ByteAddresses source bytes) (r n : Nat) (points : Points source bytes r n c) :
    Points source bytes r n new := by
  cases treated with
  | bitcast value ty => exact points
  | getElementPtr long isExpr => exact ours.pointerCast r n _ _ (byteOffset_same ours long points)

theorem Treated.type {c new : Expr} (treated : Treated llvm c new)
    (ours : llvm.ByteAddresses source bytes) : new.ty? = c.ty? := by
  cases treated with
  | bitcast value ty => rfl
  | getElementPtr long isExpr => exact byteOffset_type ours isExpr

/-- What the expression `e` over a global is after its treatment. -/
structure Settled (llvm : Llvm) (source bytes r : Nat) (e E : Expr) : Prop where
  points : Points source bytes r (offset llvm e) E
  isExpr : E.isConstantExpr = true
  isBitcast : e.isBitcast = true → E.isBitcast = true
  indexed : Indexed llvm E
  ty : E.ty? = e.ty?
  fits : e.isBitcast = false → offset llvm e = 0 → ∀ ty, e.ty? = some ty →
    E.fits = (llvm.pointerCast (.global r) ty).fits

/-- An expression that has not been treated, with other operands at most. -/
structure Untreated (llvm : Llvm) (r : Nat) (e E : Expr) : Prop where
  overGlobal : Over r E
  head : E.head = e.head
  indexed : Indexed llvm E

theorem Untreated.settled (ours : llvm.ByteAddresses source bytes)
    {e E new : Expr} (untreated : Untreated llvm r e E) (treated : Treated llvm E new) :
    Settled llvm source bytes r e new := by
  obtain ⟨overGlobal, head, indexed⟩ := untreated
  have isBitcast : e.isBitcast = E.isBitcast := by rw [← e.head_isBitcast, ← head, E.head_isBitcast]
  have ty : e.ty? = E.ty? := by rw [← e.head_ty, ← head, E.head_ty]
  have same : offset llvm e = offset llvm E := by rw [← head_offset e, ← head, head_offset E]
  cases treated with
  | bitcast value ty' =>
    refine ⟨?_, rfl, fun _ => rfl, trivial, ty.symm, ?_⟩
    · rw [same]
      exact .whole overGlobal
    · intro isNot
      rw [isBitcast] at isNot
      cases isNot
  | @getElementPtr source' base indices ty' long isExpr =>
    have points : Points source bytes r _ (byteOffset llvm source' base indices ty').2.1 :=
      byteOffset_points ours overGlobal
    refine ⟨?_, isExpr, ?_, ours.castIndexed r _ _ _ points, ?_, ?_⟩
    · rw [same]
      exact ours.pointerCast r _ _ _ points
    · intro isBitcast'
      rw [isBitcast] at isBitcast'
      cases isBitcast'
    · rw [ty]
      exact byteOffset_type ours isExpr
    · intro _ zero ty'' isTy
      rw [ty] at isTy
      rw [same] at zero
      cases isTy
      exact byteOffset_fits ours zero overGlobal (indexed long)

theorem Settled.again (ours : llvm.ByteAddresses source bytes)
    {e E new : Expr} (settled : Settled llvm source bytes r e E) (treated : Treated llvm E new) :
    Settled llvm source bytes r e new := by
  cases treated with
  | bitcast value ty => exact settled
  | @getElementPtr source' base indices ty long isExpr =>
    have same := byteOffset_same ours long settled.points
    refine ⟨ours.pointerCast r _ _ _ same, isExpr, ?_, ours.castIndexed r _ _ _ same, ?_, ?_⟩
    · intro isBitcast
      cases settled.isBitcast isBitcast
    · rw [← settled.ty]
      exact byteOffset_type ours isExpr
    · intro _ zero ty' isTy
      rw [← settled.ty] at isTy
      cases isTy
      have points := settled.points
      have allZero := zero_of_points long points
      rw [zero] at points
      exact byteOffset_fits ours (ours.zeroOffset _ _ allZero)
        (points_whole ((points_zero allZero).mp points)) (settled.indexed long)

theorem Settled.inPlace {e E E' : Expr} (settled : Settled llvm source bytes r e E)
    (head : E'.head = E.head) (points : ∀ n, Points source bytes r n E → Points source bytes r n E')
    (indexed : Indexed llvm E → Indexed llvm E') :
    Settled llvm source bytes r e E' := by
  refine ⟨points _ settled.points, ?_, ?_, indexed settled.indexed, ?_, ?_⟩
  · rw [← Expr.head_isConstantExpr, head, Expr.head_isConstantExpr]
    exact settled.isExpr
  · rw [← E'.head_isBitcast, head, Expr.head_isBitcast]
    exact settled.isBitcast
  · rw [← Expr.head_ty, head, Expr.head_ty]
    exact settled.ty
  · rw [← E'.head_fits, head, Expr.head_fits]
    exact settled.fits

def Helped (st : State) (E : Expr) : Prop :=
  ∃ g ∈ st.globals, (E, g.ref) ∈ st.ceMap ∧ g.init = some ⟨0, [E]⟩

theorem Helped.mem_keys {E : Expr} (helped : Helped st E) : E ∈ keys st := by
  obtain ⟨g, -, entry, -⟩ := helped
  exact List.mem_map_of_mem entry

theorem Helped.addHelper {name : String} {E new : Expr} (helped : Helped st E) :
    Helped (addHelper name new st) E := by
  obtain ⟨g, hg, entry, init⟩ := helped
  exact ⟨g, List.mem_append_left _ hg, List.mem_cons_of_mem _ entry, init⟩

theorem helped_addHelper (name : String) (new : Expr) (st : State) :
    Helped (addHelper name new st) new :=
  ⟨_, List.mem_append_right _ (List.mem_singleton_self _), List.mem_cons_self, rfl⟩

/-- An expression that the analyzer holds on to, before and after a step that treats another one. -/
structure Stays (llvm : Llvm) (source bytes : Nat) (st st' : State) (E E' : Expr) : Prop where
  head : E'.head = E.head
  indexed : Indexed llvm E → Indexed llvm E'
  points : ∀ r n, Points source bytes r n E → Points source bytes r n E'
  overGlobal : ∀ r, Over r E → Over r E'
  collected : ∀ n : Nat, st.ces[n]? = some E → st'.ces[n]? = some E'
  helped : Helped st E → Helped st' E'

theorem replace_stays (ours : llvm.ByteAddresses source bytes)
    {old new E : Expr} (same : ∀ r n, Points source bytes r n old → Points source bytes r n new)
    (sameType : new.ty? = old.ty?) (other : E ≠ old) (holds : E ∈ st.ces ++ keys st)
    (ok : replaceAllUsesWith llvm old new st = .ok st') :
    Stays llvm source bytes st st' E (rebuild llvm st.pool old new E).1 := by
  obtain ⟨-, noneFreed, rfl⟩ := replace_ok ok
  have kept := noneFreed E holds
  rw [fate_other other] at kept
  constructor
  case head => exact rebuild_head other kept
  case indexed => exact rebuild_indexed ours sameType other kept
  case points => exact fun r n points => rebuild_points ours same points
  case overGlobal => exact fun r overGlobal => rebuild_over ours same other kept overGlobal
  case collected =>
    intro n atn
    rw [List.getElem?_map, atn, Option.map_some, fate_other other]
  case helped =>
    rintro ⟨g, hg, entry, init⟩
    refine ⟨_, List.mem_map_of_mem hg, List.mem_map.mpr ⟨_, entry, ?_⟩, ?_⟩
    · rw [fate_other other]
      rfl
    · simp [Global.rename, init]

/-- The constant at the one place where an instruction uses one. -/
theorem replaceIfDifferent_insts {old new E : Expr}
    (ok : replaceIfDifferent llvm old new st = .ok st') (uses : st.insts = [[E]]) :
    (E = old → st'.insts = [[new]]) ∧ (old ∉ E.parts → st'.insts = [[E]]) := by
  unfold replaceIfDifferent at ok
  split at ok
  · rename_i unchanged
    cases ok
    exact ⟨fun isOld => by rw [uses, isOld, unchanged], fun _ => uses⟩
  · obtain ⟨-, -, rfl⟩ := replace_ok ok
    simp only [uses, List.map_cons, List.map_nil]
    constructor
    · rintro rfl
      unfold rebuild
      rw [if_pos rfl]
    · intro absent
      rw [rebuild_absent absent]

theorem replaceIfDifferent_stays (ours : llvm.ByteAddresses source bytes)
    {old new E : Expr} (same : ∀ r n, Points source bytes r n old → Points source bytes r n new)
    (sameType : new.ty? = old.ty?) (other : E ≠ old)
    (ok : replaceIfDifferent llvm old new st = .ok st') (holds : E ∈ st.ces ++ keys st)
    (uses : st.insts = [[E]]) :
    ∃ E', st'.insts = [[E']] ∧ Stays llvm source bytes st st' E E' := by
  unfold replaceIfDifferent at ok
  split at ok
  · cases ok
    exact ⟨E, uses, rfl, id, fun _ _ h => h, fun _ h => h, fun _ h => h, id⟩
  · refine ⟨_, ?_, replace_stays ours same sameType other holds ok⟩
    obtain ⟨-, -, rfl⟩ := replace_ok ok
    simp only [uses, List.map_cons, List.map_nil]

/-- The expression in the instruction has its helper, or it is collected and still to be treated,
or nothing in it is collected and its global is still to come. -/
def Tracked (llvm : Llvm) (source bytes r : Nat) (e : Expr) (k i : Nat) (st : State) : Prop :=
  ∃ E, st.insts = [[E]] ∧
    (Settled llvm source bytes r e E ∧ Helped st E ∨
      Untreated llvm r e E ∧ ((∃ n, k ≤ n ∧ st.ces[n]? = some E) ∨ Apart E st ∧ Waits st i E))

theorem Tracked.step (keeps : llvm.KeepsAddresses)
    (ours : llvm.ByteAddresses source bytes) {e c : Expr} {k k' i : Nat} {name : String}
    (held : Held m st) (member : c ∈ st.ces) (between : ∀ n, k ≤ n → n < k' → st.ces[n]? = some c)
    (tracked : Tracked llvm source bytes r e k i st) (ok : processExpr llvm name st c = .ok st') :
    Tracked llvm source bytes r e k' i st' := by
  obtain ⟨E, uses, cases_⟩ := tracked
  have advances := processExpr_spec held keeps (held.collected c member) ok
  obtain ⟨new, more, helper, st1, treated, -, replaced, eq⟩ :=
    processExpr_treated (held.collected c member) ok
  by_cases isOld : E = c
  · -- it is its turn, for the first time or again
    have uses' := (replaceIfDifferent_insts replaced uses).1 isOld
    subst isOld
    subst eq
    refine ⟨new, uses', .inl ⟨?_, helped_addHelper helper new st1⟩⟩
    rcases cases_ with ⟨settled, -⟩ | ⟨untreated, -⟩
    · exact settled.again ours treated
    · exact untreated.settled ours treated
  · have moves : E ∈ st.ces ++ keys st → ∃ E', st'.insts = [[E']] ∧
        Stays llvm source bytes st st1 E E' := by
      intro holds
      obtain ⟨E', uses', stays⟩ := replaceIfDifferent_stays ours (treated.points ours)
        (treated.type ours) isOld replaced holds uses
      subst eq
      exact ⟨E', uses', stays.head, stays.indexed, stays.points, stays.overGlobal,
        stays.collected, stays.helped⟩
    rcases cases_ with ⟨settled, helped⟩
      | ⟨⟨overGlobal, head, indexed⟩, ⟨n, above, atn⟩ | ⟨apart, j, s, later, atj, root⟩⟩
    · obtain ⟨E', uses', stays⟩ := moves (List.mem_append_right _ helped.mem_keys)
      subst eq
      exact ⟨E', uses', .inl ⟨settled.inPlace stays.head (stays.points r) stays.indexed,
        (stays.helped helped).addHelper⟩⟩
    · obtain ⟨E', uses', stays⟩ := moves (List.mem_append_left _ (List.mem_of_getElem? atn))
      have notYet : k' ≤ n := by
        by_contra treatedNow
        have isOld' := between n above (by omega)
        rw [atn] at isOld'
        exact isOld (Option.some.inj isOld')
      subst eq
      exact ⟨E', uses',
        .inr ⟨⟨stays.overGlobal r overGlobal, stays.head.trans head, stays.indexed indexed⟩,
        .inl ⟨n, notYet, stays.collected n atn⟩⟩⟩
    · have uses' := (replaceIfDifferent_insts replaced uses).2 (apart.2 c member)
      obtain ⟨added, sameRefs⟩ := advances.refs
      have atj' : (refs st')[j]? = some s := by
        rw [sameRefs, List.getElem?_append_left (List.getElem?_eq_some_iff.mp atj).1]
        exact atj
      refine ⟨E, ?_, .inr ⟨⟨overGlobal, head, indexed⟩,
        .inr ⟨apart.step keeps held member ok, j, s, later, atj', root⟩⟩⟩
      subst eq
      exact uses'

/-- The first pass. -/
theorem Tracked.first (keeps : llvm.KeepsAddresses)
    (ours : llvm.ByteAddresses source bytes) {e : Expr} {k i count : Nat}
    {name : String} (held : Held m st) (tracked : Tracked llvm source bytes r e k i st)
    (ok : (List.range' k count).foldlM (processNth llvm name) st = .ok st') :
    Held m st' ∧ st'.ces.length = st.ces.length ∧
      Tracked llvm source bytes r e (k + count) i st' := by
  induction count generalizing k st with
  | zero =>
    cases ok
    exact ⟨held, rfl, tracked⟩
  | succ count ih =>
    rw [List.range'_succ, List.foldlM_cons] at ok
    obtain ⟨st1, step, rest⟩ := bind_eq_ok.mp ok
    rw [show k + (count + 1) = k + 1 + count by omega]
    unfold processNth at step
    split at step
    · rename_i past
      cases step
      refine ih held ?_ rest
      obtain ⟨E, uses, settled | ⟨untreated, ⟨n, above, atn⟩ | apart⟩⟩ := tracked
      · exact ⟨E, uses, .inl settled⟩
      · have ne : n ≠ k := by
          rintro rfl
          rw [past] at atn
          cases atn
        exact ⟨E, uses, .inr ⟨untreated, .inl ⟨n, by omega, atn⟩⟩⟩
      · exact ⟨E, uses, .inr ⟨untreated, .inr apart⟩⟩
    · rename_i c atk
      have member := List.mem_of_getElem? atk
      have advances := processExpr_spec held keeps (held.collected c member) step
      have now : ∀ n, k ≤ n → n < k + 1 → st.ces[n]? = some c := by
        intro n above below
        rw [show n = k by omega]
        exact atk
      obtain ⟨held', length, tracked'⟩ :=
        ih advances.held (tracked.step keeps ours held member now step) rest
      exact ⟨held', length.trans advances.length, tracked'⟩

/-- Between the turns nothing is collected. -/
def Awaited (llvm : Llvm) (source bytes r : Nat) (e : Expr) (i : Nat) (st : State) : Prop :=
  ∃ E, st.insts = [[E]] ∧
    (Settled llvm source bytes r e E ∧ Helped st E ∨ Untreated llvm r e E ∧
      E ∈ st.pool ∧ Waits st i E)

theorem turn_awaited
    (keeps : llvm.KeepsAddresses) (ours : llvm.ByteAddresses source bytes) {e : Expr}
    {i : Nat} {g : Global} (held : Held m st) (awaited : Awaited llvm source bytes r e i st)
    (hi : st.globals[i]? = some g) (ok : turn llvm order st g = .ok st') :
    Held m st' ∧ Awaited llvm source bytes r e (i + 1) st' := by
  have hg := List.mem_of_getElem? hi
  have collect : Tracked llvm source bytes r e 0 (i + 1)
      { st with ces := order.run (dependentExprs st g) } := by
    obtain ⟨E, uses, settled | ⟨untreated, inPool, j, s, later, atj, root⟩⟩ := awaited
    · exact ⟨E, uses, .inl settled⟩
    · refine ⟨E, uses, .inr ⟨untreated, ?_⟩⟩
      have isExpr := untreated.overGlobal.isConstantExpr
      by_cases found : E ∈ dependentExprs st g
      · obtain ⟨n, atn⟩ := List.mem_iff_getElem?.mp ((order.perm _).mem_iff.mpr found)
        exact .inl ⟨n, Nat.zero_le n, atn⟩
      · refine .inr ⟨⟨inPool, fun c hc part => found ?_⟩, j, s, ?_, atj, root⟩
        · have reached := (List.mem_filter.mp ((order.perm _).mem_iff.mp hc)).1
          exact List.mem_filter.mpr ⟨reach_upward held hg inPool reached part, isExpr⟩
        · have ne : j ≠ i := by
            rintro rfl
            rw [refs, List.getElem?_map, hi] at atj
            cases atj
            exact found (mem_dependentExprs held hg inPool isExpr root)
          omega
  unfold turn at ok
  dsimp only at ok
  rw [List.foldlM_append, List.range_eq_range'] at ok
  obtain ⟨st1, first, second⟩ := bind_eq_ok.mp ok
  obtain ⟨held1, length1, tracked1⟩ := collect.first keeps ours (held.collectAll hg) first
  obtain ⟨held2, length2, E, uses, settled | ⟨untreated, ⟨n, above, atn⟩ | ⟨apart, waits⟩⟩⟩ :=
    @pass_invariant llvm m (fun s => s.ces.length = st1.ces.length ∧
      Tracked llvm source bytes r e _ (i + 1) s) keeps
      (fun held member both ok =>
        ⟨(processExpr_spec held keeps (held.collected _ member) ok).length.trans both.1,
        both.2.step keeps ours held member (fun n above below => absurd below (by omega)) ok⟩)
      st1 st' g.name _ held1 ⟨rfl, tracked1⟩ second
  · exact ⟨held2, E, uses, .inl settled⟩
  · have inside := (List.getElem?_eq_some_iff.mp atn).1
    rw [length2, length1] at inside
    dsimp only at inside
    omega
  · exact ⟨held2, E, uses, .inr ⟨untreated, apart.1, waits⟩⟩

theorem turns_awaited (keeps : llvm.KeepsAddresses) (ours : llvm.ByteAddresses source bytes)
    {e : Expr} {fuel i : Nat} (held : Held m st) (awaited : Awaited llvm source bytes r e i st)
    (ok : turns llvm order fuel i st = .ok st') :
    ∃ E, st'.insts = [[E]] ∧ Settled llvm source bytes r e E ∧ Helped st' E := by
  have finish : ∀ {i : Nat} {st : State}, st.globals.length ≤ i →
      Awaited llvm source bytes r e i st →
      ∃ E, st.insts = [[E]] ∧ Settled llvm source bytes r e E ∧ Helped st E := by
    rintro i st past ⟨E, uses, settled | ⟨-, -, j, s, later, atj, -⟩⟩
    · exact ⟨E, uses, settled⟩
    · have inside := (List.getElem?_eq_some_iff.mp atj).1
      rw [refs, List.length_map] at inside
      omega
  induction fuel generalizing i st with
  | zero =>
    unfold turns at ok
    split at ok
    · rename_i past
      cases ok
      exact finish past awaited
    · cases ok
  | succ fuel ih =>
    unfold turns at ok
    split at ok
    · rename_i past
      cases ok
      exact finish (List.getElem?_eq_none_iff.mp past) awaited
    · rename_i g hi
      obtain ⟨st1, step, rest⟩ := bind_eq_ok.mp ok
      obtain ⟨held', awaited'⟩ := turn_awaited keeps ours held awaited hi step
      exact ih held' awaited' rest

/-! ## The whole analysis -/

/-- The module with one instruction, which uses `e`. -/
theorem State.Sound.uses (sound : m.Sound) {e : Expr} (member : e ∈ m.pool) :
    State.Sound { m with insts := [[e]] } := by
  refine ⟨sound.refs, sound.fresh, sound.closed, fun x hx => ?_, sound.known⟩
  rcases mem_emitted.mp hx with ⟨ops, hops, hx⟩ | initializer
  · cases List.mem_singleton.mp hops
    cases List.mem_singleton.mp hx
    exact member
  · exact sound.present x (mem_emitted.mpr (.inr initializer))

theorem becomes_settled (sound : m.Sound) (keeps : llvm.KeepsAddresses)
    (ours : llvm.ByteAddresses source bytes) {e E : Expr} (member : e ∈ m.pool)
    (overGlobal : Over r e) (indexed : Indexed llvm e) (becomes : Becomes llvm order m st e E) :
    Settled llvm source bytes r e E ∧ Helped st E := by
  obtain ⟨fuel, ok⟩ := becomes
  have known := sound.known r (sound.closed e member _ (Expr.root_mem_parts overGlobal.root))
  obtain ⟨j, atj⟩ := List.mem_iff_getElem?.mp known
  have awaited :
      Awaited llvm source bytes r e 0 { m with insts := [[e]], ces := [], ceMap := [] } :=
    ⟨e, rfl, .inr ⟨⟨overGlobal, rfl, indexed⟩, member, j, r, Nat.zero_le j, atj, overGlobal.root⟩⟩
  obtain ⟨E', uses, settled, helped⟩ := turns_awaited keeps ours (sound.uses member).held awaited ok
  cases uses
  exact ⟨settled, helped⟩

theorem exists_becomes {ids : Ids} (accepts : Accepts llvm order m st ids) (e : Expr) :
    ∃ E, Becomes llvm order m st e E := by
  obtain ⟨fuel, ok, -⟩ := accepts
  obtain ⟨f, follows⟩ := turns_follows ok
  exact ⟨f e, fuel, follows [[e]]⟩

/-- `printConstant` has a pattern for the cast of the global, if the offset is 0. -/
def Printable (llvm : Llvm) (r : Nat) (e : Expr) : Prop :=
  e.isBitcast = true ∨ offset llvm e ≠ 0 ∨ ∀ ty, e.ty? = some ty →
    (llvm.pointerCast (.global r) ty).fits = true

theorem Settled.printable_iff {e E : Expr} (overGlobal : Over r e)
    (settled : Settled llvm source bytes r e E) :
    Printable llvm r e ↔ offset llvm e ≠ 0 ∨ E.fits = true := by
  cases isBitcast : e.isBitcast with
  | true =>
    have fits : E.fits = true := by
      cases E with
      | bitcast value ty => rfl
      | global s | function s | null | getElementPtr source base indices ty
          | other opcode first second third =>
        cases settled.isBitcast isBitcast
    exact ⟨fun _ => .inr fits, fun _ => .inl isBitcast⟩
  | false =>
    unfold Printable
    by_cases zero : offset llvm e = 0
    · obtain ⟨ty, isTy⟩ : ∃ ty, e.ty? = some ty := by
        cases e with
        | bitcast value ty => exact ⟨ty, rfl⟩
        | getElementPtr source base indices ty => exact ⟨ty, rfl⟩
        | global s | function s | null | other opcode first second third => cases overGlobal
      rw [settled.fits isBitcast zero ty isTy]
      simp [isBitcast, zero, isTy]
    · simp [zero]

theorem offset_lt (ours : llvm.ByteAddresses source bytes) (e : Expr) : offset llvm e < 2 ^ 64 := by
  cases e with
  | getElementPtr source base indices ty => exact ours.offset_lt source indices
  | global s | function s | null | bitcast value ty | other opcode first second third =>
      exact Nat.two_pow_pos 64

theorem printable_of_keepsTarget {ids : Ids}
    (sound : m.Sound) (keeps : llvm.KeepsAddresses) (ours : llvm.ByteAddresses source bytes)
    {e : Expr} (member : e ∈ m.pool) (overGlobal : Over r e) (indexed : Indexed llvm e)
    (kept : KeepsTarget llvm order m st ids e r) :
    Printable llvm r e := by
  obtain ⟨E, id, becomes, isId, g, hg, entry, init, print⟩ := kept
  obtain ⟨settled, -⟩ := becomes_settled sound keeps ours member overGlobal indexed becomes
  rw [print_points _ settled.isExpr (offset_lt ours e) settled.points] at print
  refine (settled.printable_iff overGlobal).mpr ?_
  by_contra none
  rw [if_neg none] at print
  cases print

/-- `__clambc_kind` has no id. -/
def IsKind (m : State) (r : Nat) : Prop :=
  ∃ k, getGlobalVariable m "__clambc_kind" = some k ∧ k.ref = r

theorem id_iff_notKind {ids : Ids} (sound : m.Sound) (keeps : llvm.KeepsAddresses)
    (accepts : Accepts llvm order m st ids) {e : Expr} (member : e ∈ m.pool)
    (overGlobal : Over r e) : (∃ id, ids.globals.lookup r = some id) ↔ ¬ IsKind m r := by
  obtain ⟨fuel, analyzed, printed⟩ := accepts
  have held := (turns_invariant
    (fun held hg _ ok => turn_invariant keeps (fun _ _ _ _ => trivial) held hg trivial ok)
    sound.held trivial analyzed).1
  constructor
  · rintro ⟨id, isId⟩ ⟨k, isKind, rfl⟩
    exact kind_noId held isKind printed (Option.isSome_iff_exists.mpr ⟨id, isId⟩)
  · intro notKind
    obtain ⟨p, numbered, table, -⟩ := printGlobals_spec printed
    have known := sound.known r (sound.closed e member _ (Expr.root_mem_parts overGlobal.root))
    exact Option.isSome_iff_exists.mp (hasId_global held numbered table known fun k isKind same =>
      notKind ⟨k, isKind, same.symm⟩)

end

/-- A constant pointer into a global keeps its target if and only if the global has an id and the
writer has a pattern for it. -/
theorem keepsTarget_iff (llvm : Llvm) (order : AddressOrder) (m st : State)
    (ids : Ids) (source bytes r : Nat) (e : Expr) (sound : m.Sound) (keeps : llvm.KeepsAddresses)
    (ours : llvm.ByteAddresses source bytes) (accepts : Accepts llvm order m st ids)
    (member : e ∈ m.pool) (overGlobal : Over r e) (indexed : Indexed llvm e) :
    KeepsTarget llvm order m st ids e r ↔ ¬ IsKind m r ∧ Printable llvm r e := by
  constructor
  · intro kept
    refine ⟨(id_iff_notKind sound keeps accepts member overGlobal).mp ?_,
      printable_of_keepsTarget sound keeps ours member overGlobal indexed kept⟩
    obtain ⟨E, id, -, isId, -⟩ := kept
    exact ⟨id, isId⟩
  · rintro ⟨notKind, printable⟩
    obtain ⟨id, isId⟩ := (id_iff_notKind sound keeps accepts member overGlobal).mpr notKind
    obtain ⟨E, becomes⟩ := exists_becomes accepts e
    obtain ⟨settled, g, hg, entry, init⟩ :=
      becomes_settled sound keeps ours member overGlobal indexed becomes
    refine ⟨E, id, becomes, isId, g, hg, entry, init, ?_⟩
    rw [print_points _ settled.isExpr (offset_lt ours e) settled.points,
      if_pos ((settled.printable_iff overGlobal).mp printable), isId]
    rfl

theorem Expr.strip_strip (e : Expr) :
    e.stripPointerCasts.stripPointerCasts = e.stripPointerCasts := by
  induction e with
  | bitcast value ty ih => exact ih
  | getElementPtr source base indices ty ih =>
    by_cases zero : indices.all (fun i => i = some 0) = true
    · rw [strip_zero zero]
      exact ih
    · rw [strip_other zero, strip_other zero]
  | global s | function s | null | other opcode first second third => rfl

theorem Expr.strip_mem_parts (e : Expr) : e.stripPointerCasts ∈ e.parts := by
  induction e with
  | bitcast value ty ih => exact List.mem_cons_of_mem _ ih
  | getElementPtr source base indices ty ih =>
    by_cases zero : indices.all (fun i => i = some 0) = true
    · rw [strip_zero zero]
      exact List.mem_cons_of_mem _ ih
    · rw [strip_other zero]
      exact Expr.self_mem_parts _
  | global s | function s | null | other opcode first second third => exact Expr.self_mem_parts _

theorem Expr.root_strip (e : Expr) : e.stripPointerCasts.root = e.root := by
  induction e with
  | bitcast value ty ih => exact ih
  | getElementPtr source base indices ty ih =>
    by_cases zero : indices.all (fun i => i = some 0) = true
    · rw [strip_zero zero]
      exact ih
    · rw [strip_other zero]
  | global s | function s | null | other opcode first second third => rfl

/-- A global of type `[2 x [3 x i32]]`, which is type 1. Types 2 and 3 are the pointers to a row and
to a number, 0 and 4 are `i8*` and `i8**`. A cast of the global to a pointer to its first row or its
first number is written with zero indices. -/
def gridLlvm : Llvm where
  pointerCast := fun e ty =>
    match e.stripPointerCasts with
    | .global 0 =>
      if ty = 2 then .getElementPtr 1 (.global 0) [some 0, some 0] 2
      else if ty = 3 then .getElementPtr 1 (.global 0) [some 0, some 0, some 0] 3
      else .bitcast (.global 0) ty
    | stripped => if stripped.ty? = some ty then stripped else .bitcast stripped ty
  getElementPtr := fun e n => if n = 0 then e else .getElementPtr 0 e [some n] 4
  fold := id
  getIndexedOffset :=
    fun _ indices => (12 * (indices.getD 1 none).getD 0 + 4 * (indices.getD 2 none).getD 0) % 2 ^ 64
  i8Ptr := 0

/-- The cast of a grid has the type, and is the address itself under casts. -/
theorem gridLlvm_cast (e : Expr) (ty : Nat) :
    (gridLlvm.pointerCast e ty).stripPointerCasts = e.stripPointerCasts ∧
      (gridLlvm.pointerCast e ty).ty? = some ty ∧
      ∀ r, .global r ∈ (gridLlvm.pointerCast e ty).parts →
        .global r ∈ e.stripPointerCasts.parts := by
  have twice := e.strip_strip
  have underCast : ∀ {v : Expr} {ty r : Nat}, .global r ∈ (Expr.bitcast v ty).parts →
      .global r ∈ v.parts := fun part =>
    (List.mem_cons.mp part).resolve_left nofun
  have underIndices : ∀ {v : Expr} {source ty r : Nat} {indices : List (Option Nat)},
      .global r ∈ (Expr.getElementPtr source v indices ty).parts →
        .global r ∈ v.parts := fun part =>
    (List.mem_cons.mp part).resolve_left nofun
  unfold gridLlvm
  dsimp only
  split
  · rename_i isGrid
    rw [isGrid]
    split
    · rename_i isRow
      exact ⟨rfl, congrArg some isRow.symm, fun r part => underIndices part⟩
    · split
      · rename_i isNumber
        exact ⟨rfl, congrArg some isNumber.symm, fun r part => underIndices part⟩
      · exact ⟨rfl, rfl, fun r part => underCast part⟩
  · split
    · rename_i isTy
      exact ⟨twice, isTy, fun r part => part⟩
    · exact ⟨twice, rfl, fun r part => underCast part⟩

theorem points_of_strip {source bytes r n : Nat} {e e' : Expr}
    (same : e'.stripPointerCasts = e.stripPointerCasts) (points : Points source bytes r n e) :
    Points source bytes r n e' := by
  cases points with
  | whole stripped => exact .whole (same.trans stripped)
  | element stripped ne global => exact .element (same.trans stripped) ne global

theorem indexed_global {llvm : Llvm} {source s ty : Nat} {indices : List (Option Nat)} :
    Indexed llvm (.getElementPtr source (.global s) indices ty) := by
  intro long isBytes
  cases isBytes

theorem gridLlvm_keepsAddresses : gridLlvm.KeepsAddresses where
  pointerCast := fun ty => by
    refine ⟨fun e r part => Expr.parts_trans e.strip_mem_parts ((gridLlvm_cast e ty).2.2 r part),
      fun e r root => ?_⟩
    rw [← Expr.root_strip, (gridLlvm_cast e ty).1, Expr.root_strip]
    exact root
  getElementPtr := fun n => by
    unfold gridLlvm
    dsimp only
    split
    · exact ⟨fun _ _ part => part, fun _ _ root => root⟩
    · exact ⟨fun _ _ part => (List.mem_cons.mp part).resolve_left nofun, fun _ _ root => root⟩
  fold := ⟨fun _ _ part => part, fun _ _ root => root⟩

theorem gridLlvm_byteAddresses : gridLlvm.ByteAddresses 0 4 where
  pointerCast := fun r n e ty points => points_of_strip (gridLlvm_cast e ty).1 points
  fold := fun _ _ _ points => points
  getElementPtr := fun _ _ => rfl
  castType := fun e ty _ => (gridLlvm_cast e ty).2.1
  castIndexed := fun r n e ty points => by
    unfold gridLlvm
    dsimp only
    split
    · split
      · exact indexed_global
      · split
        · exact indexed_global
        · trivial
    · split
      · cases points with
        | whole stripped =>
          rw [stripped]
          trivial
        | element stripped ne global =>
          rw [stripped]
          intro long
          cases long with
          | step long => cases long
      · trivial
  castFits := fun r e ty stripped _ => by
    have same : gridLlvm.pointerCast (gridLlvm.pointerCast e 0) ty =
        gridLlvm.pointerCast (.global r) ty := by
      have bytes := (gridLlvm_cast e 0).1.trans stripped
      show (match (gridLlvm.pointerCast e 0).stripPointerCasts with
        | .global 0 => _ | stripped => _) = _
      rw [bytes]
      rfl
    exact congrArg Expr.fits same
  foldType := fun _ => .inr rfl
  zeroOffset := fun source indices zero => by
    have none : ∀ k, (indices.getD k none).getD 0 = 0 := by
      intro k
      rw [List.getD_eq_getElem?_getD]
      cases atk : indices[k]? with
      | none => rfl
      | some i =>
        have isZero := List.all_eq_true.mp zero i (List.mem_of_getElem? atk)
        rw [of_decide_eq_true isZero]
        rfl
    show (12 * _ + 4 * _) % 2 ^ 64 = 0
    rw [none, none]
    rfl
  offset_lt := fun source indices => Nat.mod_lt _ (Nat.two_pow_pos 64)

/-- A grid of which an instruction uses the address of an element. -/
def gridModule (indices : List (Option Nat)) : State :=
  ⟨[.global 0, .getElementPtr 1 (.global 0) indices 3],
    [⟨0, "grid", true, true, some ⟨7, []⟩, true, false, false⟩],
    [[.getElementPtr 1 (.global 0) indices 3]], [], [], 1⟩

theorem gridModule_sound (indices : List (Option Nat)) : (gridModule indices).Sound := by
  have parts : (Expr.getElementPtr 1 (.global 0) indices 3).parts =
    [.getElementPtr 1 (.global 0) indices 3, .global 0] := rfl
  constructor
  case refs => exact List.nodup_singleton _
  case fresh => 
    intro g hg
    rw [List.mem_singleton.mp hg]
    exact Nat.one_pos
  case closed =>
    intro e he p hp
    rcases List.mem_cons.mp he with rfl | he
    · rw [List.mem_singleton.mp hp]
      exact List.mem_cons_self
    · rw [List.mem_singleton.mp he, parts] at hp
      rcases List.mem_cons.mp hp with rfl | hp
      · exact List.mem_cons_of_mem _ List.mem_cons_self
      · rw [List.mem_singleton.mp hp]
        exact List.mem_cons_self
  case present =>
    intro e he
    rcases mem_emitted.mp he with ⟨ops, hops, he⟩ | ⟨g, hg, -, he⟩
    · rw [List.mem_singleton.mp hops] at he
      rw [List.mem_singleton.mp he]
      exact List.mem_cons_of_mem _ List.mem_cons_self
    · rw [List.mem_singleton.mp hg] at he
      cases he
  case known =>
    intro r member
    rcases List.mem_cons.mp member with eq | member
    · cases eq
      exact List.mem_singleton_self _
    · cases List.mem_singleton.mp member

def gridAnalyzed (indices : List (Option Nat)) : State :=
  (turns gridLlvm creationOrder 4 0 (gridModule indices)).toOption.getD (gridModule indices)

def gridPrinted (indices : List (Option Nat)) : Ids :=
  (printGlobals (gridAnalyzed indices)).toOption.getD ⟨[], [], 0⟩

/-- `&grid[1][2]` is written as byte 20. -/
theorem keepsTarget_iff_grid :
    Accepts gridLlvm creationOrder (gridModule [some 0, some 1, some 2])
      (gridAnalyzed [some 0, some 1, some 2])
      (gridPrinted [some 0, some 1, some 2]) ∧
    offset gridLlvm (.getElementPtr 1 (.global 0) [some 0, some 1, some 2] 3) = 20 ∧
    KeepsTarget gridLlvm creationOrder (gridModule [some 0, some 1, some 2])
      (gridAnalyzed [some 0, some 1, some 2])
      (gridPrinted [some 0, some 1, some 2])
        (.getElementPtr 1 (.global 0) [some 0, some 1, some 2] 3) 0 := by
  have accepts : Accepts gridLlvm creationOrder (gridModule [some 0, some 1, some 2])
      (gridAnalyzed [some 0, some 1, some 2])
      (gridPrinted [some 0, some 1, some 2]) := ⟨4, by rfl, by rfl⟩
  refine ⟨accepts, rfl, (keepsTarget_iff gridLlvm creationOrder _ _ _ 0 4 0 _ (gridModule_sound _)
    gridLlvm_keepsAddresses
    gridLlvm_byteAddresses accepts (List.mem_cons_of_mem _ List.mem_cons_self) rfl
      indexed_global).mpr ⟨?_, .inr (.inl (by decide))⟩⟩
  rintro ⟨k, isKind, -⟩
  cases isKind

/-- `&grid[0][0]` gets a helper that the writer stops at. -/
theorem firstElement_notWritten : ¬ ∀ (llvm : Llvm) (order : AddressOrder) (m st : State)
    (ids : Ids) (source bytes r : Nat) (e : Expr),
    m.Sound → llvm.KeepsAddresses → llvm.ByteAddresses source bytes → Accepts llvm order m st ids →
      e ∈ m.pool → Over r e →
    Indexed llvm e → KeepsTarget llvm order m st ids e r := by
  intro all
  have accepts : Accepts gridLlvm creationOrder (gridModule [some 0, some 0, some 0])
      (gridAnalyzed [some 0, some 0, some 0])
      (gridPrinted [some 0, some 0, some 0]) := ⟨4, by rfl, by rfl⟩
  have member : .getElementPtr 1 (.global 0) [some 0, some 0, some 0] 3 ∈
      (gridModule [some 0, some 0, some 0]).pool :=
    List.mem_cons_of_mem _ List.mem_cons_self
  have kept := all gridLlvm creationOrder _ _ _ 0 4 0 _ (gridModule_sound _) gridLlvm_keepsAddresses
    gridLlvm_byteAddresses accepts
    member rfl indexed_global
  rcases printable_of_keepsTarget (gridModule_sound _) gridLlvm_keepsAddresses
    gridLlvm_byteAddresses member rfl indexed_global
    kept with isBitcast | ne | fits
  · cases isBitcast
  · exact ne rfl
  · cases fits 3 rfl

end GlobalIds
