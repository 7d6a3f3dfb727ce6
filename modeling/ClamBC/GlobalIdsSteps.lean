import ClamBC.GlobalIds

/-!
# One step of the analysis

What the treatment of one constant expression keeps, and that whatever it leaves in instructions
and initializers of the expression it treats has a helper.
-/

namespace GlobalIds

open Fallible

/-! ## Parts and addresses -/

namespace Expr

theorem self_mem_parts (e : Expr) : e ∈ e.parts := by cases e <;> simp [parts]

theorem parts_trans {e p q : Expr} (hp : p ∈ e.parts) (hq : q ∈ p.parts) : q ∈ e.parts := by
  induction e with
  | bitcast value ty ih =>
    rcases List.mem_cons.mp hp with rfl | hp
    · exact hq
    · exact List.mem_cons_of_mem _ (ih hp)
  | getElementPtr source base indices ty ih =>
    rcases List.mem_cons.mp hp with rfl | hp
    · exact hq
    · exact List.mem_cons_of_mem _ (ih hp)
  | other opcode first second third ih1 ih2 ih3 =>
    rcases List.mem_cons.mp hp with rfl | hp
    · exact hq
    · refine List.mem_cons_of_mem _ ?_
      rcases List.mem_append.mp hp with hp | hp
      · rcases List.mem_append.mp hp with hp | hp
        · exact List.mem_append_left _ (List.mem_append_left _ (ih1 hp))
        · exact List.mem_append_left _ (List.mem_append_right _ (ih2 hp))
      · exact List.mem_append_right _ (ih3 hp)
  | global r | function r | null =>
    rw [List.mem_singleton.mp hp] at hq
    exact hq

theorem operand_mem_parts {e o : Expr} (ho : o ∈ e.operands) : o ∈ e.parts := by
  cases e with
  | bitcast value ty =>
    rw [List.mem_singleton.mp ho]
    exact List.mem_cons_of_mem _ (self_mem_parts _)
  | getElementPtr source base indices ty =>
    rw [List.mem_singleton.mp ho]
    exact List.mem_cons_of_mem _ (self_mem_parts _)
  | other opcode first second third =>
    simp only [operands, List.mem_cons, List.not_mem_nil, or_false] at ho
    refine List.mem_cons_of_mem _ ?_
    rcases ho with rfl | rfl | rfl
    · exact List.mem_append_left _ (List.mem_append_left _ (self_mem_parts _))
    · exact List.mem_append_left _ (List.mem_append_right _ (self_mem_parts _))
    · exact List.mem_append_right _ (self_mem_parts _)
  | global r | function r | null => cases ho

theorem root_mem_parts {e : Expr} {r : Nat} (root : e.root = some r) : .global r ∈ e.parts := by
  induction e with
  | global s =>
    cases root
    exact List.mem_singleton_self _
  | bitcast value ty ih => exact List.mem_cons_of_mem _ (ih root)
  | getElementPtr source base indices ty ih => exact List.mem_cons_of_mem _ (ih root)
  | function s | null | other opcode first second third => cases root

end Expr

section
variable {llvm : Llvm} {pool : List Expr} {old new : Expr}

theorem unique_fst (moved : Bool) (e : Expr) :
    (unique llvm pool moved e).1 = e ∨ (unique llvm pool moved e).1 = llvm.fold e := by
  unfold unique
  split
  · exact .inr rfl
  · exact .inl rfl

theorem unique_root (keeps : llvm.KeepsAddresses) {moved : Bool} {e : Expr} {r : Nat}
    (root : e.root = some r) :
    (unique llvm pool moved e).1.root = some r := by
  rcases @unique_fst llvm pool moved e with eq | eq
  · rw [eq]
    exact root
  · rw [eq]
    exact keeps.fold.root e r root

theorem unique_globals (keeps : llvm.KeepsAddresses) {moved : Bool} {e : Expr} {r : Nat}
    (part : .global r ∈ (unique llvm pool moved e).1.parts) : .global r ∈ e.parts := by
  rcases @unique_fst llvm pool moved e with eq | eq
  · rw [eq] at part
    exact part
  · rw [eq] at part
    exact keeps.fold.globals e r part

theorem rebuild_leaf {e : Expr} (leaf : e.isConstantExpr = false) (other : e ≠ old) :
    rebuild llvm pool old new e = (e, false) := by
  cases e with
  | global r | function r | null =>
    unfold rebuild
    rw [if_neg other]
  | bitcast value ty | getElementPtr source base indices ty
      | other opcode first second third => cases leaf

/-- Only what contains the replaced expression changes. -/
theorem rebuild_absent {e : Expr} (absent : old ∉ e.parts) :
    rebuild llvm pool old new e = (e, false) := by
  induction e with
  | bitcast value ty ih =>
    simp only [Expr.parts, List.mem_cons, not_or] at absent
    simp [rebuild, unique, Ne.symm absent.1, ih absent.2]
  | getElementPtr source base indices ty ih =>
    simp only [Expr.parts, List.mem_cons, not_or] at absent
    simp [rebuild, unique, Ne.symm absent.1, ih absent.2]
  | other opcode first second third ih1 ih2 ih3 =>
    simp only [Expr.parts, List.mem_cons, List.mem_append, not_or] at absent
    simp [rebuild, unique, Ne.symm absent.1, ih1 absent.2.1.1, ih2 absent.2.1.2, ih3 absent.2.2]
  | global r | function r | null =>
    simp only [Expr.parts, List.mem_singleton] at absent
    exact rebuild_leaf rfl (Ne.symm absent)

theorem rebuild_root (keeps : llvm.KeepsAddresses)
    (same : ∀ r, old.root = some r → new.root = some r) {e : Expr} {r : Nat}
    (root : e.root = some r) : (rebuild llvm pool old new e).1.root = some r := by
  induction e with
  | global s | function s | null =>
    unfold rebuild
    split
    · rename_i isOld
      exact same r (isOld ▸ root)
    · exact root
  | bitcast value ty ih =>
    unfold rebuild
    split
    · rename_i isOld
      exact same r (isOld ▸ root)
    · exact unique_root keeps (ih root)
  | getElementPtr source base indices ty ih =>
    unfold rebuild
    split
    · rename_i isOld
      exact same r (isOld ▸ root)
    · exact unique_root keeps (ih root)
  | other opcode first second third => cases root

theorem rebuild_globals (keeps : llvm.KeepsAddresses)
    {e : Expr} {r : Nat} (part : .global r ∈ (rebuild llvm pool old new e).1.parts) :
    .global r ∈ e.parts ∨ .global r ∈ new.parts := by
  induction e with
  | global s | function s | null =>
    unfold rebuild at part
    split at part
    · exact .inr part
    · exact .inl part
  | bitcast value ty ih =>
    unfold rebuild at part
    split at part
    · exact .inr part
    · rcases List.mem_cons.mp (unique_globals keeps part) with eq | part
      · cases eq
      · exact (ih part).imp_left (List.mem_cons_of_mem _)
  | getElementPtr source base indices ty ih =>
    unfold rebuild at part
    split at part
    · exact .inr part
    · rcases List.mem_cons.mp (unique_globals keeps part) with eq | part
      · cases eq
      · exact (ih part).imp_left (List.mem_cons_of_mem _)
  | other opcode first second third ih1 ih2 ih3 =>
    unfold rebuild at part
    split at part
    · exact .inr part
    · rcases List.mem_cons.mp (unique_globals keeps part) with eq | part
      · cases eq
      · simp only [Expr.parts, List.mem_cons, List.mem_append]
        rcases List.mem_append.mp part with part | part
        · rcases List.mem_append.mp part with part | part
          · exact (ih1 part).imp_left fun h => .inr (.inl (.inl h))
          · exact (ih2 part).imp_left fun h => .inr (.inl (.inr h))
        · exact (ih3 part).imp_left fun h => .inr (.inr h)

theorem fate_globals (keeps : llvm.KeepsAddresses)
    {e : Expr} {r : Nat} (part : .global r ∈ (fate llvm pool old new e).1.parts) :
    .global r ∈ e.parts ∨ .global r ∈ new.parts := by
  unfold fate at part
  split at part
  · exact .inl part
  · exact rebuild_globals keeps part

theorem fate_other {e : Expr} (other : e ≠ old) :
    fate llvm pool old new e = rebuild llvm pool old new e := if_neg other

end

section
variable {llvm : Llvm} {source : Nat} {base : Expr} {indices : List (Option Nat)} {ty : Nat}

/-- The pieces of a byte offset, in the order in which they are made. -/
def pieces (llvm : Llvm) (source : Nat) (base : Expr) (indices : List (Option Nat))
    (ty : Nat) : List Expr :=
  (byteOffset llvm source base indices ty).1.parts ++
    (byteOffset llvm source base indices ty).2.1.parts
    ++ (byteOffset llvm source base indices ty).2.2.parts

theorem mem_pieces {e : Expr} : e ∈ pieces llvm source base indices ty ↔
    e ∈ (byteOffset llvm source base indices ty).1.parts ∨
      e ∈ (byteOffset llvm source base indices ty).2.1.parts ∨
      e ∈ (byteOffset llvm source base indices ty).2.2.parts := by
  simp only [pieces, List.mem_append, or_assoc]

theorem pieces_closed {e p : Expr} (he : e ∈ pieces llvm source base indices ty)
    (hp : p ∈ e.parts) :
    p ∈ pieces llvm source base indices ty := by
  refine mem_pieces.mpr ?_
  rcases mem_pieces.mp he with he | he | he
  · exact .inl (Expr.parts_trans he hp)
  · exact .inr (.inl (Expr.parts_trans he hp))
  · exact .inr (.inr (Expr.parts_trans he hp))

/-- The globals in the pieces are those of the base. -/
theorem pieces_globals (keeps : llvm.KeepsAddresses) {e : Expr}
    (he : e ∈ pieces llvm source base indices ty) {r : Nat} (part : .global r ∈ e.parts) :
    .global r ∈ base.parts := by
  rcases mem_pieces.mp he with he | he | he
  · exact (keeps.pointerCast _).globals _ r (Expr.parts_trans he part)
  · exact (keeps.pointerCast _).globals _ r
      ((keeps.getElementPtr _).globals _ r (Expr.parts_trans he part))
  · exact (keeps.pointerCast _).globals _ r
      ((keeps.getElementPtr _).globals _ r
        ((keeps.pointerCast _).globals _ r (Expr.parts_trans he part)))

theorem byteOffset_root (keeps : llvm.KeepsAddresses) {r : Nat} (root : base.root = some r) :
    (byteOffset llvm source base indices ty).2.2.root = some r :=
  (keeps.pointerCast _).root _ r
    ((keeps.getElementPtr _).root _ r ((keeps.pointerCast _).root _ r root))

end

/-! ## What one constant expression changes -/

def keys (st : State) : List Expr := st.ceMap.map Prod.fst

def refs (st : State) : List Nat := st.globals.map Global.ref

/-- The globals of one state are those of another one, followed by local ones. -/
def Extends (m st : State) : Prop :=
  ∃ added, st.globals.map (fun g => (g.ref, g.name, g.hasLocalLinkage)) =
    m.globals.map (fun g => (g.ref, g.name, g.hasLocalLinkage)) ++ added ∧ ∀ t ∈ added, t.2.2 = true

section
variable {m st st' : State}

theorem Extends.trans (first : Extends m st) (second : Extends st st') : Extends m st' := by
  obtain ⟨added, eq, isLocal⟩ := first
  obtain ⟨added', eq', isLocal'⟩ := second
  refine ⟨added ++ added', by rw [eq', eq, List.append_assoc], fun t ht => ?_⟩
  rcases List.mem_append.mp ht with ht | ht
  · exact isLocal t ht
  · exact isLocal' t ht

theorem find_projected (gs : List Global) (name : String) :
    (gs.find? fun g => g.name = name ∧ g.hasLocalLinkage = false).map
      (fun g => (g.ref, g.name, g.hasLocalLinkage)) =
      (gs.map fun g => (g.ref, g.name, g.hasLocalLinkage)).find? fun t => t.2.1 = name ∧
        t.2.2 = false := by
  rw [List.find?_map]
  rfl

/-- The helpers hide nothing: they are local. -/
theorem Extends.getGlobalVariable (extends_ : Extends m st) (name : String) :
    (getGlobalVariable st name).map Global.ref = (getGlobalVariable m name).map Global.ref := by
  obtain ⟨added, eq, isLocal⟩ := extends_
  have none : added.find? (fun t => t.2.1 = name ∧ t.2.2 = false) = none := by
    refine List.find?_eq_none.mpr fun t ht => ?_
    rw [isLocal t ht]
    simp
  have same := find_projected st.globals name
  rw [eq, List.find?_append, none, Option.or_none, ← find_projected] at same
  have first := congrArg (Option.map Prod.fst) same
  rw [Option.map_map, Option.map_map] at first
  exact first

theorem Extends.specialGlobals (extends_ : Extends m st) :
    specialGlobals st = specialGlobals m := by
  have each : ∀ (name : String) (id : Nat),
      (GlobalIds.getGlobalVariable st name).map (fun g => (g.ref, id)) =
      (GlobalIds.getGlobalVariable m name).map fun g => (g.ref, id) := by
    intro name id
    have same := congrArg (Option.map fun r => (r, id)) (extends_.getGlobalVariable name)
    rw [Option.map_map, Option.map_map] at same
    exact same
  unfold GlobalIds.specialGlobals specialIds
  simp only [each, extends_.getGlobalVariable]

theorem Extends.refs (extends_ : Extends m st) : ∃ added, refs st = refs m ++ added := by
  obtain ⟨added, eq, -⟩ := extends_
  have projected := congrArg (List.map Prod.fst) eq
  rw [List.map_append, List.map_map, List.map_map] at projected
  exact ⟨added.map Prod.fst, projected⟩

theorem getGlobalVariable_mem {name : String} {g : Global}
    (found : getGlobalVariable st name = some g) :
    g ∈ st.globals ∧ g.name = name ∧ g.hasLocalLinkage = false := by
  have holds := List.find?_some found
  exact ⟨List.mem_of_find?_eq_some found, of_decide_eq_true holds⟩

theorem mem_emitted {x : Expr} : x ∈ emitted st ↔
    (∃ ops ∈ st.insts, x ∈ ops) ∨ ∃ g ∈ st.globals, g.ref ∉ specialGlobals st ∧ x ∈ g.leaves := by
  simp [emitted, and_assoc]

theorem addHelper_extends (name : String) (e : Expr) (st : State) :
    Extends st (addHelper name e st) :=
  ⟨[(st.nextRef, name, true)], by simp [addHelper], fun t ht => by rw [List.mem_singleton.mp ht]⟩

theorem emitted_addHelper {name : String} {e x : Expr} (hx : x ∈ emitted (addHelper name e st)) :
    x ∈ emitted st ∨ x = e := by
  rcases mem_emitted.mp hx with used | ⟨g, hg, ordinary, hx⟩
  · exact .inl (mem_emitted.mpr (.inl used))
  · rw [(addHelper_extends name e st).specialGlobals] at ordinary
    rcases List.mem_append.mp hg with hg | hg
    · exact .inl (mem_emitted.mpr (.inr ⟨g, hg, ordinary, hx⟩))
    · rw [List.mem_singleton.mp hg] at hx
      exact .inr (List.mem_singleton.mp hx)

theorem refs_addHelper (name : String) (e : Expr) (st : State) :
    refs (addHelper name e st) = refs st ++ [st.nextRef] := by
  simp [refs, addHelper]

theorem leaves_rename (f : Expr → Expr) (g : Global) : (g.rename f).leaves = g.leaves.map f := by
  unfold Global.leaves Global.rename
  cases g.init <;> rfl

end

/-- What holds after every step. -/
structure Held (m st : State) : Prop where
  distinct : (refs st).Nodup
  fresh : ∀ r ∈ refs st, r < st.nextRef
  closed : ∀ e ∈ st.pool, ∀ p ∈ e.parts, p ∈ st.pool
  present : ∀ e ∈ emitted st, e ∈ st.pool
  collected : ∀ e ∈ st.ces, e ∈ st.pool
  helpers : ∀ e h, (e, h) ∈ st.ceMap → ∃ g ∈ st.globals, g.ref = h ∧ g.hasLocalLinkage = true
  extends_ : Extends m st
  known : ∀ r, .global r ∈ st.pool → r ∈ refs m

section
variable {llvm : Llvm} {m st st' : State} {old new : Expr}

theorem Held.addHelper {name : String} {e : Expr} (held : Held m st) (member : e ∈ st.pool) :
    Held m (addHelper name e st) := by
  have refs' := refs_addHelper name e st
  constructor
  case distinct =>
    rw [refs', List.nodup_append]
    refine ⟨held.distinct, List.nodup_singleton _, fun r hr r' hr' same => ?_⟩
    have := held.fresh r hr
    rw [List.mem_singleton.mp hr'] at same
    omega
  case fresh =>
    intro r hr
    rw [refs'] at hr
    show r < st.nextRef + 1
    rcases List.mem_append.mp hr with hr | hr
    · exact Nat.lt_succ_of_lt (held.fresh r hr)
    · rw [List.mem_singleton.mp hr]
      exact Nat.lt_succ_self _
  case closed => exact held.closed
  case present =>
    intro x hx
    rcases emitted_addHelper hx with hx | rfl
    · exact held.present x hx
    · exact member
  case collected => exact held.collected
  case helpers =>
    intro x h hx
    rcases List.mem_cons.mp hx with eq | hx
    · obtain ⟨rfl, rfl⟩ := Prod.mk.inj eq
      exact ⟨_, List.mem_append_right _ (List.mem_singleton_self _), rfl, rfl⟩
    · obtain ⟨g, hg, props⟩ := held.helpers x h hx
      exact ⟨g, List.mem_append_left _ hg, props⟩
  case extends_ => exact held.extends_.trans (addHelper_extends name e st)
  case known => exact held.known

theorem Unused.addHelper {name : String} {e : Expr} {k : Nat} (unused : Unused st k)
    (isExpr : e.isConstantExpr = true) :
    Unused (addHelper name e st) k := by
  refine ⟨fun used => ?_, unused.2⟩
  rcases emitted_addHelper used with used | rfl
  · exact unused.1 used
  · cases isExpr

section
variable {source : Nat} {base : Expr} {indices : List (Option Nat)} {ty : Nat}

theorem Held.extendPool (held : Held m st) (keeps : llvm.KeepsAddresses)
    (member : .getElementPtr source base indices ty ∈ st.pool) :
    Held m { st with pool := st.pool ++ pieces llvm source base indices ty } := by
  constructor
  case distinct => exact held.distinct
  case fresh => exact held.fresh
  case closed =>
    intro e he p hp
    rcases List.mem_append.mp he with he | he
    · exact List.mem_append_left _ (held.closed e he p hp)
    · exact List.mem_append_right _ (pieces_closed he hp)
  case present => exact fun e he => List.mem_append_left _ (held.present e he)
  case collected => exact fun e he => List.mem_append_left _ (held.collected e he)
  case helpers => exact held.helpers
  case extends_ => exact held.extends_
  case known =>
    intro r hr
    rcases List.mem_append.mp hr with hr | hr
    · exact held.known r hr
    · exact held.known r (held.closed _ member _
        (List.mem_cons_of_mem _ (pieces_globals keeps hr (Expr.self_mem_parts _))))

theorem Unused.extendPool {k : Nat} (unused : Unused st k) (keeps : llvm.KeepsAddresses)
    (member : .getElementPtr source base indices ty ∈ st.pool) :
    Unused { st with pool := st.pool ++ pieces llvm source base indices ty } k := by
  refine ⟨unused.1, fun e he part => ?_⟩
  rcases List.mem_append.mp he with he | he
  · exact unused.2 e he part
  · cases unused.2 _ member (List.mem_cons_of_mem _ (pieces_globals keeps he part))

end

/-- The state after a replacement, which frees nothing that is still looked at. -/
theorem replace_ok (ok : replaceAllUsesWith llvm old new st = .ok st') :
    old ∉ new.parts ∧ (∀ e ∈ st.ces ++ keys st, (fate llvm st.pool old new e).2 = false) ∧
    st' = { st with
      pool := st.pool.flatMap fun e => (fate llvm st.pool old new e).1.parts
      globals := st.globals.map (Global.rename fun e => (rebuild llvm st.pool old new e).1)
      insts := st.insts.map fun ops => ops.map fun e => (rebuild llvm st.pool old new e).1
      ces := st.ces.map fun e => (fate llvm st.pool old new e).1
      ceMap := st.ceMap.map fun p => ((fate llvm st.pool old new p.1).1, p.2) } := by
  unfold replaceAllUsesWith at ok
  split at ok
  · cases ok
  · rename_i outside
    split at ok
    · cases ok
    · rename_i noneFreed
      cases ok
      refine ⟨outside, fun e he => ?_, rfl⟩
      by_cases freed : (fate llvm st.pool old new e).2 = true
      · exact absurd (List.any_eq_true.mpr ⟨e, he, freed⟩) noneFreed
      · exact Bool.eq_false_iff.mpr freed

theorem replace_extends (ok : replaceAllUsesWith llvm old new st = .ok st') : Extends st st' := by
  obtain ⟨-, -, rfl⟩ := replace_ok ok
  refine ⟨[], ?_, nofun⟩
  rw [List.append_nil, List.map_map]
  rfl

theorem replace_emitted (ok : replaceAllUsesWith llvm old new st = .ok st') {x : Expr} :
    x ∈ emitted st' ↔ ∃ y ∈ emitted st, x = (rebuild llvm st.pool old new y).1 := by
  have special := (replace_extends ok).specialGlobals
  obtain ⟨-, -, rfl⟩ := replace_ok ok
  constructor
  · intro hx
    rcases mem_emitted.mp hx with ⟨ops, hops, hx⟩ | ⟨g, hg, ordinary, hx⟩
    · obtain ⟨ops', hops', rfl⟩ := List.mem_map.mp hops
      obtain ⟨y, hy, rfl⟩ := List.mem_map.mp hx
      exact ⟨y, mem_emitted.mpr (.inl ⟨ops', hops', hy⟩), rfl⟩
    · obtain ⟨g', hg', rfl⟩ := List.mem_map.mp hg
      rw [leaves_rename] at hx
      rw [special] at ordinary
      obtain ⟨y, hy, rfl⟩ := List.mem_map.mp hx
      exact ⟨y, mem_emitted.mpr (.inr ⟨g', hg', ordinary, hy⟩), rfl⟩
  · rintro ⟨y, hy, rfl⟩
    rcases mem_emitted.mp hy with ⟨ops, hops, hy⟩ | ⟨g, hg, ordinary, hy⟩
    · exact mem_emitted.mpr (.inl ⟨_, List.mem_map_of_mem hops, List.mem_map_of_mem hy⟩)
    · refine mem_emitted.mpr (.inr ⟨_, List.mem_map_of_mem hg, ?_, ?_⟩)
      · rw [special]
        exact ordinary
      · rw [leaves_rename]
        exact List.mem_map_of_mem hy

theorem refs_replace (ok : replaceAllUsesWith llvm old new st = .ok st') : refs st' = refs st := by
  obtain ⟨-, -, rfl⟩ := replace_ok ok
  simp only [refs, List.map_map]
  rfl

theorem replace_pool (ok : replaceAllUsesWith llvm old new st = .ok st') {e : Expr} :
    e ∈ st'.pool ↔ ∃ u ∈ st.pool, e ∈ (fate llvm st.pool old new u).1.parts := by
  obtain ⟨-, -, rfl⟩ := replace_ok ok
  exact List.mem_flatMap

theorem replace_new_mem (ok : replaceAllUsesWith llvm old new st = .ok st')
    (newMember : new ∈ st.pool) : new ∈ st'.pool := by
  obtain ⟨outside, -⟩ := replace_ok ok
  have other : new ≠ old := fun same => outside (same ▸ Expr.self_mem_parts new)
  refine (replace_pool ok).mpr ⟨new, newMember, ?_⟩
  rw [fate_other other, rebuild_absent outside]
  exact Expr.self_mem_parts new

/-- A global in a new constant stands in an old one. -/
theorem replace_globals
    (keeps : llvm.KeepsAddresses) (fromOld : ∀ r, .global r ∈ new.parts → .global r ∈ old.parts)
    (ok : replaceAllUsesWith llvm old new st = .ok st') {e : Expr} {r : Nat} (he : e ∈ st'.pool)
    (part : .global r ∈ e.parts) :
    ∃ u ∈ st.pool, e ∈ (fate llvm st.pool old new u).1.parts ∧
      (.global r ∈ u.parts ∨ .global r ∈ old.parts) := by
  obtain ⟨u, hu, inside⟩ := (replace_pool ok).mp he
  refine ⟨u, hu, inside, ?_⟩
  exact (fate_globals keeps (Expr.parts_trans inside part)).imp_right (fromOld r)

theorem Held.replace (held : Held m st) (keeps : llvm.KeepsAddresses) (oldMember : old ∈ st.pool)
    (newMember : new ∈ st.pool) (fromOld : ∀ r, .global r ∈ new.parts → .global r ∈ old.parts)
    (ok : replaceAllUsesWith llvm old new st = .ok st') :
    Held m st' := by
  have rebuilt : ∀ u ∈ st.pool, (rebuild llvm st.pool old new u).1 ∈ st'.pool := by
    intro u hu
    by_cases same : u = old
    · have eq : rebuild llvm st.pool old new u = (new, true) := by
        unfold rebuild
        rw [if_pos same]
      rw [eq]
      exact replace_new_mem ok newMember
    · refine (replace_pool ok).mpr ⟨u, hu, ?_⟩
      rw [fate_other same]
      exact Expr.self_mem_parts _
  constructor
  case distinct =>
    rw [refs_replace ok]
    exact held.distinct
  case fresh =>
    rw [refs_replace ok]
    obtain ⟨-, -, rfl⟩ := replace_ok ok
    exact held.fresh
  case closed =>
    intro e he p hp
    obtain ⟨u, hu, inside⟩ := (replace_pool ok).mp he
    exact (replace_pool ok).mpr ⟨u, hu, Expr.parts_trans inside hp⟩
  case present =>
    intro x hx
    obtain ⟨y, hy, rfl⟩ := (replace_emitted ok).mp hx
    exact rebuilt y (held.present y hy)
  case collected =>
    intro e he
    have collected : e ∈ st.ces.map fun e => (fate llvm st.pool old new e).1 := by
      obtain ⟨-, -, rfl⟩ := replace_ok ok
      exact he
    obtain ⟨u, hu, rfl⟩ := List.mem_map.mp collected
    exact (replace_pool ok).mpr ⟨u, held.collected u hu, Expr.self_mem_parts _⟩
  case helpers =>
    obtain ⟨-, -, rfl⟩ := replace_ok ok
    intro x h hx
    obtain ⟨⟨y, h'⟩, hy, eq⟩ := List.mem_map.mp hx
    obtain ⟨rfl, rfl⟩ := Prod.mk.inj eq
    obtain ⟨g, hg, same, isLocal⟩ := held.helpers y h' hy
    exact ⟨_, List.mem_map_of_mem hg, same, isLocal⟩
  case extends_ => exact held.extends_.trans (replace_extends ok)
  case known =>
    intro r hr
    obtain ⟨u, hu, -, part | part⟩ := replace_globals keeps fromOld ok hr (Expr.self_mem_parts _)
    · exact held.known r (held.closed u hu _ part)
    · exact held.known r (held.closed old oldMember _ part)

theorem Unused.replace (held : Held m st) {k : Nat} (unused : Unused st k)
    (keeps : llvm.KeepsAddresses) (oldMember : old ∈ st.pool) (isExpr : old.isConstantExpr = true)
    (fromOld : ∀ r, .global r ∈ new.parts → .global r ∈ old.parts)
    (ok : replaceAllUsesWith llvm old new st = .ok st') : Unused st' k := by
  have notGlobal : Expr.global k ≠ old := by
    rintro rfl
    cases isExpr
  have notOld : .global k ∉ old.parts := fun part => notGlobal (unused.2 old oldMember part).symm
  constructor
  · intro used
    obtain ⟨y, hy, eq⟩ := (replace_emitted ok).mp used
    have part : .global k ∈ (rebuild llvm st.pool old new y).1.parts := eq ▸ Expr.self_mem_parts _
    rcases rebuild_globals keeps part with part | part
    · rw [unused.2 y (held.present y hy) part] at hy
      exact unused.1 hy
    · exact notOld (fromOld _ part)
  · intro e he part
    obtain ⟨u, hu, inside, part | part⟩ := replace_globals keeps fromOld ok he part
    · rw [unused.2 u hu part, fate_other notGlobal, rebuild_leaf rfl notGlobal] at inside
      exact List.mem_singleton.mp inside
    · exact absurd part notOld

/-- A constant in the place of another one after a step: what is known of the other holds of it. -/
structure Succeeds (st st' : State) (y x : Expr) : Prop where
  expr : x.isConstantExpr = true → y.isConstantExpr = true
  key : y ∈ keys st → x ∈ keys st'
  collected : ∀ n : Nat, st.ces[n]? = some y → st'.ces[n]? = some x
  root : ∀ r, y.root = some r → x.root = some r

theorem Succeeds.refl (st : State) (x : Expr) : Succeeds st st x x :=
  ⟨id, id, fun _ h => h, fun _ h => h⟩

theorem replace_succeeds
    {y : Expr} (keeps : llvm.KeepsAddresses) (same : ∀ r, old.root = some r → new.root = some r)
    (ok : replaceAllUsesWith llvm old new st = .ok st') (other : y ≠ old) :
    Succeeds st st' y (rebuild llvm st.pool old new y).1 := by
  obtain ⟨-, -, rfl⟩ := replace_ok ok
  constructor
  case expr =>
    intro isExpr
    by_cases leaf : y.isConstantExpr = true
    · exact leaf
    · rw [rebuild_leaf (Bool.eq_false_iff.mpr leaf) other] at isExpr
      exact absurd isExpr leaf
  case key =>
    intro known
    obtain ⟨⟨y', h⟩, hp, rfl⟩ := List.mem_map.mp known
    refine List.mem_map.mpr ⟨_, List.mem_map_of_mem hp, ?_⟩
    rw [fate_other other]
  case collected =>
    intro n atn
    rw [List.getElem?_map, atn, Option.map_some, fate_other other]
  case root => exact fun r root => rebuild_root keeps same root

/-- What a step keeps, and that what it leaves of the expression it treats is in the map. -/
structure Advances (m st : State) (e : Expr) (st' : State) : Prop where
  held : Held m st'
  refs : ∃ added, refs st' = refs st ++ added
  length : st'.ces.length = st.ces.length
  emits : ∀ x ∈ emitted st', x ∈ keys st' ∨ ∃ y ∈ emitted st, y ≠ e ∧ Succeeds st st' y x
  unused : ∀ k, Unused st k → Unused st' k

theorem advances_replace (held : Held m st)
    (keeps : llvm.KeepsAddresses) (oldMember : old ∈ st.pool) (isExpr : old.isConstantExpr = true)
    (newMember : new ∈ st.pool) (fromOld : ∀ r, .global r ∈ new.parts → .global r ∈ old.parts)
    (same : ∀ r, old.root = some r → new.root = some r)
    (ok : replaceIfDifferent llvm old new st = .ok st') :
    Held m st' ∧ (∀ k, Unused st k → Unused st' k) ∧ new ∈ st'.pool ∧ refs st' = refs st ∧
      st'.ces.length = st.ces.length ∧
      ∀ x ∈ emitted st', x = new ∨ ∃ y ∈ emitted st, y ≠ old ∧ Succeeds st st' y x := by
  unfold replaceIfDifferent at ok
  split at ok
  · rename_i unchanged
    cases ok
    refine ⟨held, fun _ unused => unused, newMember, rfl, rfl, fun x hx => ?_⟩
    by_cases isNew : x = new
    · exact .inl isNew
    · exact .inr ⟨x, hx, unchanged ▸ isNew, .refl st x⟩
  · refine ⟨held.replace keeps oldMember newMember fromOld ok,
      fun k unused => unused.replace held keeps oldMember isExpr fromOld ok,
      replace_new_mem ok newMember, refs_replace ok, ?_, fun x hx => ?_⟩
    · obtain ⟨-, -, rfl⟩ := replace_ok ok
      exact List.length_map _
    · obtain ⟨y, hy, rfl⟩ := (replace_emitted ok).mp hx
      by_cases isOld : y = old
      · refine .inl ?_
        unfold rebuild
        rw [if_pos isOld]
      · exact .inr ⟨y, hy, isOld, replace_succeeds keeps same ok isOld⟩

/-- A helper for an expression that has just been treated. -/
theorem advances_addHelper {st1 : State} {name : String} {e n : Expr} (held : Held m st1)
    (member : n ∈ st1.pool) (isExpr : n.isConstantExpr = true) (sameRefs : refs st1 = refs st)
    (length : st1.ces.length = st.ces.length) (unused : ∀ k, Unused st k → Unused st1 k)
    (emits : ∀ x ∈ emitted st1, x = n ∨ ∃ y ∈ emitted st, y ≠ e ∧ Succeeds st st1 y x) :
    Advances m st e (addHelper name n st1) where
  held := held.addHelper member
  refs := ⟨_, by rw [refs_addHelper, sameRefs]⟩
  length := length
  unused := fun k h => (unused k h).addHelper isExpr
  emits := fun x hx => by
    have isKey : n ∈ keys (addHelper name n st1) := List.mem_cons_self
    rcases emitted_addHelper hx with hx | rfl
    · rcases emits x hx with rfl | ⟨y, hy, other, succeeds⟩
      · exact .inl isKey
      · refine .inr ⟨y, hy, other, succeeds.expr, fun known => ?_, succeeds.collected,
          succeeds.root⟩
        exact List.mem_cons_of_mem _ (succeeds.key known)
    · exact .inl isKey

/-- A successful step adds a helper, after a replacement if it is about an element. -/
theorem processExpr_cases {name : String} {e : Expr} (ok : processExpr llvm name st e = .ok st') :
    (∃ value ty, e = .bitcast value ty ∧ st' = addHelper (name ++ "_bc") e st) ∨
    ∃ source base indices ty helper st1, e = .getElementPtr source base indices ty ∧
      (byteOffset llvm source base indices ty).2.2.isConstantExpr = true ∧
      replaceIfDifferent llvm e (byteOffset llvm source base indices ty).2.2
        { st with pool := st.pool ++ pieces llvm source base indices ty } = .ok st1 ∧
      st' = addHelper helper (byteOffset llvm source base indices ty).2.2 st1 := by
  unfold processExpr at ok
  split at ok
  · rename_i value ty
    cases ok
    exact .inl ⟨value, ty, rfl, rfl⟩
  · rename_i source base c0 c1 rest ty
    split at ok
    · cases ok
    split at ok
    · cases ok
    dsimp only at ok
    split at ok
    · rename_i both
      obtain ⟨-, isExpr⟩ := Bool.and_eq_true_iff.mp both
      obtain ⟨st1, replaced, eq⟩ := bind_eq_ok.mp ok
      cases eq
      rw [List.append_assoc, List.append_assoc, ← List.append_assoc (Expr.parts _)] at replaced
      exact .inr ⟨source, base, _, ty, _, st1, rfl, isExpr, replaced, rfl⟩
    · cases ok
  · cases ok
  · cases ok

theorem processExpr_spec {name : String} {e : Expr} (held : Held m st) (keeps : llvm.KeepsAddresses)
    (member : e ∈ st.pool) (ok : processExpr llvm name st e = .ok st') : Advances m st e st' := by
  rcases processExpr_cases ok with ⟨value, ty, rfl, rfl⟩
    | ⟨source, base, indices, ty, helper, st1, rfl, isExpr, replaced, rfl⟩
  · refine advances_addHelper held member rfl rfl rfl (fun _ unused => unused) fun x hx => ?_
    by_cases same : x = .bitcast value ty
    · exact .inl same
    · exact .inr ⟨x, hx, same, .refl st x⟩
  · have inPieces :
        (byteOffset llvm source base indices ty).2.2 ∈ pieces llvm source base indices ty :=
      mem_pieces.mpr (.inr (.inr (Expr.self_mem_parts _)))
    obtain ⟨held', unused, newMember, sameRefs, length, emits⟩ :=
      advances_replace (held.extendPool keeps member) keeps
      (List.mem_append_left _ member) rfl (List.mem_append_right _ inPieces)
      (fun r part => List.mem_cons_of_mem _ (pieces_globals keeps inPieces part))
      (fun r root => byteOffset_root keeps root) replaced
    refine advances_addHelper held' newMember isExpr sameRefs length
      (fun k h => unused k (h.extendPool keeps member)) fun x hx => ?_
    rcases emits x hx with isNew | ⟨y, hy, other, succeeds⟩
    · exact .inl isNew
    · exact .inr ⟨y, hy, other, succeeds.expr, succeeds.key, succeeds.collected, succeeds.root⟩

end

end GlobalIds
