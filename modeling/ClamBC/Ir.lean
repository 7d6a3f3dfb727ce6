import Mathlib.Logic.Relation
import Mathlib.Data.List.Nodup
import Mathlib.Data.List.Pairwise

/-!
# The part of LLVM IR that the passes look at

Values are referred to by identity: an instruction by its number, an argument
by its position. `Op` is a functor in its operands, so that one instruction can
carry operands as values of the IR, renamed values, or run-time values.

A block has its phis first and exactly one terminator, by construction.
-/

namespace Ir

universe u v

abbrev Label := Nat
abbrev GlobalId := Nat
abbrev FunctionId := Nat

inductive Ty where
  | void
  | int (bits : Nat)
  | float (bits : Nat)
  | ptr
  | array (length : Nat) (element : Ty)
  | struct (fields : List Ty)

def Ty.isVoid : Ty → Bool
  | .void => true
  | _ => false

inductive CastOp where
  | trunc | zext | sext | bitCast | ptrToInt | intToPtr | addrSpaceCast
  deriving DecidableEq

/-- Constants, one constructor for each class of `llvm::Constant` that is told apart. -/
inductive Const where
  | int (bits value : Nat)
  | fp (posZero : Bool)
  | null
  | undef
  | global (id : GlobalId)
  | function (id : FunctionId)
  | castExpr (op : CastOp) (value : Const)
  | getElementPtrExpr (base : Const) (indices : List Const)
  | otherExpr (operands : List Const)
  | aggregateZero (ty : Ty)
  | array (elements : List Const)
  | struct (elements : List Const)
  | data (bits : Nat) (elements : List Nat)

inductive Value where
  | inst (id : Nat)
  | arg (index : Nat)
  | const (c : Const)

inductive Predicate where
  | eq | ne | ugt | uge | ult | ule | sgt | sge | slt | sle
  deriving DecidableEq

inductive BinOp where
  | add | sub | mul | udiv | sdiv | urem | srem | shl | lshr | ashr | and | or | xor
  deriving DecidableEq

inductive Intrinsic where
  | memset | memcpy | memmove | bswap | other
  deriving DecidableEq

/-- What a call instruction calls, as far as the writer distinguishes it. -/
inductive Callee where
  | isBigEndian
  | abort
  | memcmp
  | intrinsic (i : Intrinsic)
  | api (id : FunctionId)
  | direct (id : FunctionId)
  | indirect
  deriving DecidableEq

/-- Instructions that are neither phis nor terminators. `call` carries whether the
callee may write memory, throw or not return. -/
inductive Op (α : Type u) where
  | load (isVolatile : Bool) (ptr : α)
  | store (value ptr : α)
  | alloca (arraySize : Option α)
  | getElementPtr (base : α) (indices : List α)
  | icmp (pred : Predicate) (lhs rhs : α)
  | binary (op : BinOp) (lhs rhs : α)
  | select (cond ifTrue ifFalse : α)
  | cast (op : CastOp) (src : Ty) (value : α)
  | call (sideEffects : Bool) (callee : Callee) (args : List α)
  | dbg
  | other (sideEffects : Bool) (args : List α)

namespace Op
variable {α : Type u} {β : Type v}

def map (f : α → β) : Op α → Op β
  | load vol ptr => load vol (f ptr)
  | store value ptr => store (f value) (f ptr)
  | alloca size => alloca (size.map f)
  | getElementPtr base indices => getElementPtr (f base) (indices.map f)
  | icmp pred lhs rhs => icmp pred (f lhs) (f rhs)
  | binary op lhs rhs => binary op (f lhs) (f rhs)
  | select cond t e => select (f cond) (f t) (f e)
  | cast op src value => cast op src (f value)
  | call se callee args => call se callee (args.map f)
  | dbg => dbg
  | other se args => other se (args.map f)

def operands : Op α → List α
  | load _ ptr => [ptr]
  | store value ptr => [value, ptr]
  | alloca size => size.toList
  | getElementPtr base indices => base :: indices
  | icmp _ lhs rhs => [lhs, rhs]
  | binary _ lhs rhs => [lhs, rhs]
  | select cond t e => [cond, t, e]
  | cast _ _ value => [value]
  | call _ _ args => args
  | dbg => []
  | other _ args => args

@[simp] theorem operands_map (f : α → β) (o : Op α) : (o.map f).operands = o.operands.map f := by
  cases o with
  | alloca size => cases size <;> rfl
  | _ => rfl

theorem map_map {γ : Type*} (f : α → β) (g : β → γ) (o : Op α) :
    (o.map f).map g = o.map (g ∘ f) := by
  cases o with
  | alloca size => simp [map]
  | _ => simp [map]

/-- Two renamings that agree on the operands give the same instruction. -/
theorem map_congr {f g : α → β} {o : Op α} (agree : ∀ a ∈ o.operands, f a = g a) :
    o.map f = o.map g := by
  cases o with
  | alloca size => cases size <;> simp_all [map, operands]
  | _ => simp_all [map, operands]

end Op

inductive Term (α : Type u) where
  | ret (value : Option α)
  | br (dest : Label)
  | condBr (cond : α) (ifTrue ifFalse : Label)
  | switch (cond : α) (default : Label) (cases : List (Nat × Label))
  | unreachable

namespace Term
variable {α : Type u} {β : Type v}

def map (f : α → β) : Term α → Term β
  | ret value => ret (value.map f)
  | br dest => br dest
  | condBr cond t e => condBr (f cond) t e
  | switch cond d cases => switch (f cond) d cases
  | unreachable => unreachable

def operands : Term α → List α
  | ret value => value.toList
  | br _ => []
  | condBr cond _ _ => [cond]
  | switch cond _ _ => [cond]
  | unreachable => []

def successors : Term α → List Label
  | ret _ => []
  | br dest => [dest]
  | condBr _ t e => [t, e]
  | switch _ d cases => d :: cases.map Prod.snd
  | unreachable => []

@[simp] theorem operands_map (f : α → β) (t : Term α) :
    (t.map f).operands = t.operands.map f := by
  cases t with
  | ret value => cases value <;> rfl
  | _ => rfl

@[simp] theorem successors_map (f : α → β) (t : Term α) : (t.map f).successors = t.successors := by
  cases t <;> rfl

theorem map_map {γ : Type*} (f : α → β) (g : β → γ) (t : Term α) :
    (t.map f).map g = t.map (g ∘ f) := by
  cases t <;> simp [map]

theorem map_congr {f g : α → β} {t : Term α} (agree : ∀ a ∈ t.operands, f a = g a) :
    t.map f = t.map g := by
  cases t with
  | ret value => cases value <;> simp_all [map, operands]
  | _ => simp_all [map, operands]

end Term

structure Phi where
  id : Nat
  ty : Ty
  incoming : List (Value × Label)

/-- The value selected when the block is entered from a given predecessor. -/
def Phi.valueFrom (p : Phi) (prev : Option Label) : Option Value :=
  prev.bind fun l => (p.incoming.find? fun e => e.2 = l).map Prod.fst

structure Inst where
  id : Nat
  ty : Ty
  op : Op Value

structure Block where
  label : Label
  phis : List Phi
  body : List Inst
  termId : Nat
  term : Term Value

def Block.ids (B : Block) : List Nat :=
  B.phis.map Phi.id ++ B.body.map Inst.id ++ [B.termId]

/-- The values that the block defines, with their types. -/
def Block.defs (B : Block) : List (Nat × Ty) :=
  B.phis.map (fun p => (p.id, p.ty)) ++ B.body.map (fun i => (i.id, i.ty))

/-- Every operand of every instruction of the block. -/
def Block.uses (B : Block) : List Value :=
  B.phis.flatMap (fun p => p.incoming.map Prod.fst) ++ B.body.flatMap (fun i => i.op.operands) ++
    B.term.operands

/-- A function body: the first block is the entry. `nextId` is above the identity
of every instruction, so it names an instruction that is still to be created. -/
structure Function where
  args : List Ty
  blocks : List Block
  nextId : Nat

namespace Function

def entry (f : Function) : Option Block := f.blocks.head?

def block (f : Function) (l : Label) : Option Block := f.blocks.find? (fun b => b.label = l)

/-- Control may pass from the first block to the second. -/
def Edge (f : Function) (a b : Label) : Prop :=
  ∃ B, f.block a = some B ∧ b ∈ B.term.successors

/-- The structural rules of the IR verifier: names are unique, operands are defined and have
a value, the entry has no predecessor and no phi, and the phis of a block list exactly its
predecessors, with the same value where a predecessor is listed twice. -/
structure WellFormed (f : Function) : Prop where
  labels : (f.blocks.map Block.label).Nodup
  ids : (f.blocks.flatMap Block.ids).Nodup
  fresh : ∀ B ∈ f.blocks, ∀ i ∈ B.ids, i < f.nextId
  uses : ∀ B ∈ f.blocks, ∀ i, Value.inst i ∈ B.uses →
    ∃ A ∈ f.blocks, ∃ ty, (i, ty) ∈ A.defs ∧ ty.isVoid = false
  argUses : ∀ B ∈ f.blocks, ∀ i, Value.arg i ∈ B.uses → i < f.args.length
  phiTypes : ∀ B ∈ f.blocks, ∀ p ∈ B.phis, p.ty.isVoid = false
  storeTypes : ∀ B ∈ f.blocks, ∀ i ∈ B.body, ∀ v a, i.op = .store v a → i.ty.isVoid = true
  loadTypes : ∀ B ∈ f.blocks, ∀ i ∈ B.body, ∀ vol a, i.op = .load vol a → i.ty.isVoid = false
  entryPhis : ∀ B, f.entry = some B → B.phis = []
  entryPreds : ∀ B, f.entry = some B → ∀ A ∈ f.blocks, B.label ∉ A.term.successors
  complete : ∀ A ∈ f.blocks, ∀ B ∈ f.blocks, B.label ∈ A.term.successors →
    ∀ p ∈ B.phis, ∃ v, (v, A.label) ∈ p.incoming
  preds : ∀ B ∈ f.blocks, ∀ p ∈ B.phis, ∀ v l, (v, l) ∈ p.incoming →
    ∃ A ∈ f.blocks, A.label = l ∧ B.label ∈ A.term.successors
  agree : ∀ B ∈ f.blocks, ∀ p ∈ B.phis, ∀ l v w, (v, l) ∈ p.incoming → (w, l) ∈ p.incoming → v = w

theorem mem_ids_of_def {B : Block} {i : Nat} {ty : Ty} (h : (i, ty) ∈ B.defs) : i ∈ B.ids := by
  simp only [Block.defs, List.mem_append, List.mem_map, Prod.mk.injEq] at h
  simp only [Block.ids, List.mem_append, List.mem_map]
  rcases h with ⟨p, hp, same, -⟩ | ⟨j, hj, same, -⟩
  · exact Or.inl (Or.inl ⟨p, hp, same⟩)
  · exact Or.inl (Or.inr ⟨j, hj, same⟩)

namespace WellFormed
variable {f : Function} (wf : f.WellFormed)
include wf

theorem uses_lt {B : Block} (hB : B ∈ f.blocks) {i : Nat} (use : Value.inst i ∈ B.uses) :
    i < f.nextId := by
  obtain ⟨A, hA, ty, here, -⟩ := wf.uses B hB i use
  exact wf.fresh A hA i (mem_ids_of_def here)

theorem block_of_id {A B : Block} (hA : A ∈ f.blocks) (hB : B ∈ f.blocks) {i : Nat}
    (iA : i ∈ A.ids) (iB : i ∈ B.ids) : A = B := by
  classical
  by_contra ne
  have apart := (List.nodup_flatMap.mp wf.ids).2
  have sym : Std.Symm (Function.onFun List.Disjoint Block.ids) :=
    ⟨fun _ _ h _ hx hy => h hy hx⟩
  exact apart.forall hA hB ne iA iB

theorem block_ids_nodup {B : Block} (hB : B ∈ f.blocks) : B.ids.Nodup :=
  (List.nodup_flatMap.mp wf.ids).1 B hB

theorem phi_ids_nodup {B : Block} (hB : B ∈ f.blocks) : (B.phis.map Phi.id).Nodup :=
  (List.nodup_append.mp (List.nodup_append.mp (wf.block_ids_nodup hB)).1).1

/-- A phi and a body instruction are different instructions. -/
theorem phi_id_ne_inst_id {A B : Block} (hA : A ∈ f.blocks) (hB : B ∈ f.blocks) {q : Phi} {i : Inst}
    (hq : q ∈ A.phis) (hi : i ∈ B.body) : i.id ≠ q.id := by
  intro same
  have iA : q.id ∈ A.ids := by simp [Block.ids]; exact Or.inl ⟨q, hq, rfl⟩
  have iB : q.id ∈ B.ids := by simp [Block.ids]; exact Or.inr (Or.inl ⟨i, hi, same⟩)
  have one := wf.block_of_id hA hB iA iB
  subst one
  have apart := (List.nodup_append.mp (List.nodup_append.mp (wf.block_ids_nodup hA)).1).2.2
  exact apart q.id (List.mem_map_of_mem hq) i.id (List.mem_map_of_mem hi) same.symm

theorem inst_id_ne_term_id {A B : Block} (hA : A ∈ f.blocks) (hB : B ∈ f.blocks) {i : Inst}
    (hi : i ∈ A.body) : i.id ≠ B.termId := by
  intro same
  have iA : i.id ∈ A.ids := by simp [Block.ids]; exact Or.inr (Or.inl ⟨i, hi, rfl⟩)
  have iB : i.id ∈ B.ids := by simp [Block.ids, same]
  have one := wf.block_of_id hA hB iA iB
  subst one
  have apart := (List.nodup_append.mp (wf.block_ids_nodup hA)).2.2
  exact apart i.id (List.mem_append_right _ (List.mem_map_of_mem hi)) A.termId
    List.mem_cons_self same

theorem inst_unique {A B : Block} (hA : A ∈ f.blocks) (hB : B ∈ f.blocks) {i j : Inst}
    (hi : i ∈ A.body) (hj : j ∈ B.body) (same : i.id = j.id) : A = B ∧ i = j := by
  have iA : i.id ∈ A.ids := by simp [Block.ids]; exact Or.inr (Or.inl ⟨i, hi, rfl⟩)
  have iB : i.id ∈ B.ids := by simp [Block.ids]; exact Or.inr (Or.inl ⟨j, hj, same.symm⟩)
  have one := wf.block_of_id hA hB iA iB
  subst one
  have nodup := (List.nodup_append.mp (List.nodup_append.mp (wf.block_ids_nodup hA)).1).2.1
  exact ⟨rfl, List.inj_on_of_nodup_map nodup hi hj same⟩

theorem phi_unique {A B : Block} (hA : A ∈ f.blocks) (hB : B ∈ f.blocks) {p q : Phi}
    (hp : p ∈ A.phis) (hq : q ∈ B.phis) (same : p.id = q.id) : A = B ∧ p = q := by
  have iA : p.id ∈ A.ids := by simp [Block.ids]; exact Or.inl ⟨p, hp, rfl⟩
  have iB : p.id ∈ B.ids := by simp [Block.ids]; exact Or.inl ⟨q, hq, same.symm⟩
  have one := wf.block_of_id hA hB iA iB
  subst one
  exact ⟨rfl, List.inj_on_of_nodup_map (wf.phi_ids_nodup hA) hp hq same⟩

/-- A value has one type. -/
theorem type_unique {A B : Block} (hA : A ∈ f.blocks) (hB : B ∈ f.blocks) {i : Nat} {ty ty' : Ty}
    (h : (i, ty) ∈ A.defs) (h' : (i, ty') ∈ B.defs) : ty = ty' := by
  have one := wf.block_of_id hA hB (mem_ids_of_def h) (mem_ids_of_def h')
  subst one
  have ids : A.defs.map Prod.fst = A.phis.map Phi.id ++ A.body.map Inst.id := by
    simp only [Block.defs, List.map_append, List.map_map]
    rfl
  have nodup := (List.nodup_append.mp (wf.block_ids_nodup hA)).1
  rw [← ids] at nodup
  exact congrArg Prod.snd (List.inj_on_of_nodup_map nodup h h' rfl)

theorem block_of_label {B : Block} (hB : B ∈ f.blocks) : f.block B.label = some B := by
  cases found : f.block B.label with
  | none =>
    have := List.find?_eq_none.mp found B hB
    simp at this
  | some C =>
    have hC : C ∈ f.blocks := List.mem_of_find?_eq_some found
    have same : C.label = B.label := by simpa using List.find?_some found
    rw [List.inj_on_of_nodup_map wf.labels hC hB same]

end WellFormed

/-- No block is on a cycle of the control-flow graph. -/
def LoopFree (f : Function) : Prop := ∀ l, ¬ Relation.TransGen f.Edge l l

end Function

end Ir
