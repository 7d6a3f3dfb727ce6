import ClamBC.SsaForm
import ClamBC.IrExec
import ClamBC.Fallible
import Mathlib.Data.List.Perm.Basic

/-!
# Splitting calls of setvirusname

The logical compiler wants the name of a virus as a constant at every call. Where the optimizer
has joined calls through a phi, the helper pass puts a block with a call of its own on every
edge into the block of the phi and erases the phi and the call. It does not look at the block in
which the call stands, at what else is there, or at other uses.

A module is treated function by function: the loop works on one call at a time and changes only
the function of that call. `setvirusname` is declared, never defined.
-/

namespace SetVirusName

open Ir IrExec SsaForm Fallible

universe u
variable {V M : Type u}

/-- The declaration of setvirusname. -/
structure Api where
  id : FunctionId
  ty : Ty
  sideEffects : Bool

inductive Refusal where
  | stop (message : String)
  | assertion (message : String)

/-- A call with a phi as first argument, the phi and the label of the phi's block. -/
structure Site where
  parent : Label
  phi : Phi
  call : Inst

def callArgs : Op Value → List Value
  | .call _ _ args => args
  | _ => []

def isFunction (id : FunctionId) : Value → Bool
  | .const (.function g) => g = id
  | _ => false

/-- How often a call instruction is found among the users of the function. -/
def usesOf (svn : Api) : Op Value → Nat
  | .call _ callee args => (if callee = .api svn.id then 1 else 0) + args.countP (isFunction svn.id)
  | _ => 0

/-- `dyn_cast<PHINode>` of operand 0 of a call. -/
def siteOf (f : Function) (i : Inst) : Option Site :=
  match (callArgs i.op).head? with
  | some (.inst d) =>
      f.blocks.findSome? fun B => (B.phis.find? fun p => p.id = d).map fun p => ⟨B.label, p, i⟩
  | _ => none

/-- The users of setvirusname that are collected, in the order of the instructions. -/
def sites (svn : Api) (f : Function) : List Site :=
  f.blocks.flatMap fun A => A.body.flatMap fun i =>
    (List.replicate (usesOf svn i.op) i).filterMap (siteOf f)

/-- `getBranchIdx` and `setSuccessor`. -/
def redirect (old new : Label) : Term Value → Except Refusal (Term Value)
  | .br dest => if dest = old then .ok (.br new) else
      .error (.stop "Branch Instruction is not a predecessor to phi.")
  | .condBr c t e =>
    if t = old then .ok (.condBr c new e)
    else if e = old then .ok (.condBr c t new)
    else .error (.stop "Branch Instruction is not a predecessor to phi.")
  | _ => .error (.assertion "cast<BranchInst>")

def freshLabel (f : Function) : Label := (f.blocks.map Block.label).foldr max 0 + 1

/-- `BasicBlock::Create` places the new block in front of the given one. -/
def insertBefore (l : Label) (N : Block) : List Block → List Block
  | [] => [N]
  | B :: rest => if B.label = l then N :: B :: rest else B :: insertBefore l N rest

def callBlock (svn : Api) (label : Label) (id : Nat) (parent : Label) (args : List Value) : Block :=
  ⟨label, [], [⟨id, svn.ty, .call svn.sideEffects (.api svn.id) args⟩], id + 1, .br parent⟩

def setTerm (l : Label) (t : Term Value) (X : Block) : Block :=
  if X.label = l then { X with term := t } else X

/-- The body of the loop of `processPHI`. -/
def splitEdge (svn : Api) (parent : Label) (rest : List Value) (f : Function)
    (entry : Value × Label) :
    Except Refusal Function :=
  match f.block entry.2 with
  | none => .error (.assertion "incoming block")
  | some A =>
    (redirect parent (freshLabel f) A.term).map fun t =>
      { f with
        blocks :=
          insertBefore parent (callBlock svn (freshLabel f) f.nextId parent (entry.1 :: rest))
          (f.blocks.map (setTerm entry.2 t))
        nextId := f.nextId + 2 }

def processPHI (svn : Api) (f : Function) (s : Site) : Except Refusal Function :=
  s.phi.incoming.foldlM (splitEdge svn s.parent (callArgs s.call.op).tail) f

def eraseBlock (gone : List Nat) (B : Block) : Block :=
  { B with
    phis := B.phis.filter (fun p => p.id ∉ gone)
    body := B.body.filter (fun i => i.id ∉ gone) }

def eraseIds (gone : List Nat) (f : Function) : Function :=
  { f with blocks := f.blocks.map (eraseBlock gone) }

/-- Nothing asks whether the instruction is still used; it must still be there. -/
def eraseFromParent (f : Function) (id : Nat) : Except Refusal Function :=
  if f.blocks.any fun B => id ∈ B.phis.map Phi.id ++ B.body.map Inst.id then .ok (eraseIds [id] f)
  else .error (.assertion "erased twice")

def Site.erased (s : Site) : List Nat := [s.call.id, s.phi.id]

def fixupSetVirusNameCalls (svn : Api) (f : Function) (calls : List Site) :
    Except Refusal Function := do
  let g ← calls.foldlM (processPHI svn) f
  (calls.flatMap Site.erased).foldlM eraseFromParent g

/-- The order of the users of a function is not specified. -/
def Transforms (svn : Api) (f f' : Function) : Prop :=
  ∃ calls, calls.Perm (sites svn f) ∧ fixupSetVirusNameCalls svn f calls = .ok f'

/-! ## Runs -/

/-- What a run is compared by: the calls of setvirusname, and where control enters another
function, with which arguments and which memory. -/
inductive Observation (V M : Type u) where
  | virusname (args : List V)
  | activation (callee : Callee) (args : List V) (mem : M)

def observe (svn : Api) (e : Event V M) : Option (Observation V M) :=
  match e.op with
  | .call _ (.api id) args => if id = svn.id then some (.virusname args) else none
  | .call _ (.direct id) args => some (.activation (.direct id) args e.before.mem)
  | .call _ .indirect args => some (.activation .indirect args e.before.mem)
  | _ => none

def observed (svn : Api) (vs : List (Visit V M)) : List (Observation V M) :=
  vs.flatMap fun v => v.events.filterMap (observe svn)

def hasBlock (f : Function) (l : Label) : Bool := f.blocks.any fun B => B.label = l

/-- The labels of the visited blocks that the first function has. -/
def visitedIn (f : Function) (vs : List (Visit V M)) : List Label :=
  (vs.map Visit.label).filter (hasBlock f)

/-- Every run of the first function is a run of the second with the same observations and the
same visits to blocks of the first. -/
def SameRuns (S : Sem V M) (svn : Api) (f f' : Function) : Prop :=
  ∀ args cell mem n, ∃ n', n ≤ n' ∧
    observed svn (call S args cell f' n' mem) = observed svn (call S args cell f n mem) ∧
    visitedIn f (call S args cell f' n' mem) = visitedIn f (call S args cell f n mem)

/-- setvirusname records the name and returns: it does not touch the memory of the bytecode. -/
def Records (S : Sem V M) (svn : Api) : Prop :=
  ∀ ty se args mem, ∃ v, S.op ty (.call se (.api svn.id) args) mem = some (v, mem)

/-! ## The condition -/

/-- LLVM's rule for phis: as many entries for a predecessor as edges from it. -/
def EntryPerEdge (f : Function) : Prop :=
  ∀ A ∈ f.blocks, ∀ B ∈ f.blocks, ∀ p ∈ B.phis,
    (p.incoming.map Prod.snd).count A.label = A.term.successors.count B.label

/-- The rules of the IR verifier. -/
structure Verified (f : Function) : Prop where
  ssa : Ssa f
  targets : ∀ A ∈ f.blocks, ∀ l ∈ A.term.successors, ∃ B ∈ f.blocks, B.label = l
  entries : EntryPerEdge f

/-- The instruction neither calls setvirusname nor enters a function of the module. -/
def Silent (svn : Api) (op : Op Value) : Bool :=
  match op with
  | .call _ (.api id) _ => id ≠ svn.id
  | .call _ (.direct _) _ => false
  | .call _ .indirect _ => false
  | _ => true

/-- The call is alone with its phi: it stands in the block of the phi, which has no other phi,
between them nothing is observed and nothing can stop the run, and both have no other use. -/
structure Alone (S : Sem V M) (svn : Api) (f : Function) (s : Site) (B : Block)
    (before after : List Inst) (rest : List Value) : Prop where
  member : B ∈ f.blocks
  label : B.label = s.parent
  phis : B.phis = [s.phi]
  body : B.body = before ++ s.call :: after
  call : ∃ se, s.call.op = .call se (.api svn.id) (.inst s.phi.id :: rest)
  phiUnused : ∀ A ∈ f.blocks, .inst s.phi.id ∉ (eraseBlock [s.call.id] A).uses
  callUnused : ∀ A ∈ f.blocks, .inst s.call.id ∉ A.uses
  restOutside : ∀ d, .inst d ∈ rest → d ≠ s.phi.id ∧ d ∉ B.body.map Inst.id
  restPlain : ∀ v ∈ rest, isFunction svn.id v = false
  silent : ∀ i ∈ before, Silent svn i.op = true
  goesOn : ∀ i ∈ before, ∀ (values : Value → V) mem, (S.op i.ty (i.op.map values) mem).isSome

def Clean (S : Sem V M) (svn : Api) (f : Function) (s : Site) : Prop :=
  ∃ B before after rest, Alone S svn f s B before after rest

/-! ## All edges of one phi -/

theorem perm_insertBefore (l : Label) (N : Block) (Bs : List Block) :
    (insertBefore l N Bs).Perm (N :: Bs) := by
  induction Bs with
  | nil => exact .refl _
  | cons B Bs ih =>
    unfold insertBefore
    split
    · exact .refl _
    · exact (ih.cons B).trans (.swap N B Bs)

theorem insertBefore_head? {l : Label} {N E : Block} {Bs : List Block} (first : Bs.head? = some E)
    (other : E.label ≠ l) :
    (insertBefore l N Bs).head? = some E := by
  cases Bs with
  | nil => cases first
  | cons B Bs =>
    cases first
    unfold insertBefore
    rw [if_neg other]
    rfl

theorem label_lt_freshLabel {f : Function} {B : Block} (hB : B ∈ f.blocks) :
    B.label < freshLabel f := by
  unfold freshLabel
  have below : ∀ (ls : List Label) l, l ∈ ls → l ≤ ls.foldr max 0 := by
    intro ls
    induction ls with
    | nil => exact nofun
    | cons a ls ih =>
      intro l hl
      rcases List.mem_cons.mp hl with rfl | hl
      · exact Nat.le_max_left _ _
      · exact Nat.le_trans (ih l hl) (Nat.le_max_right _ _)
  exact Nat.lt_succ_of_le (below _ _ (List.mem_map_of_mem hB))

theorem block_of_mem {f : Function} (labels : (f.blocks.map Block.label).Nodup) {B : Block}
    (hB : B ∈ f.blocks) :
    f.block B.label = some B := by
  cases found : f.block B.label with
  | none =>
    have := List.find?_eq_none.mp found B hB
    simp at this
  | some C =>
    have hC : C ∈ f.blocks := List.mem_of_find?_eq_some found
    have same : C.label = B.label := by simpa using List.find?_some found
    rw [List.inj_on_of_nodup_map labels hC hB same]

/-- The first terminator with some of its edges moved. -/
inductive Rerouted (moved : Label → Label → Prop) : Term Value → Term Value → Prop
  | same (t : Term Value) : Rerouted moved t t
  | br {l l' : Label} : moved l l' → Rerouted moved (.br l) (.br l')
  | condBr {c : Value} {t t' e e' : Label} : (t' = t ∨ moved t t') → (e' = e ∨ moved e e') →
      Rerouted moved (.condBr c t e) (.condBr c t' e')

section
variable (svn : Api) (f : Function) (parent : Label) (rest : List Value)

def newLabel (j : Nat) : Label := freshLabel f + j

def newBlocks (entries : List (Value × Label)) : List Block :=
  entries.mapIdx fun j e => callBlock svn (newLabel f j) (f.nextId + 2 * j) parent (e.1 :: rest)

def retarget (τ : Block → Term Value) (X : Block) : Block := { X with term := τ X }

/-- An edge from the block labelled `l` into the phi's block now goes to the block made for the
`j`-th entry. -/
def Moved (entries : List (Value × Label)) (l : Label) (old new : Label) : Prop :=
  old = parent ∧ ∃ j e, entries[j]? = some e ∧ e.2 = l ∧ new = newLabel f j

/-- What the loop of `processPHI` has made of `f` after the given entries; `τ` are the
terminators. -/
structure Split (entries : List (Value × Label)) (τ : Block → Term Value)
    (g : Function) : Prop where
  perm : g.blocks.Perm (newBlocks svn f parent rest entries ++ f.blocks.map (retarget τ))
  entry : ∀ E, f.entry = some E → g.entry = some (retarget τ E)
  nextId : g.nextId = f.nextId + 2 * entries.length
  fresh : freshLabel g = freshLabel f + entries.length
  args : g.args = f.args
  terms : ∀ X ∈ f.blocks, Rerouted (Moved f parent entries X.label) X.term (τ X)
  left : ∀ X ∈ f.blocks, (τ X).successors.count parent + (entries.map Prod.snd).count X.label =
    X.term.successors.count parent

end

section
variable {svn : Api} {f : Function} {parent : Label} {rest : List Value}

theorem split_nil : Split svn f parent rest [] Block.term f where
  perm := by
    have same : f.blocks.map (retarget Block.term) = f.blocks := List.map_id' f.blocks
    rw [same]
    exact .refl _
  entry := fun _ h => h
  nextId := rfl
  fresh := rfl
  args := rfl
  terms := fun X _ => .same X.term
  left := fun X _ => by simp

theorem Moved.weaken {entries : List (Value × Label)} {e : Value × Label} {l old new : Label}
    (h : Moved f parent entries l old new) : Moved f parent (entries ++ [e]) l old new := by
  obtain ⟨same, j, e', at_j, label, eq⟩ := h
  refine ⟨same, j, e', ?_, label, eq⟩
  rw [List.getElem?_append_left (List.getElem?_eq_some_iff.mp at_j).1]
  exact at_j

theorem Rerouted.mono {moved moved' : Label → Label → Prop} {t t' : Term Value}
    (h : Rerouted moved t t') (imp : ∀ l l', moved l l' → moved' l l') : Rerouted moved' t t' := by
  cases h with
  | same => exact .same _
  | br h => exact .br (imp _ _ h)
  | condBr h h' => exact .condBr (h.imp_right (imp _ _)) (h'.imp_right (imp _ _))

theorem redirect_cases {old new : Label} {t t' : Term Value} (ok : redirect old new t = .ok t') :
    (t = .br old ∧ t' = .br new) ∨ (∃ c e, t = .condBr c old e ∧ t' = .condBr c new e) ∨
      ∃ c a, a ≠ old ∧ t = .condBr c a old ∧ t' = .condBr c a new := by
  cases t with
  | br dest =>
    simp only [redirect] at ok
    split at ok <;> cases ok
    rename_i same
    exact .inl ⟨by rw [same], rfl⟩
  | condBr c a b =>
    simp only [redirect] at ok
    split at ok
    · rename_i same
      cases ok
      exact .inr (.inl ⟨c, b, by rw [same], rfl⟩)
    · rename_i other
      split at ok <;> cases ok
      rename_i same
      exact .inr (.inr ⟨c, a, other, by rw [same], rfl⟩)
  | ret _ => cases ok
  | switch _ _ _ => cases ok
  | unreachable => cases ok

/-- One more edge is moved. -/
theorem Rerouted.redirect {moved : Label → Label → Prop} {t t' t'' : Term Value} {old new : Label}
    (h : Rerouted moved t t') (ok : redirect old new t' = .ok t'') (goal : moved old new)
    (fresh : ∀ l, ¬ moved l old) : Rerouted moved t t'' := by
  rcases redirect_cases ok with ⟨rfl, rfl⟩ | ⟨c, e, rfl, rfl⟩ | ⟨c, a, -, rfl, rfl⟩
  · cases h with
    | same => exact .br goal
    | br h => exact absurd h (fresh _)
  · cases h with
    | same => exact .condBr (.inr goal) (.inl rfl)
    | condBr ha hb =>
      rcases ha with rfl | ha
      · exact .condBr (.inr goal) hb
      · exact absurd ha (fresh _)
  · cases h with
    | same => exact .condBr (.inl rfl) (.inr goal)
    | condBr ha hb =>
      rcases hb with rfl | hb
      · exact .condBr ha (.inr goal)
      · exact absurd hb (fresh _)

theorem redirect_count {old new : Label} {t t' : Term Value} (ok : redirect old new t = .ok t')
    (differ : new ≠ old) :
    t'.successors.count old + 1 = t.successors.count old := by
  rcases redirect_cases ok with ⟨rfl, rfl⟩ | ⟨c, e, rfl, rfl⟩ | ⟨c, a, -, rfl, rfl⟩ <;>
    simp [Term.successors, List.count_cons, differ, Nat.add_comm]

theorem freshLabel_insert {Bs : List Block}
    {parent : Label} {N : Block} {g g' : Function} (blocks : g'.blocks = insertBefore parent N Bs)
    (labels : Bs.map Block.label = g.blocks.map Block.label) (label : N.label = freshLabel g) :
    freshLabel g' = freshLabel g + 1 := by
  have perm : (g'.blocks.map Block.label).Perm (N.label :: g.blocks.map Block.label) := by
    rw [blocks, ← labels]
    exact (perm_insertBefore parent N Bs).map Block.label
  unfold freshLabel at label ⊢
  rw [perm.foldr_eq, List.foldr_cons, label, Nat.max_eq_left (Nat.le_succ _)]

theorem setTerm_retarget {τ : Block → Term Value} {l : Label} {t : Term Value} (X : Block) :
    setTerm l t (retarget τ X) = retarget (fun Y => if Y.label = l then t else τ Y) X := by
  unfold setTerm retarget
  by_cases same : X.label = l
  · simp [same]
  · simp [same]

theorem newLabel_ne {X : Block} (hX : X ∈ f.blocks) (j : Nat) : newLabel f j ≠ X.label :=
  Nat.ne_of_gt (Nat.lt_of_lt_of_le (label_lt_freshLabel hX) (Nat.le_add_right _ _))

theorem mem_newBlocks {entries : List (Value × Label)} {X : Block} :
    X ∈ newBlocks svn f parent rest entries ↔
    ∃ j e, entries[j]? = some e ∧
      X = callBlock svn (newLabel f j) (f.nextId + 2 * j) parent (e.1 :: rest) := by
  unfold newBlocks
  rw [List.mem_mapIdx]
  constructor
  · rintro ⟨j, bound, rfl⟩
    exact ⟨j, entries[j], List.getElem?_eq_getElem bound, rfl⟩
  · rintro ⟨j, e, at_j, rfl⟩
    obtain ⟨bound, rfl⟩ := List.getElem?_eq_some_iff.mp at_j
    exact ⟨j, bound, rfl⟩

theorem newBlocks_labels (entries : List (Value × Label)) :
    (newBlocks svn f parent rest entries).map Block.label =
      (List.range entries.length).map (newLabel f) := by
  refine List.ext_getElem? fun j => ?_
  simp only [newBlocks, List.getElem?_map, List.getElem?_mapIdx]
  by_cases bound : j < entries.length
  · simp [bound, callBlock]
  · simp [bound]

theorem Split.labels {entries : List (Value × Label)} {τ : Block → Term Value}
    {g : Function} (wf : f.WellFormed) (split : Split svn f parent rest entries τ g) :
    (g.blocks.map Block.label).Nodup := by
  have old : (f.blocks.map (retarget τ)).map Block.label = f.blocks.map Block.label := by
    rw [List.map_map]
    rfl
  rw [(split.perm.map Block.label).nodup_iff, List.map_append, newBlocks_labels, old,
    List.nodup_append]
  refine ⟨?_, wf.labels, ?_⟩
  · exact List.Nodup.map (fun i j same => Nat.add_left_cancel same) List.nodup_range
  · intro l new l' hl' same
    obtain ⟨j, -, rfl⟩ := List.mem_map.mp new
    obtain ⟨X, hX, rfl⟩ := List.mem_map.mp hl'
    exact newLabel_ne hX j same

/-- One turn of the loop. -/
theorem Split.step {entries : List (Value × Label)} {τ : Block → Term Value} {g g' : Function}
    {e : Value × Label} (wf : f.WellFormed) (split : Split svn f parent rest entries τ g)
    (known : ∃ B ∈ f.blocks, B.label = parent ∧ B.phis ≠ []) (label : ∃ A ∈ f.blocks, A.label = e.2)
    (ok : splitEdge svn parent rest g e = .ok g') :
    ∃ τ', Split svn f parent rest (entries ++ [e]) τ' g' := by
  obtain ⟨B, hB, rfl, phis⟩ := known
  obtain ⟨A, hA, same⟩ := label
  have here : retarget τ A ∈ g.blocks :=
    split.perm.mem_iff.mpr (List.mem_append_right _ (List.mem_map_of_mem hA))
  have found : g.block e.2 = some (retarget τ A) := same ▸ block_of_mem (split.labels wf) here
  have newApart : freshLabel g ≠ B.label := by
    rw [split.fresh]
    exact newLabel_ne hB entries.length
  unfold splitEdge at ok
  rw [found] at ok
  obtain ⟨t, moved, rfl⟩ := map_eq_ok.mp ok
  let τ' : Block → Term Value := fun Y => if Y.label = e.2 then t else τ Y
  have shown : g.blocks.map (setTerm e.2 t) |>.Perm
      (newBlocks svn f B.label rest entries ++ f.blocks.map (retarget τ')) := by
    refine (split.perm.map _).trans (List.Perm.of_eq ?_)
    rw [List.map_append, List.map_map]
    congr 1
    · refine (List.map_congr_left fun X hX => ?_).trans (List.map_id' _)
      obtain ⟨j, e', at_j, rfl⟩ := mem_newBlocks.mp hX
      exact if_neg (same ▸ newLabel_ne hA j)
    · exact List.map_congr_left fun X _ => setTerm_retarget X
  refine ⟨τ', ?_, ?_, ?_, ?_, split.args, ?_, ?_⟩
  · refine (perm_insertBefore _ _ _).trans ?_
    refine (shown.cons _).trans ?_
    unfold newBlocks
    rw [List.mapIdx_concat, List.append_assoc, List.singleton_append]
    refine List.Perm.trans (List.Perm.of_eq ?_) List.perm_middle.symm
    unfold newLabel
    rw [split.fresh, split.nextId]
  · intro E entry
    refine insertBefore_head? (E := retarget τ' E) ?_ ?_
    · have first := split.entry E entry
      unfold Function.entry at first
      rw [List.head?_map, first, Option.map_some, setTerm_retarget]
    · intro eq
      have sameBlock : E = B := List.inj_on_of_nodup_map wf.labels (List.mem_of_head? entry) hB eq
      exact phis (sameBlock ▸ wf.entryPhis E entry)
  · rw [List.length_append, List.length_singleton]
    show g.nextId + 2 = _
    rw [split.nextId]
    omega
  · rw [List.length_append, List.length_singleton, ← Nat.add_assoc, ← split.fresh]
    refine freshLabel_insert (g := g) rfl ?_ rfl
    rw [List.map_map]
    refine List.map_congr_left fun X _ => ?_
    simp only [Function.comp, setTerm]
    split <;> rfl
  · intro X hX
    have old := (split.terms X hX).mono fun l l' h => h.weaken (e := e)
    by_cases sameLabel : X.label = e.2
    · have sameBlock : X = A := List.inj_on_of_nodup_map wf.labels hX hA (sameLabel.trans same.symm)
      subst sameBlock
      have chosen : τ' X = t := if_pos sameLabel
      rw [chosen]
      refine old.redirect moved ⟨rfl, entries.length, e, List.getElem?_concat_length,
        sameLabel.symm, split.fresh⟩ ?_
      rintro l ⟨-, j, e', -, -, eq⟩
      exact newLabel_ne hB j eq.symm
    · have kept : τ' X = τ X := if_neg sameLabel
      rw [kept]
      exact old
  · intro X hX
    have count := split.left X hX
    rw [List.map_append, List.count_append]
    by_cases sameLabel : X.label = e.2
    · have sameBlock : X = A := List.inj_on_of_nodup_map wf.labels hX hA (sameLabel.trans same.symm)
      subst sameBlock
      have chosen : τ' X = t := if_pos sameLabel
      rw [chosen]
      have less := redirect_count moved newApart
      have one : List.count X.label (List.map Prod.snd [e]) = 1 := by simp [sameLabel]
      have target : (retarget τ X).term = τ X := rfl
      rw [target] at less
      omega
    · have kept : τ' X = τ X := if_neg sameLabel
      have none : List.count X.label (List.map Prod.snd [e]) = 0 := by
        simp only [List.map_cons, List.map_nil, List.count_eq_zero, List.mem_singleton]
        exact sameLabel
      rw [kept]
      omega

theorem splitAll {entries todo : List (Value × Label)} {τ : Block → Term Value}
    {g g' : Function} (wf : f.WellFormed) (split : Split svn f parent rest entries τ g)
    (known : ∃ B ∈ f.blocks, B.label = parent ∧ B.phis ≠ [])
    (labels : ∀ e ∈ todo, ∃ A ∈ f.blocks, A.label = e.2)
    (ok : todo.foldlM (splitEdge svn parent rest) g = .ok g') :
    ∃ τ', Split svn f parent rest (entries ++ todo) τ' g' := by
  induction todo generalizing entries τ g with
  | nil =>
    cases ok
    rw [List.append_nil]
    exact ⟨τ, split⟩
  | cons e todo ih =>
    rw [List.foldlM_cons] at ok
    obtain ⟨middle, first, later⟩ := bind_eq_ok.mp ok
    obtain ⟨τ', one⟩ := split.step wf known (labels e List.mem_cons_self) first
    have all := ih one (fun e' h => labels e' (List.mem_cons_of_mem _ h)) later
    rwa [List.append_assoc, List.singleton_append] at all

/-- `processPHI` moves all edges into the block of the phi. -/
theorem processPHI_split {s : Site} {g : Function} {B : Block}
    (wf : f.WellFormed) (hB : B ∈ f.blocks) (label : B.label = s.parent) (here : s.phi ∈ B.phis)
    (ok : processPHI svn f s = .ok g) :
    ∃ τ, Split svn f s.parent (callArgs s.call.op).tail s.phi.incoming τ g := by
  refine splitAll wf split_nil ⟨B, hB, label, List.ne_nil_of_mem here⟩ ?_ ok
  rintro ⟨v, l⟩ he
  obtain ⟨A, hA, same, -⟩ := wf.preds B hB s.phi here v l he
  exact ⟨A, hA, same⟩

/-! ## Erasing at once -/

theorem eraseBlock_append (gone gone' : List Nat) (X : Block) :
    eraseBlock gone' (eraseBlock gone X) = eraseBlock (gone ++ gone') X := by
  unfold eraseBlock
  simp only [List.filter_filter, List.mem_append, not_or, Bool.decide_and, Bool.and_comm]

theorem eraseIds_append (gone gone' : List Nat) (f : Function) :
    eraseIds gone' (eraseIds gone f) = eraseIds (gone ++ gone') f := by
  unfold eraseIds
  rw [List.map_map]
  congr 1
  exact List.map_congr_left fun X _ => eraseBlock_append gone gone' X

theorem eraseIds_nil (f : Function) : eraseIds [] f = f := by
  have same : f.blocks.map (eraseBlock []) = f.blocks := by
    refine (List.map_congr_left fun X _ => ?_).trans (List.map_id' _)
    simp [eraseBlock]
  unfold eraseIds
  rw [same]

theorem eraseAll_eq {ids : List Nat} {g g' : Function}
    (ok : ids.foldlM eraseFromParent g = .ok g') : g' = eraseIds ids g := by
  induction ids generalizing g with
  | nil =>
    cases ok
    exact (eraseIds_nil _).symm
  | cons id ids ih =>
    rw [List.foldlM_cons] at ok
    obtain ⟨middle, first, later⟩ := bind_eq_ok.mp ok
    unfold eraseFromParent at first
    split at first <;> cases first
    rw [ih later, eraseIds_append, List.singleton_append]

theorem insertBefore_map {l : Label} {N : Block} {gone : List Nat} (Bs : List Block)
    (untouched : eraseBlock gone N = N) :
    insertBefore l N (Bs.map (eraseBlock gone)) = (insertBefore l N Bs).map (eraseBlock gone) := by
  induction Bs with
  | nil => rw [List.map_nil, insertBefore, List.map_singleton, untouched]
  | cons B Bs ih =>
    have label : (eraseBlock gone B).label = B.label := rfl
    by_cases same : B.label = l
    · simp only [List.map_cons, insertBefore, label, if_pos same, untouched]
    · simp only [List.map_cons, insertBefore, label, if_neg same, ih]

theorem setTerm_erase {l : Label} {t : Term Value} {gone : List Nat} (X : Block) :
    setTerm l t (eraseBlock gone X) = eraseBlock gone (setTerm l t X) := by
  have label : (eraseBlock gone X).label = X.label := rfl
  unfold setTerm
  rw [label]
  split <;> rfl

theorem eraseIds_block {gone : List Nat} {l : Label} :
    (eraseIds gone f).block l = (f.block l).map (eraseBlock gone) := by
  unfold Function.block eraseIds
  rw [List.find?_map]
  rfl

theorem freshLabel_erase {gone : List Nat} : freshLabel (eraseIds gone f) = freshLabel f := by
  unfold freshLabel eraseIds
  rw [List.map_map]
  rfl

/-- Moving an edge and erasing old instructions do not interfere. -/
theorem splitEdge_erase {gone : List Nat} {e : Value × Label} (old : ∀ i ∈ gone, i < f.nextId) :
    splitEdge svn parent rest (eraseIds gone f) e =
      (splitEdge svn parent rest f e).map (eraseIds gone) := by
  unfold splitEdge
  rw [eraseIds_block, freshLabel_erase]
  cases f.block e.2 with
  | none => rfl
  | some A =>
    dsimp only [Option.map_some]
    have term : (eraseBlock gone A).term = A.term := rfl
    rw [term]
    cases redirect parent (freshLabel f) A.term with
    | error r => rfl
    | ok t =>
      have untouched :
          eraseBlock gone (callBlock svn (freshLabel f) f.nextId parent (e.1 :: rest)) =
          callBlock svn (freshLabel f) f.nextId parent (e.1 :: rest) := by
        have kept : f.nextId ∉ gone := fun h => Nat.lt_irrefl _ (old _ h)
        simp [eraseBlock, callBlock, kept]
      have blocks : (eraseIds gone f).blocks.map (setTerm e.2 t) =
          (f.blocks.map (setTerm e.2 t)).map (eraseBlock gone) := by
        unfold eraseIds
        rw [List.map_map, List.map_map]
        exact List.map_congr_left fun X _ => setTerm_erase X
      have next : (eraseIds gone f).nextId = f.nextId := rfl
      dsimp only [Except.map]
      rw [blocks, next, insertBefore_map _ untouched]
      rfl

theorem splitEdge_nextId {g : Function} {e : Value × Label}
    (ok : splitEdge svn parent rest f e = .ok g) : f.nextId ≤ g.nextId := by
  unfold splitEdge at ok
  split at ok
  · cases ok
  · obtain ⟨t, -, rfl⟩ := map_eq_ok.mp ok
    exact Nat.le_add_right _ _

theorem splitEdges_erase {gone : List Nat} {todo : List (Value × Label)}
    (old : ∀ i ∈ gone, i < f.nextId) :
    todo.foldlM (splitEdge svn parent rest) (eraseIds gone f) =
      (todo.foldlM (splitEdge svn parent rest) f).map (eraseIds gone) := by
  induction todo generalizing f with
  | nil => rfl
  | cons e todo ih =>
    rw [List.foldlM_cons, List.foldlM_cons, splitEdge_erase old]
    cases step : splitEdge svn parent rest f e with
    | error r => rfl
    | ok g => exact ih fun i hi => Nat.lt_of_lt_of_le (old i hi) (splitEdge_nextId step)

theorem splitEdges_nextId {todo : List (Value × Label)} {g : Function}
    (ok : todo.foldlM (splitEdge svn parent rest) f = .ok g) :
    f.nextId ≤ g.nextId := by
  induction todo generalizing f with
  | nil =>
    cases ok
    exact Nat.le_refl _
  | cons e todo ih =>
    rw [List.foldlM_cons] at ok
    obtain ⟨middle, first, later⟩ := bind_eq_ok.mp ok
    exact Nat.le_trans (splitEdge_nextId first) (ih later)

/-- One call, with its phi and itself erased at once. -/
def splitCall (svn : Api) (f : Function) (s : Site) : Except Refusal Function :=
  (processPHI svn f s).map (eraseIds s.erased)

theorem processAll_erase {gone : List Nat} {calls : List Site} (old : ∀ i ∈ gone, i < f.nextId) :
    calls.foldlM (processPHI svn) (eraseIds gone f) =
      (calls.foldlM (processPHI svn) f).map (eraseIds gone) := by
  induction calls generalizing f with
  | nil => rfl
  | cons s calls ih =>
    rw [List.foldlM_cons, List.foldlM_cons]
    have first : processPHI svn (eraseIds gone f) s = (processPHI svn f s).map (eraseIds gone) :=
      splitEdges_erase old
    rw [first]
    cases step : processPHI svn f s with
    | error r => rfl
    | ok g => exact ih fun i hi => Nat.lt_of_lt_of_le (old i hi) (splitEdges_nextId step)

/-- Erasing at the end gives the same as erasing after each call. -/
theorem splitAllCalls
    {calls : List Site} {g : Function} (old : ∀ s ∈ calls, ∀ i ∈ s.erased, i < f.nextId)
    (ok : calls.foldlM (processPHI svn) f = .ok g) :
    calls.foldlM (splitCall svn) f = .ok (eraseIds (calls.flatMap Site.erased) g) := by
  induction calls generalizing f g with
  | nil =>
    cases ok
    rw [List.flatMap_nil, eraseIds_nil]
    rfl
  | cons s calls ih =>
    rw [List.foldlM_cons] at ok
    obtain ⟨middle, first, later⟩ := bind_eq_ok.mp ok
    have grows : f.nextId ≤ middle.nextId := splitEdges_nextId first
    have here : ∀ i ∈ s.erased, i < middle.nextId :=
      fun i hi => Nat.lt_of_lt_of_le (old s List.mem_cons_self i hi) grows
    have erased : calls.foldlM (processPHI svn) (eraseIds s.erased middle) =
        .ok (eraseIds s.erased g) := by
      rw [processAll_erase here, later]
      rfl
    have rest := ih (f := eraseIds s.erased middle)
      (fun r hr i hi => Nat.lt_of_lt_of_le (old r (List.mem_cons_of_mem _ hr) i hi) grows) erased
    rw [List.foldlM_cons, List.flatMap_cons, ← eraseIds_append, ← rest]
    unfold splitCall
    rw [first]
    rfl

theorem fixup_eq
    {calls : List Site} {f' : Function} (old : ∀ s ∈ calls, ∀ i ∈ s.erased, i < f.nextId)
    (ok : fixupSetVirusNameCalls svn f calls = .ok f') :
    calls.foldlM (splitCall svn) f = .ok f' := by
  obtain ⟨g, processed, erased⟩ := bind_eq_ok.mp ok
  rw [eraseAll_eq erased]
  exact splitAllCalls old processed

end

/-! ## What one call leaves behind -/

def lift (s : Site) (τ : Block → Term Value) (X : Block) : Block :=
  eraseBlock s.erased (retarget τ X)

/-- The function with new blocks on all edges into the block of the phi. -/
structure Lifted (svn : Api) (f : Function) (s : Site) (rest : List Value) (τ : Block → Term Value)
    (h : Function) : Prop where
  perm : h.blocks.Perm (newBlocks svn f s.parent rest s.phi.incoming ++ f.blocks.map (lift s τ))
  entry : ∀ E, f.entry = some E → h.entry = some (lift s τ E)
  nextId : h.nextId = f.nextId + 2 * s.phi.incoming.length
  args : h.args = f.args
  terms : ∀ X ∈ f.blocks, Rerouted (Moved f s.parent s.phi.incoming X.label) X.term (τ X)
  gone : ∀ X ∈ f.blocks, s.parent ∉ (τ X).successors

section
variable {S : Sem V M} {svn : Api} {f h : Function} {s : Site} {B : Block}
  {before after : List Inst} {rest : List Value}

theorem Alone.phi_mem (alone : Alone S svn f s B before after rest) : s.phi ∈ B.phis := by
  rw [alone.phis]
  exact List.mem_singleton_self _

theorem Alone.call_mem (alone : Alone S svn f s B before after rest) : s.call ∈ B.body := by
  rw [alone.body]
  exact List.mem_append_right _ List.mem_cons_self

theorem Alone.phi_id (alone : Alone S svn f s B before after rest) : s.phi.id ∈ B.ids :=
  List.mem_append_left _ (List.mem_append_left _ (List.mem_map_of_mem alone.phi_mem))

theorem Alone.call_id (alone : Alone S svn f s B before after rest) : s.call.id ∈ B.ids :=
  List.mem_append_left _ (List.mem_append_right _ (List.mem_map_of_mem alone.call_mem))

theorem Alone.erased_lt (alone : Alone S svn f s B before after rest) (wf : f.WellFormed) :
    ∀ i ∈ s.erased, i < f.nextId := by
  intro i hi
  simp only [Site.erased, List.mem_cons, List.not_mem_nil, or_false] at hi
  rcases hi with rfl | rfl
  · exact wf.fresh B alone.member _ alone.call_id
  · exact wf.fresh B alone.member _ alone.phi_id

theorem newBlocks_erase {gone : List Nat} {parent : Label} {entries : List (Value × Label)}
    (old : ∀ i ∈ gone, i < f.nextId) :
    (newBlocks svn f parent rest entries).map (eraseBlock gone) =
      newBlocks svn f parent rest entries := by
  refine (List.map_congr_left fun X hX => ?_).trans (List.map_id' _)
  obtain ⟨j, e, -, rfl⟩ := mem_newBlocks.mp hX
  have kept : f.nextId + 2 * j ∉ gone := fun member => by
    have := old _ member
    omega
  simp [eraseBlock, callBlock, kept]

theorem splitCall_lifted (verified : Verified f) (alone : Alone S svn f s B before after rest)
    (ok : splitCall svn f s = .ok h) :
    ∃ τ, Lifted svn f s rest τ h := by
  have wf := verified.ssa.wf
  obtain ⟨g, processed, rfl⟩ := map_eq_ok.mp ok
  obtain ⟨τ, split⟩ := processPHI_split wf alone.member alone.label alone.phi_mem processed
  obtain ⟨se, op⟩ := alone.call
  have tail : (callArgs s.call.op).tail = rest := by rw [op]; rfl
  rw [tail] at split
  refine ⟨τ, ?_, ?_, split.nextId, split.args, split.terms, ?_⟩
  · refine (split.perm.map (eraseBlock s.erased)).trans (List.Perm.of_eq ?_)
    rw [List.map_append, newBlocks_erase (alone.erased_lt wf), List.map_map]
    rfl
  · intro E entry
    have first := split.entry E entry
    unfold Function.entry at first
    show (g.blocks.map (eraseBlock s.erased)).head? = _
    rw [List.head?_map, first]
    rfl
  · intro X hX member
    have left := split.left X hX
    have per := verified.entries X hX B alone.member s.phi alone.phi_mem
    rw [alone.label] at per
    have some : 0 < (τ X).successors.count s.parent := List.count_pos_iff.mpr member
    omega

end

end SetVirusName
