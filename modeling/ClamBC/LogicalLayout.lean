import ClamBC.LogicalDiagnostics
import ClamBC.LogicalSafety
import ClamBC.LogicalSteps

/-!
# Phis, routes and the order of the blocks

The compiler goes through the blocks in layout order, whatever the control flow is. A phi
asks for the conditions on all routes from the entry and for its inputs. These are in the
map if the blocks that they come from are laid out in front of the phi, and the node of
a phi is null if there is no condition on any way to it. So which entries are absent or
null can be told from the function.
-/

namespace LogicalLayout

open Ir LogicalNode LogicalCompiler LogicalDiagnostics LogicalRoutes LogicalShape LogicalMap
  LogicalPhi LogicalInstructions LogicalSafety LogicalSteps Fallible

section
variable (gv : GlobalId) (f : Function)

/-- The block `A` is laid out in front of `B`. -/
def Before (A B : Block) : Prop := ∃ done rest, f.blocks = done ++ B :: rest ∧ A ∈ done

/-- Instructions that get a node unless they end the compilation. -/
def bindsOrEnds : Op Value → Bool
  | .dbg => false
  | .alloca _ => false
  | .load _ _ => false
  | .icmp _ _ _ => false
  | _ => true

/-- In front of this instruction of the block, in layout order, the value has an entry. The compiler
goes on behind a read or a comparison that it has a message about, so these have to be right. -/
inductive Bound : Block → Nat → Value → Prop
  | earlier {A B : Block} {k : Nat} {v : Value} (before : Before f A B)
      (bound : Bound A A.body.length v) : Bound B k v
  | phi {B : Block} {k : Nat} {p : Phi} (hp : p ∈ B.phis) : Bound B k (.inst p.id)
  | other {B : Block} {k j : Nat} {i : Inst} (above : j < k) (inst : B.body[j]? = some i)
      (op : bindsOrEnds i.op = true) : Bound B k (.inst i.id)
  | read {B : Block} {k j : Nat} {i : Inst} {vol : Bool} {ptr : Value} (above : j < k)
      (inst : B.body[j]? = some i) (op : i.op = .load vol ptr) (taken : ¬ RejectedRead gv ptr) :
      Bound B k (.inst i.id)
  | compare {B : Block} {k j : Nat} {i : Inst} {pred : Predicate} {lhs rhs v : Value}
      {bits c : Nat} (above : j < k) (inst : B.body[j]? = some i) (op : i.op = .icmp pred lhs rhs)
      (places : (lhs = v ∧ rhs = .const (.int bits c)) ∨ (rhs = v ∧ lhs = .const (.int bits c)))
      (small : c < 2 ^ 32) (taken : ¬ Refused pred (BitVec.ofNat 32 c)) (operand : Bound B j v) :
      Bound B k (.inst i.id)

/-- A phi without a condition on any way to it. -/
def NullPhi (v : Value) : Prop :=
  ∃ B ∈ f.blocks, ∃ p ∈ B.phis, v = .inst p.id ∧ Unconditional f B.label p

/-- The value has a node when the compiler comes to the block. -/
def Usable (B : Block) (v : Value) : Prop :=
  (∃ A, Before f A B ∧ Bound gv f A A.body.length v) ∧ ¬ NullPhi f v

def Branches (B : Block) : Prop := (∃ d, B.term = .br d) ∨ ∃ c t e, B.term = .condBr c t e

/-- The condition on a phi: what it follows is laid out in front of it, and a computed input has a
condition on the way. Without a branch in the entry there is no route at all. -/
def PhiLaid (map : Nat → Option Ptr) (B : Block) (p : Phi) : Prop :=
  ∀ E, f.entry = some E → ∀ e ∈ p.incoming, isZero e.1 = false →
    Branches E ∧
    ∀ r ∈ routesTo f E.label B.label, EndsIn r e.2 →
      (∀ hop ∈ r, ∀ c, hop.cond = some c →
        Usable gv f B c ∧ (hop.isTrue = false → CanNegate map c)) ∧
      (isConstantInt e.1 = false → Usable gv f B e.1 ∧ ∃ hop ∈ r, hop.cond ≠ none)

/-- The condition on an instruction: the operands that it follows are no such phis. -/
def InstLaid (map : Nat → Option Ptr) (B : Block) (k : Nat) (i : Inst) : Prop :=
  InstFollows map (fun v => ¬ NullPhi f v)
    (fun v => isConstantInt v = true ∨ Bound gv f B k v) gv i

def TermLaid (map : Nat → Option Ptr) (t : Term Value) : Prop :=
  TermFollows map (fun v => ¬ NullPhi f v) t

/-- The conditions on the steps that the compilation comes to. -/
structure Laid (o : PtrOrder) : Prop where
  phi : ∀ B s p ps, AtPhi o gv f B s (p :: ps) → PhiLaid gv f s.map B p
  inst : ∀ B s valid i is, AtInst o gv f B s valid (i :: is) → ∀ done, B.body = done ++ i :: is →
    InstLaid gv f s.map B done.length i
  term : ∀ B s valid, AtInst o gv f B s valid [] → TermLaid f s.map B.term

end

section
variable {o : PtrOrder} {gv : GlobalId} {f : Function} {B : Block} {s : State}

/-! What is bound has an entry. -/

theorem lookup_setNode {v : Value} {i : Nat} {n : Ptr} (there : lookup s.map v ≠ none) :
    lookup (s.setNode i n).map v ≠ none := by
  cases v with
  | inst d =>
    by_cases same : d = i
    · simp [lookup, State.setNode, same]
    · simpa [lookup, State.setNode, Function.update_of_ne same] using there
  | arg j => exact there
  | const c => exact there

/-- All that is bound in the blocks in front of the block has an entry. -/
def Entered (gv : GlobalId) (f : Function) (B : Block) (map : Nat → Option Ptr) : Prop :=
  ∀ A, Before f A B → ∀ v, Bound gv f A A.body.length v → lookup map v ≠ none

theorem Entered.setNode {i : Nat} {n : Ptr} (present : Entered gv f B s.map) :
    Entered gv f B (s.setNode i n).map :=
  fun A before v bound => lookup_setNode (present A before v bound)

theorem atPhi_entered
    (start : ∀ t rest, AtBlock o gv f t (B :: rest) → Entered gv f B t.map)
    {ps : List Phi} (reached : AtPhi o gv f B s ps) :
    Entered gv f B s.map ∧
      ∀ done, B.phis = done ++ ps → ∀ p ∈ done, lookup s.map (.inst p.id) ≠ none := by
  induction reached with
  | start before =>
    refine ⟨start _ _ before, fun done split => ?_⟩
    have empty : done = [] := by simpa using split
    rw [empty]
    exact nofun
  | @next s p ps n before ran ih =>
    obtain ⟨present, phis⟩ := ih
    refine ⟨present.setNode, fun done split q hq => ?_⟩
    obtain ⟨front, split'⟩ := (atPhi_split before).2
    have same : done = front ++ [p] := by
      rw [split', ← List.singleton_append, ← List.append_assoc] at split
      exact (List.append_cancel_right split).symm
    rw [same] at hq
    rcases List.mem_append.mp hq with hq | hq
    · exact lookup_setNode (phis front split' q hq)
    · rw [List.mem_singleton.mp hq]
      simp [lookup, State.setNode]

theorem decides_of_bindsOrEnds {find : Value → Option Ptr} {i : Inst} {st : Step}
    (op : bindsOrEnds i.op = true) (ran : processInst o gv find i = .ok st) : Decides st := by
  refine processInst_decides ?_ (fun dbg => ?_) (fun size alloca => ?_) ran
  · unfold flags
    split
    · next same =>
      rw [same] at op
      cases op
    · next same =>
      rw [same] at op
      cases op
    · rfl
  · rw [dbg] at op
    cases op
  · rw [alloca] at op
    cases op

/-- What is bound by an instruction is bound when the walk goes on behind it. -/
theorem bound_snoc {done is : List Inst} {i : Inst} (split : B.body = done ++ i :: is)
    (front : ∀ v, Bound gv f B done.length v → lookup s.map v ≠ none) {st : Step}
    (ran : processInst o gv (lookup s.map) i = .ok st) (goes : ∀ m, st ≠ .reject m) {v : Value}
    (bound : Bound gv f B (done.length + 1) v) :
    Bound gv f B done.length v ∨ (v = .inst i.id ∧ ∃ n, st = .bind n) := by
  have place : ∀ {j : Nat} {i' : Inst}, j < done.length + 1 → B.body[j]? = some i' →
      j < done.length ∨ (j = done.length ∧ i' = i) := by
    intro j i' above inst
    rcases Nat.lt_succ_iff_lt_or_eq.mp above with above | rfl
    · exact .inl above
    · rw [split, List.getElem?_append_right (Nat.le_refl _), Nat.sub_self] at inst
      exact .inr ⟨rfl, (Option.some.inj inst).symm⟩
  cases bound with
  | earlier before bound => exact .inl (.earlier before bound)
  | phi hp => exact .inl (.phi hp)
  | other above inst op =>
    rcases place above inst with above | ⟨-, rfl⟩
    · exact .inl (.other above inst op)
    · refine .inr ⟨rfl, (decides_of_bindsOrEnds op ran).resolve_right ?_⟩
      rintro ⟨m, rfl⟩
      exact goes m rfl
  | @read _ _ _ i' vol ptr above inst op taken =>
    rcases place above inst with above | ⟨-, rfl⟩
    · exact .inl (.read above inst op taken)
    · refine .inr ⟨rfl, ?_⟩
      simp only [processInst, op] at ran
      cases st with
      | bind n => exact ⟨n, rfl⟩
      | reject m => exact absurd rfl (goes m)
      | flag m => exact absurd (load_rejected ran rfl) taken
      | skip => exact absurd (processLoad_goesOn ran) not_goesOn_skip
  | compare above inst op places small taken operand =>
    rcases place above inst with above | ⟨rfl, rfl⟩
    · exact .inl (.compare above inst op places small taken operand)
    · refine .inr ⟨rfl, ?_⟩
      simp only [processInst, op] at ran
      obtain ⟨p, found⟩ := Option.ne_none_iff_exists'.mp (front _ operand)
      cases st with
      | bind n => exact ⟨n, rfl⟩
      | reject m => exact absurd rfl (goes m)
      | flag m => exact absurd (icmp_refused ran rfl places small found) taken
      | skip => exact absurd (processICmp_goesOn ran) not_goesOn_skip

theorem atInst_entered
    (start : ∀ t rest, AtBlock o gv f t (B :: rest) → Entered gv f B t.map)
    {valid : Bool} {is : List Inst} (reached : AtInst o gv f B s valid is) :
    ∀ done, B.body = done ++ is → ∀ v, Bound gv f B done.length v → lookup s.map v ≠ none := by
  -- one step further
  have step : ∀ {t : State} {valid : Bool} {i : Inst} {is : List Inst} {st : Step} {t' : State},
      AtInst o gv f B t valid (i :: is) →
      (∀ done, B.body = done ++ i :: is → ∀ v, Bound gv f B done.length v →
        lookup t.map v ≠ none) →
      processInst o gv (lookup t.map) i = .ok st → (∀ m, st ≠ .reject m) →
      (∀ v, lookup t.map v ≠ none → lookup t'.map v ≠ none) →
      (∀ n, st = .bind n → t'.map i.id ≠ none) →
      ∀ done, B.body = done ++ is → ∀ v, Bound gv f B done.length v → lookup t'.map v ≠ none := by
    intro t valid i is st t' before ih ran goes stays here done split v bound
    obtain ⟨front, split'⟩ := (atInst_split before).2
    have same : done = front ++ [i] := by
      rw [split', ← List.singleton_append, ← List.append_assoc] at split
      exact (List.append_cancel_right split).symm
    rw [same, List.length_append] at bound
    rcases bound_snoc split' (ih front split') ran goes bound with bound | ⟨rfl, n, isBind⟩
    · exact stays v (ih front split' v bound)
    · exact here n isBind
  induction reached with
  | start before =>
    intro done split v bound
    have empty : done = [] := by simpa using split
    rw [empty] at bound
    obtain ⟨present, phis⟩ := atPhi_entered start before
    cases bound with
    | earlier before bound => exact present _ before v bound
    | phi hp => exact phis _ (List.append_nil _).symm _ hp
    | other above => cases above
    | read above => cases above
    | compare above => cases above
  | skip before ran ih => exact step before ih ran nofun (fun _ there => there) nofun
  | flag before ran ih => exact step before ih ran nofun (fun _ there => there) nofun
  | bind before ran ih =>
    refine step before ih ran nofun (fun _ there => lookup_setNode there) fun n _ => ?_
    simp [State.setNode]

/-- A block is at one place only. -/
theorem before_unique (labels : (f.blocks.map Block.label).Nodup)
    {front done rest rest' : List Block} (first : f.blocks = front ++ B :: rest)
    (second : f.blocks = done ++ B :: rest') :
    front = done := by
  have nodup : (front ++ B :: rest).Nodup := first ▸ labels.of_map
  obtain ⟨left, right, apart⟩ := List.nodup_append.mp nodup
  have notFront : B ∉ front := fun inside => apart B inside B List.mem_cons_self rfl
  have notRest : B ∉ rest := (List.nodup_cons.mp right).1
  exact ((List.append_cons_inj_of_notMem notFront notRest).mp (first.symm.trans second)).1

/-- What is bound in the blocks that are done has an entry. -/
theorem atBlock_entered (labels : (f.blocks.map Block.label).Nodup) {bs : List Block}
    (reached : AtBlock o gv f s bs) {done : List Block} (split : f.blocks = done ++ bs) :
    ∀ A ∈ done, ∀ v, Bound gv f A A.body.length v → lookup s.map v ≠ none := by
  generalize count : done.length = n
  induction n generalizing s bs done with
  | zero =>
    rw [List.length_eq_zero_iff.mp count]
    exact nofun
  | succ n ih =>
    cases reached with
    | start =>
      have empty : done = [] := by simpa using split
      rw [empty] at count
      cases count
    | @next t _ B _ before ran =>
      obtain ⟨front, split'⟩ := atBlock_split before
      have same : done = front ++ [B] := by
        rw [split', ← List.singleton_append, ← List.append_assoc] at split
        exact (List.append_cancel_right split).symm
      have short : front.length = n := by
        rw [same, List.length_append] at count
        exact Nat.succ.inj count
      have start : ∀ t' rest', AtBlock o gv f t' (B :: rest') → Entered gv f B t'.map := by
        rintro t' rest' here A ⟨front', rest'', placed, hA⟩
        obtain ⟨done', split''⟩ := atBlock_split here
        rw [before_unique labels placed split'', ← before_unique labels split' split''] at hA
        rw [← before_unique labels split' split''] at split''
        exact ih here split'' short A hA
      obtain ⟨t', valid, ended, term⟩ := processBB_steps before ran
      have entered := atInst_entered start ended B.body (List.append_nil _).symm
      intro A hA v bound
      rw [processTerm_map term]
      rw [same] at hA
      rcases List.mem_append.mp hA with hA | hA
      · exact entered v (.earlier ⟨front, _, split', hA⟩ bound)
      · cases List.mem_singleton.mp hA
        exact entered v bound

theorem entered (labels : (f.blocks.map Block.label).Nodup) {rest : List Block}
    (reached : AtBlock o gv f s (B :: rest)) : Entered gv f B s.map := by
  rintro A ⟨front, rest', placed, hA⟩
  obtain ⟨done, split⟩ := atBlock_split reached
  rw [before_unique labels placed split] at hA
  exact atBlock_entered labels reached split A hA

/-! Every step finds what it follows. -/

/-- What every state satisfies: the nodes are whole, and only phis without a condition are null. -/
structure Inv (f : Function) (s : State) : Prop where
  map : WholeMap s.map
  nulls : ∀ d, s.map d = some none → NullPhi f (.inst d)
  stack : s.stack = []
  exitNodesOr : ∀ n ∈ s.exitNodesOr, Whole n
  exitNodesAnd : ∀ n ∈ s.exitNodesAnd, Whole n

theorem Inv.setNode (h : Inv f s) {i : Nat} {p : Ptr} (hp : WholePtr p)
    (null : p = none → NullPhi f (.inst i)) : Inv f (s.setNode i p) := by
  refine ⟨fun j n found => ?_, fun j found => ?_, h.stack, h.exitNodesOr, h.exitNodesAnd⟩
  · by_cases same : j = i
    · subst same
      simp only [State.setNode, Function.update_self, Option.some.injEq] at found
      exact hp n found
    · simp only [State.setNode, Function.update_of_ne same] at found
      exact h.map j n found
  · by_cases same : j = i
    · subst same
      simp only [State.setNode, Function.update_self, Option.some.injEq] at found
      exact null found
    · simp only [State.setNode, Function.update_of_ne same] at found
      exact h.nulls j found

theorem Inv.report (h : Inv f s) (m : Message) (i : Option Nat) : Inv f (s.report m i) :=
  ⟨h.map, h.nulls, h.stack, h.exitNodesOr, h.exitNodesAnd⟩

theorem Inv.notNull (inv : Inv f s) {v : Value} (some : ¬ NullPhi f v) : NotNull s.map v := by
  intro null
  cases v with
  | inst d => exact some (inv.nulls d null)
  | arg i => cases null
  | const c => cases null

/-- What is usable has a node. -/
theorem Inv.present (inv : Inv f s) (here : Entered gv f B s.map) {v : Value}
    (usable : Usable gv f B v) : LogicalSafety.Present s.map v := by
  obtain ⟨⟨A, before, bound⟩, some⟩ := usable
  obtain ⟨p, found⟩ := Option.ne_none_iff_exists'.mp (here A before v bound)
  obtain ⟨n, rfl⟩ := Present.of_notNull found (inv.notNull some)
  exact ⟨n, found⟩

/-- A route is empty only at the entry, or if this does not branch. -/
theorem route_ne_nil {E : Block} (block : f.block E.label = some E) {l : Label} (ne : E.label ≠ l)
    (branches : Branches E) : ∀ r ∈ routesTo f E.label l, r ≠ [] := by
  rintro r hr rfl
  rw [routesTo_eq] at hr
  have longer : ∀ {fuel curr hop}, [] ∉ extended f l fuel curr ([] ++ [hop]) := by
    intro fuel curr hop inside
    cases List.prefix_nil.mp (prefix_of_mem_extended inside)
  rcases extended_succ f l f.blocks.length E.label [] with
    ⟨-, noBranch⟩ | ⟨-, C, dest, -, -, same⟩ | ⟨-, C, c, t, e, -, -, perm⟩
  · obtain ⟨noBr, noCondBr⟩ := noBranch ne nofun E block
    rcases branches with ⟨d, term⟩ | ⟨c, t, e, term⟩
    · exact noBr d term
    · exact noCondBr c t e term
  · rw [same] at hr
    exact longer hr
  · rcases List.mem_append.mp (perm.mem_iff.mp hr) with hr | hr
    · exact longer hr
    · exact longer hr

theorem readyPhi (wf : f.WellFormed) (inv : Inv f s) {p : Phi} (hB : B ∈ f.blocks) (hp : p ∈ B.phis)
    (here : Entered gv f B s.map) (laid : PhiLaid gv f s.map B p) :
    ReadyPhi s.map f B.label p := by
  intro E entry e he notZero
  obtain ⟨branches, routes⟩ := laid E entry e he notZero
  have hE : E ∈ f.blocks := List.mem_of_mem_head? entry
  refine ⟨route_ne_nil (wf.block_of_label hE) ?_ branches, fun r hr ends => ?_⟩
  · intro same
    have block := wf.block_of_label hB
    rw [← same, wf.block_of_label hE] at block
    cases block
    rw [wf.entryPhis B entry] at hp
    cases hp
  · obtain ⟨conditions, input⟩ := routes r hr ends
    refine ⟨fun hop inside c cond => ?_, fun notConst => ?_⟩
    · obtain ⟨usable, negate⟩ := conditions hop inside c cond
      exact ⟨inv.present here usable, negate⟩
    · obtain ⟨usable, conditional⟩ := input notConst
      exact ⟨inv.present here usable, conditional⟩

/-- The last instruction of a block. -/
theorem processTerm_inv (inv : Inv f s) {t : Term Value} (ready : ReadyTerm s.map t)
    (id : Nat) (valid : Bool) :
    Yields (processTerm o id t s valid) fun r => Inv f r.1 := by
  have or_mem : ∀ {s : State} {n : Node}, Inv f s → Whole n → Inv f (s.pushOr n) := by
    intro s n inv hn
    refine ⟨inv.map, inv.nulls, inv.stack, fun m hm => ?_, inv.exitNodesAnd⟩
    rcases List.mem_append.mp hm with hm | hm
    · exact inv.exitNodesOr m hm
    · rwa [List.mem_singleton.mp hm]
  have and_mem : ∀ {s : State} {n : Node}, Inv f s → Whole n → Inv f (s.pushAnd n) := by
    intro s n inv hn
    refine ⟨inv.map, inv.nulls, inv.stack, inv.exitNodesOr, fun m hm => ?_⟩
    rcases List.mem_append.mp hm with hm | hm
    · exact inv.exitNodesAnd m hm
    · rwa [List.mem_singleton.mp hm]
  have popped : ∀ {s : State} {n : Node}, Inv f s → (s.push n).pop = s := by
    intro s n inv
    simp [State.push, State.pop]
  cases t with
  | br l => exact .ok inv
  | switch c d cases => exact .ok (inv.report _ _)
  | unreachable => exact .ok (inv.report _ _)
  | condBr c t e =>
    simp only [processTerm]
    split
    · exact .ok (inv.report _ _)
    · next found =>
      obtain ⟨n, rfl⟩ := Present.of_notNull found ready.1
      have negation := getNot_whole (o := o) (inv.map.lookup found) (ready.2 n found)
      refine negation.bind fun m _ => .ok ?_
      simp only [popped inv]
      exact inv
  | ret v =>
    cases v with
    | none => exact ready.elim
    | some v =>
      simp only [processTerm]
      split
      · have empty : getAnd o s.stack = .const true := by rw [inv.stack, getAnd_nil]
        simp only [empty]
        split_ifs
        · exact .ok (or_mem inv rfl)
        · exact .ok (and_mem inv rfl)
      · split
        · exact .ok (inv.report _ _)
        · next found =>
          obtain ⟨n, rfl⟩ := Present.of_notNull found ready
          have hn := inv.map.lookup found
          refine .ok ?_
          have alone : Whole (getAnd o (s.stack ++ [n])) := by
            rw [inv.stack]
            exact whole_kept.getAnd (by simpa using hn)
          have kept := or_mem inv alone
          simpa [State.push, State.pop, State.pushOr] using kept

theorem readyInst (inv : Inv f s) {k : Nat} {i : Inst}
    (here : ∀ v, Bound gv f B k v → lookup s.map v ≠ none)
    (laid : InstLaid gv f s.map B k i) : ReadyInst s.map gv i := by
  refine InstFollows.mono (fun v => inv.notNull) (fun v arm absent => ?_) laid
  exact arm.resolve_right fun bound => here v bound absent

theorem readyTerm (inv : Inv f s) {t : Term Value} (laid : TermLaid f s.map t) :
    ReadyTerm s.map t := by
  unfold TermLaid TermFollows at laid
  unfold ReadyTerm TermFollows
  split
  · exact laid.imp_left inv.notNull
  · exact inv.notNull laid
  · exact laid
  · trivial

/-- A compilation that comes only to such steps keeps the invariant, and meets no fault. -/
theorem Laid.keeps (wf : f.WellFormed) (laid : Laid gv f o) :
    Keeps o gv f (fun _ => False) (Inv f) where
  initial := ⟨nofun, nofun, rfl, nofun, nofun⟩
  report := fun inv => inv.report
  phi := fun {B s p ps} reached inv => by
    obtain ⟨hB, done, split⟩ := atPhi_split reached
    have hp : p ∈ B.phis := by simp [split]
    have here := (atPhi_entered (fun _ _ => entered wf.labels) reached).1
    have ready := readyPhi wf inv hB hp here (laid.phi B s p ps reached)
    refine ((processPHI_whole inv.map ready).mono fun n hn => ?_).meets
    exact inv.setNode hn.1 fun null => ⟨B, hB, p, hp, rfl, hn.2 null⟩
  inst := fun {B s valid i is} reached inv => by
    obtain ⟨hB, done, split⟩ := atInst_split reached
    have here := atInst_entered (fun _ _ => entered wf.labels) reached done split
    have ready := readyInst inv here (laid.inst B s valid i is reached done split)
    refine ((processInst_whole inv.map ready).mono fun st hst => ?_).meets
    rintro n isBind
    obtain ⟨m, rfl, whole⟩ := hst n isBind
    refine inv.setNode ?_ nofun
    rintro m' ⟨⟩
    exact whole
  term := fun {B s valid} reached inv =>
    (processTerm_inv inv (readyTerm inv (laid.term B s valid reached)) _ _).meets

end

/-- If a compilation comes only to such steps, it ends with a node, or with null and a diagnostic,
and no state on the way has a node with a null child. -/
theorem compile_safe {o : PtrOrder} {declared : Option GlobalId} {f : Function}
    (wf : f.WellFormed) (laid : ∀ gv, declared = some gv → Laid gv f o) :
    (∃ s r, compile o declared f = .ok (s, r) ∧ (r = none → s.diagnostics ≠ []) ∧
      ∀ n, r = some n → Whole n) ∧
    ∀ gv, declared = some gv →
      ∀ B s, ((∃ ps, AtPhi o gv f B s ps) ∨ ∃ valid is, AtInst o gv f B s valid is) →
      ∀ i n, s.map i = some (some n) → Whole n := by
  cases declared with
  | none =>
    refine ⟨⟨_, none, rfl, fun _ => by simp [State.report], ?_⟩, ?_⟩
    · rintro n ⟨⟩
    · rintro gv ⟨⟩
  | some gv =>
    have keeps := (laid gv rfl).keeps wf
    obtain ⟨⟨s, accepted⟩, ran, inv, reported⟩ := keeps.compiled.yields
    constructor
    · cases accepted with
      | false =>
        refine ⟨s, none, by simp [compile, ran], fun _ => reported rfl, ?_⟩
        rintro n ⟨⟩
      | true =>
        have returned : compile o (some gv) f =
            .ok (s, some (getAnd o [getOrExits o s.exitNodesOr, getAnd o s.exitNodesAnd])) := by
          simp [compile, ran]
        refine ⟨s, _, returned, fun null => absurd null (Option.some_ne_none _), ?_⟩
        rintro n ⟨⟩
        have left : Whole (getOrExits o s.exitNodesOr) := whole_kept.getOrExits inv.exitNodesOr
        have right : Whole (getAnd o s.exitNodesAnd) := whole_kept.getAnd inv.exitNodesAnd
        exact whole_kept.getAnd (by simp [left, right])
    · rintro gv' ⟨⟩ B s' reached
      rcases reached with ⟨ps, reached⟩ | ⟨valid, is, reached⟩
      · exact (keeps.atPhi reached).map
      · exact (keeps.atInst reached).map

/-! The phi of `sumOrThird` follows a branch and a comparison of blocks in front of it. -/

theorem sumOrThird_notNull {v : Value} (other : v ≠ .inst 9) : ¬ NullPhi sumOrThird v := by
  rintro ⟨B, hB, p, hp, rfl, -⟩
  simp only [sumOrThird, List.mem_cons, List.not_mem_nil, or_false] at hB
  rcases hB with rfl | rfl | rfl | rfl
  · cases hp
  · cases hp
  · cases hp
  · cases List.mem_singleton.mp hp
    exact other rfl

/-- The phi has a condition on the way to its second input. -/
theorem sumOrThird_conditional : ¬ NullPhi sumOrThird (.inst 9) := by
  rintro ⟨B, hB, p, hp, same, free⟩
  simp only [sumOrThird, List.mem_cons, List.not_mem_nil, or_false] at hB
  rcases hB with rfl | rfl | rfl | rfl
  · cases hp
  · cases hp
  · cases hp
  · cases List.mem_singleton.mp hp
    have route : [⟨0, some (.inst 3), false⟩, ⟨2, none, true⟩] ∈ routesTo sumOrThird 0 3 := by
      rw [sumOrThird_routes]
      simp
    cases free _ rfl (.inst 7, 2) (by simp) rfl _ route ⟨_, rfl, rfl⟩ _ List.mem_cons_self

theorem before_of_lt {f : Function} {A B : Block} {i j : Nat} (lt : i < j)
    (first : f.blocks[i]? = some A) (second : f.blocks[j]? = some B) : Before f A B := by
  obtain ⟨short, rfl⟩ := List.getElem?_eq_some_iff.mp second
  refine ⟨f.blocks.take j, f.blocks.drop (j + 1), ?_, List.mem_iff_getElem?.mpr ⟨i, ?_⟩⟩
  · rw [← List.drop_eq_getElem_cons short, List.take_append_drop]
  · rw [List.getElem?_take_of_lt lt, first]

theorem sumOrThird_laid : Laid 0 sumOrThird .inOrder where
  phi := by
    intro B s p ps reached
    have ext := sumOrThird_closed.keeps.atPhi reached
    obtain ⟨hB, done, split⟩ := atPhi_split reached
    have hp : p ∈ B.phis := by simp [split]
    simp only [sumOrThird, List.mem_cons, List.not_mem_nil, or_false] at hB
    rcases hB with rfl | rfl | rfl | rfl
    · cases hp
    · cases hp
    · cases hp
    cases List.mem_singleton.mp hp
    intro E entry e he notZero
    cases entry
    refine ⟨.inr ⟨_, _, _, rfl⟩, fun r hr ends => ⟨fun hop inside c cond => ?_, fun notConst => ?_⟩⟩
    · cases sumOrThird_condition hr inside cond
      refine ⟨⟨⟨_, before_of_lt (i := 0) (j := 3) (by decide) rfl rfl, ?_⟩,
        sumOrThird_notNull (by simp)⟩, fun _ n found => ?_⟩
      · refine .compare (j := 3) (i := ⟨3, .int 1, .icmp .ugt (.inst 2) (.const (.int 32 3))⟩)
          ?_ rfl rfl (.inl ⟨rfl, rfl⟩) ?_ ?_ ?_
        · decide
        · decide
        · exact id
        · refine .other (j := 2) (i := ⟨2, .int 32, .binary .add (.inst 0) (.inst 1)⟩) ?_ rfl rfl
          decide
      · cases ext 3 _ found
        rfl
    · simp only [List.mem_cons, List.not_mem_nil, or_false] at he
      rcases he with rfl | rfl
      · cases notConst
      refine ⟨⟨⟨_, before_of_lt (i := 2) (j := 3) (by decide) rfl rfl, ?_⟩,
        sumOrThird_notNull (by simp)⟩, ?_⟩
      · refine .compare (j := 1) (i := ⟨7, .int 1, .icmp .eq (.inst 6) (.const (.int 32 0))⟩)
          ?_ rfl rfl (.inl ⟨rfl, rfl⟩) ?_ ?_ ?_
        · decide
        · decide
        · exact id
        · refine .read (j := 0) (i := ⟨6, .int 32, .load false
            (.const (.getElementPtrExpr (.global 0) [.int 64 0, .int 64 2]))⟩) ?_ rfl rfl ?_
          · decide
          · simp [RejectedRead]
      · rw [sumOrThird_routes] at hr
        simp only [List.mem_cons, List.not_mem_nil, or_false] at hr
        rcases hr with rfl | rfl <;> exact ⟨_, List.mem_cons_self, Option.some_ne_none _⟩
  inst := by
    intro B s valid i is reached done _
    have ext := sumOrThird_closed.keeps.atInst reached
    obtain ⟨hB, front, split⟩ := atInst_split reached
    have hi : i ∈ B.body := by simp [split]
    have noConst : ∀ d, FitsInt64 (.inst d) := by
      rintro d bits n ⟨⟩
    have small : ∀ n, n < 2 ^ 64 → FitsInt64 (.const (.int 32 n)) := by
      rintro n le bits m ⟨⟩
      exact le
    simp only [sumOrThird, List.mem_cons, List.not_mem_nil, or_false] at hB
    rcases hB with rfl | rfl | rfl | rfl
    · simp only [List.mem_cons, List.not_mem_nil, or_false] at hi
      rcases hi with rfl | rfl | rfl | rfl
      · trivial
      · exact fun _ => ⟨64, 0, rfl, fun _ => ⟨64, 1, rfl, by decide⟩⟩
      · refine ⟨noConst 1, sumOrThird_notNull (by simp), sumOrThird_notNull (by simp), ?_⟩
        intro a b left right
        cases ext 0 _ left
        cases ext 1 _ right
        rfl
      · exact ⟨noConst 2, small 3 (by decide), sumOrThird_notNull (by simp),
          sumOrThird_notNull (by simp)⟩
    · cases hi
    · simp only [List.mem_cons, List.not_mem_nil, or_false] at hi
      rcases hi with rfl | rfl
      · exact fun _ => ⟨64, 0, rfl, fun _ => ⟨64, 2, rfl, by decide⟩⟩
      · exact ⟨noConst 6, small 0 (by decide), sumOrThird_notNull (by simp),
          sumOrThird_notNull (by simp)⟩
    · cases hi
  term := by
    intro B s valid reached
    have ext := sumOrThird_closed.keeps.atInst reached
    have hB := (atInst_split reached).1
    simp only [sumOrThird, List.mem_cons, List.not_mem_nil, or_false] at hB
    rcases hB with rfl | rfl | rfl | rfl
    · refine ⟨sumOrThird_notNull (by simp), fun n found => ?_⟩
      cases ext 3 _ found
      rfl
    · trivial
    · trivial
    · exact sumOrThird_conditional

theorem compile_safe_sumOrThird :
    sumOrThird.WellFormed ∧ Laid 0 sumOrThird .inOrder ∧
      (∃ s r, compile .inOrder (some 0) sumOrThird = .ok (s, r) ∧ (r = none → s.diagnostics ≠ []) ∧
        ∀ n, r = some n → Whole n) := by
  have wf : sumOrThird.WellFormed := SsaChecks.wellFormed_of_checks (by decide)
  have laid : ∀ gv, some 0 = some gv → Laid gv sumOrThird .inOrder := by
    rintro gv ⟨⟩
    exact sumOrThird_laid
  exact ⟨wf, sumOrThird_laid, (compile_safe wf laid).1⟩

/-- A phi that is true on the only way to it, which has no condition. -/
def constantPhi : Function where
  args := []
  nextId := 3
  blocks := [⟨0, [], [], 0, .br 1⟩,
    ⟨1, [⟨1, .int 1, [(.const (.int 1 1), 0)]⟩], [], 2, .ret (some (.inst 1))⟩]

/-- The phi is bound to null, and the return follows it. -/
theorem constantPhi_faults : SsaForm.Ssa constantPhi ∧ constantPhi.LoopFree ∧
    compile .inOrder (some 0) constantPhi = .error .nullNode :=
  ⟨(SsaChecks.ssa_of_checks (by decide)).1, (SsaChecks.ssa_of_checks (by decide)).2, rfl⟩

end LogicalLayout
