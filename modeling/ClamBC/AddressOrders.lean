import ClamBC.GlobalIdsExact
import ClamBC.LogicalQuestions
import ClamBC.SubSignatures

/-!
# What addresses decide

Nodes and constant expressions are kept in sets and maps by their addresses, which differ
from run to run. A small set of nodes is walked in the order of insertion, a large one and
a map in the order of the addresses, and so is every set of constant expressions; nothing
brings the elements into an order afterwards. The text of a signature and the numbers of
helper globals are the same in every run as long as no walk has a choice.
-/

namespace AddressOrders

open LogicalNode Asking
open LogicalQuestions (Question answer)
open SubSignatures (Request Source Started collect finish compileLogicalSignature signatureHead
  appended plainRequest)
open GlobalIds (Expr AddressOrder Llvm Accepts getGlobalID plainLlvm creationOrder tableModule)

/-- `SmallPtrSet<LogicalNode *, 4>`: up to four elements are in an array. -/
def Small (o : PtrOrder) : Prop := ∀ ns, ns.length ≤ 4 → o.set ns = ns

/-! ## Signatures -/

/-- The order does not depend on addresses. -/
def Narrow : Question → Prop
  | .set ns => ns.length ≤ 4
  | .keys ns => ns.length ≤ 1

instance : DecidablePred Narrow
  | .set ns => inferInstanceAs (Decidable (ns.length ≤ 4))
  | .keys ns => inferInstanceAs (Decidable (ns.length ≤ 1))

theorem perm_short {α : Type} {xs ys : List α} (perm : xs.Perm ys) (short : ys.length ≤ 1) :
    xs = ys := by
  rcases ys with _ | ⟨y, _ | ⟨y', ys⟩⟩
  · exact List.perm_nil.mp perm
  · exact List.perm_singleton.mp perm
  · simp at short

theorem answer_narrow {o : PtrOrder} (small : Small o) {q : Question} (narrow : Narrow q) :
    answer o q = answer .inOrder q := by
  cases q with
  | set ns => exact small ns narrow
  | keys ns => exact perm_short (o.keys_perm ns) narrow

/-- Addresses that reverse the order of insertion. -/
def backwards : PtrOrder where
  set ns := if ns.length ≤ 4 then ns else ns.reverse
  keys ns := ns.reverse
  set_perm ns := by
    split_ifs
    · exact .refl ns
    · exact ns.reverse_perm
  keys_perm ns := ns.reverse_perm

theorem backwards_small : Small backwards := fun _ short => if_pos short

theorem inOrder_small : Small .inOrder := fun _ _ => rfl

theorem short_of_reverse {α : Type} {xs : List α} (distinct : xs.Nodup) (same : xs = xs.reverse) :
    xs.length ≤ 1 := by
  rcases xs with _ | ⟨x, _ | ⟨y, xs⟩⟩
  · simp
  · simp
  · have last : (y :: xs).getLast (List.cons_ne_nil y xs) = x := by
      have heads := congrArg List.head? same
      rw [List.reverse_cons, List.head?_append_of_ne_nil _ (by simp), List.head?_reverse] at heads
      simpa [List.getLast?_eq_some_getLast] using heads.symm
    have twice : x ∈ y :: xs := last ▸ List.getLast_mem (List.cons_ne_nil y xs)
    exact absurd twice (List.nodup_cons.mp distinct).1

def elements : Question → List Node
  | .set ns => ns
  | .keys ns => ns

/-- Exactly the narrow questions have one answer. -/
theorem narrow_iff {q : Question} (distinct : (elements q).Nodup) :
    Narrow q ↔ ∀ o o', Small o → Small o' → answer o q = answer o' q := by
  constructor
  · intro narrow o o' small small'
    rw [answer_narrow small narrow, answer_narrow small' narrow]
  · intro one
    have same := one .inOrder backwards inOrder_small backwards_small
    cases q with
    | keys ns => exact short_of_reverse distinct same
    | set ns =>
      by_contra long
      have reversed : ns = ns.reverse := same.trans (if_neg long)
      have short : ns.length ≤ 1 := short_of_reverse distinct reversed
      exact long (short.trans (by decide))

/-- Every set that is walked over has at most four elements and every map at most one, as long as
they are walked in the order of insertion. -/
def SteadyTrigger (declared : Option Ir.GlobalId) (f : Ir.Function) : Prop :=
  ∀ q ∈ (LogicalQuestions.compile declared f).questions (answer .inOrder), Narrow q

instance (declared : Option Ir.GlobalId) (f : Ir.Function) : Decidable (SteadyTrigger declared f) :=
  inferInstanceAs
    (Decidable (∀ q ∈ (LogicalQuestions.compile declared f).questions (answer .inOrder), Narrow q))

theorem compile_steady {o : PtrOrder} (small : Small o) {declared : Option Ir.GlobalId}
    {f : Ir.Function} (steady : SteadyTrigger declared f) :
    LogicalCompiler.compile o declared f = LogicalCompiler.compile .inOrder declared f := by
  rw [← LogicalQuestions.run_compile, ← LogicalQuestions.run_compile]
  exact Ask.run_congr _ fun q hq => answer_narrow small (steady q hq)

/-- The trigger is compiled: `Signatures` has the form it must have and all entries are stored. -/
def Reached (m : Source) : Prop :=
  Started m ∧ ∃ table log,
    collect m.entries.length m.entries (List.replicate m.entries.length []) true [] =
      .ok (some table, log)

def SteadySignature (m : Source) : Prop := Reached m → SteadyTrigger m.matchCounts m.trigger

theorem signature_steady {o : PtrOrder} (small : Small o) {m : Source} (steady : SteadySignature m)
    (r : Request) :
    compileLogicalSignature o r m = compileLogicalSignature .inOrder r m := by
  unfold compileLogicalSignature
  split_ifs with initialized struct odd empty
  · rfl
  · rfl
  · have started : Started m := ⟨initialized, struct, Bool.eq_false_of_not_eq_true odd, empty⟩
    cases ran : collect m.entries.length m.entries (List.replicate m.entries.length []) true [] with
    | error f => rfl
    | ok loop =>
      obtain ⟨_ | table, log⟩ := loop
      · rfl
      · simp only [finish, compile_steady small (steady ⟨started, table, log, ran⟩)]
  · rfl
  · rfl

/-! ## Helper globals -/

section
variable (llvm : Llvm)

/-- The analyzer asks for the order of the constant expressions of each global. -/
def turn (st : GlobalIds.State) (g : GlobalIds.Global) :
    Ask (List Expr) (List Expr) GlobalIds.Fault GlobalIds.State :=
  .ask (GlobalIds.dependentExprs st g) fun es =>
    .done ((List.range es.length ++ List.range es.length).foldlM (GlobalIds.processNth llvm g.name)
      { st with ces := es })

def turns : Nat → Nat → GlobalIds.State →
    Ask (List Expr) (List Expr) GlobalIds.Fault GlobalIds.State
  | 0, i, st => if st.globals.length ≤ i then pure st else .done (.error .unfinished)
  | fuel + 1, i, st =>
    match st.globals[i]? with
    | none => pure st
    | some g => do
      let st ← turn llvm st g
      turns fuel (i + 1) st

theorem run_turns (order : AddressOrder) (fuel i : Nat) (st : GlobalIds.State) :
    (turns llvm fuel i st).run order.run = GlobalIds.turns llvm order fuel i st := by
  induction fuel generalizing i st with
  | zero =>
    unfold turns GlobalIds.turns
    split_ifs <;> rfl
  | succ fuel ih =>
    unfold turns GlobalIds.turns
    cases st.globals[i]? with
    | none => rfl
    | some g =>
      simp only [Ask.run_bind, ih]
      rfl

/-- At most one constant expression hangs together with a global when the loop comes to it. -/
def SteadyGlobals (m : GlobalIds.State) : Prop :=
  ∀ fuel, ∀ es ∈ (turns llvm fuel 0 { m with ces := [], ceMap := [] }).questions id, es.length ≤ 1

theorem turns_steady {m : GlobalIds.State} (steady : SteadyGlobals llvm m) (order : AddressOrder)
    (fuel : Nat) :
    GlobalIds.turns llvm order fuel 0 { m with ces := [], ceMap := [] } =
      (turns llvm fuel 0 { m with ces := [], ceMap := [] }).run id := by
  rw [← run_turns]
  exact Ask.run_congr _ fun es hes => perm_short (order.perm es) (steady fuel es hes)

variable {llvm} {order : AddressOrder} {m st st' : GlobalIds.State}

theorem turns_more {fuel i : Nat} (ran : GlobalIds.turns llvm order fuel i st = .ok st')
    (more : Nat) :
    GlobalIds.turns llvm order (fuel + more) i st = .ok st' := by
  induction fuel generalizing i st with
  | zero =>
    unfold GlobalIds.turns at ran
    split_ifs at ran with past
    cases more with
    | zero =>
      unfold GlobalIds.turns
      rwa [if_pos past]
    | succ more =>
      rw [Nat.zero_add]
      unfold GlobalIds.turns
      rwa [List.getElem?_eq_none past]
  | succ fuel ih =>
    rw [Nat.succ_add]
    unfold GlobalIds.turns at ran ⊢
    cases global : st.globals[i]? with
    | none => rwa [global] at ran
    | some g =>
      rw [global] at ran
      obtain ⟨next, first, rest⟩ := Fallible.bind_eq_ok.mp ran
      exact Fallible.bind_eq_ok.mpr ⟨next, first, ih rest⟩

/-- One order, one result. -/
theorem accepts_unique {ids ids' : GlobalIds.Ids} (accepts : Accepts llvm order m st ids)
    (accepts' : Accepts llvm order m st' ids') : st = st' ∧ ids = ids' := by
  obtain ⟨fuel, ran, numbered⟩ := accepts
  obtain ⟨fuel', ran', numbered'⟩ := accepts'
  have longer := turns_more ran fuel'
  rw [Nat.add_comm, turns_more ran' fuel] at longer
  cases longer
  cases numbered.symm.trans numbered'
  exact ⟨rfl, rfl⟩

end

/-! ## Two runs -/

/-- The same outcome, and with it the same text, whatever the addresses. -/
def TextFixed (m : Source) : Prop :=
  ∀ r o o', Small o → Small o' → compileLogicalSignature o r m = compileLogicalSignature o' r m

/-- The same numbers for the same constants, with the same initializers, whatever the addresses. -/
def NumbersFixed (llvm : Llvm) (m : GlobalIds.State) : Prop :=
  ∀ order order' st ids, Accepts llvm order m st ids → ∃ st' ids', Accepts llvm order' m st' ids' ∧
    (∀ e, getGlobalID st' ids' e = getGlobalID st ids e) ∧ ids'.globalInits = ids.globalInits

/-- Where no walk has a choice, nothing depends on addresses. -/
theorem fixed_of_steady {source : Source} {llvm : Llvm}
    {m : GlobalIds.State} (signature : SteadySignature source) (globals : SteadyGlobals llvm m) :
    TextFixed source ∧ NumbersFixed llvm m := by
  constructor
  · intro r o o' small small'
    rw [signature_steady small signature, signature_steady small' signature]
  · intro order order' st ids accepts
    refine ⟨st, ids, ?_, fun _ => rfl, rfl⟩
    unfold Accepts at accepts ⊢
    simpa only [turns_steady llvm globals] using accepts

/-- All of `n` subsignatures match. -/
def allMatched (n : Nat) : Ir.Function where
  args := []
  nextId := 3 * n
  blocks := [⟨0, [], (List.range n).flatMap (fun i =>
      [⟨2 * i, .int 32,
        .load false (.const (.getElementPtrExpr (.global 0) [.int 64 0, .int 64 i]))⟩,
        ⟨2 * i + 1, .int 1, .icmp .ne (.inst (2 * i)) (.const (.int 32 0))⟩]) ++
    (List.range (n - 1)).map (fun i =>
      ⟨2 * n + i, .int 1,
        .binary .and (.inst (if i = 0 then 1 else 2 * n + i - 1)) (.inst (2 * i + 3))⟩),
    3 * n - 1, .ret (some (.inst (3 * n - 2)))⟩]

/-- The module with this trigger and the pattern `ab` for each subsignature. -/
def allMatchedModule (n : Nat) : Source :=
  ⟨true, true, (List.range n).map fun i => ⟨some ['a', 'b'], .id i⟩, false, some 0, none,
    false, allMatched n⟩

theorem steady_tableModule : SteadyGlobals plainLlvm tableModule := by
  intro fuel
  rcases fuel with _ | _ | _ | fuel
  · exact nofun
  · decide
  · decide
  · have asked :
        (turns plainLlvm (fuel + 3) 0 { tableModule with ces := [], ceMap := [] }).questions id =
        [[.getElementPtr 1 (.global 0) [some 0, some 1] 2], [], []] := by
      cases fuel <;> rfl
    rw [asked]
    decide

/-- The text of a conjunction of four counts, and the helper for one element of a table. -/
theorem fixed_of_steady_four :
    TextFixed (allMatchedModule 4) ∧ NumbersFixed plainLlvm tableModule := by
  have trigger : SteadyTrigger (some 0) (allMatched 4) := by decide
  exact fixed_of_steady (fun _ => trigger) steady_tableModule

theorem entries_stored : SubSignatures.Stored 5 (allMatchedModule 5).entries [⟨0, ['a', 'b'], []⟩,
      ⟨1, ['a', 'b'], []⟩, ⟨2, ['a', 'b'], []⟩, ⟨3, ['a', 'b'], []⟩, ⟨4, ['a', 'b'], []⟩] :=
  .cons rfl (by decide) (.cons rfl (by decide)
    (.cons rfl (by decide) (.cons rfl (by decide) (.cons rfl (by decide) .nil))))

/-- The text with the expression that is printed for the node. -/
theorem accepted_five
    {o : PtrOrder} {s : LogicalCompiler.State} {node : Node} {text : String} {groups : Word}
    (compiled : LogicalCompiler.compile o (some 0) (allMatched 5) = .ok (s, some node))
    (notConst : SubSignatures.isConst node = none)
    (printed : LogicalText.node2String node 0 = .ok (text, groups)) (few : ¬ 64 < groups) :
    ∃ log, compileLogicalSignature o plainRequest (allMatchedModule 5) =
      .ok (.accepted (signatureHead plainRequest ++ "" ++ ";" ++ text ++
        appended (List.replicate 5 ['a', 'b'])) log) := by
  have started : Started (allMatchedModule 5) := ⟨rfl, rfl, rfl, nofun⟩
  have noAttributes : (allMatchedModule 5).rawattrs = none := rfl
  obtain ⟨log, emitted⟩ :=
    SubSignatures.emit_plain printed noAttributes few (List.replicate 5 ['a', 'b'])
  refine (SubSignatures.accepted_iff started).mpr ⟨_, entries_stored, ?_, s, node, log, compiled,
    notConst, emitted⟩
  rintro e ⟨⟩
  exact ⟨['a', 'b'], rfl, rfl⟩

/-- A global of which the instructions use the address as a pointer of two types. -/
def twoCasts : GlobalIds.State :=
  ⟨[.global 0, .bitcast (.global 0) 1, .bitcast (.global 0) 2],
    [⟨0, "table", true, true, some ⟨7, []⟩, true, false, false⟩],
    [[.bitcast (.global 0) 1], [.bitcast (.global 0) 2]], [], [], 1⟩

def reversedOrder : AddressOrder := ⟨List.reverse, List.reverse_perm⟩

theorem accepts_twoCasts : ∃ st ids, Accepts plainLlvm creationOrder twoCasts st ids ∧
    getGlobalID st ids (.bitcast (.global 0) 1) = some 4 :=
  ⟨_, _, ⟨6, rfl, rfl⟩, rfl⟩

theorem accepts_twoCasts_reversed : ∃ st ids, Accepts plainLlvm reversedOrder twoCasts st ids ∧
    getGlobalID st ids (.bitcast (.global 0) 1) = some 5 :=
  ⟨_, _, ⟨6, rfl, rfl⟩, rfl⟩

/-- Five counts in one conjunction, and two constant expressions of one global. -/
theorem addresses_decide :
    ¬ TextFixed (allMatchedModule 5) ∧ ¬ NumbersFixed plainLlvm twoCasts := by
  constructor
  · intro fixed
    obtain ⟨log, first⟩ := accepted_five (o := .inOrder) rfl rfl rfl (by decide)
    obtain ⟨log', second⟩ := accepted_five (o := backwards) rfl rfl rfl (by decide)
    have same := fixed plainRequest .inOrder backwards inOrder_small backwards_small
    rw [first, second] at same
    injection same with same
    injection same with same
    rw [String.append_left_inj, String.append_right_inj] at same
    exact absurd (String.ofList_injective same) (by decide)
  · intro fixed
    obtain ⟨st, ids, accepts, four⟩ := accepts_twoCasts
    obtain ⟨st', ids', accepts', same, -⟩ := fixed creationOrder reversedOrder st ids accepts
    obtain ⟨st₂, ids₂, accepts₂, five⟩ := accepts_twoCasts_reversed
    obtain ⟨rfl, rfl⟩ := accepts_unique accepts' accepts₂
    rw [same, four] at five
    cases five

end AddressOrders
