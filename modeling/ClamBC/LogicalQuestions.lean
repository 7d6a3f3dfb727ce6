import ClamBC.Asking
import ClamBC.Fallible
import ClamBC.LogicalCompiler

/-!
# The questions of the logical compiler

The compiler depends on addresses only where it walks over a set or a map keyed by
pointers. Here it asks for the order at each of these places; answered by an order,
it is the compiler.

The functions below are those of `LogicalNode` and `LogicalCompiler`, with a question in
place of each use of the order. They are written out again because which walks a run makes
cannot be read off a function of the order. Nothing new is said with them: each has the
theorem, under its name with `run_` in front, that answered by an order it is the function it
stands for, and what depends on no order is taken over as it is.
-/

namespace LogicalQuestions

open Ir LogicalNode Asking
open LogicalCompiler (Ptr State Step Route Walk Message deref lookup)

/-- The elements that are walked over, in the order in which they came in. -/
inductive Question where
  | set (ns : List Node)
  | keys (ns : List Node)

def answer (o : PtrOrder) : Question → List Node
  | .set ns => o.set ns
  | .keys ns => o.keys ns

abbrev Asks (α : Type) := Ask Question (List Node) Fault α

/-- The walk over a set or a map: the elements in the order of the addresses. -/
def walk (q : Question) : Asks (List Node) := .ask q pure

/-! ## The nodes -/

/-- If no conjunct is FALSE, walks over the map of groups, empty or not, and over the conjuncts if
there are several. -/
def getAnd (V : List Node) : Asks Node :=
  if .const false ∈ popped V then pure (.const false)
  else do
    let adds := (popped V).filterMap groupComparison
    let plain := (popped V).filter fun n => n ≠ .const true ∧ groupComparison n = none
    let groups ← walk (.keys (inserted (adds.map Prod.fst)))
    match inserted (plain ++ groups.flatMap (mergeGroup adds)) with
    | [] => pure (.const true)
    | [n] => pure n
    | others => do
      let cs ← walk (.set others)
      pure (.and cs)

/-- Walks over the alternatives if there are several. -/
def getOr (V : List Node) : Asks Node :=
  if .const true ∈ V then pure (.const true)
  else
    match inserted (V.flatMap alternatives) with
    | [] => pure (.const false)
    | [n] => pure n
    | nodes => do
      let cs ← walk (.set nodes)
      pure (.or cs)

def getOrExits (V : List Node) : Asks Node :=
  if V = [] then pure (.const true) else getOr V

/-- One end of a range; an end that is not needed asks nothing. -/
def bound (needed : Bool) (comparison : Asks Node) : Asks (List Node) :=
  if needed then do
    let n ← comparison
    pure [n]
  else pure []

def getRange (gt lt : Word → Asks Node) (min max : Word) : Asks Node := do
  let lower ← bound (min != 0) (gt (min - 1))
  let upper ← bound (max + 1 != 0) (lt (max + 1))
  getAnd (lower ++ upper)

mutual

/-- Asks only below an offset, where the range of the sum is a conjunction. -/
def getLT (n : Node) (value : Word) : Asks Node :=
  if value = 0 then pure (.const false)
  else
    match n with
    | .add op0 (some c) =>
      let ltRange := (ConstantRange.below value).subtract op0
      getRange (getGT c) (getLT c) ltRange.getUnsignedMin ltRange.getUnsignedMax
    | .add _ none => .done (.error .nullChild)
    | n => pure (.lt value n)

def getGT (n : Node) (value : Word) : Asks Node :=
  if value = 0 then pure n
  else
    match n with
    | .add op0 (some c) =>
      let gtRange := (ConstantRange.above value).subtract op0
      getRange (getGT c) (getLT c) gtRange.getUnsignedMin gtRange.getUnsignedMax
    | .add _ none => .done (.error .nullChild)
    | n => pure (.gt value n)

end

mutual

/-- Asks for each child and then for the node that joins the negated children. -/
def getNot : Node → Asks Node
  | .subsig id => .done (getEQ (.subsig id) 0)
  | .and cs => do
    let ns ← getNots cs
    getOr ns
  | .or cs => do
    let ns ← getNots cs
    getAnd ns
  | .eq op0 _ c => do
    let less ← getLT c op0
    let more ← getGT c op0
    getOr [less, more]
  | .gt op0 c => do
    let less ← getLT c op0
    let same ← getEQ c op0
    getOr [less, same]
  | .lt op0 c => do
    let more ← getGT c op0
    let same ← getEQ c op0
    getOr [more, same]
  | .not c => pure c
  | .const b => pure (.const !b)
  | .sums _ _ => .done (.error .invalidNegation)
  | .add _ _ => .done (.error .invalidNegation)

def getNots : List Node → Asks (List Node)
  | [] => pure []
  | c :: cs => do
    let n ← getNot c
    let ns ← getNots cs
    pure (n :: ns)

end

section
variable (o : PtrOrder)

@[simp] theorem run_walk (q : Question) : (walk q).run (answer o) = .ok (answer o q) := rfl

@[simp] theorem run_getAnd (V : List Node) :
    (getAnd V).run (answer o) = .ok (LogicalNode.getAnd o V) := by
  unfold getAnd LogicalNode.getAnd conjoined
  split_ifs with none
  · rfl
  · simp only [Ask.run_bind, run_walk, answer, Fallible.ok_bind]
    generalize inserted _ = others
    rcases others with _ | ⟨n, _ | ⟨n', others⟩⟩ <;> rfl

@[simp] theorem run_getOr (V : List Node) :
    (getOr V).run (answer o) = .ok (LogicalNode.getOr o V) := by
  unfold getOr LogicalNode.getOr
  split_ifs with none
  · rfl
  · generalize inserted _ = nodes
    rcases nodes with _ | ⟨n, _ | ⟨n', nodes⟩⟩ <;> rfl

@[simp] theorem run_getOrExits (V : List Node) :
    (getOrExits V).run (answer o) = .ok (LogicalNode.getOrExits o V) := by
  unfold getOrExits LogicalNode.getOrExits
  split_ifs with none
  · rfl
  · exact run_getOr o V

theorem run_bound {needed : Bool} {asking : Asks Node}
    {comparison : Except Fault Node} (run : asking.run (answer o) = comparison) :
    (bound needed asking).run (answer o) = LogicalNode.bound needed comparison := by
  subst run
  cases needed with
  | false => rfl
  | true =>
    simp only [bound, LogicalNode.bound, if_true, Ask.run_bind, Ask.run_pure]
    cases asking.run (answer o) <;> rfl

theorem run_getRange {gt lt : Word → Asks Node} {gt' lt' : Word → Except Fault Node}
    (runGT : ∀ v, (gt v).run (answer o) = gt' v) (runLT : ∀ v, (lt v).run (answer o) = lt' v)
    (min max : Word) :
    (getRange gt lt min max).run (answer o) = LogicalNode.getRange o gt' lt' min max := by
  simp only [getRange, LogicalNode.getRange, Ask.run_bind, run_getAnd, run_bound o (runGT _),
    run_bound o (runLT _)]
  rfl

/-- The comparisons of an offset come down to comparisons of what is below it. -/
theorem run_getLT_getGT (n : Node) :
    (∀ value, (getLT n value).run (answer o) = LogicalNode.getLT o n value) ∧
    ∀ value, (getGT n value).run (answer o) = LogicalNode.getGT o n value := by
  induction n using Node.induct with
  | add op0 c ih =>
    cases c with
    | none =>
      constructor <;> intro value
      · unfold getLT LogicalNode.getLT
        split_ifs <;> rfl
      · unfold getGT LogicalNode.getGT
        split_ifs <;> rfl
    | some c =>
      obtain ⟨lt, gt⟩ := ih c rfl
      constructor <;> intro value
      · unfold getLT LogicalNode.getLT
        split_ifs
        · rfl
        · exact run_getRange o gt lt _ _
      · unfold getGT LogicalNode.getGT
        split_ifs
        · rfl
        · exact run_getRange o gt lt _ _
  | _ =>
    constructor <;> intro value
    · unfold getLT LogicalNode.getLT
      split_ifs <;> rfl
    · unfold getGT LogicalNode.getGT
      split_ifs <;> rfl

@[simp] theorem run_getLT (n : Node) (value : Word) :
    (getLT n value).run (answer o) = LogicalNode.getLT o n value :=
  (run_getLT_getGT o n).1 value

@[simp] theorem run_getGT (n : Node) (value : Word) :
    (getGT n value).run (answer o) = LogicalNode.getGT o n value :=
  (run_getLT_getGT o n).2 value

theorem run_getNots {cs : List Node}
    (run : ∀ c ∈ cs, (getNot c).run (answer o) = LogicalNode.getNot o c) :
    (getNots cs).run (answer o) = LogicalNode.getNots o cs := by
  induction cs with
  | nil => rfl
  | cons c cs ih =>
    have rest := ih fun d hd => run d (List.mem_cons_of_mem c hd)
    simp only [getNots, LogicalNode.getNots, Ask.run_bind, Ask.run_pure,
      run c List.mem_cons_self, rest]

@[simp] theorem run_getNot (n : Node) : (getNot n).run (answer o) = LogicalNode.getNot o n := by
  induction n using Node.induct with
  | and cs ih =>
      simp only [getNot, LogicalNode.getNot, Ask.run_bind, run_getNots o ih, run_getOr]; rfl
  | or cs ih =>
      simp only [getNot, LogicalNode.getNot, Ask.run_bind, run_getNots o ih, run_getAnd]; rfl
  | eq op0 op1 c =>
      simp only [getNot, LogicalNode.getNot, Ask.run_bind, run_getLT, run_getGT, run_getOr]; rfl
  | gt op0 c =>
      simp only [getNot, LogicalNode.getNot, Ask.run_bind, Ask.run_liftM, run_getLT, run_getOr]; rfl
  | lt op0 c =>
      simp only [getNot, LogicalNode.getNot, Ask.run_bind, Ask.run_liftM, run_getGT, run_getOr]; rfl
  | _ => rfl

end

/-! ## The compiler -/

/-- A null pointer ends the run before anything is asked. -/
def getAndPtr (a b : Ptr) : Asks Node := do
  let a ← deref a
  let b ← deref b
  getAnd [a, b]

def getOrPtr (a b : Ptr) : Asks Node := do
  let a ← deref a
  if a = .const true then return .const true
  else
    let b ← deref b
    getOr [a, b]

def getGTPtr (n : Ptr) (value : Word) : Asks Ptr :=
  if value = 0 then pure n
  else do
    let n ← deref n
    return some (← getGT n value)

def getNotPtr (n : Ptr) : Asks Node := do
  let n ← deref n
  getNot n

/-- Only `!=` and comparisons of a sum with an offset ask. -/
def compareNode (pred : Predicate) (n : Ptr) (rhs : Word) : Asks Step :=
  match pred with
  | .eq => do
    let n ← deref n
    return .bind (some (← getEQ n rhs))
  | .ne => do
    let n ← deref n
    let eq ← getEQ n rhs
    return .bind (some (← getNot eq))
  | .ugt => do return .bind (← getGTPtr n rhs)
  | .uge => if rhs = 0 then pure (.flag .alwaysTrueGe) else do return .bind (← getGTPtr n (rhs - 1))
  | .ult => do
    let n ← deref n
    return .bind (some (← getLT n rhs))
  | .ule =>
    if rhs = maxWord then pure (.flag .alwaysTrueLe)
    else do
      let n ← deref n
      return .bind (some (← getLT n (rhs + 1)))
  | .sgt => pure (.flag .signedCompare)
  | .sge => pure (.flag .signedCompare)
  | .slt => pure (.flag .signedCompare)
  | .sle => pure (.flag .signedCompare)

section
variable (find : Value → Option Ptr)

def compareWith (pred : Predicate) (op0 op1 : Value) : Asks Step :=
  match op1 with
  | .const (.int _ v) => do
    let v ← LogicalCompiler.getZExtValue v
    if 2 ^ 32 ≤ v then return .flag .constantTooWide
    else
      match find op0 with
      | none => return .flag .compareMatchCount
      | some n => compareNode pred n (BitVec.ofNat 32 v)
  | _ => pure (.flag .compareToConstant)

def processICmp (pred : Predicate) (lhs rhs : Value) : Asks Step :=
  if LogicalCompiler.isConstant lhs then compareWith find pred rhs lhs else
    compareWith find pred lhs rhs

def selectArm (guard : Ptr) (m : Message) (arm : Value) : Asks (Message ⊕ Ptr) :=
  match find arm with
  | some n => do return .inr (some (← getAndPtr guard n))
  | none =>
    match arm with
    | .const (.int _ 0) => pure (.inr none)
    | .const (.int _ 1) => do return .inr (some (← deref guard))
    | .const (.int _ _) => pure (.inl m)
    | _ => .done (.error .badCast)

def processSelect (cond ifTrue ifFalse : Value) : Asks Step :=
  match find cond with
  | none => pure (.reject .selectCondition)
  | some c =>
    if find ifTrue = none ∧ find ifFalse = none then pure (.reject .selectCondition)
    else do
      match ← selectArm find c .selectTrueValue ifTrue with
      | .inl m => return .reject m
      | .inr n =>
        let notCond ← getNotPtr c
        match ← selectArm find (some notCond) .selectFalseValue ifFalse with
        | .inl m => return .reject m
        | .inr n2 =>
          match n, n2 with
          | some n, some n2 => return .bind (some (← getOr [n, n2]))
          | some n, none => return .bind (some n)
          | none, some n2 => return .bind (some n2)
          | none, none => return .reject .malformedSelect

def processXor (lhs rhs : Value) : Asks Step :=
  match rhs with
  | .const (.int _ 1) =>
    match find lhs with
    | none => pure (.reject .xorOperand)
    | some n => do return .bind (some (← getNotPtr n))
  | _ => pure (.reject .xorNegation)

/-- Loads, sums and extensions walk over nothing. -/
def processInst (gv : GlobalId) (i : Inst) : Asks Step :=
  match i.op with
  | .dbg => pure .skip
  | .alloca _ => pure .skip
  | .load _ ptr => .done (LogicalCompiler.processLoad gv ptr)
  | .icmp pred lhs rhs => processICmp find pred lhs rhs
  | .select cond ifTrue ifFalse => processSelect find cond ifTrue ifFalse
  | .binary .add lhs rhs => .done (LogicalCompiler.processAdd find lhs rhs)
  | .binary .and lhs rhs =>
    match find lhs, find rhs with
    | some a, some b => do return .bind (some (← getAndPtr a b))
    | _, _ => pure (.reject .andOperands)
  | .binary .or lhs rhs =>
    match find lhs, find rhs with
    | some a, some b => do return .bind (some (← getOrPtr a b))
    | _, _ => pure (.reject .orOperands)
  | .binary .xor lhs rhs => processXor find lhs rhs
  | .cast .zext src v => .done (LogicalCompiler.processZExt find src i.ty v)
  | _ => pure (.reject .unsupportedInstruction)

def directed (isTrue : Bool) (ln : Ptr) : Asks Ptr :=
  if isTrue then pure ln
  else do
    let n ← getNotPtr ln
    pure (some n)

/-- One conjunction for each condition on the route after the first. -/
def getLogicalNode : Route → Ptr → Asks Ptr
  | [], acc => pure acc
  | hop :: route, acc =>
    match hop.cond with
    | none => getLogicalNode route acc
    | some v =>
      match find v with
      | none => .done (.error .missingEntry)
      | some ln => do
        let ln ← directed hop.isTrue ln
        match acc with
        | none => getLogicalNode route ln
        | some _ =>
          let both ← getAndPtr acc ln
          getLogicalNode route (some both)

def withIncoming (v : Value) (path : Ptr) : Asks Ptr :=
  if LogicalCompiler.isConstantInt v then pure path
  else
    match find v with
    | none => .done (.error .missingEntry)
    | some l => do
      let n ← getAndPtr path l
      pure (some n)

def phiRoutes (v : Value) : List Route → Ptr → Asks Ptr
  | [], acc => pure acc
  | route :: routes, acc => do
    let path ← getLogicalNode find route none
    let tmp ← withIncoming find v path
    match acc with
    | none => phiRoutes v routes tmp
    | some _ =>
      let either ← getOrPtr acc tmp
      phiRoutes v routes (some either)

def phiIncoming (routes : List Route) : List (Value × Label) → Ptr → Asks Ptr
  | [], acc => pure acc
  | (v, l) :: rest, acc =>
    if LogicalCompiler.isZero v then phiIncoming routes rest acc
    else do
      let found ← LogicalCompiler.findRoute l routes
      let acc ← phiRoutes find v found acc
      phiIncoming routes rest acc

def processPHI (f : Function) (phiBlock : Label) (pn : Phi) : Asks Ptr :=
  match f.entry with
  | none => pure none
  | some startBlock =>
      phiIncoming find (LogicalCompiler.routesTo f startBlock.label phiBlock) pn.incoming none

end

section
variable (gv : GlobalId) (f : Function)

def processPhis (l : Label) : List Phi → State → Asks State
  | [], s => pure s
  | p :: ps, s => do
    let n ← processPHI (lookup s.map) f l p
    processPhis l ps (s.setNode p.id n)

def processBody : List Inst → State → Bool → Asks Walk
  | [], s, valid => pure (.on s valid)
  | i :: rest, s, valid => do
    match ← processInst (lookup s.map) gv i with
    | .skip => processBody rest s valid
    | .bind n => processBody rest (s.setNode i.id n) valid
    | .flag m => processBody rest (s.report m (some i.id)) false
    | .reject m => return .rejected (s.report m (some i.id))

/-- A conditional branch negates its condition, and a return joins what is on the stack. -/
def processTerm (id : Nat) (t : Term Value) (s : State) (valid : Bool) : Asks (State × Bool) :=
  match t with
  | .br _ => pure (s, true)
  | .condBr c _ _ =>
    match lookup s.map c with
    | none => pure (s.report .branchCondition (some id), false)
    | some n => do
      let n ← deref n
      let s := (s.push n).pop
      let negated ← getNot n
      return ((s.push negated).pop, valid)
  | .ret (some v) =>
    match v with
    | .const (.int _ c) => do
      let n ← getAnd s.stack
      if c = 0 then return (s.pushOr (← getNot n), valid) else return (s.pushAnd n, valid)
    | _ =>
      match lookup s.map v with
      | none => pure (s.report .returnValue (some id), false)
      | some n => do
        let s := s.push (← deref n)
        let n ← getAnd s.stack
        return ((s.pushOr n).pop, valid)
  | .ret none => .done (.error .noOperand)
  | .switch _ _ _ => pure (s.report .unsupportedInstruction (some id), false)
  | .unreachable => pure (s.report .unsupportedInstruction (some id), false)

def processBB (B : Block) (s : State) : Asks (State × Bool) := do
  let s ← processPhis f B.label B.phis s
  match ← processBody gv B.body s true with
  | .on s valid => processTerm B.termId B.term s valid
  | .rejected s => return (s, false)

def processBlocks : List Block → State → Asks (State × Bool)
  | [], s => pure (s, true)
  | B :: rest, s => do
    let r ← processBB gv f B s
    if r.2 then processBlocks rest r.1 else return (r.1.report .unableToCompile none, false)

end

/-- All questions of a run. -/
def compile (declared : Option GlobalId) (f : Function) : Asks (State × Ptr) :=
  match declared with
  | none => pure (State.initial.report .notDeclared none, none)
  | some gv => do
    let r ← processBlocks gv f f.blocks State.initial
    if r.2 then
      let either ← getOrExits r.1.exitNodesOr
      let every ← getAnd r.1.exitNodesAnd
      let n ← getAnd [either, every]
      return (r.1, some n)
    else return (r.1, none)

section
variable (o : PtrOrder)

@[simp] theorem run_getAndPtr (a b : Ptr) :
    (getAndPtr a b).run (answer o) = LogicalCompiler.getAndPtr o a b := by
  simp only [getAndPtr, LogicalCompiler.getAndPtr, Ask.run_bind, Ask.run_liftM, run_getAnd]
  rfl

@[simp] theorem run_getOrPtr (a b : Ptr) :
    (getOrPtr a b).run (answer o) = LogicalCompiler.getOrPtr o a b := by
  simp only [getOrPtr, LogicalCompiler.getOrPtr, Ask.run_bind, Ask.run_liftM]
  congr 1
  funext n
  split_ifs
  · rfl
  · simp only [Ask.run_bind, Ask.run_liftM, run_getOr]
    rfl

@[simp] theorem run_getGTPtr (n : Ptr) (value : Word) :
    (getGTPtr n value).run (answer o) = LogicalCompiler.getGTPtr o n value := by
  unfold getGTPtr LogicalCompiler.getGTPtr
  split_ifs
  · rfl
  · simp only [Ask.run_bind, Ask.run_liftM, run_getGT, Ask.run_pure]

@[simp] theorem run_getNotPtr (n : Ptr) :
    (getNotPtr n).run (answer o) = LogicalCompiler.getNotPtr o n := by
  simp only [getNotPtr, LogicalCompiler.getNotPtr, Ask.run_bind, Ask.run_liftM, run_getNot]

@[simp] theorem run_compareNode (pred : Predicate) (n : Ptr) (rhs : Word) :
    (compareNode pred n rhs).run (answer o) = LogicalCompiler.compareNode o pred n rhs := by
  cases pred with
  | eq => simp only [compareNode, LogicalCompiler.compareNode, Ask.run_bind,
      Ask.run_liftM, Ask.run_pure]
  | ne => simp only [compareNode, LogicalCompiler.compareNode, Ask.run_bind, Ask.run_liftM,
      run_getNot, Ask.run_pure]
  | ugt => simp only [compareNode, LogicalCompiler.compareNode, Ask.run_bind,
      run_getGTPtr, Ask.run_pure]
  | uge =>
    dsimp only [compareNode, LogicalCompiler.compareNode]
    split_ifs
    · rfl
    · simp only [Ask.run_bind, run_getGTPtr, Ask.run_pure]
  | ult => simp only [compareNode, LogicalCompiler.compareNode, Ask.run_bind, Ask.run_liftM,
      run_getLT, Ask.run_pure]
  | ule =>
    dsimp only [compareNode, LogicalCompiler.compareNode]
    split_ifs
    · rfl
    · simp only [Ask.run_bind, Ask.run_liftM, run_getLT, Ask.run_pure]
  | _ => rfl

variable (find : Value → Option Ptr)

@[simp] theorem run_compareWith (pred : Predicate) (op0 op1 : Value) :
    (compareWith find pred op0 op1).run (answer o) =
      LogicalCompiler.compareWith o find pred op0 op1 := by
  cases op1 with
  | const c =>
    cases c with
    | int bits v =>
      simp only [compareWith, LogicalCompiler.compareWith, Ask.run_bind, Ask.run_liftM]
      congr 1
      funext v
      split_ifs
      · rfl
      · cases find op0 with
        | none => rfl
        | some n => exact run_compareNode o pred n _
    | _ => rfl
  | _ => rfl

@[simp] theorem run_processICmp (pred : Predicate) (lhs rhs : Value) :
    (processICmp find pred lhs rhs).run (answer o) =
      LogicalCompiler.processICmp o find pred lhs rhs := by
  unfold processICmp LogicalCompiler.processICmp
  split_ifs <;> exact run_compareWith o find _ _ _

@[simp] theorem run_selectArm (guard : Ptr) (m : Message) (arm : Value) :
    (selectArm find guard m arm).run (answer o) = LogicalCompiler.selectArm o find guard m arm := by
  unfold selectArm LogicalCompiler.selectArm
  cases find arm with
  | some n => simp only [Ask.run_bind, run_getAndPtr, Ask.run_pure]
  | none =>
    cases arm with
    | const c =>
      cases c with
      | int bits v =>
        rcases v with _ | _ | v
        · rfl
        · simp only [Ask.run_bind, Ask.run_liftM, Ask.run_pure]
        · rfl
      | _ => rfl
    | _ => rfl

@[simp] theorem run_processSelect (cond ifTrue ifFalse : Value) :
    (processSelect find cond ifTrue ifFalse).run (answer o) =
      LogicalCompiler.processSelect o find cond ifTrue ifFalse := by
  unfold processSelect LogicalCompiler.processSelect
  cases find cond with
  | none => rfl
  | some c =>
    dsimp only
    split_ifs
    · rfl
    · simp only [Ask.run_bind, run_selectArm]
      congr 1
      funext first
      cases first with
      | inl m => rfl
      | inr n =>
        simp only [Ask.run_bind, run_getNotPtr, run_selectArm]
        congr 1
        funext notCond
        congr 1
        funext second
        cases second with
        | inl m => rfl
        | inr n2 =>
          rcases n with _ | n <;> rcases n2 with _ | n2
          · rfl
          · rfl
          · rfl
          · simp only [Ask.run_bind, run_getOr, Ask.run_pure, Fallible.ok_bind]

@[simp] theorem run_processXor (lhs rhs : Value) :
    (processXor find lhs rhs).run (answer o) = LogicalCompiler.processXor o find lhs rhs := by
  unfold processXor LogicalCompiler.processXor
  cases rhs with
  | const c =>
    cases c with
    | int bits v =>
      rcases v with _ | _ | v
      · rfl
      · cases find lhs with
        | none => rfl
        | some n => simp only [Ask.run_bind, run_getNotPtr, Ask.run_pure]
      · rfl
    | _ => rfl
  | _ => rfl

@[simp] theorem run_processInst (gv : GlobalId) (i : Inst) :
    (processInst find gv i).run (answer o) = LogicalCompiler.processInst o gv find i := by
  unfold processInst LogicalCompiler.processInst
  cases i.op with
  | icmp pred lhs rhs => exact run_processICmp o find pred lhs rhs
  | select cond ifTrue ifFalse => exact run_processSelect o find cond ifTrue ifFalse
  | binary op lhs rhs =>
    cases op with
    | and =>
      dsimp only
      rcases find lhs with _ | a <;> rcases find rhs with _ | b
      · rfl
      · rfl
      · rfl
      · simp only [Ask.run_bind, run_getAndPtr, Ask.run_pure]
    | or =>
      dsimp only
      rcases find lhs with _ | a <;> rcases find rhs with _ | b
      · rfl
      · rfl
      · rfl
      · simp only [Ask.run_bind, run_getOrPtr, Ask.run_pure]
    | xor => exact run_processXor o find lhs rhs
    | _ => rfl
  | cast op src v => cases op <;> rfl
  | _ => rfl

@[simp] theorem run_directed (isTrue : Bool) (ln : Ptr) :
    (directed isTrue ln).run (answer o) = LogicalCompiler.directed o isTrue ln := by
  unfold directed LogicalCompiler.directed
  split_ifs
  · rfl
  · simp only [Ask.run_bind, run_getNotPtr, Ask.run_pure]
    cases LogicalCompiler.getNotPtr o ln <;> rfl

@[simp] theorem run_getLogicalNode (route : Route) (acc : Ptr) :
    (getLogicalNode find route acc).run (answer o) =
      LogicalCompiler.getLogicalNode o find route acc := by
  induction route generalizing acc with
  | nil => rfl
  | cons hop route ih =>
    unfold getLogicalNode LogicalCompiler.getLogicalNode
    cases hop.cond with
    | none => exact ih acc
    | some v =>
      dsimp only
      cases find v with
      | none => rfl
      | some ln =>
        simp only [Ask.run_bind, run_directed]
        congr 1
        funext ln
        cases acc with
        | none => exact ih ln
        | some n => simp only [Ask.run_bind, run_getAndPtr, ih]

@[simp] theorem run_withIncoming (v : Value) (path : Ptr) :
    (withIncoming find v path).run (answer o) = LogicalCompiler.withIncoming o find v path := by
  unfold withIncoming LogicalCompiler.withIncoming
  split_ifs
  · rfl
  · cases find v with
    | none => rfl
    | some l =>
      simp only [Ask.run_bind, run_getAndPtr, Ask.run_pure]
      cases LogicalCompiler.getAndPtr o path l <;> rfl

@[simp] theorem run_phiRoutes (v : Value) (routes : List Route) (acc : Ptr) :
    (phiRoutes find v routes acc).run (answer o) =
      LogicalCompiler.phiRoutes o find v routes acc := by
  induction routes generalizing acc with
  | nil => rfl
  | cons route routes ih =>
    simp only [phiRoutes, LogicalCompiler.phiRoutes, Ask.run_bind, run_getLogicalNode,
      run_withIncoming]
    congr 1
    funext path
    congr 1
    funext tmp
    cases acc with
    | none => exact ih tmp
    | some n => simp only [Ask.run_bind, run_getOrPtr, ih]

@[simp] theorem run_phiIncoming (routes : List Route)
    (incoming : List (Value × Label)) (acc : Ptr) :
    (phiIncoming find routes incoming acc).run (answer o) =
      LogicalCompiler.phiIncoming o find routes incoming acc := by
  induction incoming generalizing acc with
  | nil => rfl
  | cons input rest ih =>
    obtain ⟨v, l⟩ := input
    unfold phiIncoming LogicalCompiler.phiIncoming
    split_ifs
    · exact ih acc
    · simp only [Ask.run_bind, Ask.run_liftM, run_phiRoutes, ih]

@[simp] theorem run_processPHI (f : Function) (phiBlock : Label) (pn : Phi) :
    (processPHI find f phiBlock pn).run (answer o) =
      LogicalCompiler.processPHI o find f phiBlock pn := by
  unfold processPHI LogicalCompiler.processPHI
  cases f.entry with
  | none => rfl
  | some startBlock => exact run_phiIncoming o find _ _ _

end

section
variable (o : PtrOrder) (gv : GlobalId) (f : Function)

@[simp] theorem run_processPhis (l : Label) (phis : List Phi) (s : State) :
    (processPhis f l phis s).run (answer o) = LogicalCompiler.processPhis o f l phis s := by
  induction phis generalizing s with
  | nil => rfl
  | cons p ps ih =>
      simp only [processPhis, LogicalCompiler.processPhis, Ask.run_bind, run_processPHI, ih]

@[simp] theorem run_processBody (is : List Inst) (s : State) (valid : Bool) :
    (processBody gv is s valid).run (answer o) = LogicalCompiler.processBody o gv is s valid := by
  induction is generalizing s valid with
  | nil => rfl
  | cons i rest ih =>
    simp only [processBody, LogicalCompiler.processBody, Ask.run_bind, run_processInst]
    congr 1
    funext step
    cases step with
    | skip => exact ih _ _
    | bind n => exact ih _ _
    | flag m => exact ih _ _
    | reject m => rfl

@[simp] theorem run_processTerm (id : Nat) (t : Term Value) (s : State) (valid : Bool) :
    (processTerm id t s valid).run (answer o) = LogicalCompiler.processTerm o id t s valid := by
  cases t with
  | condBr c t e =>
    simp only [processTerm, LogicalCompiler.processTerm]
    cases lookup s.map c with
    | none => rfl
    | some n => simp only [Ask.run_bind, Ask.run_liftM, run_getNot, Ask.run_pure]
  | ret v =>
    cases v with
    | none => rfl
    | some v =>
      cases v with
      | inst i =>
        simp only [processTerm, LogicalCompiler.processTerm]
        cases lookup s.map (.inst i) with
        | none => rfl
        | some n =>
            simp only [Ask.run_bind, Ask.run_liftM, run_getAnd, Ask.run_pure, Fallible.ok_bind]
      | arg i => rfl
      | const c =>
        cases c with
        | int bits c =>
          simp only [processTerm, LogicalCompiler.processTerm, Ask.run_bind, run_getAnd,
            Fallible.ok_bind]
          split_ifs
          · simp only [Ask.run_bind, run_getNot, Ask.run_pure]
          · rfl
        | _ => rfl
  | _ => rfl

@[simp] theorem run_processBB (B : Block) (s : State) :
    (processBB gv f B s).run (answer o) = LogicalCompiler.processBB o gv f B s := by
  simp only [processBB, LogicalCompiler.processBB, Ask.run_bind, run_processPhis, run_processBody]
  congr 1
  funext s
  congr 1
  funext walk
  cases walk with
  | on s valid => exact run_processTerm o _ _ _ _
  | rejected s => rfl

@[simp] theorem run_processBlocks (blocks : List Block) (s : State) :
    (processBlocks gv f blocks s).run (answer o) =
      LogicalCompiler.processBlocks o gv f blocks s := by
  induction blocks generalizing s with
  | nil => rfl
  | cons B rest ih =>
    simp only [processBlocks, LogicalCompiler.processBlocks, Ask.run_bind, run_processBB]
    congr 1
    funext r
    split_ifs
    · exact ih _
    · rfl

/-- Answered by an order, the compiler is the compiler with that order. -/
theorem run_compile (declared : Option GlobalId) :
    (compile declared f).run (answer o) = LogicalCompiler.compile o declared f := by
  cases declared with
  | none => rfl
  | some gv =>
    simp only [compile, LogicalCompiler.compile, Ask.run_bind, run_processBlocks]
    congr 1
    funext r
    split_ifs
    · simp only [Ask.run_bind, run_getOrExits, run_getAnd, Ask.run_pure, Fallible.ok_bind]
    · rfl

end

end LogicalQuestions
