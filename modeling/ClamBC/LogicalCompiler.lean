import ClamBC.Ir
import ClamBC.LogicalNode
import Mathlib.Logic.Function.Basic

/-!
# The logical compiler

`LogicalCompiler` walks the blocks of `logical_trigger` in layout order and binds a node
to every instruction that it understands. An entry of its map can be absent, a null
pointer or a node. Following an absent entry or a null pointer, indexing an empty route
and failing an assertion are faults: nothing is said about what happens after one.

Two calls are used with a null pointer without harm: `getGT` with the value 0, which
returns its argument, and `getOr` after an operand that is TRUE.
-/

namespace LogicalCompiler

open Ir LogicalNode

abbrev Ptr := Option Node

inductive Message where
  | notDeclared | unableToCompile | unsupportedRead | compareToConstant | constantTooWide
  | compareMatchCount | alwaysTrueGe | alwaysTrueLe | signedCompare | branchCondition
  | selectCondition | selectTrueValue | selectFalseValue | malformedSelect | returnValue
  | addOperands | addMismatch | addDuplicate | andOperands | orOperands | xorNegation | xorOperand
  | zextOperand
  | zextWidths (source target : Nat)
  | unsupportedInstruction
  deriving DecidableEq

def Message.text : Message → String
  | notDeclared => "__clambc_match_counts is not declared for logical signature bytecode"
  | unableToCompile => "Unable to compile to logical signature"
  | unsupportedRead => "Logical signature: unsupported read"
  | compareToConstant => "Logical signature: unsupported compare, must compare to a constant"
  | constantTooWide => "Logical signature: constant needs more than 32-bits"
  | compareMatchCount => "Logical signature: must compare match count against constant"
  | alwaysTrueGe => "Logical signature: count >= 0 is always true, probably a typo?"
  | alwaysTrueLe => "Logical signature: count <= ~0u is always true, probably a type?"
  | signedCompare =>
    "Logical signature: signed compares not supported, please use unsigned compares!"
  | branchCondition => "Logical signature: Branch condition must be logical expression"
  | selectCondition => "Logical signature: select condition must be logical expression"
  | selectTrueValue => "Logical signature: Select true value must either be" ++
    " a logical expression or a constant true/false integer."
  | selectFalseValue => "Logical signature: Select false value must either be" ++
    " a logical expression or a constant true/false integer."
  | malformedSelect => "Logical signature: Malformed select statement."
  | returnValue => "Logical signature: return value must be logical expression"
  | addOperands => "Logical signature: add operands must be logical expressions"
  | addMismatch =>
    "Logical signature: add operands mismatch,only of counts, uniqueness, and constants"
  | addDuplicate => "Logical signature: duplicate operands for add not supported"
  | andOperands => "Logical signature: and operands must be logical expressions"
  | orOperands => "Logical signature: or operands must be logical expressions"
  | xorNegation => "Logical signature: xor only supported for negation"
  | xorOperand => "Logical signature: xor operand must be logical expressions"
  | zextOperand => "Logical signature: zext operand must be logical expressions"
  | zextWidths source target =>
    "Logical signature: only support zero extend from i1 to i32, but encountered " ++
      toString source ++ " to " ++ toString target
  | unsupportedInstruction => "Logical signature: unsupported instruction"

/-- `map` is absent, null or a node for each instruction; `diagnostics` names the instruction
that a message is about. -/
structure State where
  map : Nat → Option Ptr
  stack : List Node
  exitNodesOr : List Node
  exitNodesAnd : List Node
  diagnostics : List (Message × Option Nat)

namespace State

def initial : State := ⟨fun _ => none, [], [], [], []⟩

def setNode (s : State) (i : Nat) (n : Ptr) : State :=
  { s with map := Function.update s.map i (some n) }

def report (s : State) (m : Message) (i : Option Nat) : State :=
  { s with diagnostics := s.diagnostics ++ [(m, i)] }

def pushOr (s : State) (n : Node) : State := { s with exitNodesOr := s.exitNodesOr ++ [n] }

def pushAnd (s : State) (n : Node) : State := { s with exitNodesAnd := s.exitNodesAnd ++ [n] }

def push (s : State) (n : Node) : State := { s with stack := s.stack ++ [n] }

def pop (s : State) : State := { s with stack := s.stack.dropLast }

end State

/-- Constants and arguments are never in the map. -/
def lookup (map : Nat → Option Ptr) : Value → Option Ptr
  | .inst i => map i
  | _ => none

def deref : Ptr → Except Fault Node
  | some n => .ok n
  | none => .error .nullNode

section
variable (o : PtrOrder)

def getAndPtr (a b : Ptr) : Except Fault Node := do
  let a ← deref a
  let b ← deref b
  return getAnd o [a, b]

def getOrPtr (a b : Ptr) : Except Fault Node := do
  let a ← deref a
  if a = .const true then return .const true
  else
    let b ← deref b
    return getOr o [a, b]

def getGTPtr (n : Ptr) (value : Word) : Except Fault Ptr :=
  if value = 0 then .ok n
  else do
    let n ← deref n
    return some (← getGT o n value)

def getNotPtr (n : Ptr) : Except Fault Node := do
  let n ← deref n
  getNot o n

/-- What the walk over a block does with one instruction: nothing, bind a node, report and
go on with `valid` cleared, or report and return false. -/
inductive Step where
  | skip
  | bind (n : Ptr)
  | flag (m : Message)
  | reject (m : Message)

/-- `getZExtValue` asserts that the value fits in 64 bits. -/
def getZExtValue (v : Nat) : Except Fault Nat := if v < 2 ^ 64 then .ok v else .error .wideConstant

/-- Only reads through a constant expression are checked. Any other pointer is taken for the
address of the match counts. -/
def processLoad (gv : GlobalId) : Value → Except Fault Step
  | .const (.getElementPtrExpr (.global g) [first, index]) =>
    if g ≠ gv then .ok (.flag .unsupportedRead)
    else
      match first, index with
      | .int _ 0, .int _ k => do
        let k ← getZExtValue k
        return .bind (some (.subsig (BitVec.ofNat 32 k)))
      | .int _ 0, _ => .error .badCast
      | .int _ _, _ => .ok (.flag .unsupportedRead)
      | _, _ => .error .badCast
  | .const (.getElementPtrExpr _ _) => .ok (.flag .unsupportedRead)
  | .const (.castExpr _ _) => .ok (.flag .unsupportedRead)
  | .const (.otherExpr _) => .ok (.flag .unsupportedRead)
  | _ => .ok (.bind (some (.subsig 0)))

def isConstant : Value → Bool
  | .const _ => true
  | _ => false

/-- The node of a comparison with a constant on the right. -/
def compareNode (pred : Predicate) (n : Ptr) (rhs : Word) : Except Fault Step :=
  match pred with
  | .eq => do
    let n ← deref n
    return .bind (some (← getEQ n rhs))
  | .ne => do
    let n ← deref n
    let eq ← getEQ n rhs
    return .bind (some (← getNot o eq))
  | .ugt => do return .bind (← getGTPtr o n rhs)
  | .uge => if rhs = 0 then .ok (.flag .alwaysTrueGe) else
      do return .bind (← getGTPtr o n (rhs - 1))
  | .ult => do
    let n ← deref n
    return .bind (some (← getLT o n rhs))
  | .ule =>
    if rhs = maxWord then .ok (.flag .alwaysTrueLe)
    else do
      let n ← deref n
      return .bind (some (← getLT o n (rhs + 1)))
  | .sgt => .ok (.flag .signedCompare)
  | .sge => .ok (.flag .signedCompare)
  | .slt => .ok (.flag .signedCompare)
  | .sle => .ok (.flag .signedCompare)

def compareWith (find : Value → Option Ptr) (pred : Predicate) (op0 op1 : Value) :
    Except Fault Step :=
  match op1 with
  | .const (.int _ v) => do
    let v ← getZExtValue v
    if 2 ^ 32 ≤ v then return .flag .constantTooWide
    else
      match find op0 with
      | none => return .flag .compareMatchCount
      | some n => compareNode o pred n (BitVec.ofNat 32 v)
  | _ => .ok (.flag .compareToConstant)

/-- A constant on the left changes places with the other operand; the predicate stays. -/
def processICmp (find : Value → Option Ptr) (pred : Predicate) (lhs rhs : Value) :
    Except Fault Step :=
  if isConstant lhs then compareWith o find pred rhs lhs else compareWith o find pred lhs rhs

/-- One arm of a select, given the node that guards it: a node, nothing for the constant false,
or the message for any other constant. -/
def selectArm (find : Value → Option Ptr) (guard : Ptr) (m : Message) (arm : Value) :
    Except Fault (Message ⊕ Ptr) :=
  match find arm with
  | some n => do return .inr (some (← getAndPtr o guard n))
  | none =>
    match arm with
    | .const (.int _ 0) => .ok (.inr none)
    | .const (.int _ 1) => do return .inr (some (← deref guard))
    | .const (.int _ _) => .ok (.inl m)
    | _ => .error .badCast

/-- `select cond, t, e` is `cond && t || !cond && e`. -/
def processSelect (find : Value → Option Ptr) (cond ifTrue ifFalse : Value) : Except Fault Step :=
  match find cond with
  | none => .ok (.reject .selectCondition)
  | some c =>
    if find ifTrue = none ∧ find ifFalse = none then .ok (.reject .selectCondition)
    else do
      match ← selectArm o find c .selectTrueValue ifTrue with
      | .inl m => return .reject m
      | .inr n =>
        let notCond ← getNotPtr o c
        match ← selectArm o find (some notCond) .selectFalseValue ifFalse with
        | .inl m => return .reject m
        | .inr n2 =>
          match n, n2 with
          | some n, some n2 => return .bind (some (getOr o [n, n2]))
          | some n, none => return .bind (some n)
          | none, some n2 => return .bind (some n2)
          | none, none => return .reject .malformedSelect

def processAdd (find : Value → Option Ptr) (lhs rhs : Value) : Except Fault Step :=
  match find lhs with
  | none => .ok (.reject .addOperands)
  | some l =>
    match rhs with
    | .const (.int _ v) => do
      let v ← getZExtValue v
      let l ← deref l
      return .bind (some (getAddOff l (BitVec.ofNat 32 v)))
    | _ =>
      match find rhs with
      | none => .ok (.reject .addOperands)
      | some r => do
        let l ← deref l
        let r ← deref r
        match ← getAdd l r with
        | none => return .reject .addMismatch
        | some n => if checkUniq n then return .bind (some n) else return .reject .addDuplicate

def processXor (find : Value → Option Ptr) (lhs rhs : Value) : Except Fault Step :=
  match rhs with
  | .const (.int _ 1) =>
    match find lhs with
    | none => .ok (.reject .xorOperand)
    | some n => do return .bind (some (← getNotPtr o n))
  | _ => .ok (.reject .xorNegation)

def primitiveSizeInBits : Ty → Nat
  | .int bits => bits
  | .float bits => bits
  | _ => 0

def processZExt (find : Value → Option Ptr) (src dst : Ty) (v : Value) : Except Fault Step :=
  match find v with
  | none => .ok (.reject .zextOperand)
  | some n =>
    if primitiveSizeInBits src ≠ 1 ∨ primitiveSizeInBits dst ≠ 32 then
      .ok (.reject (.zextWidths (primitiveSizeInBits src) (primitiveSizeInBits dst)))
    else do
      let n ← deref n
      return .bind (some (getUniqueSigs n))

def processInst (gv : GlobalId) (find : Value → Option Ptr) (i : Inst) : Except Fault Step :=
  match i.op with
  | .dbg => .ok .skip
  | .alloca _ => .ok .skip
  | .load _ ptr => processLoad gv ptr
  | .icmp pred lhs rhs => processICmp o find pred lhs rhs
  | .select cond ifTrue ifFalse => processSelect o find cond ifTrue ifFalse
  | .binary .add lhs rhs => processAdd find lhs rhs
  | .binary .and lhs rhs =>
    match find lhs, find rhs with
    | some a, some b => do return .bind (some (← getAndPtr o a b))
    | _, _ => .ok (.reject .andOperands)
  | .binary .or lhs rhs =>
    match find lhs, find rhs with
    | some a, some b => do return .bind (some (← getOrPtr o a b))
    | _, _ => .ok (.reject .orOperands)
  | .binary .xor lhs rhs => processXor o find lhs rhs
  | .cast .zext src v => processZExt find src i.ty v
  | _ => .ok (.reject .unsupportedInstruction)

end

/-- A branch on a path, with the direction taken. An unconditional branch has no condition. -/
structure Hop where
  block : Label
  cond : Option Value
  isTrue : Bool

abbrev Route := List Hop

/-- All paths from `curr` to `stop`, stored in place: `routes[idx]` is the path to `curr`. The
recursion is as deep as the path is long, and no block is twice on it. -/
def populateRoutes (f : Function) (stop : Label) : Nat → Label → List Route → Nat → List Route
  | 0, _, routes, _ => routes
  | fuel + 1, curr, routes, idx =>
    let route := routes[idx]?.getD []
    if curr = stop then routes
    else if route.any fun h => h.block = curr then routes
    else
      match (f.block curr).map Block.term with
      | some (.br dest) =>
        populateRoutes f stop fuel dest (routes.set idx (route ++ [⟨curr, none, true⟩])) idx
      | some (.condBr c t e) =>
        -- the copy of the route is for the false direction
        let copied := routes ++ [route ++ [⟨curr, some c, false⟩]]
        let falseIdx := routes.length
        let onTrue :=
          populateRoutes f stop fuel t (copied.set idx (route ++ [⟨curr, some c, true⟩])) idx
        populateRoutes f stop fuel e onTrue falseIdx
      | _ => routes

def routesTo (f : Function) (start stop : Label) : List Route :=
  populateRoutes f stop (f.blocks.length + 1) start [[]] 0

/-- The routes whose last branch is in the given block. -/
def findRoute (l : Label) : List Route → Except Fault (List Route)
  | [] => .ok []
  | route :: routes => do
    match route.getLast? with
    | none => .error .emptyRoute
    | some hop =>
      let found ← findRoute l routes
      if hop.block = l then return route :: found else return found

section
variable (o : PtrOrder) (find : Value → Option Ptr)

/-- A condition in the direction taken. -/
def directed (isTrue : Bool) (ln : Ptr) : Except Fault Ptr :=
  if isTrue then .ok ln else (getNotPtr o ln).map some

/-- The conjunction of the conditions along a route; null until there is one. -/
def getLogicalNode : Route → Ptr → Except Fault Ptr
  | [], acc => .ok acc
  | hop :: route, acc =>
    match hop.cond with
    | none => getLogicalNode route acc
    | some v =>
      match find v with
      | none => .error .missingEntry
      | some ln => do
        let ln ← directed o hop.isTrue ln
        match acc with
        | none => getLogicalNode route ln
        | some _ =>
          let both ← getAndPtr o acc ln
          getLogicalNode route (some both)

def isZero : Value → Bool
  | .const (.int _ 0) => true
  | _ => false

def isConstantInt : Value → Bool
  | .const (.int _ _) => true
  | _ => false

/-- An incoming value that is not a constant is a condition of its own. -/
def withIncoming (v : Value) (path : Ptr) : Except Fault Ptr :=
  if isConstantInt v then .ok path
  else
    match find v with
    | none => .error .missingEntry
    | some l => (getAndPtr o path l).map some

/-- The disjunction over the routes to one incoming block. -/
def phiRoutes (v : Value) : List Route → Ptr → Except Fault Ptr
  | [], acc => .ok acc
  | route :: routes, acc => do
    let path ← getLogicalNode o find route none
    let tmp ← withIncoming o find v path
    match acc with
    | none => phiRoutes v routes tmp
    | some _ =>
      let either ← getOrPtr o acc tmp
      phiRoutes v routes (some either)

def phiIncoming (routes : List Route) : List (Value × Label) → Ptr → Except Fault Ptr
  | [], acc => .ok acc
  | (v, l) :: rest, acc =>
    if isZero v then phiIncoming routes rest acc
    else do
      let found ← findRoute l routes
      let acc ← phiRoutes o find v found acc
      phiIncoming routes rest acc

/-- All the paths to a phi that could make it true, or-ed together. -/
def processPHI (f : Function) (phiBlock : Label) (pn : Phi) : Except Fault Ptr :=
  match f.entry with
  | none => .ok none
  | some startBlock => phiIncoming o find (routesTo f startBlock.label phiBlock) pn.incoming none

end

section
variable (o : PtrOrder) (gv : GlobalId) (f : Function)

def processPhis (l : Label) : List Phi → State → Except Fault State
  | [], s => .ok s
  | p :: ps, s => do
    let n ← processPHI o (lookup s.map) f l p
    processPhis l ps (s.setNode p.id n)

/-- The walk over the body goes on with the flag `valid`, or the block is rejected. -/
inductive Walk where
  | on (s : State) (valid : Bool)
  | rejected (s : State)

def processBody : List Inst → State → Bool → Except Fault Walk
  | [], s, valid => .ok (.on s valid)
  | i :: rest, s, valid => do
    match ← processInst o gv (lookup s.map) i with
    | .skip => processBody rest s valid
    | .bind n => processBody rest (s.setNode i.id n) valid
    | .flag m => processBody rest (s.report m (some i.id)) false
    | .reject m => return .rejected (s.report m (some i.id))

/-- The last instruction of a block. An unconditional branch returns true whatever `valid` is. -/
def processTerm (id : Nat) (t : Term Value) (s : State) (valid : Bool) :
    Except Fault (State × Bool) :=
  match t with
  | .br _ => .ok (s, true)
  | .condBr c _ _ =>
    match lookup s.map c with
    | none => .ok (s.report .branchCondition (some id), false)
    | some n => do
      let n ← deref n
      let s := (s.push n).pop
      let negated ← getNot o n
      return ((s.push negated).pop, valid)
  | .ret (some v) =>
    match v with
    | .const (.int _ c) => do
      let n := getAnd o s.stack
      if c = 0 then return (s.pushOr (← getNot o n), valid) else return (s.pushAnd n, valid)
    | _ =>
      match lookup s.map v with
      | none => .ok (s.report .returnValue (some id), false)
      | some n => do
        let s := s.push (← deref n)
        return ((s.pushOr (getAnd o s.stack)).pop, valid)
  | .ret none => .error .noOperand
  | .switch _ _ _ => .ok (s.report .unsupportedInstruction (some id), false)
  | .unreachable => .ok (s.report .unsupportedInstruction (some id), false)

def processBB (B : Block) (s : State) : Except Fault (State × Bool) := do
  let s ← processPhis o f B.label B.phis s
  match ← processBody o gv B.body s true with
  | .on s valid => processTerm o B.termId B.term s valid
  | .rejected s => return (s, false)

def processBlocks : List Block → State → Except Fault (State × Bool)
  | [], s => .ok (s, true)
  | B :: rest, s => do
    let r ← processBB o gv f B s
    if r.2 then processBlocks rest r.1 else return (r.1.report .unableToCompile none, false)

end

/-- The node of a function, or null. `declared` is `__clambc_match_counts` if the module has it. -/
def compile (o : PtrOrder) (declared : Option GlobalId) (f : Function) :
    Except Fault (State × Ptr) :=
  match declared with
  | none => .ok (State.initial.report .notDeclared none, none)
  | some gv => do
    let r ← processBlocks o gv f f.blocks State.initial
    if r.2 then
      return (r.1, some (getAnd o [getOrExits o r.1.exitNodesOr, getAnd o r.1.exitNodesAnd]))
    else return (r.1, none)

end LogicalCompiler
