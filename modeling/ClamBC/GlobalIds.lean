import Mathlib.Data.List.Nodup
import ClamBC.Fallible
import ClamBC.Worklist

/-!
# Global ids and constant expressions

The interpreter knows globals by number. Constant expressions are replaced by helper globals:
the analyzer walks over the globals, collects the constant expressions that hang together with
each one and gives every one of them a helper whose initializer it is. Addresses of elements are
first brought into the form of a byte offset, which replaces them in the module.

Constants are unique, so a constant is its structure. How LLVM folds constants is a parameter,
and so is the order of a set of addresses. When a constant expression is replaced, those around it
change in place, which keeps their addresses, or they are freed in favour of another constant.
-/

namespace GlobalIds

open Fallible

/-- The constants that can hold an address. Types are numbers; an index is `none` when it is not
an integer constant. The operands that `other` does not have are null. -/
inductive Expr where
  | global (ref : Nat)
  | function (ref : Nat)
  | null
  | bitcast (value : Expr) (ty : Nat)
  | getElementPtr (source : Nat) (base : Expr) (indices : List (Option Nat)) (ty : Nat)
  | other (opcode : Nat) (first second third : Expr)
  deriving DecidableEq

namespace Expr

def operands : Expr → List Expr
  | .bitcast value _ => [value]
  | .getElementPtr _ base _ _ => [base]
  | .other _ first second third => [first, second, third]
  | _ => []

def isConstantExpr (e : Expr) : Bool := !e.operands.isEmpty

/-- The constant itself and all constants in it. -/
def parts : Expr → List Expr
  | .bitcast value ty => .bitcast value ty :: value.parts
  | .getElementPtr source base indices ty => .getElementPtr source base indices ty :: base.parts
  | .other opcode first second third =>
      .other opcode first second third :: (first.parts ++ second.parts ++ third.parts)
  | e => [e]

/-- The global that an address computed by casts and indices points into. -/
def root : Expr → Option Nat
  | .global ref => some ref
  | .bitcast value _ => value.root
  | .getElementPtr _ base _ _ => base.root
  | _ => none

end Expr

/-- An initializer: the addresses in it, in order, and everything else. -/
structure Init where
  data : Nat
  leaves : List Expr
  deriving DecidableEq

structure Global where
  ref : Nat
  name : String
  hasLocalLinkage : Bool
  isConstant : Bool
  init : Option Init
  hasDefinitiveInitializer : Bool
  isThreadLocal : Bool
  hasSection : Bool
  deriving DecidableEq

def Global.leaves (g : Global) : List Expr := (g.init.map Init.leaves).getD []

/-- The module during the analysis: all constants that exist, the globals in order, the constant
operands of each instruction that is written, the constant expressions collected for the current
global, and the map from constant expressions to helpers. -/
structure State where
  pool : List Expr
  globals : List Global
  insts : List (List Expr)
  ces : List Expr
  ceMap : List (Expr × Nat)
  nextRef : Nat
  deriving DecidableEq

/-- `ConstantExpr::getPointerCast`, `getGetElementPtr` with one byte offset, what becomes of a
constant expression that gets new operands, and the data layout. -/
structure Llvm where
  pointerCast : Expr → Nat → Expr
  getElementPtr : Expr → Nat → Expr
  fold : Expr → Expr
  getIndexedOffset : Nat → List (Option Nat) → Nat
  i8Ptr : Nat

/-- The order in which a set of constants is walked through. -/
structure AddressOrder where
  run : List Expr → List Expr
  perm : ∀ es, (run es).Perm es

inductive Fault where
  | stop (message : String)
  | crash (what : String)
  | unfinished
  deriving DecidableEq

section
variable (llvm : Llvm) (order : AddressOrder)

/-! ## Constant expressions -/

def userExprs (st : State) (v : Expr) : List Expr := st.pool.filter fun e => v ∈ e.operands

/-- A global uses what its initializer contains. -/
def userGlobals (st : State) (v : Expr) : List Expr :=
  (st.globals.filter fun g => v ∈ g.leaves).map fun g => .global g.ref

/-- Where `getDependentValues` goes from a value: to operand 0 of a constant expression and to
the users. The users of an instruction are instructions, so nothing is missed without them. -/
def neighbours (st : State) (v : Expr) : List Expr :=
  v.operands.head?.toList ++ userExprs st v ++ userGlobals st v

def points (st : State) : List Expr := st.pool ++ st.globals.map fun g => .global g.ref

/-- The set `ces` of `getDependentValues`. -/
def dependentExprs (st : State) (g : Global) : List Expr :=
  (Worklist.reach (neighbours st) (points st) (.global g.ref)).filter Expr.isConstantExpr

def addHelper (name : String) (e : Expr) (st : State) : State :=
  { st with
    globals := st.globals ++ [⟨st.nextRef, name, true, true, some ⟨0, [e]⟩, true, false, false⟩]
    ceMap := (e, st.nextRef) :: st.ceMap
    nextRef := st.nextRef + 1 }

/-- A constant expression with new operands. When one of them is another object, it is looked up:
it changes in place unless it folds or is there already. -/
def unique (pool : List Expr) (moved : Bool) (e : Expr) : Expr × Bool :=
  if moved = true ∧ (llvm.fold e ≠ e ∨ e ∈ pool) then (llvm.fold e, true) else (e, false)

/-- What stands in the place of a constant when `old` is replaced by `new`, and whether that is
another object. -/
def rebuild (pool : List Expr) (old new : Expr) (e : Expr) : Expr × Bool :=
  if e = old then (new, true)
  else match e with
    | .bitcast value ty =>
      let v := rebuild pool old new value
      unique llvm pool v.2 (.bitcast v.1 ty)
    | .getElementPtr source base indices ty =>
      let b := rebuild pool old new base
      unique llvm pool b.2 (.getElementPtr source b.1 indices ty)
    | .other opcode first second third =>
      let a := rebuild pool old new first
      let b := rebuild pool old new second
      let c := rebuild pool old new third
      unique llvm pool (a.2 || b.2 || c.2) (.other opcode a.1 b.1 c.1)
    | e => (e, false)

/-- What becomes of an object: the replaced one stays, without users. -/
def fate (pool : List Expr) (old new e : Expr) : Expr × Bool :=
  if e = old then (e, false) else rebuild llvm pool old new e

def Global.rename (f : Expr → Expr) (g : Global) : Global :=
  { g with init := g.init.map fun i => { i with leaves := i.leaves.map f } }

/-- The collected constant expressions are all looked at again, and the map is searched by address:
none of them may be freed. -/
def replaceAllUsesWith (old new : Expr) (st : State) : Except Fault State :=
  if old ∈ new.parts then .error (.crash "this->replaceAllUsesWith(expr(this)) is NOT valid!")
  else if (st.ces ++ st.ceMap.map Prod.fst).any fun e => (fate llvm st.pool old new e).2 then
    .error (.crash "constant expression used after it is freed")
  else
    .ok { st with
      pool := st.pool.flatMap fun e => (fate llvm st.pool old new e).1.parts
      globals := st.globals.map (Global.rename fun e => (rebuild llvm st.pool old new e).1)
      insts := st.insts.map fun ops => ops.map fun e => (rebuild llvm st.pool old new e).1
      ces := st.ces.map fun e => (fate llvm st.pool old new e).1
      ceMap := st.ceMap.map fun p => ((fate llvm st.pool old new p.1).1, p.2) }

/-- The base as a byte address, the address at the offset, and that as a pointer of the old type. -/
def byteOffset (source : Nat) (base : Expr) (indices : List (Option Nat)) (ty : Nat) :
    Expr × Expr × Expr :=
  let C := llvm.pointerCast base llvm.i8Ptr
  let G := llvm.getElementPtr C (llvm.getIndexedOffset source indices)
  (C, G, llvm.pointerCast G ty)

def replaceIfDifferent (old new : Expr) (st : State) : Except Fault State :=
  if old = new then .ok st else replaceAllUsesWith llvm old new st

def processExpr (name : String) (st : State) (e : Expr) : Except Fault State :=
  match e with
  | .bitcast _ _ => .ok (addHelper (name ++ "_bc") e st)
  | .getElementPtr source base (some c0 :: some c1 :: rest) ty =>
    if c0 ≠ 0 then .error (.stop "Unsupported constant expression, nonzero first index")
    else if none ∈ rest then .error (.crash "cast<ConstantInt>")
    else
      let pieces := byteOffset llvm source base (some c0 :: some c1 :: rest) ty
      if pieces.2.1.isConstantExpr && pieces.2.2.isConstantExpr then do
        let st :=
          { st with pool := st.pool ++ pieces.1.parts ++ pieces.2.1.parts ++ pieces.2.2.parts }
        let st ← replaceIfDifferent llvm e pieces.2.2 st
        .ok (addHelper (name ++ "_" ++ toString c1) pieces.2.2 st)
      else .error (.crash "cast<ConstantExpr>")
  | .getElementPtr _ _ _ _ => .error (.crash "operands of a getelementptr")
  | _ => .error (.stop "Unsupported constant expression")

def processNth (name : String) (st : State) (k : Nat) : Except Fault State :=
  match st.ces[k]? with
  | none => .ok st
  | some e => processExpr llvm name st e

/-- One global: everything that depends on it, twice. -/
def turn (st : State) (g : Global) : Except Fault State :=
  let es := order.run (dependentExprs st g)
  (List.range es.length ++ List.range es.length).foldlM (processNth llvm g.name)
    { st with ces := es }

/-- The loop over the globals, which also meets the helpers that it appends. -/
def turns : Nat → Nat → State → Except Fault State
  | 0, i, st => if st.globals.length ≤ i then .ok st else .error .unfinished
  | fuel + 1, i, st =>
    match st.globals[i]? with
    | none => .ok st
    | some g => do
      let st ← turn llvm order st g
      turns fuel (i + 1) st

/-! ## Numbering -/

def globalsMap : List (String × Nat) :=
  [("__clambc_match_counts", 0x8000), ("__clambc_virusnames", 0x8002), ("__clambc_pedata", 0x8003),
    ("__clambc_filesize", 0x8004), ("__clambc_match_offsets", 0x8005)]

/-- A local global is not found by name. -/
def getGlobalVariable (st : State) (name : String) : Option Global :=
  st.globals.find? fun g => g.name = name ∧ g.hasLocalLinkage = false

def specialIds (st : State) : List (Nat × Nat) :=
  globalsMap.filterMap fun e => (getGlobalVariable st e.1).map fun g => (g.ref, e.2)

def specialGlobals (st : State) : List Nat :=
  (specialIds st).map Prod.fst ++ ((getGlobalVariable st "__clambc_kind").map Global.ref).toList

def useEmpty (st : State) (i : Init) : Bool := !st.globals.any fun g => g.init = some i

/-- The loop that fills `globals` and `globalInits`, from the next number on. -/
def number (st : State) : Nat → List Global → Except Fault (List (Nat × Nat) × List Init)
  | _, [] => .ok ([], [])
  | i, g :: rest =>
    if g.ref ∈ specialGlobals st then number st i rest
    else if !g.isConstant then
      .error (.stop ("Attempting to declare non-constant global variable: " ++ g.name))
    else
      match g.init with
      | none =>
          .error (.stop ("Attempting to declare a global variable without initializer: " ++ g.name))
      | some C =>
        if !g.hasDefinitiveInitializer then
          .error (.stop ("Attempting to declare a global variable without initializer: " ++ g.name))
        else if g.isThreadLocal then
          .error (.stop ("Attempting to declare thread local global variable: " ++ g.name))
        else if g.hasSection then
          .error (.stop ("Attempting to declare section for global variable: " ++ g.name))
        else if useEmpty st C then number st i rest
        else if i + 1 ≥ 32768 then .error (.stop "Attempted to use more than 32k global variables!")
        else (number st (i + 1) rest).map fun r => ((g.ref, i) :: r.1, C :: r.2)

/-- `globals`, `globalInits` and `maxGlobal`. -/
structure Ids where
  globals : List (Nat × Nat)
  globalInits : List (Option Init)
  maxGlobal : Nat

def printGlobals (st : State) : Except Fault Ids :=
  (number st 1 st.globals).map fun r =>
    ⟨specialIds st ++ r.1, none :: r.2.map some, ((specialIds st).map Prod.snd).foldl max 0⟩

/-- The analyzer accepts the module and leaves this state and these ids. -/
def Accepts (m st : State) (ids : Ids) : Prop :=
  ∃ fuel, turns llvm order fuel 0 { m with ces := [], ceMap := [] } = .ok st ∧
    printGlobals st = .ok ids

end

/-! ## The property -/

/-- What `getGlobalID` finds. -/
def getGlobalID (st : State) (ids : Ids) : Expr → Option Nat
  | .global ref => ids.globals.lookup ref
  | e => (st.ceMap.lookup e).bind fun helper => ids.globals.lookup helper

/-- Global variables and constant expressions have an id. -/
def HasId (st : State) (ids : Ids) (e : Expr) : Prop :=
  match e with
  | .function _ | .null => True
  | e => (getGlobalID st ids e).isSome

structure Consistent (st : State) (ids : Ids) : Prop where
  injective : ∀ r r' k, ids.globals.lookup r = some k → ids.globals.lookup r' = some k → r = r'
  ordinary : ∀ g ∈ st.globals, g.ref ∉ specialGlobals st → ∀ k, ids.globals.lookup g.ref = some k →
    k < 32768 ∧ ids.globalInits[k]? = some g.init ∧ g.init.isSome
  placeholder : ids.globalInits[0]? = some none
  special : ∀ r ∈ specialGlobals st, ∀ k, ids.globals.lookup r = some k → 32768 ≤ k ∧
    k ≤ ids.maxGlobal
  operands : ∀ ops ∈ st.insts, ∀ e ∈ ops, HasId st ids e
  initializers : ∀ g ∈ st.globals, g.ref ∉ specialGlobals st → ∀ e ∈ g.leaves,
    HasId st ids e ∧ ∀ r, e.root = some r → HasId st ids (.global r)

/-! ## The condition -/

/-- The constants in instructions and in the initializers that are written. -/
def emitted (st : State) : List Expr :=
  st.insts.flatten ++ (st.globals.filter fun g => g.ref ∉ specialGlobals st).flatMap Global.leaves

/-- What LLVM guarantees of a module: identities are unique, constants are there with their
parts, and what is mentioned is in the module. -/
structure State.Sound (m : State) : Prop where
  refs : (m.globals.map Global.ref).Nodup
  fresh : ∀ g ∈ m.globals, g.ref < m.nextRef
  closed : ∀ e ∈ m.pool, ∀ p ∈ e.parts, p ∈ m.pool
  present : ∀ e ∈ emitted m, e ∈ m.pool
  known : ∀ r, .global r ∈ m.pool → r ∈ m.globals.map Global.ref

/-- A function from constants to constants brings in no other global and keeps the one an
address points into. -/
structure KeepsAddress (f : Expr → Expr) : Prop where
  globals : ∀ e r, .global r ∈ (f e).parts → .global r ∈ e.parts
  root : ∀ e r, e.root = some r → (f e).root = some r

/-- Casting an address, adding to it and folding it. -/
structure Llvm.KeepsAddresses (llvm : Llvm) : Prop where
  pointerCast : ∀ ty, KeepsAddress fun e => llvm.pointerCast e ty
  getElementPtr : ∀ n, KeepsAddress fun e => llvm.getElementPtr e n
  fold : KeepsAddress llvm.fold

/-- A global that is in nothing that is written and in no constant expression. -/
def Unused (st : State) (k : Nat) : Prop :=
  .global k ∉ emitted st ∧ ∀ e ∈ st.pool, .global k ∈ e.parts → e = .global k

/-- Constant expressions are addresses in globals, and nothing uses `__clambc_kind`. -/
structure Plain (m : State) : Prop where
  rooted : ∀ e ∈ emitted m, e.isConstantExpr = true → ∃ r, e.root = some r
  kindUnused : ∀ k, getGlobalVariable m "__clambc_kind" = some k → Unused m k.ref

end GlobalIds
