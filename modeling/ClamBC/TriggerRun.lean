import ClamBC.IrExec
import Mathlib.Algebra.GroupWithZero.Nat

/-!
# Running `logical_trigger`

Run-time values are integers and addresses; the match counts are the elements of one
global array. Only what the logical compiler accepts has a meaning here: it rejects calls,
signed comparisons and all other arithmetic, so these stop the run. A read of more than
32 bits would span several elements and is left out as well.
-/

namespace TriggerRun

open Ir IrExec

inductive Val where
  | num (n : Nat)
  | slot (array : GlobalId) (index : Nat)
  | other (n : Nat)
  deriving DecidableEq

abbrev Memory := Val → Val

def constVal : Const → Val
  | .int _ n => .num n
  | .global g => .slot g 0
  | .getElementPtrExpr (.global g) [.int _ 0, .int _ k] => .slot g k
  | _ => .other 0

def loadVal : Ty → Val → Option Val
  | .int bits, .num n => if bits ≤ 32 then some (.num (n % 2 ^ bits)) else none
  | _, v => some v

def compareVal (a b : Nat) : Predicate → Option Bool
  | .eq => some (a = b)
  | .ne => some (a ≠ b)
  | .ugt => some (b < a)
  | .uge => some (b ≤ a)
  | .ult => some (a < b)
  | .ule => some (a ≤ b)
  | _ => none

def binaryVal (bits a b : Nat) : BinOp → Option Nat
  | .add => some ((a + b) % 2 ^ bits)
  | .and => some (a &&& b)
  | .or => some (a ||| b)
  | .xor => some (a ^^^ b)
  | _ => none

def truthVal : Val → Bool
  | .num n => n ≠ 0
  | _ => false

def opVal : Ty → Op Val → Memory → Option Val
  | ty, .load _ p, m => loadVal ty (m p)
  | _, .alloca _, _ => some (.other 0)
  | _, .dbg, _ => some (.other 0)
  | _, .icmp pred (.num a) (.num b), _ => (compareVal a b pred).map fun r => .num r.toNat
  | .int bits, .binary op (.num a) (.num b), _ => (binaryVal bits a b op).map .num
  | _, .select c t e, _ => some (if truthVal c then t else e)
  | _, .cast .zext _ v, _ => some v
  | _, _, _ => none

def sem : Sem Val Memory where
  const := constVal
  undef := .other 0
  op := fun ty op m => (opVal ty op m).map fun v => (v, m)
  truth := truthVal
  toNat := fun v => match v with
    | .num n => n
    | _ => 0

/-- The function has no arguments, and none of its allocas is a cell of its own. -/
def runs (f : Function) (n : Nat) (mem : Memory) : List (Visit Val Memory) :=
  call sem (fun _ => .other 0) (fun _ => false) f n mem

/-- What an operand is worth in a state. -/
def valueIn (s : State Val Memory) (v : Value) : Val := eval sem (fun _ => .other 0) s.regs v

def visitOf (f : Function) (prev : Option Label) (l : Label) (s : State Val Memory) :
    Visit Val Memory :=
  visit sem (fun _ => .other 0) (fun _ => false) f prev l s

/-- The visit of a block with this state, from this previous block, is part of the call. -/
inductive Reached (f : Function) (mem : Memory) : Option Label → Label → State Val Memory → Prop
  | start {E : Block} (entry : f.entry = some E) : Reached f mem none E.label (initial sem mem)
  | step {prev : Option Label} {l l' : Label} {s s' : State Val Memory}
      (before : Reached f mem prev l s)
      (exit : (visitOf f prev l s).exit = .goto l') (after : (visitOf f prev l s).after = some s') :
      Reached f mem (some l) l' s'

/-- The entry is only visited at the start. -/
theorem Reached.entry {f : Function} {mem : Memory} {prev : Option Label}
    {s : State Val Memory} {E : Block} (wf : f.WellFormed) (entry : f.entry = some E)
    (reached : Reached f mem prev E.label s) :
    prev = none ∧ s = initial sem mem := by
  generalize same : E.label = l at reached
  cases reached with
  | start => exact ⟨rfl, rfl⟩
  | step before exit after =>
    cases visit_enters sem _ exit with
    | edge hA h => exact absurd (same ▸ h) (wf.entryPreds E entry _ hA)

/-- The call returns from the given block, with the given value. -/
def Returns (f : Function) (mem : Memory) (B : Block) (x : Val) : Prop :=
  ∃ n, ∃ w ∈ runs f n mem, f.block w.label = some B ∧ w.exit = .ret (some x)

end TriggerRun
