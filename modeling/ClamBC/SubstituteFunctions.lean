import ClamBC.IrExec
import Mathlib.Tactic.Ring

/-!
# Functions in the place of intrinsics

The runtime does not have funnel shifts, saturating subtraction, minimum and maximum. The functions
that are generated in their place return the same values. For funnel shifts this needs words of at
most 32 bits: both words are put side by side in 64 bits.
-/

namespace IntrinsicSubstitutes

open Ir IrExec

/-! ## The intrinsics -/

inductive Operation where
  | fshl | usubSat | smin | smax | umin | umax
  deriving DecidableEq

/-- The name gives the operation and the width. -/
structure Intrinsic where
  op : Operation
  width : Nat
  deriving DecidableEq

structure Signature where
  args : List Ty
  result : Ty

def Operation.arity : Operation → Nat
  | .fshl => 3
  | _ => 2

def signature (op : Operation) (width : Nat) : Signature :=
  ⟨List.replicate op.arity (.int width), .int width⟩

def Intrinsic.type (x : Intrinsic) : Signature := signature x.op x.width

/-- The signed number of a word. -/
def signed (w x : Nat) : Int := if x < 2 ^ (w - 1) then x else x - 2 ^ w

/-- The upper half of both words side by side, shifted left. -/
def funnelShiftLeft (w a b c : Nat) : Nat := (a * 2 ^ w + b) * 2 ^ (c % w) / 2 ^ w % 2 ^ w

/-- What the intrinsic returns. -/
def Intrinsic.value (x : Intrinsic) (args : Nat → Nat) : Nat :=
  match x.op with
  | .fshl => funnelShiftLeft x.width (args 0) (args 1) (args 2)
  | .usubSat => args 0 - args 1
  | .smin => if signed x.width (args 0) ≤ signed x.width (args 1) then args 0 else args 1
  | .smax => if signed x.width (args 0) ≤ signed x.width (args 1) then args 1 else args 0
  | .umin => min (args 0) (args 1)
  | .umax => max (args 0) (args 1)

/-! ## Integers at run time -/

/-- An integer and its width. -/
structure Word where
  width : Nat
  value : Nat
  deriving DecidableEq

def compare (pred : Predicate) (a b : Word) : Bool :=
  match pred with
  | .eq => a.value = b.value
  | .ne => a.value ≠ b.value
  | .ugt => a.value > b.value
  | .uge => a.value ≥ b.value
  | .ult => a.value < b.value
  | .ule => a.value ≤ b.value
  | .sgt => signed a.width a.value > signed b.width b.value
  | .sge => signed a.width a.value ≥ signed b.width b.value
  | .slt => signed a.width a.value < signed b.width b.value
  | .sle => signed a.width a.value ≤ signed b.width b.value

/-- A shift by the width or more and a division by zero have no result. -/
def binary (op : BinOp) (w a b : Nat) : Option Nat :=
  match op with
  | .add => some ((a + b) % 2 ^ w)
  | .sub => some ((a + 2 ^ w - b) % 2 ^ w)
  | .shl => if b < w then some (a * 2 ^ b % 2 ^ w) else none
  | .lshr => if b < w then some (a / 2 ^ b) else none
  | .urem => if b = 0 then none else some (a % b)
  | .or => some (a ||| b)
  | .and => some (a &&& b)
  | .xor => some (a ^^^ b)
  | _ => none

def operate (ty : Ty) (op : Op Word) : Option Word :=
  match ty, op with
  | .int w, .cast .zext _ v => some ⟨w, v.value⟩
  | .int w, .cast .trunc _ v => some ⟨w, v.value % 2 ^ w⟩
  | .int w, .binary op lhs rhs => (binary op w lhs.value rhs.value).map (⟨w, ·⟩)
  | .int 1, .icmp pred lhs rhs => some ⟨1, (compare pred lhs rhs).toNat⟩
  | _, _ => none

/-- There is no memory beside the variable for the result. -/
def integers : Sem Word Unit where
  const := fun c =>
    match c with
    | .int bits value => ⟨bits, value % 2 ^ bits⟩
    | _ => ⟨0, 0⟩
  undef := ⟨0, 0⟩
  op := fun ty op m => (operate ty op).map (·, m)
  truth := fun v => v.value ≠ 0
  toNat := fun v => v.value

def isAlloca (f : Function) (n : Nat) : Bool :=
  f.blocks.any fun B => B.body.any fun i =>
    match i.op with
    | .alloca _ => i.id = n
    | _ => false

/-- A call returns a value after some blocks. -/
def Returns (f : Function) (args : Nat → Word) (v : Word) : Prop :=
  ∃ n last, (call integers args (isAlloca f) f n ()).getLast? = some last ∧
    last.exit = .ret (some v)

/-! ## The functions -/

/-- `addFunction` of the first pass: both words in 64 bits. -/
def fshlBody (w : Nat) : List Inst := [
  ⟨0, .int 64, .cast .zext (.int w) (.arg 0)⟩,
  ⟨1, .int 64, .binary .shl (.inst 0) (.const (.int 64 w))⟩,
  ⟨2, .int 64, .cast .zext (.int w) (.arg 1)⟩,
  ⟨3, .int 64, .binary .or (.inst 1) (.inst 2)⟩,
  ⟨4, .int 64, .cast .zext (.int w) (.arg 2)⟩,
  ⟨5, .int 64, .binary .urem (.inst 4) (.const (.int 64 w))⟩,
  ⟨6, .int 64, .binary .shl (.inst 3) (.inst 5)⟩,
  ⟨7, .int 64, .binary .lshr (.inst 6) (.const (.int 64 w))⟩,
  ⟨8, .int w, .cast .trunc (.int 64) (.inst 7)⟩]

def fshlFunction (w : Nat) : Function where
  args := [.int w, .int w, .int w]
  blocks := [⟨0, [], fshlBody w, 9, .ret (some (.inst 8))⟩]
  nextId := 10

/-- The other passes: compare the arguments, store one of two values and load it. -/
def selecting (w : Nat) (pred : Predicate) (left : List Inst) (stored : Value) (otherwise : Value) :
    Function where
  args := [.int w, .int w]
  blocks := [
    ⟨0, [], [⟨0, .ptr, .alloca none⟩, ⟨1, .int 1, .icmp pred (.arg 0) (.arg 1)⟩], 2,
      .condBr (.inst 1) 1 2⟩,
    ⟨1, [], left ++ [⟨4, .void, .store stored (.inst 0)⟩], 5, .br 3⟩,
    ⟨2, [], [⟨6, .void, .store otherwise (.inst 0)⟩], 7, .br 3⟩,
    ⟨3, [], [⟨8, .int w, .load false (.inst 0)⟩], 9, .ret (some (.inst 8))⟩]
  nextId := 10

/-- `addUSUB` -/
def usubFunction (w : Nat) : Function :=
  selecting w .ugt [⟨3, .int w, .binary .sub (.arg 0) (.arg 1)⟩] (.inst 3) (.const (.int w 0))

/-- `addFunction` of the third pass. -/
def icmpFunction (pred : Predicate) (w : Nat) : Function := selecting w pred [] (.arg 0) (.arg 1)

/-! ## Rules for running instructions -/

section
variable {args : Nat → Word} {cell : Nat → Bool} {Q : State Word Unit → Prop} {s : State Word Unit}
  {rest : List Inst}

/-- The instructions run to their end, in a state with the property. -/
def Runs (args : Nat → Word) (cell : Nat → Bool) (is : List Inst) (s : State Word Unit)
    (Q : State Word Unit → Prop) : Prop :=
  ∃ t, (execBody integers args cell is s).2 = some t ∧ Q t

theorem runs_nil (done : Q s) : Runs args cell [] s Q := ⟨s, rfl, done⟩

theorem runs_cons
    {i : Inst} {v : Word} {s' : State Word Unit} (step : exec integers args cell i s = some (v, s'))
    (runs : Runs args cell rest (s'.setReg i.id v) Q) : Runs args cell (i :: rest) s Q := by
  obtain ⟨t, run, done⟩ := runs
  refine ⟨t, ?_, done⟩
  rw [execBody, step]
  exact run

theorem runs_zext {n w : Nat} {src : Ty} {v : Value}
    (runs : Runs args cell rest (s.setReg n ⟨w, (eval integers args s.regs v).value⟩) Q) :
    Runs args cell (⟨n, .int w, .cast .zext src v⟩ :: rest) s Q := runs_cons rfl runs

theorem runs_trunc {n w : Nat} {src : Ty} {v : Value}
    (runs : Runs args cell rest (s.setReg n ⟨w, (eval integers args s.regs v).value % 2 ^ w⟩) Q) :
    Runs args cell (⟨n, .int w, .cast .trunc src v⟩ :: rest) s Q := runs_cons rfl runs

theorem runs_binary {n w x : Nat} {op : BinOp} {lhs rhs : Value} (result : binary op w
      (eval integers args s.regs lhs).value (eval integers args s.regs rhs).value = some x)
    (runs : Runs args cell rest (s.setReg n ⟨w, x⟩) Q) :
    Runs args cell (⟨n, .int w, .binary op lhs rhs⟩ :: rest) s Q := by
  have step : exec integers args cell ⟨n, .int w, .binary op lhs rhs⟩ s = some (⟨w, x⟩, s) := by
    show ((((binary op w (eval integers args s.regs lhs).value
        (eval integers args s.regs rhs).value).map (Word.mk w)).map (·, s.mem)).map fun r =>
      (r.1, { s with mem := r.2 })) = _
    rw [result]
    rfl
  exact runs_cons step runs

theorem runs_icmp {n : Nat}
    {pred : Predicate} {lhs rhs : Value} (runs : Runs args cell rest (s.setReg n ⟨1,
      (compare pred (eval integers args s.regs lhs) (eval integers args s.regs rhs)).toNat⟩) Q) :
    Runs args cell (⟨n, .int 1, .icmp pred lhs rhs⟩ :: rest) s Q := runs_cons rfl runs

theorem runs_alloca {n : Nat} (isCell : cell n = true) (runs : Runs args cell rest (State.setReg
      { s with cells := Function.update s.cells n integers.undef } n integers.undef) Q) :
    Runs args cell (⟨n, .ptr, .alloca none⟩ :: rest) s Q := runs_cons (if_pos isCell) runs

theorem runs_store {n a : Nat} {v : Value} (isCell : cell a = true)
    (runs : Runs args cell rest (State.setReg
      { s with cells := Function.update s.cells a (eval integers args s.regs v) }
      n integers.undef) Q) :
    Runs args cell (⟨n, .void, .store v (.inst a)⟩ :: rest) s Q := runs_cons (if_pos isCell) runs

theorem runs_load {n w a : Nat} (isCell : cell a = true)
    (runs : Runs args cell rest (s.setReg n (s.cells a)) Q) :
    Runs args cell (⟨n, .int w, .load false (.inst a)⟩ :: rest) s Q :=
  runs_cons (if_pos isCell) runs

theorem runs_append {is : List Inst} (runs : Runs args cell is s fun t => Runs args cell rest t Q) :
    Runs args cell (is ++ rest) s Q := by
  obtain ⟨t, run, t', run', done⟩ := runs
  refine ⟨t', ?_, done⟩
  rw [execBody_append]
  cases eq : execBody integers args cell is s with
  | mk events after =>
    rw [eq] at run
    have same : after = some t := run
    subst same
    exact run'

/-! From a block on, the function returns a value. -/

variable {f : Function} {B : Block} {l : Label} {v : Word}

def ReturnsFrom (args : Nat → Word) (cell : Nat → Bool) (f : Function) (l : Label)
    (s : State Word Unit) (v : Word) : Prop :=
  ∀ prev, ∃ n last, (run integers args cell f n prev l s).getLast? = some last ∧
    last.exit = .ret (some v)

theorem visit_runs (block : f.block l = some B) (noPhis : B.phis = []) {t : State Word Unit}
    (run : (execBody integers args cell B.body s).2 = some t) (prev : Option Label) :
    (visit integers args cell f prev l s).exit =
      leave integers (B.term.map (eval integers args t.regs)) ∧
      (visit integers args cell f prev l s).after = some t := by
  have phis : enterPhis integers args prev s.regs B.phis = some s.regs := by rw [noPhis]; rfl
  cases eq : execBody integers args cell B.body s with
  | mk events after =>
    rw [eq] at run
    have same : after = some t := run
    subst same
    have eq' : execBody integers args cell B.body { s with regs := s.regs } = (events, some t) := eq
    unfold visit
    rw [block]
    simp only [phis, eq', and_self]

theorem returnsFrom_ret
    (block : f.block l = some B) (noPhis : B.phis = []) {x : Value} (term : B.term = .ret (some x))
    (runs : Runs args cell B.body s fun t => eval integers args t.regs x = v) :
    ReturnsFrom args cell f l s v := by
  intro prev
  obtain ⟨t, run, value⟩ := runs
  obtain ⟨exits, -⟩ := visit_runs block noPhis run prev
  have ends : (visit integers args cell f prev l s).exit = .ret (some v) := by
    rw [exits, term, ← value]
    rfl
  refine ⟨1, visit integers args cell f prev l s, ?_, ends⟩
  rw [IrExec.run]
  simp only [ends]
  rfl

theorem returnsFrom_goto (l' : Label) (block : f.block l = some B) (noPhis : B.phis = [])
    (runs : Runs args cell B.body s fun t =>
      leave integers (B.term.map (eval integers args t.regs)) = .goto l' ∧
        ReturnsFrom args cell f l' t v) :
    ReturnsFrom args cell f l s v := by
  intro prev
  obtain ⟨t, run, goes, rest⟩ := runs
  obtain ⟨exits, after⟩ := visit_runs block noPhis run prev
  obtain ⟨n, last, isLast, ends⟩ := rest (some l)
  refine ⟨n + 1, last, ?_, ends⟩
  rw [IrExec.run]
  simp only [exits.trans goes, after]
  rw [List.getLast?_cons, isLast]
  rfl

theorem returns_of_from (entry : f.entry = some B)
    (fromEntry : ReturnsFrom args (isAlloca f) f B.label (initial integers ()) v) :
    Returns f args v := by
  obtain ⟨n, last, isLast, ends⟩ := fromEntry none
  refine ⟨n, last, ?_, ends⟩
  rw [call, entry]
  exact isLast

end

/-! What they return. -/

theorem or_eq_add {a b w : Nat} (small : b < 2 ^ w) : a * 2 ^ w ||| b = a * 2 ^ w + b := by
  rw [Nat.mul_comm, Nat.two_pow_add_eq_or_of_lt small]

/-- The shift drops what does not fit into 64 bits, which is above both words. -/
theorem upper_half {w : Nat} (half : w ≤ 32) (y : Nat) :
    y % 2 ^ 64 / 2 ^ w % 2 ^ w = y / 2 ^ w % 2 ^ w := by
  have halves : 2 ^ 64 = 2 ^ w * 2 ^ (64 - w) := by rw [← pow_add, Nat.add_sub_cancel' (by omega)]
  rw [halves, Nat.mod_mul_right_div_self, Nat.mod_mod_of_dvd _ (pow_dvd_pow 2 (by omega))]

theorem fshl_runs {w : Nat} (positive : 0 < w) (half : w ≤ 32) {a b c : Nat} (ha : a < 2 ^ w)
    (hb : b < 2 ^ w) {args : Nat → Word} (h0 : args 0 = ⟨w, a⟩) (h1 : args 1 = ⟨w, b⟩)
    (h2 : args 2 = ⟨w, c⟩) (cell : Nat → Bool) (s : State Word Unit) :
    Runs args cell (fshlBody w) s fun t => t.regs 8 = ⟨w, funnelShiftLeft w a b c⟩ := by
  have word : w % 2 ^ 64 = w := Nat.mod_eq_of_lt (half.trans_lt (by decide))
  have shifted : a * 2 ^ w % 2 ^ 64 = a * 2 ^ w := by
    refine Nat.mod_eq_of_lt ?_
    calc
      a * 2 ^ w < 2 ^ w * 2 ^ w := Nat.mul_lt_mul_of_pos_right ha (Nat.two_pow_pos w)
      _ = 2 ^ (w + w) := (pow_add 2 w w).symm
      _ ≤ 2 ^ 64 := Nat.pow_le_pow_right (by decide) (by omega)
  have remainder : c % w < 64 := (Nat.mod_lt c positive).trans_le (half.trans (by decide))
  have less : w < 64 := by omega
  refine runs_zext
    (runs_binary (x := a * 2 ^ w) ?_ (runs_zext (runs_binary (x := a * 2 ^ w + b) ?_ (runs_zext
    (runs_binary (x := c % w) ?_ (runs_binary (x := (a * 2 ^ w + b) * 2 ^ (c % w) % 2 ^ 64) ?_
    (runs_binary (x := (a * 2 ^ w + b) * 2 ^ (c % w) % 2 ^ 64 / 2 ^ w) ?_
      (runs_trunc (runs_nil ?_)))))))))
  · show (if w % 2 ^ 64 < 64 then some ((args 0).value * 2 ^ (w % 2 ^ 64) % 2 ^ 64) else none) = _
    rw [word, if_pos less, h0, shifted]
  · show some (a * 2 ^ w ||| (args 1).value) = _
    rw [h1, or_eq_add hb]
  · show (if w % 2 ^ 64 = 0 then none else some ((args 2).value % (w % 2 ^ 64))) = _
    rw [word, if_neg positive.ne', h2]
  · show (if c % w < 64 then some ((a * 2 ^ w + b) * 2 ^ (c % w) % 2 ^ 64) else none) = _
    rw [if_pos remainder]
  · show (if w % 2 ^ 64 < 64 then some ((a * 2 ^ w + b) * 2 ^ (c % w) % 2 ^ 64 / 2 ^ (w % 2 ^ 64))
      else none) = _
    rw [word, if_pos less]
  · show (⟨w, (a * 2 ^ w + b) * 2 ^ (c % w) % 2 ^ 64 / 2 ^ w % 2 ^ w⟩ : Word) = _
    rw [upper_half half, funnelShiftLeft]

theorem fshl_returns {w : Nat} (positive : 0 < w) (half : w ≤ 32) {a b c : Nat} (ha : a < 2 ^ w)
    (hb : b < 2 ^ w) {args : Nat → Word} (h0 : args 0 = ⟨w, a⟩) (h1 : args 1 = ⟨w, b⟩)
    (h2 : args 2 = ⟨w, c⟩) :
    Returns (fshlFunction w) args ⟨w, funnelShiftLeft w a b c⟩ :=
  returns_of_from rfl (returnsFrom_ret rfl rfl rfl (fshl_runs positive half ha hb h0 h1 h2 _ _))

section
variable {w : Nat} {pred : Predicate} {left : List Inst} {stored otherwise : Value}
  {args : Nat → Word} {v : Word}

theorem isAlloca_selecting : isAlloca (selecting w pred left stored otherwise) 0 = true := rfl

/-- The last block loads what was stored. -/
theorem returnsFrom_load {s : State Word Unit} (result : s.cells 0 = v) :
    ReturnsFrom args (isAlloca (selecting w pred left stored otherwise))
      (selecting w pred left stored otherwise) 3 s v := by
  refine returnsFrom_ret rfl rfl rfl (runs_load isAlloca_selecting (runs_nil ?_))
  exact result

theorem selecting_returns_left (cond : compare pred (args 0) (args 1) = true)
    (runs : ∀ s, Runs args (isAlloca (selecting w pred left stored otherwise)) left s fun t =>
      eval integers args t.regs stored = v) :
    Returns (selecting w pred left stored otherwise) args v := by
  refine returns_of_from rfl
    (returnsFrom_goto 1 rfl rfl (runs_alloca isAlloca_selecting (runs_icmp (runs_nil ⟨?_, ?_⟩))))
  · show Exit.goto (if integers.truth ⟨1, (compare pred (args 0) (args 1)).toNat⟩ then 1 else 2) = _
    rw [cond]
    rfl
  · refine returnsFrom_goto 3 rfl rfl (runs_append ?_)
    obtain ⟨t, run, value⟩ := runs _
    refine ⟨t, run, runs_store isAlloca_selecting (runs_nil ⟨rfl, returnsFrom_load ?_⟩)⟩
    exact value

theorem selecting_returns_right (cond : compare pred (args 0) (args 1) = false)
    (value : ∀ regs, eval integers args regs otherwise = v) :
    Returns (selecting w pred left stored otherwise) args v := by
  refine returns_of_from rfl
    (returnsFrom_goto 2 rfl rfl (runs_alloca isAlloca_selecting (runs_icmp (runs_nil ⟨?_, ?_⟩))))
  · show Exit.goto (if integers.truth ⟨1, (compare pred (args 0) (args 1)).toNat⟩ then 1 else 2) = _
    rw [cond]
    rfl
  · refine returnsFrom_goto 3 rfl rfl
      (runs_store isAlloca_selecting (runs_nil ⟨rfl, returnsFrom_load ?_⟩))
    exact value _

end

theorem usub_returns {w a b : Nat} (ha : a < 2 ^ w) {args : Nat → Word} (h0 : args 0 = ⟨w, a⟩)
    (h1 : args 1 = ⟨w, b⟩) :
    Returns (usubFunction w) args ⟨w, a - b⟩ := by
  by_cases greater : b < a
  · refine selecting_returns_left ?_ fun s => runs_binary (x := a - b) ?_ (runs_nil rfl)
    · rw [h0, h1]
      exact decide_eq_true greater
    · show some (((args 0).value + 2 ^ w - (args 1).value) % 2 ^ w) = _
      rw [h0, h1]
      show some ((a + 2 ^ w - b) % 2 ^ w) = some (a - b)
      rw [Nat.sub_add_comm greater.le, Nat.add_mod_right, Nat.mod_eq_of_lt (by omega)]
  · refine selecting_returns_right ?_ fun regs => ?_
    · rw [h0, h1]
      exact decide_eq_false greater
    · show (⟨w, 0 % 2 ^ w⟩ : Word) = _
      rw [Nat.zero_mod, Nat.sub_eq_zero_of_le (Nat.not_lt.mp greater)]

theorem icmp_returns (pred : Predicate) (w : Nat) (args : Nat → Word) :
    Returns (icmpFunction pred w) args (if compare pred (args 0) (args 1) then
      args 0 else args 1) := by
  cases cond : compare pred (args 0) (args 1) with
  | true => exact selecting_returns_left cond fun s => runs_nil rfl
  | false => exact selecting_returns_right cond fun regs => rfl

theorem signed_injective {w a b : Nat} (ha : a < 2 ^ w) (hb : b < 2 ^ w)
    (same : signed w a = signed w b) : a = b := by
  have whole : ((2 ^ w : Nat) : Int) = 2 ^ w := by push_cast; rfl
  unfold signed at same
  split at same <;> split at same <;> omega

section
variable {w a b : Nat} {args : Nat → Word} (h0 : args 0 = ⟨w, a⟩) (h1 : args 1 = ⟨w, b⟩)
include h0 h1

theorem icmp_returns_if {P : Prop} [Decidable P] (pred : Predicate)
    (cond : compare pred ⟨w, a⟩ ⟨w, b⟩ = decide P) :
    Returns (icmpFunction pred w) args ⟨w, if P then a else b⟩ := by
  have result := icmp_returns pred w args
  rw [h0, h1, cond] at result
  by_cases holds : P
  · rw [if_pos holds]
    rwa [decide_eq_true holds, if_pos rfl] at result
  · rw [if_neg holds]
    rwa [decide_eq_false holds, if_neg (by decide)] at result

/-- Where both signed numbers are equal, it does not matter which is taken. -/
theorem smin_returns (ha : a < 2 ^ w) (hb : b < 2 ^ w) :
    Returns (icmpFunction .slt w) args ⟨w, if signed w a ≤ signed w b then a else b⟩ := by
  have result := icmp_returns_if h0 h1 (P := signed w a < signed w b) .slt rfl
  by_cases eq : signed w a = signed w b
  · obtain rfl := signed_injective ha hb eq
    rwa [ite_self] at result ⊢
  · rwa [if_congr (lt_iff_le_and_ne.trans (and_iff_left eq)) rfl rfl] at result

theorem smax_returns :
    Returns (icmpFunction .sgt w) args ⟨w, if signed w a ≤ signed w b then b else a⟩ := by
  have result := icmp_returns_if h0 h1 (P := signed w b < signed w a) .sgt rfl
  rwa [← ite_not, if_congr not_lt rfl rfl] at result

theorem umin_returns : Returns (icmpFunction .ult w) args ⟨w, min a b⟩ := by
  rw [min_def_lt]
  exact icmp_returns_if h0 h1 .ult rfl

theorem umax_returns : Returns (icmpFunction .ugt w) args ⟨w, max a b⟩ := by
  rw [max_comm, max_def_lt]
  exact icmp_returns_if h0 h1 .ugt rfl

end

end IntrinsicSubstitutes
