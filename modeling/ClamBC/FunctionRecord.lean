import ClamBC.WriterOperands
import ClamBC.Fallible
import ClamBC.SsaChecks
import Mathlib.Algebra.GroupWithZero.Nat

/-!
# The record of a function

`printFunction` of the writer announces how many values, instructions and blocks follow,
and then prints them in loops of their own. A record here is what has been printed, item
by item; types stand for their ids and global constants for theirs, which the analyzer
hands out. The types of values are inputs, as the IR of this development does not carry
them for every operand.
-/

namespace FunctionRecord

open Ir IrExec PhiElimination ValueNumbering WriterOperands Fallible

/-- Why nothing is written: `ClamBCStop`, an assertion of the writer, or one of the register
allocator. -/
inductive Refusal where
  | stop (message : String)
  | assertion (message : String)
  | halt (h : Halt)
  deriving DecidableEq

/-- What is printed for an operand: a value id, or a constant with its width. -/
inductive Operand where
  | value (id : Nat)
  | const (c : Const)

/-- The type of an emitted instruction, its destination and its operands. For an instruction
without a result 0 is printed where the destination stands. -/
structure InstRecord where
  ty : Ty
  dest : Option Nat
  operands : List Operand

inductive TermRecord where
  | ret (value : Option (Ty × Operand))
  | jmp (target : Nat)
  | branch (cond : Operand) (ifTrue ifFalse : Nat)
  | abort

/-- A line that starts with `B`. -/
structure BlockRecord where
  insts : List InstRecord
  term : TermRecord

structure Record where
  args : Nat
  returnType : Ty
  values : Nat
  types : List (Ty × Bool)
  instructions : Nat
  blocks : Nat
  lines : List BlockRecord

/-- The types that the writer asks LLVM for. -/
structure Types where
  result : Ty
  value : Value → Ty
  allocated : Nat → Ty

def printType (ty : Ty) : Except Refusal Ty :=
  match ty with
  | .int bits =>
    if bits = 1 ∨ bits = 8 ∨ bits = 16 ∨ bits = 32 ∨ bits = 64 then .ok ty
    else .error (.stop "The ClamAV bytecode backend does not currently supportinteger types of widths other than 1, 8, 16, 32, 64.")
  | .float _ => .error (.stop "The ClamAV bytecode backend does not support floating pointtypes")
  | _ => .ok ty

def printCount (n : Nat) (what : String) : Except Refusal Nat :=
  if 65536 ≤ n then .error (.stop ("Attempted to use more than 64k " ++ what)) else .ok n

/-- `printFixedNumber` with one digit. -/
def printDigit (n : Nat) : Except Refusal Nat :=
  if 16 ≤ n then .error (.assertion "Fixed-width number cannot exceed width") else .ok n

section
variable (num : Numbering)

def getValueID (v : Value) : Except Refusal Nat :=
  match num.getValueID v with
  | .ok n => .ok n
  | .error h => .error (.halt h)

def printConst (c : Const) : Except Refusal Operand :=
  match c with
  | .int bits _ =>
    if 64 < bits then .error (.stop "Integers of more than 64-bits are not supported") else
      .ok (.const c)
  | .castExpr .intToPtr _ => .error (.stop "Cast of integer to pointer not supported")
  | .undef | .null | .global _ | .castExpr _ _ | .getElementPtrExpr _ _ | .otherExpr _ =>
      .ok (.const c)
  | _ => .error (.assertion "REMOVED THE CALL TO STOP, BECAUSE printLocation was crashing.")

def printOperand : Value → Except Refusal Operand
  | .const c => printConst c
  | v => (getValueID num v).map .value

/-- What is printed for the destination. -/
def printDest (i : Inst) : Except Refusal (Option Nat) :=
  if i.ty.isVoid then .ok none else (getValueID num (.inst i.id)).map some

def printOperands (shown : Printed) : Except Refusal (List Operand) :=
  if shown.goesOn then shown.operands.mapM (printOperand num)
  else .error (.stop "ClamAV bytecode backend does not know about ")

variable (strip : Function → Value → Value) (types : Types) (f : Function)

/-- A store prints the type of what it stores. -/
def instType (i : Inst) : Ty :=
  match i.op with
  | .store v _ => types.value v
  | _ => i.ty

def printInst (i : Inst) : Except Refusal InstRecord := do
  let ty ← printType (instType types i)
  let dest ← printDest num i
  let operands ← printOperands num (visitInst strip f i)
  return ⟨ty, dest, operands⟩

/-- The loop of `printBasicBlock`, with its own conditions for what is left out. -/
def printInsts : List Inst → Except Refusal (List InstRecord)
  | [] => .ok []
  | i :: rest =>
    match i.op with
    | .alloca _ => printInsts rest
    | .dbg => printInsts rest
    | _ =>
      if i.id ∈ num.skipMap then printInsts rest
      else do
        let first ← printInst num strip types f i
        let others ← printInsts rest
        return first :: others

/-- `BBMap[BB]`, which is 0 for a block that is not in the map. -/
def blockId (l : Label) : Nat := (f.blocks.findIdx? fun B => B.label = l).getD 0

def printBasicBlockID (l : Label) : Except Refusal Nat :=
  if blockId f l = 0 then .error (.assertion "Unknown basicblock?") else .ok (blockId f l)

def printTerm : Term Value → Except Refusal TermRecord
  | .ret none => .ok (.ret none)
  | .ret (some v) => do
    let ty ← printType (types.value v)
    let value ← printOperand num v
    return .ret (some (ty, value))
  | .br dest => do return .jmp (← printBasicBlockID f dest)
  | .condBr cond t e => do
    let cond ← printOperand num cond
    let ifTrue ← printBasicBlockID f t
    let ifFalse ← printBasicBlockID f e
    return .branch cond ifTrue ifFalse
  | .switch _ _ _ =>
    .error (.stop "ClamAV bytecode backend has not implemented switch statements, please lower ")
  | .unreachable => .ok .abort

def printBasicBlock (B : Block) : Except Refusal BlockRecord := do
  let insts ← printInsts num strip types f B.body
  let term ← printTerm num types f B.term
  return ⟨insts, term⟩

/-- The type of a value, and whether it is an `alloca`. -/
def printEntry (k : Key) : Except Refusal (Ty × Bool) :=
  match k with
  | .arg i => (printType (types.value (.arg i))).map fun ty => (ty, false)
  | .inst i =>
    match allocaSize f (.inst i) with
    | some size =>
      if isArrayAllocation size then
        match types.allocated i with
        | .array _ _ => .error (.stop "Array allocs are not supported")
        | _ => .error (.stop "VLAs are not (yet) supported")
      else (printType (types.allocated i)).map fun ty => (ty, true)
    | none => (printType (types.value (.inst i))).map fun ty => (ty, false)

/-- All instructions, as `inst_begin` to `inst_end` goes over them. -/
inductive Instruction where
  | body (i : Inst)
  | term (t : Term Value)

def instructions : List Instruction :=
  f.blocks.flatMap fun B => B.body.map .body ++ [.term B.term]

/-- Whether the loop that counts the instructions counts this one. -/
def isCounted : Instruction → Bool
  | .body i =>
    match i.op with
    | .alloca _ => false
    | .dbg => false
    | _ => i.id ∉ num.skipMap
  | .term _ => true

/-- `printFunction` for a function without phis. -/
def printFunction : Except Refusal Record := do
  let args ← printDigit f.args.length
  let returnType ← printType types.result
  if 32768 ≤ (instructions f).length then
    .error (.stop "Attempted to use more than 32k instructions")
  else
    match buildReverseMap num with
    | none => .error (.assertion "max + 1 == RevValueMap.size()")
    | some reverseValueMap =>
      let values ← printCount (reverseValueMap.length - f.args.length) "values"
      let entries ← reverseValueMap.mapM (printEntry types f)
      let blocks ← printCount f.blocks.length "basic blocks"
      let lines ← f.blocks.mapM (printBasicBlock num strip types f)
      return ⟨args, returnType, values, entries, ((instructions f).filter (isCounted num)).length,
        blocks, lines⟩

end

/-! What an accepted record is like. -/

def Operand.ids : Operand → List Nat
  | .value id => [id]
  | .const _ => []

def TermRecord.ids : TermRecord → List Nat
  | .ret (some (_, v)) => v.ids
  | .branch cond _ _ => cond.ids
  | _ => []

def TermRecord.targets : TermRecord → List Nat
  | .jmp target => [target]
  | .branch _ ifTrue ifFalse => [ifTrue, ifFalse]
  | _ => []

/-- All value ids on the line of a block. -/
def BlockRecord.ids (line : BlockRecord) : List Nat :=
  line.insts.flatMap (fun i => i.dest.toList ++ i.operands.flatMap Operand.ids) ++ line.term.ids

/-- A branch target is the position of the line of the block that is branched to. -/
def IsTarget (f : Function) (r : Record) (l : Label) (t : Nat) : Prop :=
  1 ≤ t ∧ t ≤ r.blocks - 1 ∧ ∃ C, f.blocks[t]? = some C ∧ C.label = l

structure Consistent (f : Function) (r : Record) : Prop where
  args : r.args = f.args.length ∧ r.args ≤ r.types.length
  values : r.values = r.types.length - r.args
  instructions : r.instructions = (r.lines.map fun line => line.insts.length + 1).sum
  blocks : r.blocks = r.lines.length
  ids : ∀ line ∈ r.lines, ∀ n ∈ line.ids, n < r.values + r.args
  targets : List.Forall₂ (fun (B : Block) line =>
    List.Forall₂ (IsTarget f r) B.term.successors line.term.targets) f.blocks r.lines

section
variable {num : Numbering} {strip : Function → Value → Value} {types : Types} {f : Function}

theorem getValueID_lt (inv : Invariant f num) {v : Value} {n : Nat} (h : getValueID num v = .ok n) :
    n < num.id := by
  unfold getValueID Numbering.getValueID at h
  cases found : (key v).bind num.find with
  | none => simp [found] at h
  | some x =>
    cases x with
    | none => simp [found] at h
    | some m =>
      simp only [found, Except.ok.injEq] at h
      subst h
      obtain ⟨k, -, found⟩ := Option.bind_eq_some_iff.mp found
      exact inv.find_lt found

theorem printOperand_lt (inv : Invariant f num) {v : Value} {x : Operand}
    (h : printOperand num v = .ok x) :
    ∀ n ∈ x.ids, n < num.id := by
  have asked : ∀ {w}, (getValueID num w).map Operand.value = .ok x → ∀ n ∈ x.ids, n < num.id := by
    intro w h n hn
    obtain ⟨m, found, rfl⟩ := map_eq_ok.mp h
    rw [List.mem_singleton.mp hn]
    exact getValueID_lt inv found
  cases v with
  | inst i => exact asked h
  | arg i => exact asked h
  | const c =>
    have isConst : ∃ c', x = .const c' := by
      replace h : printConst c = .ok x := h
      unfold printConst at h
      split at h
      · split_ifs at h
        cases h
        exact ⟨_, rfl⟩
      all_goals cases h
      all_goals exact ⟨_, rfl⟩
    obtain ⟨c', rfl⟩ := isConst
    exact nofun

theorem printInst_lt (inv : Invariant f num) {i : Inst} {r : InstRecord}
    (h : printInst num strip types f i = .ok r) :
    ∀ n ∈ r.dest.toList ++ r.operands.flatMap Operand.ids, n < num.id := by
  obtain ⟨ty, -, h⟩ := bind_eq_ok.mp h
  obtain ⟨dest, printed, h⟩ := bind_eq_ok.mp h
  obtain ⟨operands, shown, h⟩ := bind_eq_ok.mp h
  cases h
  intro n hn
  rcases List.mem_append.mp hn with hn | hn
  · unfold printDest at printed
    split_ifs at printed
    · cases printed
      cases hn
    · obtain ⟨m, found, rfl⟩ := map_eq_ok.mp printed
      rw [List.mem_singleton.mp hn]
      exact getValueID_lt inv found
  · unfold printOperands at shown
    split_ifs at shown
    obtain ⟨x, hx, hn⟩ := List.mem_flatMap.mp hn
    obtain ⟨v, -, found⟩ := mem_of_mapM shown hx
    exact printOperand_lt inv found n hn

theorem printInsts_lt (inv : Invariant f num) {is : List Inst} {rs : List InstRecord}
    (h : printInsts num strip types f is = .ok rs) :
    ∀ r ∈ rs, ∀ n ∈ r.dest.toList ++ r.operands.flatMap Operand.ids, n < num.id := by
  fun_induction printInsts num strip types f is generalizing rs with
  | case1 =>
    cases h
    exact nofun
  | case2 i rest size op ih => exact ih h
  | case3 i rest op ih => exact ih h
  | case4 i rest skipped notAlloca notDbg ih => exact ih h
  | case5 i rest kept notAlloca notDbg ih =>
    obtain ⟨first, printed, h⟩ := bind_eq_ok.mp h
    obtain ⟨others, tail, h⟩ := bind_eq_ok.mp h
    cases h
    exact List.forall_mem_cons.mpr ⟨printInst_lt inv printed, ih tail⟩

/-- The loop that prints leaves out the same instructions as the loop that counts. -/
theorem printInsts_length {is : List Inst} {rs : List InstRecord}
    (h : printInsts num strip types f is = .ok rs) :
    rs.length = ((is.map Instruction.body).filter (isCounted num)).length := by
  fun_induction printInsts num strip types f is generalizing rs with
  | case1 =>
    cases h
    rfl
  | case2 i rest size op ih => simpa [isCounted, op] using ih h
  | case3 i rest op ih => simpa [isCounted, op] using ih h
  | case4 i rest skipped notAlloca notDbg ih =>
    have left : isCounted num (.body i) = false := by
      simp only [isCounted]
      simpa using skipped
    simpa [left] using ih h
  | case5 i rest kept notAlloca notDbg ih =>
    obtain ⟨first, printed, h⟩ := bind_eq_ok.mp h
    obtain ⟨others, tail, h⟩ := bind_eq_ok.mp h
    cases h
    have counted : isCounted num (.body i) = true := by
      simp only [isCounted]
      simpa using kept
    simp [counted, ih tail]

theorem blockId_spec {l : Label} (known : blockId f l ≠ 0) :
    1 ≤ blockId f l ∧ blockId f l ≤ f.blocks.length - 1 ∧ ∃ C, f.blocks[blockId f l]? = some C ∧
      C.label = l := by
  unfold blockId at known ⊢
  cases found : f.blocks.findIdx? fun B => B.label = l with
  | none => simp [found] at known
  | some k =>
    simp only [found, Option.getD_some] at known ⊢
    obtain ⟨short, label, -⟩ := List.findIdx?_eq_some_iff_getElem.mp found
    exact ⟨by omega, by omega, f.blocks[k], List.getElem?_eq_getElem short, by simpa using label⟩

theorem printTerm_ok (inv : Invariant f num) {t : Term Value} {r : TermRecord}
    (h : printTerm num types f t = .ok r) :
    (∀ n ∈ r.ids, n < num.id) ∧
      List.Forall₂ (fun l k => blockId f l ≠ 0 ∧ k = blockId f l) t.successors r.targets := by
  have target : ∀ {l k}, printBasicBlockID f l = .ok k → blockId f l ≠ 0 ∧ k = blockId f l := by
    intro l k h
    unfold printBasicBlockID at h
    split_ifs at h with zero
    cases h
    exact ⟨zero, rfl⟩
  cases t with
  | ret value =>
    cases value with
    | none =>
      cases h
      exact ⟨nofun, .nil⟩
    | some v =>
      obtain ⟨ty, -, h⟩ := bind_eq_ok.mp h
      obtain ⟨x, printed, h⟩ := bind_eq_ok.mp h
      cases h
      exact ⟨printOperand_lt inv printed, .nil⟩
  | br dest =>
    obtain ⟨k, printed, h⟩ := bind_eq_ok.mp h
    cases h
    exact ⟨nofun, .cons (target printed) .nil⟩
  | condBr cond a b =>
    obtain ⟨x, printed, h⟩ := bind_eq_ok.mp h
    obtain ⟨k, first, h⟩ := bind_eq_ok.mp h
    obtain ⟨m, second, h⟩ := bind_eq_ok.mp h
    cases h
    exact ⟨printOperand_lt inv printed, .cons (target first) (.cons (target second) .nil)⟩
  | switch cond d cases => cases h
  | unreachable =>
    cases h
    exact ⟨nofun, .nil⟩

theorem printBasicBlock_ok (inv : Invariant f num) {B : Block} {line : BlockRecord}
    (h : printBasicBlock num strip types f B = .ok line) :
    (∀ n ∈ line.ids, n < num.id) ∧
      line.insts.length + 1 =
        ((B.body.map Instruction.body ++ [Instruction.term B.term]).filter (isCounted num)).length ∧
      List.Forall₂ (fun l k => blockId f l ≠ 0 ∧ k = blockId f l) B.term.successors
        line.term.targets := by
  obtain ⟨insts, body, h⟩ := bind_eq_ok.mp h
  obtain ⟨term, last, h⟩ := bind_eq_ok.mp h
  cases h
  obtain ⟨ids, targets⟩ := printTerm_ok inv last
  refine ⟨?_, ?_, targets⟩
  · intro n hn
    rcases List.mem_append.mp hn with hn | hn
    · obtain ⟨r, hr, hn⟩ := List.mem_flatMap.mp hn
      exact printInsts_lt inv body r hr n hn
    · exact ids n hn
  · rw [List.filter_append, List.length_append, ← printInsts_length body]
    rfl

/-- The instructions counted are those printed on the lines. -/
theorem counted_eq
    (inv : Invariant f num) {Bs : List Block} {lines : List BlockRecord} (printed : List.Forall₂
      (fun B line => printBasicBlock num strip types f B = .ok line) Bs lines) :
    ((Bs.flatMap fun B => B.body.map Instruction.body ++ [Instruction.term B.term]).filter
      (isCounted num)).length =
      (lines.map fun line => line.insts.length + 1).sum := by
  induction printed with
  | nil => rfl
  | cons first _ ih =>
    rw [List.flatMap_cons, List.filter_append, List.length_append,
      ih, ← (printBasicBlock_ok inv first).2.1]
    rfl

/-- The record of every function that is accepted is consistent. -/
theorem printFunction_consistent
    {f g : Function} (wf : f.WellFormed) (numbered : runOnFunction f = .ok (g, num)) {r : Record}
    (accepted : printFunction num strip types g = .ok r) : Consistent g r := by
  have wf' : g.WellFormed := by
    unfold runOnFunction at numbered
    split at numbered
    · cases numbered
      exact (eliminatePhis_phi_free wf).1
    · cases numbered
  have done : Numbered g num := by
    unfold runOnFunction at numbered
    split at numbered
    · next ran =>
      cases numbered
      exact number_numbered wf' ran
    · cases numbered
  have inv := done.inv
  obtain ⟨args, digit, accepted⟩ := bind_eq_ok.mp accepted
  obtain ⟨returnType, -, accepted⟩ := bind_eq_ok.mp accepted
  split_ifs at accepted
  rw [buildReverseMap_eq inv] at accepted
  obtain ⟨values, count, accepted⟩ := bind_eq_ok.mp accepted
  obtain ⟨entries, printedTypes, accepted⟩ := bind_eq_ok.mp accepted
  obtain ⟨blocks, blockCount, accepted⟩ := bind_eq_ok.mp accepted
  obtain ⟨lines, printedLines, accepted⟩ := bind_eq_ok.mp accepted
  cases accepted
  have argsEq : args = g.args.length := by
    unfold printDigit at digit
    split_ifs at digit
    cases digit
    rfl
  have counts : ∀ {n m what}, printCount n what = .ok m → m = n := by
    intro n m what h
    unfold printCount at h
    split_ifs at h
    cases h
    rfl
  have size : entries.length = num.id := by
    rw [← (forall₂_of_mapM printedTypes).length_eq, inv.size]
  have enough : g.args.length ≤ entries.length := by
    have prefixed := done.args.length_le
    rw [List.length_map, List.length_range, inv.size] at prefixed
    omega
  have valuesEq : values = entries.length - args := by
    rw [counts count, argsEq, size, inv.size]
  have steps := forall₂_of_mapM printedLines
  have blocksEq : blocks = lines.length := by rw [counts blockCount, steps.length_eq]
  refine ⟨⟨argsEq, ?_⟩, valuesEq, counted_eq inv steps, blocksEq, ?_, ?_⟩
  · simpa [argsEq] using enough
  · intro line hl n hn
    obtain ⟨B, -, printed⟩ := mem_of_mapM printedLines hl
    have small := (printBasicBlock_ok inv printed).1 n hn
    simp only
    omega
  · refine steps.imp fun B line printed => (printBasicBlock_ok inv printed).2.2.imp ?_
    rintro l k ⟨known, rfl⟩
    obtain ⟨low, high, target⟩ := blockId_spec known
    exact ⟨low, by rw [counts blockCount]; exact high, target⟩

end

/-- `%0 = icmp ugt i32 %arg, 3`, and a block for each outcome. -/
def twoReturns : Function where
  args := [.int 32]
  nextId := 4
  blocks :=
    [⟨0, [], [⟨0, .int 1, .icmp .ugt (.arg 0) (.const (.int 32 3))⟩], 1, .condBr (.inst 0) 1 2⟩,
     ⟨1, [], [], 2, .ret (some (.const (.int 32 1)))⟩, ⟨2, [], [], 3, .ret (some (.arg 0))⟩]

def twoReturnsTypes : Types where
  result := .int 32
  value := fun v => match v with
    | .inst _ => .int 1
    | _ => .int 32
  allocated := fun _ => .int 32

theorem printFunction_consistent_twoReturns :
    twoReturns.WellFormed ∧ ∃ num r, runOnFunction twoReturns = .ok (twoReturns, num) ∧
      printFunction num (fun _ v => v) twoReturnsTypes twoReturns = .ok r ∧ r.instructions = 4 ∧
        Consistent twoReturns r := by
  have wf : twoReturns.WellFormed := SsaChecks.wellFormed_of_checks (by decide)
  have ran : ∃ num r, runOnFunction twoReturns = .ok (twoReturns, num) ∧
      printFunction num (fun _ v => v) twoReturnsTypes twoReturns = .ok r ∧ r.instructions = 4 :=
        ⟨_, _, rfl, rfl, rfl⟩
  obtain ⟨num, r, numbered, accepted, count⟩ := ran
  exact ⟨wf, num, r, numbered, accepted, count, printFunction_consistent wf numbered accepted⟩

end FunctionRecord
