import ClamBC.FunctionFormat
import ClamBC.FunctionRecord

/-!
# The text of a function

What the writer prints for a function, instruction by instruction: the opcode, the type behind it
where there is one, and the operands. The ids that the analyzer hands out are inputs. Pointer types
differ in what they point to, which the IR of this development leaves out, so the ids of types
are given by the instruction that prints them.
-/

namespace FunctionText

open Ir IrExec PhiElimination ValueNumbering WriterOperands Fallible
open PrefixReader InstructionFormat FunctionFormat
open BytecodeStream (Field Datum Operand printFields)
open FunctionRecord (Refusal Instruction instructions isCounted)

/-- A type as far as `printType` looks at it, and its id. -/
abbrev TypeId := Ty × UInt32

/-- The ids of the analyzer, and `minflvl` of the writer. An instruction prints a type in
front, which is that of its result or of what it stores, and maybe one behind its opcode. -/
structure Ids where
  returned : TypeId
  valueType : Key → TypeId
  allocated : Nat → TypeId
  front : Nat → TypeId
  behind : Nat → TypeId
  undef : Nat → Nat → Ty
  globalID : Const → UInt32
  externalID : FunctionId → UInt32
  functionID : FunctionId → UInt32
  minflvl : UInt32

def funcLevel098_5 : UInt32 := 79

def printType (t : TypeId) : Except Refusal Nat := do
  let _ ← FunctionRecord.printType t.1
  if t.2 < 32768 then return t.2.toNat
  else .error (.assertion "At most 32k types are supported")

/-- `Constant::getNullValue`. -/
def getNullValue : Ty → Const
  | .int bits => .int bits 0
  | .float _ => .fp true
  | .ptr => .null
  | ty => .aggregateZero ty

section
variable (ids : Ids) (num : Numbering)

/-- There is no `i0`, so that a width of 0 does not occur. -/
def printConst (c : Const) : Except Refusal Operand :=
  match c with
  | .int bits value =>
    if h : 0 < bits ∧ bits ≤ 64 then .ok (.constant (UInt64.ofNat value) bits h)
    else .error (.stop "Integers of more than 64-bits are not supported")
  | .castExpr .intToPtr _ => .error (.stop "Cast of integer to pointer not supported")
  | .global _ | .castExpr _ _ | .getElementPtrExpr _ _ | .otherExpr _ =>
    .ok (.globalId (ids.globalID c))
  | .null => .ok (.globalId 0)
  | _ => .error (.assertion "REMOVED THE CALL TO STOP, BECAUSE printLocation was crashing.")

/-- The operand that an instruction prints at a position. -/
def printOperand (user position : Nat) (v : Value) : Except Refusal Field :=
  match v with
  | .const .undef =>
    (printConst ids (getNullValue (ids.undef user position))).map Field.operand
  | .const c => (printConst ids c).map Field.operand
  | v => (FunctionRecord.getValueID num v).map fun n => .operand (.valueId (UInt32.ofNat n))

def printOperandsFrom (user : Nat) : Nat → List Value → Except Refusal (List Field)
  | _, [] => .ok []
  | position, v :: rest => do
    let first ← printOperand ids num user position v
    let others ← printOperandsFrom user (position + 1) rest
    return first :: others

/-- An opcode and its operands. -/
def command (op : Opcode) (user : Nat) (vs : List Value) : Except Refusal (Command Field) := do
  return ⟨op, ← printOperandsFrom ids num user 0 vs⟩

/-- An opcode, a type and operands. -/
def typedCommand (op : Opcode) (user : Nat) (vs : List Value) :
    Except Refusal (Command Field) := do
  let type ← printType (ids.behind user)
  return ⟨op, .number (UInt64.ofNat type) :: (← printOperandsFrom ids num user 0 vs)⟩

variable (strip : Function → Value → Value) (f : Function)

def interpreterBug : Refusal := .assertion "would hit libclamav interpreter bug"

def visitGetElementPtrInst (user : Nat) (base : Value) (indices : List Value) :
    Except Refusal (Command Field) :=
  match indices with
  | [] => .error (.assertion "GEP without indices?")
  | [index] =>
    if isGlobalOrExpr base then .error interpreterBug
    else if 65 < (ids.behind user).2 then
      .error (.assertion "gep1 with type > 65 won't work on interpreter")
    else typedCommand ids num .gep1 user [base, index]
  | [.const (.int _ 0), index] =>
    if isGlobalOrExpr base then .error interpreterBug
    else typedCommand ids num .gepz user [base, index]
  | _ =>
    if 15 < indices.length then
      .error (.stop "Too many levels of pointer indexing, at most 15 is supported!")
    else .error (.assertion "GEPN")

def visitLoadInst (user : Nat) (ptr : Value) : Except Refusal (Command Field) :=
  if isAlloca f ptr || isGlobalVariable ptr then command ids num .copy user [ptr, .inst user]
  else command ids num .load user [ptr]

def isGetElementPtr (v : Value) : Bool :=
  match v with
  | .inst i =>
    match (instruction f i).map Inst.op with
    | some (.getElementPtr _ _) => true
    | _ => false
  | _ => false

def isArgument : Value → Bool
  | .arg _ => true
  | _ => false

def visitStoreInst (user : Nat) (value ptr : Value) : Except Refusal (Command Field) :=
  if isGepOrBitCast f ptr then command ids num .store user [value, ptr]
  else
    let stripped := strip f ptr
    if isAlloca f stripped || isGlobalVariable stripped then
      command ids num .copy user [value, stripped]
    else if isGetElementPtr f stripped then command ids num .store user [value, stripped]
    else if isArgument stripped then command ids num .copy user [value, stripped]
    else command ids num .store user [value, stripped]

/-- `printNumber(0, true)` and `printFixedNumber(4, 1)` are what a 32-bit zero prints. -/
def zeroIndex : Operand := .constant 0 32 (by decide)

example : BytecodeStream.printOperand zeroIndex =
    (BytecodeStream.printFixedNumber 4 1).map (BytecodeStream.printNumber 0 true ++ ·) := rfl

def notMapped : Refusal := .stop "Instruction is not mapped"

/-- `HandleOpcodes` for an instruction whose opcode is mapped. -/
def handleOpcodes (op : Opcode) (user : Nat) (vs : List Value) : Except Refusal (Command Field) :=
  if op.operandCount = vs.length then command ids num op user vs
  else .error (.assertion "Operand count mismatch")

def visitCastInst (user : Nat) (op : CastOp) (src ty : Ty) (value : Value) :
    Except Refusal (Command Field) :=
  if isLosslessCast op src ty then do
    let c ← typedCommand ids num .gepz user [value]
    return ⟨c.opcode, c.fields ++ [.operand zeroIndex]⟩
  else
    match op, ty with
    | .ptrToInt, .int 64 => command ids num .ptrToInt64 user [value]
    | .trunc, _ => handleOpcodes ids num .trunc user [value]
    | .sext, _ => handleOpcodes ids num .sext user [value]
    | .zext, _ => handleOpcodes ids num .zext user [value]
    | _, _ => .error notMapped

/-- `opcodecvt` for the binary operators. -/
def binaryOpcode : BinOp → Opcode
  | .add => .add
  | .sub => .sub
  | .mul => .mul
  | .udiv => .udiv
  | .sdiv => .sdiv
  | .urem => .urem
  | .srem => .srem
  | .shl => .shl
  | .lshr => .lshr
  | .ashr => .ashr
  | .and => .and
  | .or => .or
  | .xor => .xor

def visitBinaryOperator (user : Nat) (op : BinOp) (ty : Ty) (lhs rhs : Value) :
    Except Refusal (Command Field) :=
  match op, ty, ptrToIntOperand f lhs, ptrToIntOperand f rhs with
  | .sub, .int 32, some l, some r => command ids num .ptrDiff32 user [l, r]
  | _, _, _, _ => handleOpcodes ids num (binaryOpcode op) user [lhs, rhs]

def visitICmpInst (user : Nat) (pred : Predicate) (lhs rhs : Value) :
    Except Refusal (Command Field) :=
  match pred with
  | .eq => typedCommand ids num .icmpEq user [lhs, rhs]
  | .ne => typedCommand ids num .icmpNe user [lhs, rhs]
  | .ugt => typedCommand ids num .icmpUgt user [lhs, rhs]
  | .uge => typedCommand ids num .icmpUge user [lhs, rhs]
  | .ult => typedCommand ids num .icmpUlt user [lhs, rhs]
  | .ule => typedCommand ids num .icmpUle user [lhs, rhs]
  | .sgt => typedCommand ids num .icmpSgt user [lhs, rhs]
  | .sge => typedCommand ids num .icmpSge user [lhs, rhs]
  | .sle =>
    if ids.minflvl < funcLevel098_5 then
      .error (.stop "Instruction opcode 29 (signed less than or equal to) is not supported clamav JIT on functionality levels prior to FUNC_LEVEL_098_5")
    else typedCommand ids num .icmpSle user [lhs, rhs]
  | .slt => typedCommand ids num .icmpSlt user [lhs, rhs]

/-- The calls of `llvm.memset` and its like have four arguments, of which three are printed. -/
def memoryIntrinsic (op : Opcode) (user : Nat) (args : List Value) :
    Except Refusal (Command Field) :=
  if args.length = 4 then command ids num op user (args.take 3)
  else .error (.assertion "CI.getNumOperands() == 5")

def bswap (op : Opcode) (user : Nat) (args : List Value) : Except Refusal (Command Field) :=
  if args.length = 1 then command ids num op user args
  else .error (.assertion "CI.getNumOperands() == 2")

def visitIntrinsic (user : Nat) (ty : Ty) (args : List Value) :
    Intrinsic → Except Refusal (Command Field)
  | .memset => memoryIntrinsic ids num .memset user args
  | .memcpy => memoryIntrinsic ids num .memcpy user args
  | .memmove => memoryIntrinsic ids num .memmove user args
  | .bswap =>
    match ty with
    | .int 16 => bswap ids num .bswap16 user args
    | .int 32 => bswap ids num .bswap32 user args
    | .int 64 => bswap ids num .bswap64 user args
    | _ => .error (.stop "Unsupported bswap bitwidth")
  | .other => .error (.stop "Unsupported intrinsic call ")

/-- A call with the number of its arguments, which `printFixedNumber` prints as one digit. -/
def call (op : Opcode) (user : Nat) (id : UInt32) (args : List Value) :
    Except Refusal (Command Field) :=
  if 16 ≤ args.length then .error (.assertion "Fixed-width number cannot exceed width")
  else do
    return ⟨op, .fixed (UInt64.ofNat args.length) 1 :: .number id.toUInt64 ::
      (← printOperandsFrom ids num user 0 args)⟩

def visitCallInst (user : Nat) (ty : Ty) (args : List Value) :
    Callee → Except Refusal (Command Field)
  | .isBigEndian => command ids num .isBigEndian user []
  | .abort => command ids num .abort user []
  -- the operand behind the arguments is the function itself, which is not printed as an operand
  | .memcmp =>
    if args.length < 3 then
      .error (.assertion "REMOVED THE CALL TO STOP, BECAUSE printLocation was crashing.")
    else command ids num .memcmp user (args.take 3)
  | .intrinsic i => visitIntrinsic ids num user ty args i
  | .api id => call ids num .callApi user (ids.externalID id) args
  | .direct id =>
    if 255 < args.length then .error (.stop "Calls can have max 15 parameters")
    else call ids num .callDirect user (ids.functionID id) args
  | .indirect => .error (.stop "Indirect calls are not implemented yet!")

/-- Allocas and debug intrinsics are never visited. -/
def visitInst (i : Inst) : Except Refusal (Command Field) :=
  match i.op with
  | .load _ ptr => visitLoadInst ids num f i.id ptr
  | .store value ptr => visitStoreInst ids num strip f i.id value ptr
  | .getElementPtr base indices => visitGetElementPtrInst ids num i.id base indices
  | .icmp pred lhs rhs => visitICmpInst ids num i.id pred lhs rhs
  | .binary op lhs rhs => visitBinaryOperator ids num f i.id op i.ty lhs rhs
  | .select cond ifTrue ifFalse => handleOpcodes ids num .select i.id [cond, ifTrue, ifFalse]
  | .cast op src value => visitCastInst ids num i.id op src i.ty value
  | .call _ callee args => visitCallInst ids num i.id i.ty args callee
  | .alloca _ | .dbg | .other _ _ =>
    .error (.stop "ClamAV bytecode backend does not know about ")

def printBasicBlockID (l : Label) : Except Refusal Field :=
  (FunctionRecord.printBasicBlockID f l).map fun n => .number (UInt64.ofNat n)

def visitTerm (user : Nat) : Term Value → Except Refusal (Command Field)
  | .ret none => .ok ⟨.retVoid, []⟩
  | .ret (some v) => typedCommand ids num .ret user [v]
  | .br dest => do return ⟨.jmp, [← printBasicBlockID f dest]⟩
  | .condBr cond t e => do
    let cond ← printOperand ids num user 0 cond
    return ⟨.branch, [cond, ← printBasicBlockID f t, ← printBasicBlockID f e]⟩
  | .switch _ _ _ =>
    .error (.stop "ClamAV bytecode backend has not implemented switch statements, please lower ")
  | .unreachable => .ok ⟨.abort, []⟩

def printInst (i : Inst) : Except Refusal (InstListing Field) := do
  let type ← printType (ids.front i.id)
  let dest ← FunctionRecord.printDest num i
  let command ← visitInst ids num strip f i
  return ⟨type, dest.getD 0, command⟩

/-- The loop of `printBasicBlock`. -/
def printInsts : List Inst → Except Refusal (List (InstListing Field))
  | [] => .ok []
  | i :: rest =>
    match i.op with
    | .alloca _ => printInsts rest
    | .dbg => printInsts rest
    | _ =>
      if i.id ∈ num.skipMap then printInsts rest
      else do
        let first ← printInst ids num strip f i
        let others ← printInsts rest
        return first :: others

def printBasicBlock (B : Block) : Except Refusal (BlockListing Field) := do
  let insts ← printInsts ids num strip f B.body
  let term ← visitTerm ids num f B.termId B.term
  return ⟨insts, term⟩

/-- The type of a value, and whether it is an `alloca`. -/
def printEntry (k : Key) : Except Refusal (Nat × Bool) :=
  match k with
  | .arg i => (printType (ids.valueType (.arg i))).map fun t => (t, false)
  | .inst i =>
    match allocaSize f (.inst i) with
    | some size =>
      if isArrayAllocation size then
        match (ids.allocated i).1 with
        | .array _ _ => .error (.stop "Array allocs are not supported")
        | _ => .error (.stop "VLAs are not (yet) supported")
      else (printType (ids.allocated i)).map fun t => (t, true)
    | none => (printType (ids.valueType (.inst i))).map fun t => (t, false)

/-- `printFunction` for a function without phis. -/
def printFunction : Except Refusal (Listing Field) := do
  let args ← FunctionRecord.printDigit f.args.length
  let returnType ← printType ids.returned
  if 32768 ≤ (instructions f).length then
    .error (.stop "Attempted to use more than 32k instructions")
  else
    match buildReverseMap num with
    | none => .error (.assertion "max + 1 == RevValueMap.size()")
    | some reverseValueMap =>
      let values ← FunctionRecord.printCount (reverseValueMap.length - f.args.length) "values"
      let entries ← reverseValueMap.mapM (printEntry ids f)
      let blocks ← FunctionRecord.printCount f.blocks.length "basic blocks"
      let lines ← f.blocks.mapM (printBasicBlock ids num strip f)
      return ⟨args, returnType, values, entries,
        ((instructions f).filter (isCounted num)).length, blocks, lines⟩

end

/-! What a visit prints. -/

section
variable {ids : Ids} {num : Numbering} {strip : Function → Value → Value} {f : Function}
  {user : Nat} {c : Command Field}

/-- The command has the shape that its opcode announces. It prints the operands that the writer
asks for, and otherwise nothing with a value id. -/
structure Prints (ids : Ids) (num : Numbering) (user : Nat) (shown : Printed)
    (c : Command Field) : Prop where
  goesOn : shown.goesOn = true
  shaped : c.Shaped
  fields : ∃ front operands back, c.fields = front ++ operands ++ back ∧
    printOperandsFrom ids num user 0 shown.operands = .ok operands ∧
    ∀ x ∈ front ++ back, valueIds x.datum = []

theorem printOperand_operand {position : Nat} {v : Value} {x : Field}
    (h : printOperand ids num user position v = .ok x) : ∃ o, x = .operand o := by
  unfold printOperand at h
  split at h <;> obtain ⟨o, -, rfl⟩ := map_eq_ok.mp h <;> exact ⟨_, rfl⟩

theorem printOperandsFrom_operands {position : Nat} {vs : List Value} {fields : List Field}
    (h : printOperandsFrom ids num user position vs = .ok fields) :
    ∃ os : List Operand, fields = os.map .operand ∧ os.length = vs.length := by
  induction vs generalizing position fields with
  | nil =>
    cases h
    exact ⟨[], rfl, rfl⟩
  | cons v vs ih =>
    obtain ⟨first, printed, h⟩ := bind_eq_ok.mp h
    obtain ⟨others, tail, h⟩ := bind_eq_ok.mp h
    cases h
    obtain ⟨o, rfl⟩ := printOperand_operand printed
    obtain ⟨os, rfl, length⟩ := ih tail
    exact ⟨o :: os, rfl, by rw [List.length_cons, length, List.length_cons]⟩

theorem printOperandsFrom_schema {position : Nat} {vs : List Value} {fields : List Field}
    (h : printOperandsFrom ids num user position vs = .ok fields) :
    fields.map Field.schema = List.replicate vs.length .operand := by
  obtain ⟨os, rfl, length⟩ := printOperandsFrom_operands h
  rw [List.map_map, ← length]
  exact List.map_const'

theorem command_prints {op : Opcode} {vs : List Value} (noCall : op.isCall = false)
    (schema : op.schema = List.replicate vs.length .operand)
    (h : command ids num op user vs = .ok c) : Prints ids num user (prints vs) c := by
  obtain ⟨operands, printed, h⟩ := bind_eq_ok.mp h
  cases h
  refine ⟨rfl, ?_, [], operands, [], by simp, printed, by simp⟩
  simp only [Command.Shaped, noCall, Bool.false_eq_true, if_false, schema]
  exact printOperandsFrom_schema printed

theorem typedCommand_prints {op : Opcode} {vs : List Value} (noCall : op.isCall = false)
    (schema : op.schema = .number :: List.replicate vs.length .operand)
    (h : typedCommand ids num op user vs = .ok c) : Prints ids num user (prints vs) c := by
  obtain ⟨type, -, h⟩ := bind_eq_ok.mp h
  obtain ⟨operands, printed, h⟩ := bind_eq_ok.mp h
  cases h
  refine ⟨rfl, ?_, [.number (UInt64.ofNat type)], operands, [], by simp, printed,
    by simp [valueIds, Field.datum]⟩
  simp only [Command.Shaped, noCall, Bool.false_eq_true, if_false, schema, List.map_cons,
    printOperandsFrom_schema printed, Field.schema]

theorem handleOpcodes_prints {op : Opcode} {vs : List Value} (noCall : op.isCall = false)
    (schema : op.schema = List.replicate vs.length .operand)
    (h : handleOpcodes ids num op user vs = .ok c) : Prints ids num user (prints vs) c := by
  unfold handleOpcodes at h
  split_ifs at h
  exact command_prints noCall schema h

theorem visitGetElementPtrInst_prints {base : Value} {indices : List Value}
    (h : visitGetElementPtrInst ids num user base indices = .ok c) :
    Prints ids num user (WriterOperands.visitGetElementPtrInst base indices) c := by
  unfold visitGetElementPtrInst at h
  split at h
  · cases h
  · split_ifs at h with bug
    simp only [WriterOperands.visitGetElementPtrInst, bug]
    exact typedCommand_prints rfl rfl h
  · split_ifs at h with bug
    simp only [WriterOperands.visitGetElementPtrInst, bug]
    exact typedCommand_prints rfl rfl h
  · split_ifs at h

theorem visitLoadInst_prints {i : Inst} {ptr : Value}
    (h : visitLoadInst ids num f i.id ptr = .ok c) :
    Prints ids num i.id (WriterOperands.visitLoadInst f i ptr) c := by
  unfold visitLoadInst at h
  unfold WriterOperands.visitLoadInst
  split_ifs at h ⊢
  · exact command_prints rfl rfl h
  · exact command_prints rfl rfl h

theorem visitStoreInst_prints {value ptr : Value}
    (h : visitStoreInst ids num strip f user value ptr = .ok c) :
    Prints ids num user (WriterOperands.visitStoreInst strip f value ptr) c := by
  unfold visitStoreInst at h
  unfold WriterOperands.visitStoreInst
  dsimp only at h
  split_ifs at h ⊢ <;> exact command_prints rfl rfl h

theorem visitCastInst_prints {op : CastOp} {src ty : Ty} {value : Value}
    (h : visitCastInst ids num user op src ty value = .ok c) :
    Prints ids num user (WriterOperands.visitCastInst op src ty value) c := by
  unfold visitCastInst at h
  unfold WriterOperands.visitCastInst
  split_ifs at h ⊢
  · -- one operand and the index 0 behind it
    obtain ⟨c', typed, h⟩ := bind_eq_ok.mp h
    cases h
    obtain ⟨type, -, typed⟩ := bind_eq_ok.mp typed
    obtain ⟨operands, printed, typed⟩ := bind_eq_ok.mp typed
    cases typed
    refine ⟨rfl, ?_, [.number (UInt64.ofNat type)], operands, [.operand zeroIndex], rfl, printed,
      ?_⟩
    · change (_ ++ [Field.operand zeroIndex]).map Field.schema = _
      rw [List.map_append, List.map_cons, printOperandsFrom_schema printed]
      rfl
    · simp [valueIds, zeroIndex, Field.datum, Operand.datum]
  · split at h
    · exact command_prints rfl rfl h
    · exact handleOpcodes_prints rfl rfl h
    · exact handleOpcodes_prints rfl rfl h
    · exact handleOpcodes_prints rfl rfl h
    · cases h

theorem binaryOpcode_schema (op : BinOp) : (binaryOpcode op).isCall = false ∧
    (binaryOpcode op).schema = List.replicate 2 .operand := by
  cases op <;> exact ⟨rfl, rfl⟩

theorem visitBinaryOperator_prints {op : BinOp} {ty : Ty} {lhs rhs : Value}
    (h : visitBinaryOperator ids num f user op ty lhs rhs = .ok c) :
    Prints ids num user (WriterOperands.visitBinaryOperator f op ty lhs rhs) c := by
  by_cases difference : ∃ l r, op = .sub ∧ ty = .int 32 ∧ ptrToIntOperand f lhs = some l ∧
      ptrToIntOperand f rhs = some r
  · obtain ⟨l, r, rfl, rfl, hl, hr⟩ := difference
    simp only [visitBinaryOperator, hl, hr] at h
    simp only [WriterOperands.visitBinaryOperator, hl, hr]
    exact command_prints rfl rfl h
  · have asked : WriterOperands.visitBinaryOperator f op ty lhs rhs = prints [lhs, rhs] := by
      unfold WriterOperands.visitBinaryOperator
      split
      · next l r hl hr => exact absurd ⟨l, r, rfl, rfl, hl, hr⟩ difference
      · rfl
    have written : visitBinaryOperator ids num f user op ty lhs rhs =
        handleOpcodes ids num (binaryOpcode op) user [lhs, rhs] := by
      unfold visitBinaryOperator
      split
      · next l r hl hr => exact absurd ⟨l, r, rfl, rfl, hl, hr⟩ difference
      · rfl
    rw [asked]
    exact handleOpcodes_prints (binaryOpcode_schema _).1 (binaryOpcode_schema _).2 (written ▸ h)

theorem visitICmpInst_prints {pred : Predicate} {lhs rhs : Value}
    (h : visitICmpInst ids num user pred lhs rhs = .ok c) :
    Prints ids num user (prints [lhs, rhs]) c := by
  cases pred with
  | sle =>
    simp only [visitICmpInst] at h
    split_ifs at h
    exact typedCommand_prints rfl rfl h
  | _ => exact typedCommand_prints rfl rfl h

theorem memoryIntrinsic_prints {op : Opcode} {args : List Value} (noCall : op.isCall = false)
    (schema : op.schema = List.replicate 3 .operand)
    (h : memoryIntrinsic ids num op user args = .ok c) :
    Prints ids num user (prints (args.take 3)) c := by
  unfold memoryIntrinsic at h
  split_ifs at h with four
  refine command_prints noCall ?_ h
  rw [List.length_take, four]
  exact schema

theorem bswap_prints {op : Opcode} {args : List Value} (noCall : op.isCall = false)
    (schema : op.schema = List.replicate 1 .operand) (h : bswap ids num op user args = .ok c) :
    Prints ids num user (prints (args.take 1)) c := by
  unfold bswap at h
  split_ifs at h with one
  rw [List.take_of_length_le (Nat.le_of_eq one)]
  exact command_prints noCall (one ▸ schema) h

theorem visitIntrinsic_prints {ty : Ty} {args : List Value} {i : Intrinsic}
    (h : visitIntrinsic ids num user ty args i = .ok c) :
    Prints ids num user (WriterOperands.visitIntrinsic ty args i) c := by
  cases i with
  | memset => exact memoryIntrinsic_prints rfl rfl h
  | memcpy => exact memoryIntrinsic_prints rfl rfl h
  | memmove => exact memoryIntrinsic_prints rfl rfl h
  | bswap =>
    simp only [visitIntrinsic] at h
    simp only [WriterOperands.visitIntrinsic]
    split at h
    · exact bswap_prints rfl rfl h
    · exact bswap_prints rfl rfl h
    · exact bswap_prints rfl rfl h
    · cases h
  | other => cases h

theorem call_prints {op : Opcode} {id : UInt32} {args : List Value} (isCall : op.isCall = true)
    (h : call ids num op user id args = .ok c) : Prints ids num user (prints args) c := by
  unfold call at h
  split_ifs at h with few
  obtain ⟨operands, printed, h⟩ := bind_eq_ok.mp h
  cases h
  refine ⟨rfl, ?_, [.fixed (UInt64.ofNat args.length) 1, .number id.toUInt64], operands, [],
    by simp,
    printed, by simp [valueIds, Field.datum]⟩
  obtain ⟨os, rfl, length⟩ := printOperandsFrom_operands printed
  simp only [Command.Shaped, isCall, if_true]
  exact ⟨id, os, by omega, by rw [length]⟩

theorem visitCallInst_prints {ty : Ty} {args : List Value} {callee : Callee}
    (h : visitCallInst ids num user ty args callee = .ok c) :
    Prints ids num user (WriterOperands.visitCallInst ty args callee) c := by
  cases callee with
  | isBigEndian => exact command_prints rfl rfl h
  | abort => exact command_prints rfl rfl h
  | memcmp =>
    simp only [visitCallInst] at h
    split_ifs at h with few
    refine command_prints rfl ?_ h
    rw [List.length_take, Nat.min_eq_left (by omega)]
    rfl
  | intrinsic i => exact visitIntrinsic_prints h
  | api id => exact call_prints rfl h
  | direct id =>
    simp only [visitCallInst] at h
    split_ifs at h
    exact call_prints rfl h
  | indirect => cases h

/-- The text of an instruction shows the operands that the writer asks for. -/
theorem visitInst_prints {i : Inst} (h : visitInst ids num strip f i = .ok c) :
    Prints ids num i.id (WriterOperands.visitInst strip f i) c := by
  unfold visitInst at h
  unfold WriterOperands.visitInst
  cases op : i.op <;> rw [op] at h <;> dsimp only at h ⊢
  case load vol ptr => exact visitLoadInst_prints h
  case store value ptr => exact visitStoreInst_prints h
  case getElementPtr base indices => exact visitGetElementPtrInst_prints h
  case icmp pred lhs rhs => exact visitICmpInst_prints h
  case binary bin lhs rhs => exact visitBinaryOperator_prints h
  case select cond t e => exact handleOpcodes_prints rfl rfl h
  case cast castOp src value => exact visitCastInst_prints h
  case call se callee args => exact visitCallInst_prints h
  all_goals cases h

theorem printBasicBlockID_ok {l : Label} {x : Field} (h : printBasicBlockID f l = .ok x) :
    ∃ n, FunctionRecord.printBasicBlockID f l = .ok n ∧ x = .number (UInt64.ofNat n) := by
  obtain ⟨n, printed, rfl⟩ := map_eq_ok.mp h
  exact ⟨n, printed, rfl⟩

theorem visitTerm_prints {t : Term Value} (h : visitTerm ids num f user t = .ok c) :
    Prints ids num user (WriterOperands.visitTerm t) c := by
  cases t with
  | ret value =>
    cases value with
    | none =>
      cases h
      exact ⟨rfl, rfl, [], [], [], rfl, rfl, nofun⟩
    | some v => exact typedCommand_prints rfl rfl h
  | br dest =>
    obtain ⟨x, printed, h⟩ := bind_eq_ok.mp h
    cases h
    obtain ⟨n, -, rfl⟩ := printBasicBlockID_ok printed
    exact ⟨rfl, rfl, [.number (UInt64.ofNat n)], [], [], rfl, rfl, by simp [valueIds, Field.datum]⟩
  | condBr cond a b =>
    obtain ⟨x, printed, h⟩ := bind_eq_ok.mp h
    obtain ⟨ifTrue, first, h⟩ := bind_eq_ok.mp h
    obtain ⟨ifFalse, second, h⟩ := bind_eq_ok.mp h
    cases h
    obtain ⟨o, rfl⟩ := printOperand_operand printed
    obtain ⟨m, -, rfl⟩ := printBasicBlockID_ok first
    obtain ⟨n, -, rfl⟩ := printBasicBlockID_ok second
    refine ⟨rfl, rfl, [], [.operand o], [.number (UInt64.ofNat m), .number (UInt64.ofNat n)], rfl,
      ?_,
      by simp [valueIds, Field.datum]⟩
    simp only [WriterOperands.visitTerm, prints, printOperandsFrom, printed]
    rfl
  | switch cond d cases => cases h
  | unreachable =>
    cases h
    exact ⟨rfl, rfl, [], [], [], rfl, rfl, nofun⟩

/-! The function as a whole. -/

theorem printConst_ids {k : Const} {x : Field}
    (h : (printConst ids k).map Field.operand = .ok x) : valueIds x.datum = [] := by
  obtain ⟨o, printed, rfl⟩ := map_eq_ok.mp h
  unfold printConst at printed
  split at printed
  · split_ifs at printed
    cases printed
    rfl
  all_goals cases printed
  all_goals rfl

theorem getValueID_eq {v : Value} {n : Nat} (h : FunctionRecord.getValueID num v = .ok n) :
    num.getValueID v = .ok n := by
  unfold FunctionRecord.getValueID at h
  split at h
  · next m same =>
    cases h
    exact same
  · cases h

/-- The ids of those operands that are not constants. -/
def operandIds (num : Numbering) (vs : List Value) : List Nat :=
  vs.filterMap fun v => (num.getValueID v).toOption

theorem printOperand_ids (inv : Invariant f num) (few : num.id < 2 ^ 32) {position : Nat}
    {v : Value} {x : Field} (h : printOperand ids num user position v = .ok x) :
    valueIds x.datum = (num.getValueID v).toOption.toList := by
  have asked : ∀ {w x}, (FunctionRecord.getValueID num w).map
      (fun n => Field.operand (.valueId (UInt32.ofNat n))) = .ok x →
        valueIds x.datum = (num.getValueID w).toOption.toList := by
    intro w x h
    obtain ⟨n, found, rfl⟩ := map_eq_ok.mp h
    have below := FunctionRecord.getValueID_lt inv found
    rw [getValueID_eq found]
    change [(UInt32.ofNat n).toNat] = [n]
    rw [UInt32.toNat_ofNat_of_lt' (below.trans few)]
  unfold printOperand at h
  split at h
  · exact printConst_ids h
  · exact printConst_ids h
  · exact asked h

theorem printOperandsFrom_ids (inv : Invariant f num) (few : num.id < 2 ^ 32) {position : Nat}
    {vs : List Value} {fields : List Field}
    (h : printOperandsFrom ids num user position vs = .ok fields) :
    (fields.map Field.datum).flatMap valueIds = operandIds num vs := by
  induction vs generalizing position fields with
  | nil =>
    cases h
    rfl
  | cons v vs ih =>
    obtain ⟨first, printed, h⟩ := bind_eq_ok.mp h
    obtain ⟨others, tail, h⟩ := bind_eq_ok.mp h
    cases h
    rw [List.map_cons, List.flatMap_cons, printOperand_ids inv few printed, ih tail]
    cases found : num.getValueID v <;> simp [operandIds, found, Except.toOption]

/-- The loader finds the ids of the operands that the writer asks for. -/
theorem Prints.operands (inv : Invariant f num) (few : num.id < 2 ^ 32) {shown : Printed}
    (h : Prints ids num user shown c) :
    c.datum.fields.flatMap valueIds = operandIds num shown.operands := by
  obtain ⟨-, -, front, operands, back, same, printed, none⟩ := h
  have silent : ∀ xs ⊆ front ++ back, (xs.map Field.datum).flatMap valueIds = [] := by
    intro xs sub
    simp only [List.flatMap_eq_nil_iff, List.forall_mem_map]
    exact fun x hx => none x (sub hx)
  rw [← printOperandsFrom_ids inv few printed]
  simp [Command.datum, same, silent front (List.subset_append_left _ _),
    silent back (List.subset_append_right _ _)]

theorem operandIds_lt (inv : Invariant f num) {vs : List Value} :
    ∀ n ∈ operandIds num vs, n < num.id := by
  intro n hn
  obtain ⟨v, -, found⟩ := List.mem_filterMap.mp hn
  cases known : num.getValueID v with
  | error e => simp [known, Except.toOption] at found
  | ok m =>
    have same : m = n := by simpa [known, Except.toOption] using found
    refine same ▸ FunctionRecord.getValueID_lt inv (v := v) ?_
    rw [FunctionRecord.getValueID, known]

theorem printType_lt {t : TypeId} {n : Nat} (h : printType t = .ok n) : n < 32768 := by
  obtain ⟨ty, -, h⟩ := bind_eq_ok.mp h
  split_ifs at h with small
  cases h
  exact small

/-- What the loader finds of an instruction: the id of its result, or 0 if it has none, and the
ids of the operands that are asked for. -/
structure InstShown (strip : Function → Value → Value) (f : Function) (num : Numbering) (i : Inst)
    (r : InstListing Datum) : Prop where
  dest : if i.ty.isVoid then r.dest = 0 else num.getValueID (.inst i.id) = .ok r.dest
  operands : r.command.fields.flatMap valueIds =
    operandIds num (WriterOperands.visitInst strip f i).operands

theorem printInst_ok (inv : Invariant f num) (few : num.id < 2 ^ 32) {i : Inst}
    {r : InstListing Field} (h : printInst ids num strip f i = .ok r) :
    r.Readable ∧ (r.dest = 0 ∨ r.dest < num.id) ∧ InstShown strip f num i r.datum := by
  obtain ⟨type, typed, h⟩ := bind_eq_ok.mp h
  obtain ⟨dest, printed, h⟩ := bind_eq_ok.mp h
  obtain ⟨command, visited, h⟩ := bind_eq_ok.mp h
  cases h
  have shown := visitInst_prints visited
  have result : (dest.getD 0 = 0 ∨ dest.getD 0 < num.id) ∧
      if i.ty.isVoid then dest.getD 0 = 0 else num.getValueID (.inst i.id) = .ok (dest.getD 0) := by
    unfold FunctionRecord.printDest at printed
    split_ifs at printed ⊢
    · cases printed
      exact ⟨Or.inl rfl, rfl⟩
    · obtain ⟨m, found, rfl⟩ := map_eq_ok.mp printed
      exact ⟨Or.inr (FunctionRecord.getValueID_lt inv found), getValueID_eq found⟩
  refine ⟨⟨?_, ?_, shown.shaped⟩, result.1, result.2, shown.operands inv few⟩
  · have := printType_lt typed
    change type < 2 ^ 32
    omega
  · change dest.getD 0 < 2 ^ 32
    omega

/-- The loop prints what the loop that counts has counted. -/
theorem printInsts_eq (is : List Inst) : printInsts ids num strip f is =
    (is.filter fun i => isCounted num (.body i)).mapM (printInst ids num strip f) := by
  fun_induction printInsts ids num strip f is with
  | case1 => rfl
  | case2 i rest size op ih => simpa [isCounted, op] using ih
  | case3 i rest op ih => simpa [isCounted, op] using ih
  | case4 i rest skipped notAlloca notDbg ih =>
    have left : isCounted num (.body i) = false := by
      simp only [isCounted]
      simpa using skipped
    rwa [List.filter_cons, left]
  | case5 i rest kept notAlloca notDbg ih =>
    have counted : isCounted num (.body i) = true := by
      simp only [isCounted]
      simpa using kept
    rw [List.filter_cons, counted, if_pos rfl, List.mapM_cons, ← ih]

theorem visitTerm_targets (few : f.blocks.length < 65536) {t : Term Value}
    (h : visitTerm ids num f user t = .ok c) :
    List.Forall₂ (fun l n => FunctionRecord.blockId f l ≠ 0 ∧ n = FunctionRecord.blockId f l)
      t.successors (targets c.datum) := by
  have target : ∀ {l x}, printBasicBlockID f l = .ok x → ∃ n, blockIds x.datum = [n] ∧
      FunctionRecord.blockId f l ≠ 0 ∧ n = FunctionRecord.blockId f l := by
    intro l x h
    obtain ⟨n, printed, rfl⟩ := printBasicBlockID_ok h
    unfold FunctionRecord.printBasicBlockID at printed
    split_ifs at printed with zero
    cases printed
    obtain ⟨low, high, -⟩ := FunctionRecord.blockId_spec zero
    refine ⟨_, rfl, zero, ?_⟩
    exact UInt64.toNat_ofNat_of_lt' (by change _ < 2 ^ 64; omega)
  cases t with
  | ret value =>
    cases value with
    | none =>
      cases h
      exact .nil
    | some v =>
      obtain ⟨type, -, h⟩ := bind_eq_ok.mp h
      obtain ⟨operands, -, h⟩ := bind_eq_ok.mp h
      cases h
      exact .nil
  | br dest =>
    obtain ⟨x, printed, h⟩ := bind_eq_ok.mp h
    cases h
    obtain ⟨n, ids, known⟩ := target printed
    have shown : targets ⟨.jmp, [x.datum]⟩ = [n] := by simp [targets, ids]
    exact shown ▸ .cons known .nil
  | condBr cond a b =>
    obtain ⟨x, printed, h⟩ := bind_eq_ok.mp h
    obtain ⟨ifTrue, first, h⟩ := bind_eq_ok.mp h
    obtain ⟨ifFalse, second, h⟩ := bind_eq_ok.mp h
    cases h
    obtain ⟨o, rfl⟩ := printOperand_operand printed
    obtain ⟨m, ids, known⟩ := target first
    obtain ⟨n, ids', known'⟩ := target second
    have none : blockIds (Field.operand o).datum = [] := by cases o <;> rfl
    have shown : targets ⟨.branch, [(Field.operand o).datum, ifTrue.datum, ifFalse.datum]⟩ =
        [m, n] := by simp [targets, ids, ids', none]
    exact shown ▸ .cons known (.cons known' .nil)
  | switch cond d cases => cases h
  | unreachable =>
    cases h
    exact .nil

/-- What the loader finds of a block: the emitted instructions in order, and a terminator that leads
to the positions of the successors. -/
structure BlockShown (strip : Function → Value → Value) (f : Function) (num : Numbering) (B : Block)
    (b : BlockListing Datum) : Prop where
  insts : List.Forall₂ (InstShown strip f num) (B.body.filter (emitted num)) b.insts
  operands : b.term.fields.flatMap valueIds =
    operandIds num (WriterOperands.visitTerm B.term).operands
  targets : List.Forall₂ (fun l n => 1 ≤ n ∧ ∃ C, f.blocks[n]? = some C ∧ C.label = l)
    B.term.successors (targets b.term)

structure BlockListed (strip : Function → Value → Value) (f : Function) (num : Numbering) (B : Block)
    (b : BlockListing Field) : Prop where
  readable : b.Readable
  dests : ∀ i ∈ b.insts, i.dest = 0 ∨ i.dest < num.id
  shown : BlockShown strip f num B b.datum

theorem printBasicBlock_ok (inv : Invariant f num) (few : num.id < 2 ^ 32)
    (fewBlocks : f.blocks.length < 65536) {B : Block} {b : BlockListing Field}
    (h : printBasicBlock ids num strip f B = .ok b) : BlockListed strip f num B b := by
  obtain ⟨insts, body, h⟩ := bind_eq_ok.mp h
  obtain ⟨term, last, h⟩ := bind_eq_ok.mp h
  cases h
  rw [printInsts_eq] at body
  have shown := visitTerm_prints last
  have steps := (forall₂_of_mapM body).imp fun i r printed => printInst_ok inv few printed
  have each : ∀ r ∈ insts, r.Readable ∧ (r.dest = 0 ∨ r.dest < num.id) := by
    intro r hr
    obtain ⟨i, -, readable, dest, -⟩ := exists_of_forall₂ steps hr
    exact ⟨readable, dest⟩
  refine ⟨⟨fun r hr => (each r hr).1, shown.shaped⟩, fun r hr => (each r hr).2, ?_,
    shown.operands inv few, ?_⟩
  · exact List.forall₂_map_right_iff.mpr (steps.imp fun i r printed => printed.2.2)
  · refine (visitTerm_targets fewBlocks last).imp ?_
    rintro l n ⟨known, rfl⟩
    obtain ⟨low, -, target⟩ := FunctionRecord.blockId_spec known
    exact ⟨low, target⟩

/-- The instructions that are counted are those on the lines, with the terminators. -/
theorem counted_eq (B : Block) {b : BlockListing Datum} (shown : BlockShown strip f num B b) :
    b.insts.length + 1 =
      ((B.body.map Instruction.body ++ [Instruction.term B.term]).filter (isCounted num)).length := by
  rw [← shown.insts.length_eq, List.filter_append, List.length_append, List.filter_map,
    List.length_map]
  rfl

theorem printEntry_lt {k : Key} {e : Nat × Bool} (h : printEntry ids f k = .ok e) :
    e.1 < 2 ^ 32 := by
  have typed : ∀ {t : TypeId} {flag : Bool}, (printType t).map (fun n => (n, flag)) = .ok e →
      e.1 < 2 ^ 32 := by
    intro t flag h
    obtain ⟨n, printed, rfl⟩ := map_eq_ok.mp h
    have := printType_lt printed
    change n < 2 ^ 32
    omega
  unfold printEntry at h
  split at h
  · exact typed h
  · split at h
    · split_ifs at h
      · split at h <;> cases h
      · exact typed h
    · exact typed h

theorem printCount_ok {n m : Nat} {what : String} (h : FunctionRecord.printCount n what = .ok m) :
    m = n ∧ n < 65536 := by
  unfold FunctionRecord.printCount at h
  split_ifs at h with large
  cases h
  exact ⟨rfl, by omega⟩

/-- What an accepted function lists. -/
structure Accepted (strip : Function → Value → Value) (f : Function) (num : Numbering)
    (l : Listing Field) : Prop where
  readable : l.Readable
  entries : l.entries.length = num.id
  args : l.args < 16
  instructions : l.instructions =
    (f.blocks.map fun B => ((B.body.map Instruction.body ++
      [Instruction.term B.term]).filter (isCounted num)).length).sum
  lines : List.Forall₂ (BlockListed strip f num) f.blocks l.lines

theorem printFunction_ok (numbered : Numbered f num) {l : Listing Field}
    (accepted : printFunction ids num strip f = .ok l) : Accepted strip f num l := by
  have inv := numbered.inv
  obtain ⟨args, digit, accepted⟩ := bind_eq_ok.mp accepted
  obtain ⟨returnType, typed, accepted⟩ := bind_eq_ok.mp accepted
  split_ifs at accepted with many
  rw [buildReverseMap_eq inv] at accepted
  obtain ⟨values, count, accepted⟩ := bind_eq_ok.mp accepted
  obtain ⟨entries, types, accepted⟩ := bind_eq_ok.mp accepted
  obtain ⟨blocks, blockCount, accepted⟩ := bind_eq_ok.mp accepted
  obtain ⟨lines, printedLines, accepted⟩ := bind_eq_ok.mp accepted
  cases accepted
  have argsEq : args = f.args.length ∧ args < 16 := by
    unfold FunctionRecord.printDigit at digit
    split_ifs at digit
    cases digit
    exact ⟨rfl, by omega⟩
  obtain ⟨valuesEq, fewValues⟩ := printCount_ok count
  obtain ⟨blocksEq, fewBlocks⟩ := printCount_ok blockCount
  have size : entries.length = num.id := by
    rw [← (forall₂_of_mapM types).length_eq, inv.size]
  have enough : f.args.length ≤ num.id := by
    have prefixed := numbered.args.length_le
    rwa [List.length_map, List.length_range, inv.size] at prefixed
  have few : num.id < 2 ^ 32 := by
    have := inv.size
    omega
  have steps :=
    (forall₂_of_mapM printedLines).imp fun B b h => printBasicBlock_ok inv few fewBlocks h
  have fewInstructions := List.length_filter_le (isCounted num) (instructions f)
  refine ⟨⟨?_, ?_, ?_, ?_, ?_, ?_, ?_, ?_, ?_⟩, size, argsEq.2, ?_, steps⟩
  · change args < 2 ^ 32
    omega
  · have := printType_lt typed
    change returnType < 2 ^ 32
    omega
  · change entries.length = values + args
    have := inv.size
    omega
  · change values < 2 ^ 32
    omega
  · intro e he
    obtain ⟨k, -, printed⟩ := mem_of_mapM types he
    exact printEntry_lt printed
  · change (List.filter _ _).length < 2 ^ 32
    omega
  · rw [← steps.length_eq, blocksEq]
  · change blocks < 2 ^ 32
    omega
  · intro b hb
    obtain ⟨B, -, listed⟩ := exists_of_forall₂ steps hb
    exact listed.readable
  · simp only [instructions, List.filter_flatMap, List.length_flatMap]

namespace Accepted
variable {l : Listing Field} (accepted : Accepted strip f num l)
include accepted

theorem shown : List.Forall₂ (BlockShown strip f num) f.blocks l.datum.lines :=
  List.forall₂_map_right_iff.mpr (accepted.lines.imp fun _ _ listed => listed.shown)

theorem sound (inv : Invariant f num) : l.datum.Sound := by
  have shown := accepted.shown
  refine ⟨accepted.readable.values, ?_, ?_, ?_, ?_, ?_⟩
  · exact (List.length_map _).trans accepted.readable.blocks
  · refine accepted.instructions.trans (congrArg List.sum (map_eq_of_forall₂ shown ?_).symm)
    exact fun B _ b shown => counted_eq B shown
  · intro b hb i hi
    obtain ⟨line, member, rfl⟩ := List.mem_map.mp hb
    obtain ⟨j, hj, rfl⟩ := List.mem_map.mp hi
    obtain ⟨B, -, listed⟩ := exists_of_forall₂ accepted.lines member
    exact accepted.entries ▸ listed.dests j hj
  · intro b hb c hc n hn
    obtain ⟨B, -, shown⟩ := exists_of_forall₂ shown hb
    have below : n < num.id := by
      rcases List.mem_append.mp hc with hc | hc
      · obtain ⟨r, hr, rfl⟩ := List.mem_map.mp hc
        obtain ⟨i, -, inst⟩ := exists_of_forall₂ shown.insts hr
        rw [inst.operands] at hn
        exact operandIds_lt inv n hn
      · rw [List.mem_singleton.mp hc, shown.operands] at hn
        exact operandIds_lt inv n hn
    exact accepted.entries ▸ below
  · intro b hb t ht
    obtain ⟨B, -, shown⟩ := exists_of_forall₂ shown hb
    obtain ⟨l', -, low, C, found, -⟩ := exists_of_forall₂ shown.targets ht
    have short := (List.getElem?_eq_some_iff.mp found).1
    rw [accepted.lines.length_eq, accepted.readable.blocks] at short
    exact ⟨low, short⟩

end Accepted

theorem numbered_of_run {f g : Function} (wf : f.WellFormed)
    (numbered : runOnFunction f = .ok (g, num)) : Numbered g num := by
  unfold runOnFunction at numbered
  split at numbered
  · next ran =>
    cases numbered
    exact number_numbered (eliminatePhis_phi_free wf).1 ran
  · cases numbered

end

/-- The integer types are numbered by their widths. -/
def twoReturnsIds : Ids where
  returned := (.int 32, 32)
  valueType := fun k => match k with
    | .arg _ => (.int 32, 32)
    | .inst _ => (.int 1, 1)
  allocated := fun _ => (.int 32, 32)
  front := fun _ => (.int 1, 1)
  behind := fun _ => (.int 32, 32)
  undef := fun _ _ => .int 32
  globalID := fun _ => 0
  externalID := fun _ => 0
  functionID := fun _ => 0
  minflvl := 0

end FunctionText
