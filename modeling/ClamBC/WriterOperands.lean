import ClamBC.SharedRegisters

/-!
# The ids that the writer asks for

The writer prints the body of each block and then its terminator. For an operand that
is not a constant, and for the result of a printed instruction, it asks the register
allocator for the value id; the register allocator itself asks for the id of the
operand of a lossless bit cast. An id that is not there is an assertion failure.

What an instruction prints is followed up to the point where the writer gives up on it.
Checks on types, constants and calling conventions that make it give up earlier are left
out: the writer would then ask for less.
-/

namespace WriterOperands

open Ir IrExec PhiElimination SsaForm ValueNumbering SharedRegisters

/-- What is printed for an instruction, and whether the writer goes on after it. -/
structure Printed where
  operands : List Value
  goesOn : Bool

def prints (operands : List Value) : Printed := ⟨operands, true⟩

def stops : Printed := ⟨[], false⟩

section
variable (strip : Function → Value → Value) (f : Function)

def isGlobalOrExpr : Value → Bool
  | .const (.global _) => true
  | .const (.castExpr _ _) => true
  | .const (.getElementPtrExpr _ _) => true
  | .const (.otherExpr _) => true
  | _ => false

def isGlobalVariable : Value → Bool
  | .const (.global _) => true
  | _ => false

def isAlloca (v : Value) : Bool := (allocaSize f v).isSome

def isGepOrBitCast (v : Value) : Bool :=
  match v with
  | .inst i =>
    match (instruction f i).map Inst.op with
    | some (.getElementPtr _ _) => true
    | some (.cast .bitCast _ _) => true
    | _ => false
  | _ => false

def visitGetElementPtrInst (base : Value) : List Value → Printed
  | [index] => if isGlobalOrExpr base then stops else prints [base, index]
  | [.const (.int _ 0), index] => if isGlobalOrExpr base then stops else prints [base, index]
  | _ => stops

def visitLoadInst (i : Inst) (ptr : Value) : Printed :=
  if isAlloca f ptr || isGlobalVariable ptr then prints [ptr, .inst i.id] else prints [ptr]

/-- Copies and stores print the same operands; only the pointer may have been stripped. -/
def visitStoreInst (value ptr : Value) : Printed :=
  if isGepOrBitCast f ptr then prints [value, ptr] else prints [value, strip f ptr]

def visitCastInst (op : CastOp) (src ty : Ty) (value : Value) : Printed :=
  if isLosslessCast op src ty then prints [value]
  else
    match op, ty with
    | .ptrToInt, .int 64 => prints [value]
    | .trunc, _ | .sext, _ | .zext, _ => prints [value]
    | _, _ => stops

/-- The operand of a `ptrtoint` instruction. -/
def ptrToIntOperand (v : Value) : Option Value :=
  match v with
  | .inst i =>
    match (instruction f i).map Inst.op with
    | some (.cast .ptrToInt _ w) => some w
    | _ => none
  | _ => none

def visitBinaryOperator (op : BinOp) (ty : Ty) (lhs rhs : Value) : Printed :=
  match op, ty, ptrToIntOperand f lhs, ptrToIntOperand f rhs with
  | .sub, .int 32, some l, some r => prints [l, r]
  | _, _, _, _ => prints [lhs, rhs]

def visitIntrinsic (ty : Ty) (args : List Value) : Intrinsic → Printed
  | .memset | .memcpy | .memmove => prints (args.take 3)
  | .bswap =>
    match ty with
    | .int 16 | .int 32 | .int 64 => prints (args.take 1)
    | _ => stops
  | .other => stops

def visitCallInst (ty : Ty) (args : List Value) : Callee → Printed
  | .isBigEndian => prints []
  | .abort => prints []
  | .memcmp => prints (args.take 3)
  | .intrinsic i => visitIntrinsic ty args i
  | .api _ => prints args
  | .direct _ => prints args
  | .indirect => stops

def visitInst (i : Inst) : Printed :=
  match i.op with
  | .load _ ptr => visitLoadInst f i ptr
  | .store value ptr => visitStoreInst strip f value ptr
  | .getElementPtr base indices => visitGetElementPtrInst base indices
  | .icmp _ lhs rhs => prints [lhs, rhs]
  | .binary op lhs rhs => visitBinaryOperator f op i.ty lhs rhs
  | .select cond ifTrue ifFalse => prints [cond, ifTrue, ifFalse]
  | .cast op src value => visitCastInst op src i.ty value
  | .call _ callee args => visitCallInst i.ty args callee
  | .alloca _ | .dbg | .other _ _ => stops

def visitTerm : Term Value → Printed
  | .ret none => prints []
  | .ret (some v) => prints [v]
  | .br _ => prints []
  | .condBr cond _ _ => prints [cond]
  | .switch _ _ _ => stops
  | .unreachable => prints []

/-- The values whose id is asked for while the rest of a block is printed. -/
def printBody (num : Numbering) (t : Term Value) : List Inst → Printed
  | [] => visitTerm t
  | i :: rest =>
    if emitted num i then
      let result := if i.ty.isVoid then [] else [Value.inst i.id]
      let shown := visitInst strip f i
      if shown.goesOn then
        let tail := printBody num t rest
        ⟨result ++ shown.operands ++ tail.operands, tail.goesOn⟩
      else ⟨result ++ shown.operands, false⟩
    else printBody num t rest

def printBlocks (num : Numbering) : List Block → List Value
  | [] => []
  | B :: rest =>
    let shown := printBody strip f num B.term B.body
    if shown.goesOn then shown.operands ++ printBlocks num rest else shown.operands

/-- `printOperand` asks for an id unless the operand is a constant. -/
def requests (num : Numbering) : List Value :=
  (printBlocks strip f num f.blocks).filter fun v => (key v).isSome

end

/-- The register allocator and the writer find every id that they ask for. -/
def AllKnown (strip : Function → Value → Value) (f : Function) : Prop :=
  match runOnFunction f with
  | .error (.stop _) => True
  | .error _ => False
  | .ok (g, num) => ∀ v ∈ requests strip g num, ∃ n, num.getValueID v = .ok n

/-! The writer only asks for values that are used somewhere, or for results that it prints. -/

section Writer
variable {strip : Function → Value → Value} {f : Function}

/-- Stripping casts off a pointer leads to the pointer itself, to a constant or to an operand
of one of the instructions on the way. -/
def StripsToOperand (strip : Function → Value → Value) : Prop :=
  ∀ f v, strip f v = v ∨ key (strip f v) = none ∨ ∃ B ∈ f.blocks, strip f v ∈ B.uses

def UsedIn (f : Function) (v : Value) : Prop := ∃ B ∈ f.blocks, v ∈ B.uses

theorem instruction_mem {i : Nat} {j : Inst} (h : instruction f i = some j) :
    ∃ B ∈ f.blocks, j ∈ B.body ∧ j.id = i := by
  obtain ⟨B, hB, hj⟩ := List.mem_flatMap.mp (List.mem_of_find?_eq_some h)
  exact ⟨B, hB, hj, by simpa using List.find?_some h⟩

theorem ptrToIntOperand_used {v w : Value} (h : ptrToIntOperand f v = some w) : UsedIn f w := by
  unfold ptrToIntOperand at h
  split at h
  · next i =>
    cases found : instruction f i with
    | none => simp [found] at h
    | some j =>
      obtain ⟨B, hB, hj, -⟩ := instruction_mem found
      rw [found, Option.map_some] at h
      split at h
      · next src u op =>
        cases h
        refine ⟨B, hB, inst_use hj ?_⟩
        rw [Option.some.inj op]
        simp [Op.operands]
      · cases h
  · cases h

theorem visitGetElementPtrInst_operands (base : Value) (indices : List Value) :
    (visitGetElementPtrInst base indices).operands ⊆ base :: indices := by
  intro v hv
  unfold visitGetElementPtrInst at hv
  split at hv
  · split_ifs at hv
    · simp [stops] at hv
    · exact hv
  · split_ifs at hv
    · simp [stops] at hv
    · simp only [prints, List.mem_cons, List.not_mem_nil, or_false] at hv
      rcases hv with rfl | rfl <;> simp
  · simp [stops] at hv

theorem visitCastInst_operands (op : CastOp) (src ty : Ty) (value : Value) :
    (visitCastInst op src ty value).operands ⊆ [value] := by
  intro v hv
  unfold visitCastInst at hv
  split_ifs at hv
  · exact hv
  · split at hv <;> first | exact hv | simp [stops] at hv

theorem visitCallInst_operands (ty : Ty) (args : List Value) (callee : Callee) :
    (visitCallInst ty args callee).operands ⊆ args := by
  intro v hv
  cases callee with
  | isBigEndian => simp [visitCallInst, prints] at hv
  | abort => simp [visitCallInst, prints] at hv
  | memcmp => exact List.mem_of_mem_take hv
  | intrinsic i =>
    cases i with
    | bswap =>
      simp only [visitCallInst, visitIntrinsic] at hv
      split at hv <;> first | exact List.mem_of_mem_take hv | simp [stops] at hv
    | other => simp [visitCallInst, visitIntrinsic, stops] at hv
    | _ => exact List.mem_of_mem_take hv
  | api id => exact hv
  | direct id => exact hv
  | indirect => simp [visitCallInst, stops] at hv

/-- Every printed operand is used in the function, is the result itself, or is a constant. -/
theorem visitInst_operands (sound : StripsToOperand strip) {B : Block} (hB : B ∈ f.blocks)
    {i : Inst} (hi : i ∈ B.body) : ∀ v ∈ (visitInst strip f i).operands,
      UsedIn f v ∨ (v = .inst i.id ∧ ∃ vol ptr, i.op = .load vol ptr) ∨ key v = none := by
  have used : ∀ v ∈ i.op.operands, UsedIn f v := fun v hv => ⟨B, hB, inst_use hi hv⟩
  intro v hv
  unfold visitInst at hv
  cases op : i.op <;> rw [op] at hv used <;> dsimp only at hv
  case load vol ptr =>
    unfold visitLoadInst at hv
    split_ifs at hv <;> simp only [prints, List.mem_cons, List.not_mem_nil, or_false] at hv
    · rcases hv with rfl | rfl
      · exact Or.inl (used _ (by simp [Op.operands]))
      · exact Or.inr (Or.inl ⟨rfl, vol, ptr, rfl⟩)
    · exact Or.inl (used v (by simp [Op.operands, hv]))
  case store value ptr =>
    unfold visitStoreInst at hv
    split_ifs at hv <;> simp only [prints, List.mem_cons, List.not_mem_nil, or_false] at hv
    · exact Or.inl (used v (by simpa [Op.operands] using hv))
    · rcases hv with rfl | stripped
      · exact Or.inl (used _ (by simp [Op.operands]))
      · rcases sound f ptr with same | const | operand
        · exact Or.inl (used v (by simp [Op.operands, stripped, same]))
        · exact Or.inr (Or.inr (stripped ▸ const))
        · exact Or.inl (stripped ▸ operand)
  case getElementPtr base indices =>
    exact Or.inl (used v (visitGetElementPtrInst_operands base indices hv))
  case icmp pred lhs rhs => exact Or.inl (used v hv)
  case binary bin lhs rhs =>
    unfold visitBinaryOperator at hv
    split at hv
    · next l r hl hr =>
      simp only [prints, List.mem_cons, List.not_mem_nil, or_false] at hv
      rcases hv with rfl | rfl
      · exact Or.inl (ptrToIntOperand_used hl)
      · exact Or.inl (ptrToIntOperand_used hr)
    · exact Or.inl (used v hv)
  case select cond t e => exact Or.inl (used v hv)
  case cast castOp src value =>
    exact Or.inl (used v (visitCastInst_operands castOp src i.ty value hv))
  case call se callee args => exact Or.inl (used v (visitCallInst_operands i.ty args callee hv))
  all_goals simp [stops] at hv

theorem visitTerm_operands (t : Term Value) : (visitTerm t).operands ⊆ t.operands := by
  intro v hv
  cases t with
  | ret value =>
    cases value with
    | none => simp [visitTerm, prints] at hv
    | some w => exact hv
  | condBr cond a b => exact hv
  | switch cond d cases => simp [visitTerm, stops] at hv
  | _ => simp [visitTerm, prints] at hv

/-- A value that is asked for: one that is used, or the result of a printed instruction. -/
def Wanted (f : Function) (num : Numbering) (v : Value) : Prop :=
  UsedIn f v ∨
    (∃ B ∈ f.blocks, ∃ i ∈ B.body, emitted num i ∧ i.ty.isVoid = false ∧ v = .inst i.id) ∨
    key v = none

variable {num : Numbering}

theorem printBody_wanted (sound : StripsToOperand strip) (wf : f.WellFormed) {B : Block}
    (hB : B ∈ f.blocks) {is : List Inst} (members : ∀ i ∈ is, i ∈ B.body) :
    ∀ v ∈ (printBody strip f num B.term is).operands, Wanted f num v := by
  induction is with
  | nil => exact fun v hv => Or.inl ⟨B, hB, term_use (visitTerm_operands B.term hv)⟩
  | cons i is ih =>
    have rest := ih fun j hj => members j (List.mem_cons_of_mem i hj)
    have hi := members i List.mem_cons_self
    intro v hv
    unfold printBody at hv
    by_cases printed : emitted num i
    · rw [if_pos printed] at hv
      dsimp only at hv
      have first :
          v ∈ (if i.ty.isVoid then [] else [Value.inst i.id]) ++ (visitInst strip f i).operands →
          Wanted f num v := by
        intro h
        rcases List.mem_append.mp h with h | h
        · by_cases void : i.ty.isVoid
          · simp [void] at h
          · simp only [void, Bool.false_eq_true, if_false, List.mem_singleton] at h
            exact Or.inr (Or.inl ⟨B, hB, i, hi, printed, Bool.eq_false_iff.mpr void, h⟩)
        · rcases visitInst_operands sound hB hi v h with used | ⟨self, vol, ptr, op⟩ | const
          · exact Or.inl used
          · exact Or.inr (Or.inl ⟨B, hB, i, hi, printed, wf.loadTypes B hB i hi vol ptr op, self⟩)
          · exact Or.inr (Or.inr const)
      by_cases goesOn : (visitInst strip f i).goesOn
      · rw [if_pos goesOn] at hv
        rcases List.mem_append.mp hv with h | h
        · exact first h
        · exact rest v h
      · rw [if_neg goesOn] at hv
        exact first hv
    · rw [if_neg printed] at hv
      exact rest v hv

theorem printBlocks_wanted (sound : StripsToOperand strip)
    (wf : f.WellFormed) {Bs : List Block} (members : ∀ B ∈ Bs, B ∈ f.blocks) :
    ∀ v ∈ printBlocks strip f num Bs, Wanted f num v := by
  induction Bs with
  | nil => exact nofun
  | cons B Bs ih =>
    have body : ∀ v ∈ (printBody strip f num B.term B.body).operands, Wanted f num v :=
      printBody_wanted sound wf (members B List.mem_cons_self) (fun _ h => h)
    have rest := ih fun C hC => members C (List.mem_cons_of_mem B hC)
    intro v hv
    unfold printBlocks at hv
    dsimp only at hv
    split_ifs at hv
    · rcases List.mem_append.mp hv with h | h
      · exact body v h
      · exact rest v h
    · exact body v hv

theorem useCount_pos {d : Nat} (h : UsedIn f (.inst d)) : useCount f d ≠ 0 := by
  obtain ⟨B, hB, use⟩ := h
  refine Nat.pos_iff_ne_zero.mp (List.countP_pos_iff.mpr ⟨.inst d, ?_, by simp [key]⟩)
  exact List.mem_flatMap.mpr ⟨B, hB, use⟩

/-- An instruction that is used has a value and is not dead. -/
theorem used_live (wf : f.WellFormed) (phiFree : ∀ B ∈ f.blocks, B.phis = []) {d : Nat}
    (h : UsedIn f (.inst d)) : ∃ A ∈ f.blocks, ∃ j ∈ A.body, j.id = d ∧ j.ty.isVoid = false ∧
      isDead f j = false := by
  have count := useCount_pos h
  obtain ⟨B, hB, use⟩ := h
  obtain ⟨A, hA, ty, member, value⟩ := wf.uses B hB d use
  simp only [Block.defs, phiFree A hA, List.map_nil, List.nil_append, List.mem_map,
    Prod.mk.injEq] at member
  obtain ⟨j, hj, rfl, rfl⟩ := member
  exact ⟨A, hA, j, hj, rfl, value, by simp [isDead, count]⟩

theorem Done.id {i : Inst} (done : Done f num i) (value : i.ty.isVoid = false)
    (live : isDead f i = false) : ∃ n, num.find (.inst i.id) = some (some n) := by
  obtain ⟨x, found, why⟩ := done
  cases x with
  | none =>
    rcases why rfl with void | ⟨dead, -⟩
    · rw [value] at void
      cases void
    · rw [live] at dead
      cases dead
  | some n => exact ⟨n, found⟩

theorem getValueID_of_find {v : Value} {k : Key} {n : Nat} (operand : key v = some k)
    (found : num.find k = some (some n)) : num.getValueID v = .ok n := by
  simp only [Numbering.getValueID, operand, Option.bind_some, found]

/-- Whatever the writer asks for has an id. -/
theorem requests_known (sound : StripsToOperand strip) (wf : f.WellFormed)
    (phiFree : ∀ B ∈ f.blocks, B.phis = []) (numbered : Numbered f num) :
    ∀ v ∈ requests strip f num, ∃ n, num.getValueID v = .ok n := by
  intro v hv
  obtain ⟨printed, asked⟩ := List.mem_filter.mp hv
  have ids := Numbered.sound (f := f) numbered rfl
  rcases printBlocks_wanted sound wf (fun _ h => h) v printed with used
    | ⟨B, hB, i, hi, shown, value, rfl⟩ |
    const
  · cases v with
    | inst d =>
      obtain ⟨A, hA, j, hj, rfl, value, live⟩ := used_live wf phiFree used
      obtain ⟨n, found⟩ := Done.id (numbered.done A hA j hj) value live
      exact ⟨n, getValueID_of_find rfl found⟩
    | arg i =>
      obtain ⟨B, hB, use⟩ := used
      exact ⟨i, getValueID_of_find rfl (ids.args i (wf.argUses B hB i use)).2⟩
    | const c => simp [key] at asked
  · obtain ⟨n, found, -⟩ := ids.emitted B hB i hi shown value
    exact ⟨n, getValueID_of_find rfl found⟩
  · rw [const] at asked
    cases asked

end Writer

/-! What the register allocator asks for. -/

section Loop
variable {f : Function} {s : Numbering}

def Live (f : Function) (i : Inst) : Prop := i.ty.isVoid = false ∧ isDead f i = false

/-- An `alloca` of one element, whose bit casts get an id of their own. -/
def isFixedAlloca (f : Function) (v : Value) : Bool :=
  (allocaSize f v).any fun size => !isArrayAllocation size

/-- The instruction is a bit cast that takes over the id of its operand. -/
def Asks (f : Function) (i : Inst) (v : Value) : Prop :=
  Live f i ∧ ∃ src, i.op = .cast .bitCast src v ∧ isLosslessCast .bitCast src i.ty = true ∧
    isFixedAlloca f v = false

/-- The instruction is a cast that is not supported, where the pass stops. -/
def Stops (f : Function) (i : Inst) : Prop :=
  Live f i ∧ ∃ op src v, i.op = .cast op src v ∧
    ((op = .bitCast ∧ isLosslessCast op src i.ty = false) ∨ op = .ptrToInt ∨ op = .intToPtr)

def layout (f : Function) : List Nat := f.blocks.flatMap Block.ids

/-- The first instruction stands before the second in the layout of the function. -/
def Earlier (f : Function) (d i : Nat) : Prop :=
  ∃ before after, layout f = before ++ i :: after ∧ d ∈ before

def OperandReady (f : Function) (i : Inst) (v : Value) : Prop :=
  (∃ n, v = .arg n) ∨ ∃ d, v = .inst d ∧ Earlier f d i.id

theorem earlier_iff (wf : f.WellFormed) {before after : List Nat} {d i : Nat}
    (split : layout f = before ++ i :: after) : Earlier f d i ↔ d ∈ before := by
  constructor
  · rintro ⟨before', after', split', member⟩
    have nodup : (layout f).Nodup := wf.ids
    have same : before' = before := by
      rw [split] at nodup split'
      have short : before.length < (before ++ i :: after).length := by simp
      have eq : before.length = before'.length := by
        refine (List.getElem?_inj short nodup).mp ?_
        rw [List.getElem?_append_right (Nat.le_refl _), split',
          List.getElem?_append_right (Nat.le_refl _)]
        simp
      exact (List.append_inj split' eq).1.symm
    exact same ▸ member
  · exact fun member => ⟨before, after, split, member⟩

theorem isPointerTy_of_lossless {src ty : Ty} (lossless : isLosslessCast .bitCast src ty = true) :
    (isPointerTy src && !isPointerTy ty) = false := by
  cases src <;> cases ty <;> first | rfl | simp [isLosslessCast] at lossless

theorem numberInst_stops {i : Inst} (new : s.find (.inst i.id) = none) (stop : Stops f i) :
    ∃ m, numberInst f s i = .error (.stop m) := by
  obtain ⟨⟨value, live⟩, op, src, v, cast, why⟩ := stop
  rw [isDead, cast] at live
  simp only [numberInst, new, Option.isSome_none, value, live, Bool.false_eq_true, if_false, cast]
  rcases why with ⟨rfl, lossy⟩ | rfl | rfl
  · exact ⟨_, by simp only [numberBitCast, lossy]; rfl⟩
  · exact ⟨_, rfl⟩
  · exact ⟨_, rfl⟩

theorem numberInst_asks {i : Inst} {v : Value} (new : s.find (.inst i.id) = none)
    (asks : Asks f i v) :
    numberInst f s i = match s.getValueID v with
      | .ok n => .ok ((s.skip i.id).set (.inst i.id) (some n))
      | .error e => .error e := by
  obtain ⟨⟨value, live⟩, src, cast, lossless, notAlloca⟩ := asks
  rw [isDead, cast] at live
  rw [isFixedAlloca] at notAlloca
  have bitCast : numberInst f s i = numberBitCast f s i src v := by
    simp only [numberInst, new, Option.isSome_none, value, live, Bool.false_eq_true, if_false, cast]
  rw [bitCast, numberBitCast]
  have pointers := isPointerTy_of_lossless lossless
  exact (if_neg (by simp [lossless])).trans
    ((if_neg (by simp [pointers])).trans (if_neg (by simp [notAlloca])))

/-- Every other instruction is numbered without a question. -/
theorem numberInst_other (inv : Invariant f s) {i : Inst}
    (stores : ∀ v a, i.op = .store v a → i.ty.isVoid = true) (noStop : ¬ Stops f i)
    (noAsk : ∀ v, ¬ Asks f i v) : ∃ s', numberInst f s i = .ok s' := by
  unfold numberInst
  split_ifs with seen void dead
  · exact ⟨_, rfl⟩
  · exact ⟨_, rfl⟩
  · exact ⟨_, rfl⟩
  have live : Live f i := ⟨Bool.eq_false_iff.mpr void, Bool.eq_false_iff.mpr dead⟩
  split
  · next src v cast =>
    have lossless : isLosslessCast .bitCast src i.ty = true := by
      by_contra lossy
      exact noStop ⟨live, _, src, v, cast, Or.inl ⟨rfl, Bool.eq_false_iff.mpr lossy⟩⟩
    have alloca : isFixedAlloca f v = true := by
      by_contra other
      exact noAsk v ⟨live, src, cast, lossless, Bool.eq_false_iff.mpr other⟩
    rw [isFixedAlloca] at alloca
    simp only [numberBitCast, lossless, Bool.not_true, Bool.false_eq_true, if_false,
      isPointerTy_of_lossless lossless, alloca, if_true]
    exact ⟨_, rfl⟩
  · next src v cast => exact absurd ⟨live, _, src, v, cast, Or.inr (Or.inl rfl)⟩ noStop
  · next src v cast => exact absurd ⟨live, _, src, v, cast, Or.inr (Or.inr rfl)⟩ noStop
  · rw [numberPlain_eq inv (fun v a op => void (stores v a op))]
    exact ⟨_, rfl⟩

def Passes (f : Function) (i : Inst) : Prop := ¬ Stops f i ∧ ∀ v, Asks f i v → OperandReady f i v

/-- The state of the loop when the instructions `before` have been numbered. -/
structure Reached (f : Function) (s : Numbering) (before : List Nat) : Prop where
  inv : Invariant f s
  seen : ∀ j, (s.find (.inst j)).isSome ↔ j ∈ before
  args : ∀ i, i < f.args.length → ∃ n, s.find (.arg i) = some (some n)
  done : ∀ B ∈ f.blocks, ∀ i ∈ B.body, i.id ∈ before → Done f s i
  passed : ∀ B ∈ f.blocks, ∀ i ∈ B.body, i.id ∈ before → Passes f i

/-- At its turn, the operand of a bit cast has an id exactly when it stands earlier. -/
theorem Reached.ready_iff (wf : f.WellFormed) (phiFree : ∀ B ∈ f.blocks, B.phis = [])
    {before after : List Nat} (reached : Reached f s before) {B : Block} (hB : B ∈ f.blocks)
    {i : Inst} (hi : i ∈ B.body) (split : layout f = before ++ i.id :: after) {v : Value}
    (asks : Asks f i v) :
    (∃ n, s.getValueID v = .ok n) ↔ OperandReady f i v := by
  obtain ⟨-, src, cast, -⟩ := asks
  have use : v ∈ B.uses := inst_use hi (by simp [cast, Op.operands])
  cases v with
  | const c => simp [Numbering.getValueID, key, OperandReady]
  | arg n =>
    obtain ⟨m, found⟩ := reached.args n (wf.argUses B hB n use)
    exact iff_of_true ⟨m, getValueID_of_find rfl found⟩ (Or.inl ⟨n, rfl⟩)
  | inst d =>
    constructor
    · rintro ⟨n, found⟩
      refine Or.inr ⟨d, rfl, (earlier_iff wf split).mpr ((reached.seen d).mp ?_)⟩
      cases h : s.find (.inst d) with
      | none => simp [Numbering.getValueID, key, h] at found
      | some x => rfl
    · rintro (⟨n, h⟩ | ⟨e, h, earlier⟩)
      · cases h
      · cases h
        obtain ⟨A, hA, j, hj, rfl, value, live⟩ := used_live wf phiFree ⟨B, hB, use⟩
        have done := reached.done A hA j hj ((earlier_iff wf split).mp earlier)
        obtain ⟨n, found⟩ := Done.id done value live
        exact ⟨n, getValueID_of_find rfl found⟩

theorem getValueID_fault {v : Value} {e : Halt} (h : s.getValueID v = .error e) :
    ∀ m, e ≠ .stop m := by
  unfold Numbering.getValueID at h
  split at h
  · cases h; exact nofun
  · cases h; exact nofun
  · cases h

/-- How the loop ends: all instructions are numbered, or the first one that does not pass
stops it, or its question for an operand fails. -/
inductive Ends (f : Function) : Except Halt Numbering → Prop
  | finished {s : Numbering} (reached : Reached f s (layout f)) : Ends f (.ok s)
  | stopped {s : Numbering} {before after : List Nat} (reached : Reached f s before) {B : Block}
      (hB : B ∈ f.blocks) {i : Inst} (hi : i ∈ B.body) (split : layout f = before ++ i.id :: after)
      (stop : Stops f i) (m : String) : Ends f (.error (.stop m))
  | failed {s : Numbering} {before after : List Nat} (reached : Reached f s before) {B : Block}
      (hB : B ∈ f.blocks) {i : Inst} (hi : i ∈ B.body) (split : layout f = before ++ i.id :: after)
      {v : Value} (asks : Asks f i v) (missing : ¬ OperandReady f i v) {e : Halt}
      (fault : ∀ m, e ≠ .stop m) : Ends f (.error e)

/-- Recording one more instruction, by a round or as a terminator. -/
theorem Reached.extend {before : List Nat} (reached : Reached f s before) {s' : Numbering} {i : Nat}
    (inv : Invariant f s') (grows : Grows s s')
    (find : ∀ r, ∃ x, s'.find r = if r = .inst i then some x else s.find r)
    (own : ∀ B ∈ f.blocks, ∀ j ∈ B.body, j.id = i → Done f s' j ∧ Passes f j) :
    Reached f s' (before ++ [i]) := by
  refine ⟨inv, ?_, ?_, ?_, ?_⟩
  · intro j
    obtain ⟨x, found⟩ := find (.inst j)
    rw [found, List.mem_append, List.mem_singleton]
    by_cases same : j = i
    · simp [same]
    · rw [if_neg (fun h => same (Key.inst.inj h)), reached.seen j]
      simp [same]
  · intro k hk
    obtain ⟨n, found⟩ := reached.args k hk
    exact ⟨n, grows.find _ _ found⟩
  · intro C hC j hj member
    rcases List.mem_append.mp member with old | same
    · exact (reached.done C hC j hj old).grows grows
    · exact (own C hC j hj (List.mem_singleton.mp same)).1
  · intro C hC j hj member
    rcases List.mem_append.mp member with old | same
    · exact reached.passed C hC j hj old
    · exact (own C hC j hj (List.mem_singleton.mp same)).2

theorem layout_eq (phiFree : ∀ B ∈ f.blocks, B.phis = []) : layout f = layoutIds f.blocks := by
  unfold layout layoutIds
  refine List.flatMap_congr fun B hB => ?_
  simp [Block.ids, phiFree B hB]

section
variable (wf : f.WellFormed)
include wf

theorem Reached.unseen {before after : List Nat} (reached : Reached f s before) {i : Nat}
    (split : layout f = before ++ i :: after) : s.find (.inst i) = none := by
  have nodup : (layout f).Nodup := wf.ids
  rw [split] at nodup
  cases found : s.find (.inst i) with
  | none => rfl
  | some x =>
    have member := (reached.seen i).mp (by rw [found]; rfl)
    exact absurd rfl ((List.nodup_append.mp nodup).2.2 i member i List.mem_cons_self)

/-- The terminator is recorded without a question. -/
theorem Reached.term {before after : List Nat} (reached : Reached f s before) {B : Block}
    (hB : B ∈ f.blocks) (split : layout f = before ++ B.termId :: after) :
    Reached f (numberTerm s B.termId) (before ++ [B.termId]) := by
  have new := reached.unseen wf split
  have marked : numberTerm s B.termId = s.set (.inst B.termId) none := by
    rw [numberTerm, new, Option.isSome_none, if_neg Bool.false_ne_true]
  obtain ⟨inv, grows, -⟩ := numberTerm_done (List.nodup_singleton B.termId) reached.inv
    (fun j hj => (List.mem_singleton.mp hj) ▸ new)
  refine reached.extend inv grows ?_ ?_
  · exact fun r => ⟨none, by rw [marked]; exact Numbering.find_set _ _ _ _⟩
  · exact fun C hC j hj same => absurd same (wf.inst_id_ne_term_id hC hB hj)

variable (phiFree : ∀ B ∈ f.blocks, B.phis = [])
include phiFree

/-- One round at its place in the layout. -/
theorem Reached.step {before after : List Nat} (reached : Reached f s before) {B : Block}
    (hB : B ∈ f.blocks) {i : Inst} (hi : i ∈ B.body) (split : layout f = before ++ i.id :: after) :
    (∃ s', numberInst f s i = .ok s' ∧ Reached f s' (before ++ [i.id])) ∨
      ∃ e, numberInst f s i = .error e ∧ Ends f (.error e) := by
  have new := reached.unseen wf split
  have stores := wf.storeTypes B hB i hi
  by_cases stop : Stops f i
  · obtain ⟨m, stopped⟩ := numberInst_stops new stop
    exact Or.inr ⟨_, stopped, .stopped reached hB hi split stop m⟩
  by_cases pass : ∀ v, Asks f i v → OperandReady f i v
  · left
    obtain ⟨s', ok⟩ : ∃ s', numberInst f s i = .ok s' := by
      by_cases asks : ∃ v, Asks f i v
      · obtain ⟨v, asks⟩ := asks
        obtain ⟨n, id⟩ := (reached.ready_iff wf phiFree hB hi split asks).mpr (pass v asks)
        exact ⟨_, by rw [numberInst_asks new asks, id]⟩
      · exact numberInst_other reached.inv stores stop (fun v h => asks ⟨v, h⟩)
    have round := numberInst_round reached.inv stores new ok
    refine ⟨s', ok, reached.extend (round.invariant reached.inv hB hi new) (round.grows new)
      round.find ?_⟩
    intro C hC j hj same
    obtain ⟨rfl, rfl⟩ := wf.inst_unique hC hB hj hi same
    exact ⟨round.done, stop, pass⟩
  · right
    simp only [not_forall] at pass
    obtain ⟨v, asks, missing⟩ := pass
    cases asked : s.getValueID v with
    | ok n => exact absurd ((reached.ready_iff wf phiFree hB hi split asks).mp ⟨n, asked⟩) missing
    | error e =>
      refine ⟨e, by rw [numberInst_asks new asks, asked], ?_⟩
      exact .failed reached hB hi split asks missing (getValueID_fault asked)

theorem numberBody_ends {before later : List Nat} (reached : Reached f s before) {B : Block}
    (hB : B ∈ f.blocks) {is : List Inst} (members : ∀ i ∈ is, i ∈ B.body)
    (split : layout f = before ++ (is.map Inst.id ++ later)) :
    (∃ s', numberBody f s is = .ok s' ∧ Reached f s' (before ++ is.map Inst.id)) ∨
      ∃ e, numberBody f s is = .error e ∧ Ends f (.error e) := by
  induction is generalizing s before with
  | nil => exact Or.inl ⟨s, rfl, by simpa using reached⟩
  | cons i is ih =>
    rw [numberBody]
    rcases reached.step wf phiFree hB (members i List.mem_cons_self) split with ⟨t, ok, next⟩
      | ⟨e, err, ends⟩
    · rw [ok]
      have split' : layout f = before ++ [i.id] ++ (is.map Inst.id ++ later) := by
        rw [split]
        simp
      have rest := ih next (fun j hj => members j (List.mem_cons_of_mem i hj)) split'
      simpa only [List.map_cons, List.append_assoc, List.singleton_append] using rest
    · rw [err]
      exact Or.inr ⟨e, rfl, ends⟩

theorem numberBlocks_ends {before : List Nat} (reached : Reached f s before) {Bs : List Block}
    (members : ∀ B ∈ Bs, B ∈ f.blocks) (split : layout f = before ++ layoutIds Bs) :
    Ends f (numberBlocks f s Bs) := by
  induction Bs generalizing s before with
  | nil =>
    rw [numberBlocks]
    refine .finished ?_
    rw [split]
    simpa [layoutIds] using reached
  | cons B Bs ih =>
    have hB := members B List.mem_cons_self
    have split' : layout f = before ++ (B.body.map Inst.id ++ (B.termId :: layoutIds Bs)) := by
      rw [split]
      simp [layoutIds]
    rw [numberBlocks]
    rcases numberBody_ends wf phiFree reached hB (fun _ h => h) split' with ⟨t, ok, next⟩
      | ⟨e, err, ends⟩
    · rw [ok]
      have atTerm : layout f = before ++ B.body.map Inst.id ++ B.termId :: layoutIds Bs := by
        rw [split', List.append_assoc]
      refine ih (next.term wf hB atTerm) (fun C hC => members C (List.mem_cons_of_mem B hC)) ?_
      rw [atTerm]
      simp
    · rw [err]
      exact ends

theorem number_ends : Ends f (number f) := by
  obtain ⟨inv, rev, only⟩ := numberArgs_done (f := f) f.args.length
  have start : Reached f (numberArgs f.args.length) [] := by
    refine ⟨inv, ?_, ?_, fun _ _ _ _ h => absurd h List.not_mem_nil,
      fun _ _ _ _ h => absurd h List.not_mem_nil⟩
    · intro j
      refine iff_of_false ?_ List.not_mem_nil
      intro seen
      obtain ⟨x, found⟩ := Option.isSome_iff_exists.mp seen
      obtain ⟨i, -, same, -⟩ := only _ x found
      cases same
    · intro i hi
      refine ⟨i, inv.owner i (.arg i) ?_⟩
      rw [rev]
      simp [hi]
  exact numberBlocks_ends wf phiFree start (fun _ h => h) (layout_eq phiFree)

end

/-- Every bit cast that takes over an id stands after its operand, as far as the pass gets. -/
def CastsReady (f : Function) : Prop :=
  ∀ B ∈ f.blocks, ∀ i ∈ B.body, ∀ v, Asks f i v →
    (∀ C ∈ f.blocks, ∀ j ∈ C.body, Stops f j → ¬ Earlier f j.id i.id) → OperandReady f i v

def isFault : Except Halt Numbering → Bool
  | .ok _ => false
  | .error (.stop _) => false
  | .error _ => true

theorem Stops.not_asks {i : Inst} (stop : Stops f i) (v : Value) : ¬ Asks f i v := by
  rintro ⟨-, src, cast, lossless, -⟩
  obtain ⟨-, op, src', w, cast', why⟩ := stop
  rw [cast] at cast'
  cases cast'
  rcases why with ⟨-, lossy⟩ | h | h
  · rw [lossless] at lossy
    cases lossy
  · cases h
  · cases h

theorem number_fault_iff (wf : f.WellFormed) (phiFree : ∀ B ∈ f.blocks, B.phis = []) :
    isFault (number f) = false ↔ CastsReady f := by
  have ends := number_ends wf phiFree
  generalize number f = r at ends
  have inLayout : ∀ B ∈ f.blocks, ∀ i ∈ B.body, i.id ∈ layout f := by
    intro B hB i hi
    refine List.mem_flatMap.mpr ⟨B, hB, ?_⟩
    simp [Block.ids]
    exact Or.inr (Or.inl ⟨i, hi, rfl⟩)
  cases ends with
  | finished reached =>
    refine iff_of_true rfl ?_
    intro B hB i hi v asks _
    exact (reached.passed B hB i hi (inLayout B hB i hi)).2 v asks
  | @stopped s before after reached B hB i hi split stop m =>
    refine iff_of_true rfl ?_
    intro C hC j hj v asks noStop
    have member := inLayout C hC j hj
    rw [split, List.mem_append, List.mem_cons] at member
    rcases member with old | same | later
    · exact (reached.passed C hC j hj old).2 v asks
    · obtain ⟨rfl, rfl⟩ := wf.inst_unique hC hB hj hi same
      exact absurd asks (stop.not_asks v)
    · obtain ⟨mid, rest, cut⟩ := List.append_of_mem later
      have earlier : Earlier f i.id j.id :=
        ⟨before ++ i.id :: mid, rest, by rw [split, cut]; simp, by simp⟩
      exact absurd earlier (noStop B hB i hi stop)
  | @failed s before after reached B hB i hi split v asks missing e fault =>
    refine iff_of_false ?_ ?_
    · cases e with
      | stop m => exact absurd rfl (fault m)
      | _ => simp [isFault]
    · intro ready
      refine missing (ready B hB i hi v asks fun C hC j hj stop earlier => ?_)
      exact (reached.passed C hC j hj ((earlier_iff wf split).mp earlier)).1 stop

end Loop

/-! Removing a phi changes neither which bit casts ask nor what stands before them. -/

section Removal
variable {f : Function} {p : Phi} (found : findPhi f p.id = some p) (rem : Removable f p)

theorem home_mem_lowered_ids (rem : Removable f p) {A : Block} (hA : A ∈ f.blocks) {d : Nat}
    (old : d < f.nextId) : home f p d ∈ (lowerBlock f p A).ids ↔ d ∈ A.ids := by
  obtain ⟨P, hP, hp⟩ := rem.member
  have phiId : p.id ∈ P.ids := by simp [Block.ids]; exact Or.inl ⟨p, hp, rfl⟩
  by_cases isPhi : d = p.id
  · rw [home, if_pos isPhi, isPhi]
    constructor
    · intro member
      rcases mem_lowerBlock_ids member with impossible | inserted
      · have := rem.wf.fresh A hA _ impossible
        simp only [loadId] at this
        omega
      · generalize hl : loadId f = l at inserted
        cases inserted with
        | slot => simp only [loadId, slotId] at hl; omega
        | load here =>
          simp only [Block.ids, List.mem_append]
          exact Or.inl (Or.inl here)
        | store => simp only [loadId, storeId] at hl; omega
    · intro member
      cases rem.wf.block_of_id hA hP member phiId
      exact Function.mem_ids_of_def (load_def hp)
  · rw [home, if_neg isPhi]
    constructor
    · intro member
      rcases mem_lowerBlock_ids member with member | inserted
      · exact member
      · have := inserted.new
        omega
    · intro member
      rw [lowerBlock_ids]
      simp only [Block.ids, List.mem_append] at member
      simp only [List.mem_append, List.mem_filter]
      rcases member with (phi | body) | term
      · exact Or.inl (Or.inl ⟨phi, by simpa using isPhi⟩)
      · exact Or.inl (Or.inr (Or.inl (Or.inr body)))
      · exact Or.inr term

/-- The same for the part of a block in front of a body instruction. -/
theorem home_mem_front (rem : Removable f p) {B : Block} (hB : B ∈ f.blocks) {xs : List Inst}
    (members : ∀ j ∈ xs, j ∈ B.body) {d : Nat} (old : d < f.nextId) :
    home f p d ∈ (B.phis.map Phi.id).filter (fun i => i ≠ p.id) ++ ((prologue f p B).map Inst.id ++
      xs.map Inst.id) ↔ d ∈ B.phis.map Phi.id ++ xs.map Inst.id := by
  obtain ⟨P, hP, hp⟩ := rem.member
  have newPrologue : ∀ j ∈ (prologue f p B).map Inst.id, f.nextId ≤ j := by
    intro j hj
    obtain ⟨i, hi, rfl⟩ := List.mem_map.mp hj
    rcases mem_prologue hi with ⟨rfl, -⟩ | ⟨rfl, -⟩ <;>
      simp only [phiAlloca, phiLoad, slotId, loadId] <;> omega
  by_cases isPhi : d = p.id
  · subst isPhi
    rw [home, if_pos rfl]
    have notInst : p.id ∉ xs.map Inst.id := by
      intro h
      obtain ⟨j, hj, same⟩ := List.mem_map.mp h
      exact rem.wf.phi_id_ne_inst_id hP hB hp (members j hj) same
    have loadNew : ∀ j, j < f.nextId → loadId f ≠ j := by
      intro j hj
      simp only [loadId]
      omega
    have oldPhis : ∀ j ∈ B.phis.map Phi.id, j < f.nextId := by
      intro j hj
      obtain ⟨q, hq, rfl⟩ := List.mem_map.mp hj
      exact rem.phi_ids_lt hB q hq
    have oldInsts : ∀ j ∈ xs.map Inst.id, j < f.nextId := by
      intro j hj
      obtain ⟨i, hi, rfl⟩ := List.mem_map.mp hj
      exact (rem.original hB i (members i hi)).own
    simp only [List.mem_append, List.mem_filter]
    constructor
    · rintro (⟨member, -⟩ | member | member)
      · exact absurd rfl (loadNew _ (oldPhis _ member))
      · obtain ⟨i, hi, same⟩ := List.mem_map.mp member
        rcases mem_prologue hi with ⟨rfl, -⟩ | ⟨rfl, here⟩
        · simp only [phiAlloca, slotId, loadId] at same
          omega
        · exact Or.inl here
      · exact absurd rfl (loadNew _ (oldInsts _ member))
    · rintro (member | member)
      · obtain ⟨q, hq, same⟩ := List.mem_map.mp member
        have here : p ∈ B.phis := (rem.wf.phi_unique hB hP hq hp same).2 ▸ hq
        exact Or.inr (Or.inl (List.mem_map.mpr ⟨_, mem_prologue_load here, rfl⟩))
      · exact absurd member notInst
  · rw [home, if_neg isPhi]
    simp only [List.mem_append, List.mem_filter]
    constructor
    · rintro (⟨member, -⟩ | member | member)
      · exact Or.inl member
      · have := newPrologue d member
        omega
      · exact Or.inr member
    · rintro (member | member)
      · exact Or.inl ⟨member, by simpa using isPhi⟩
      · exact Or.inr (Or.inr member)

include found in
theorem earlier_handlePHI (rem : Removable f p) {B : Block} (hB : B ∈ f.blocks) {i : Inst}
    (hi : i ∈ B.body) {d : Nat} (old : d < f.nextId) :
    Earlier (handlePHI f p.id) (home f p d) i.id ↔ Earlier f d i.id := by
  obtain ⟨pre, post, blocks⟩ := List.append_of_mem hB
  obtain ⟨xs, ys, body⟩ := List.append_of_mem hi
  have split : layout f = (pre.flatMap Block.ids ++ (B.phis.map Phi.id ++ xs.map Inst.id)) ++
      i.id :: (ys.map Inst.id ++ [B.termId] ++ post.flatMap Block.ids) := by
    unfold layout
    rw [blocks, List.flatMap_append, List.flatMap_cons, Block.ids, body]
    simp
  have split' : layout (handlePHI f p.id) =
      ((pre.map (lowerBlock f p)).flatMap Block.ids ++
        ((B.phis.map Phi.id).filter (fun i => i ≠ p.id) ++
        ((prologue f p B).map Inst.id ++ xs.map Inst.id))) ++
      i.id :: (ys.map Inst.id ++ (phiStores f B.label 0 p.incoming).map Inst.id ++ [B.termId] ++
        (post.map (lowerBlock f p)).flatMap Block.ids) := by
    unfold layout
    rw [handlePHI_blocks found, blocks, List.map_append, List.map_cons, List.flatMap_append,
      List.flatMap_cons, lowerBlock_ids, body]
    simp
  have front :=
    home_mem_front rem hB (fun j hj => by rw [body]; simp [hj] : ∀ j ∈ xs, j ∈ B.body) old
  rw [earlier_iff rem.wf split, earlier_iff (handlePHI_wellFormed found rem) split']
  refine (List.mem_append.trans (or_congr ?_ front)).trans List.mem_append.symm
  have members : ∀ A ∈ pre, A ∈ f.blocks := fun A hA => by rw [blocks]; simp [hA]
  simp only [List.mem_flatMap, List.mem_map]
  constructor
  · rintro ⟨C, ⟨A, hA, rfl⟩, member⟩
    exact ⟨A, hA, (home_mem_lowered_ids rem (members A hA) old).mp member⟩
  · rintro ⟨A, hA, member⟩
    exact ⟨_, ⟨A, hA, rfl⟩, (home_mem_lowered_ids rem (members A hA) old).mpr member⟩

include found in
theorem used_handlePHI (rem : Removable f p) {d : Nat} (old : d < f.nextId) (notPhi : d ≠ p.id) :
    UsedIn (handlePHI f p.id) (.inst d) ↔ UsedIn f (.inst d) := by
  have notLoad : d ≠ loadId f := by simp only [loadId]; omega
  have same := fun v => renameValue_eq_inst (f := f) (p := p) notPhi notLoad (v := v)
  obtain ⟨P, hP, hp⟩ := rem.member
  unfold UsedIn
  rw [handlePHI_blocks found]
  constructor
  · rintro ⟨B, hB, use⟩
    obtain ⟨A, hA, rfl⟩ := List.mem_map.mp hB
    rcases mem_lowerBlock_uses rem.id_lt use with slot | ⟨w, hw, eq⟩
    · cases slot
      simp only [slotId] at old
      omega
    · have inst := (same w).mp eq.symm
      subst inst
      rcases hw with hw | ⟨l, hw⟩
      · exact ⟨A, hA, hw⟩
      · exact ⟨P, hP, phi_use hp hw⟩
  · rintro ⟨A, hA, use⟩
    simp only [Block.uses, List.mem_append, List.mem_flatMap, List.mem_map] at use
    rcases use with (⟨q, hq, ⟨v, l⟩, entry, value⟩ | ⟨i, hi, use⟩) | use
    · have value : v = .inst d := value
      subst value
      by_cases removed : q.id = p.id
      · -- the entry of the removed phi lives on as a store in the predecessor
        obtain ⟨-, rfl⟩ := rem.wf.phi_unique hA hP hq hp removed
        obtain ⟨C, hC, label, -⟩ := rem.wf.preds A hA q hq _ _ entry
        subst label
        obtain ⟨m, at_m⟩ := List.getElem?_of_mem entry
        have stored : renameInst q.id (loadId f) ⟨storeId f (0 + m), .void,
            .store (.inst d) (.inst (slotId f))⟩ ∈
            (lowerBlock f q C).body := by
          rw [lowerBlock_body]
          exact List.mem_append_right _ (List.mem_map_of_mem (phiStores_mem 0 at_m))
        refine ⟨_, List.mem_map_of_mem hC, inst_use stored ?_⟩
        simp only [renameInst, Op.map, Op.operands, (same (.inst d)).mpr rfl]
        exact List.mem_cons_self
      · refine ⟨_, List.mem_map_of_mem hA,
          phi_use (l := l) (mem_lowerBlock_phis.mpr ⟨q, hq, removed, rfl⟩) ?_⟩
        exact List.mem_map.mpr ⟨_, entry, by rw [(same (.inst d)).mpr rfl]⟩
    · refine ⟨_, List.mem_map_of_mem hA, inst_use (i := renameInst p.id (loadId f) i) ?_ ?_⟩
      · rw [lowerBlock_body, List.mem_append, List.mem_append]
        exact Or.inl (Or.inr (List.mem_map_of_mem hi))
      · simp only [renameInst, Op.operands_map]
        exact List.mem_map.mpr ⟨_, use, (same (.inst d)).mpr rfl⟩
    · refine ⟨_, List.mem_map_of_mem hA, term_use ?_⟩
      simp only [lowerBlock, erasePhi, renameBlock, insertIntoBlock, Term.operands_map]
      exact List.mem_map.mpr ⟨_, use, (same (.inst d)).mpr rfl⟩

theorem mayHaveSideEffects_map (op : Op Value) (r : Value → Value) :
    mayHaveSideEffects (op.map r) = mayHaveSideEffects op := by
  cases op <;> rfl

theorem useCount_eq_zero {d : Nat} : useCount f d = 0 ↔ ¬ UsedIn f (.inst d) := by
  constructor
  · exact fun zero used => useCount_pos used zero
  · intro unused
    refine List.countP_eq_zero.mpr fun v hv same => unused ?_
    obtain ⟨B, hB, use⟩ := List.mem_flatMap.mp hv
    cases v with
    | inst e =>
      simp only [key, Option.some.injEq, Key.inst.injEq, decide_eq_true_eq] at same
      exact ⟨B, hB, same ▸ use⟩
    | arg e => simp [key] at same
    | const c => simp [key] at same

include found in
theorem isDead_handlePHI (rem : Removable f p) {B : Block} (hB : B ∈ f.blocks) {i : Inst}
    (hi : i ∈ B.body) : isDead (handlePHI f p.id) (renameInst p.id (loadId f) i) = isDead f i := by
  have orig := rem.original hB i hi
  have unused : useCount (handlePHI f p.id) i.id = 0 ↔ useCount f i.id = 0 := by
    rw [useCount_eq_zero, useCount_eq_zero, used_handlePHI found rem orig.own orig.notPhi]
  simp only [isDead, renameInst, mayHaveSideEffects_map, unused]

theorem instruction_eq (wf : f.WellFormed) {B : Block} (hB : B ∈ f.blocks) {i : Inst}
    (hi : i ∈ B.body) :
    instruction f i.id = some i := by
  cases h : instruction f i.id with
  | none =>
    have := List.find?_eq_none.mp h i (List.mem_flatMap.mpr ⟨B, hB, hi⟩)
    simp at this
  | some j =>
    obtain ⟨C, hC, hj, same⟩ := instruction_mem h
    rw [(wf.inst_unique hC hB hj hi same).2]

theorem isArrayAllocation_map (size : Option Value) :
    isArrayAllocation (size.map (renameValue p.id (loadId f))) = isArrayAllocation size := by
  cases size with
  | none => rfl
  | some v => cases v <;> rfl

include found in
theorem isFixedAlloca_handlePHI (rem : Removable f p) {v : Value} (used : UsedIn f v) :
    isFixedAlloca (handlePHI f p.id) (renameValue p.id (loadId f) v) = isFixedAlloca f v := by
  have wf' := handlePHI_wellFormed found rem
  obtain ⟨P, hP, hp⟩ := rem.member
  have lowered : ∀ {C : Block}, C ∈ f.blocks → lowerBlock f p C ∈ (handlePHI f p.id).blocks := by
    intro C hC
    rw [handlePHI_blocks found]
    exact List.mem_map_of_mem hC
  cases v with
  | arg i => rfl
  | const c => rfl
  | inst d =>
    obtain ⟨B, hB, use⟩ := used
    obtain ⟨A, hA, ty, member, -⟩ := rem.wf.uses B hB d use
    simp only [isFixedAlloca, allocaSize, renameValue]
    simp only [Block.defs, List.mem_append, List.mem_map, Prod.mk.injEq] at member
    have noPhi : ∀ q, q ∈ A.phis → instruction f q.id = none := by
      intro q hq
      cases h : instruction f q.id with
      | none => rfl
      | some j =>
        obtain ⟨C, hC, hj, same⟩ := instruction_mem h
        exact absurd same (rem.wf.phi_id_ne_inst_id hA hC hq hj)
    by_cases isPhi : d = p.id
    · have load : instruction (handlePHI f p.id) (loadId f) =
          some (renameInst p.id (loadId f) (phiLoad f p)) := by
        refine instruction_eq wf' (lowered hP) (i := renameInst p.id (loadId f) (phiLoad f p)) ?_
        rw [lowerBlock_body, List.mem_append, List.mem_append]
        exact Or.inl (Or.inl (List.mem_map_of_mem (mem_prologue_load hp)))
      have none : instruction f d = none := by
        rcases member with ⟨q, hq, rfl, -⟩ | ⟨j, hj, rfl, -⟩
        · exact noPhi q hq
        · exact absurd isPhi (rem.original hA j hj).notPhi
      rw [if_pos isPhi, load, none]
      rfl
    · rw [if_neg isPhi]
      rcases member with ⟨q, hq, rfl, -⟩ | ⟨j, hj, rfl, -⟩
      · have none : instruction (handlePHI f p.id) q.id = none := by
          cases h : instruction (handlePHI f p.id) q.id with
          | none => rfl
          | some j =>
            obtain ⟨C, hC, hj, same⟩ := instruction_mem h
            have phi : renamePhi p.id (loadId f) q ∈ (lowerBlock f p A).phis :=
              mem_lowerBlock_phis.mpr ⟨q, hq, isPhi, rfl⟩
            have ne := wf'.phi_id_ne_inst_id (lowered hA) hC phi hj
            exact absurd same ne
        rw [none, noPhi q hq]
      · have renamed :
            instruction (handlePHI f p.id) j.id = some (renameInst p.id (loadId f) j) := by
          refine instruction_eq wf' (lowered hA) (i := renameInst p.id (loadId f) j) ?_
          rw [lowerBlock_body, List.mem_append, List.mem_append]
          exact Or.inl (Or.inr (List.mem_map_of_mem hj))
        rw [renamed, instruction_eq rem.wf hA hj]
        simp only [Option.map_some, renameInst]
        cases j.op with
        | alloca size => simp [Op.map, isArrayAllocation_map]
        | _ => rfl

/-- A cast of the rewritten function is a renamed cast of the original one. -/
theorem cast_of_renamed {i : Inst} {op : CastOp} {src : Ty} {v : Value}
    (h : (renameInst p.id (loadId f) i).op = .cast op src v) :
    ∃ w, i.op = .cast op src w ∧ v = renameValue p.id (loadId f) w := by
  cases hop : i.op <;> simp [renameInst, Op.map, hop] at h
  obtain ⟨rfl, rfl, rfl⟩ := h
  exact ⟨_, rfl, rfl⟩

/-- Every cast of the rewritten function comes from the original one. -/
theorem lowered_cast {A : Block} {i : Inst} (hi : i ∈ (lowerBlock f p A).body) {op : CastOp}
    {src : Ty} {v : Value} (cast : i.op = .cast op src v) :
    ∃ j ∈ A.body, i = renameInst p.id (loadId f) j := by
  rw [lowerBlock_body, List.mem_append, List.mem_append] at hi
  rcases hi with (hi | hi) | hi <;> obtain ⟨j, hj, rfl⟩ := List.mem_map.mp hi
  · rcases mem_prologue hj with ⟨rfl, -⟩ | ⟨rfl, -⟩ <;> cases cast
  · exact ⟨j, hj, rfl⟩
  · obtain ⟨k, u, -, rfl⟩ := mem_phiStores hj
    cases cast

include found in
theorem asks_handlePHI (rem : Removable f p) {B : Block} (hB : B ∈ f.blocks) {i : Inst}
    (hi : i ∈ B.body) {v : Value} (use : v ∈ i.op.operands) :
    Asks (handlePHI f p.id) (renameInst p.id (loadId f) i) (renameValue p.id (loadId f) v) ↔
      Asks f i v := by
  have dead := isDead_handlePHI found rem hB hi
  have alloca := isFixedAlloca_handlePHI found rem ⟨B, hB, inst_use hi use⟩
  constructor
  · rintro ⟨⟨value, live⟩, src, cast, lossless, notAlloca⟩
    obtain ⟨w, old, -⟩ := cast_of_renamed cast
    have same : w = v := by
      rw [old] at use
      exact (List.mem_singleton.mp use).symm
    subst same
    exact ⟨⟨value, dead ▸ live⟩, src, old, lossless, alloca ▸ notAlloca⟩
  · rintro ⟨⟨value, live⟩, src, cast, lossless, notAlloca⟩
    refine ⟨⟨value, dead.trans live⟩, src, ?_, lossless, alloca.trans notAlloca⟩
    simp [renameInst, cast, Op.map]

include found in
theorem stops_handlePHI (rem : Removable f p) {B : Block} (hB : B ∈ f.blocks) {i : Inst}
    (hi : i ∈ B.body) :
    Stops (handlePHI f p.id) (renameInst p.id (loadId f) i) ↔ Stops f i := by
  have dead := isDead_handlePHI found rem hB hi
  constructor
  · rintro ⟨⟨value, live⟩, op, src, v, cast, why⟩
    obtain ⟨w, old, -⟩ := cast_of_renamed cast
    exact ⟨⟨value, dead ▸ live⟩, op, src, w, old, why⟩
  · rintro ⟨⟨value, live⟩, op, src, v, cast, why⟩
    exact ⟨⟨value, dead.trans live⟩, op, src, renameValue p.id (loadId f) v,
      by simp only [renameInst, cast, Op.map], why⟩

include found in
theorem operandReady_handlePHI (rem : Removable f p) {B : Block} (hB : B ∈ f.blocks) {i : Inst}
    (hi : i ∈ B.body) {v : Value} (use : v ∈ i.op.operands) :
    OperandReady (handlePHI f p.id) (renameInst p.id (loadId f) i) (renameValue p.id (loadId f) v) ↔
      OperandReady f i v := by
  cases v with
  | arg n => exact iff_of_true (Or.inl ⟨n, rfl⟩) (Or.inl ⟨n, rfl⟩)
  | const c => simp [OperandReady, renameValue]
  | inst d =>
    have old := (rem.original hB i hi).old d use
    have earlier := earlier_handlePHI found rem hB hi old
    rw [renameValue_inst]
    simp only [OperandReady, renameInst, reduceCtorEq, exists_false, Value.inst.injEq,
      exists_eq_left',
      false_or]
    exact earlier

include found in
theorem castsReady_handlePHI (rem : Removable f p) :
    CastsReady (handlePHI f p.id) ↔ CastsReady f := by
  have lowered : ∀ {C : Block}, C ∈ f.blocks → lowerBlock f p C ∈ (handlePHI f p.id).blocks := by
    intro C hC
    rw [handlePHI_blocks found]
    exact List.mem_map_of_mem hC
  have inBody : ∀ {C : Block} {j : Inst}, j ∈ C.body →
      renameInst p.id (loadId f) j ∈ (lowerBlock f p C).body := by
    intro C j hj
    rw [lowerBlock_body, List.mem_append, List.mem_append]
    exact Or.inl (Or.inr (List.mem_map_of_mem hj))
  have order : ∀ {C B : Block} {j i : Inst}, C ∈ f.blocks → j ∈ C.body → B ∈ f.blocks → i ∈ B.body →
      (Earlier (handlePHI f p.id) j.id i.id ↔ Earlier f j.id i.id) := by
    intro C B j i hC hj hB hi
    have orig := rem.original hC j hj
    have := earlier_handlePHI found rem hB hi orig.own
    rwa [home, if_neg orig.notPhi] at this
  constructor
  · intro ready B hB i hi v asks noStop
    have use : v ∈ i.op.operands := by
      obtain ⟨-, src, cast, -⟩ := asks
      simp [cast, Op.operands]
    refine (operandReady_handlePHI found rem hB hi use).mp (ready _ (lowered hB) _ (inBody hi) _
      ((asks_handlePHI found rem hB hi use).mpr asks) ?_)
    intro C hC j hj stop earlier
    rw [handlePHI_blocks found] at hC
    obtain ⟨A, hA, rfl⟩ := List.mem_map.mp hC
    obtain ⟨-, op, src, w, cast, -⟩ := id stop
    obtain ⟨k, hk, rfl⟩ := lowered_cast hj cast
    exact noStop A hA k hk ((stops_handlePHI found rem hA hk).mp stop)
      ((order hA hk hB hi).mp earlier)
  · intro ready C hC i hi v asks noStop
    rw [handlePHI_blocks found] at hC
    obtain ⟨B, hB, rfl⟩ := List.mem_map.mp hC
    obtain ⟨-, src, cast, -⟩ := id asks
    obtain ⟨j, hj, rfl⟩ := lowered_cast hi cast
    obtain ⟨w, old, rfl⟩ := cast_of_renamed cast
    have use : w ∈ j.op.operands := by simp [old, Op.operands]
    refine (operandReady_handlePHI found rem hB hj use).mpr (ready B hB j hj w
      ((asks_handlePHI found rem hB hj use).mp asks) ?_)
    intro A hA k hk stop earlier
    exact noStop _ (lowered hA) _ (inBody hk) ((stops_handlePHI found rem hA hk).mpr stop)
      ((order hA hk hB hj).mpr earlier)

end Removal

theorem castsReady_eliminatePhis {f : Function} (wf : f.WellFormed) :
    CastsReady (eliminatePhis f) ↔ CastsReady f := by
  have all : ∀ (pns : List Nat) (g : Function), g.WellFormed → pns.Nodup →
      (∀ i ∈ pns, i ∈ phiIds g) →
      (CastsReady (handleAll g pns) ↔ CastsReady g) := by
    intro pns
    induction pns with
    | nil => exact fun g _ _ _ => Iff.rfl
    | cons i pns ih =>
      intro g wf nodup members
      obtain ⟨q, found, rfl, rem⟩ := findPhi_of_mem wf (members i List.mem_cons_self)
      rw [List.nodup_cons] at nodup
      exact (ih _ (handlePHI_wellFormed found rem) nodup.2
        (phis_remain found nodup.1 members)).trans
        (castsReady_handlePHI found rem)
  exact all (phiIds f) f wf (phiIds_nodup wf) (fun _ h => h)

/-- The two passes find all ids exactly when every bit cast that takes over the id of its
operand stands behind it in the layout; the writer never asks in vain. -/
theorem allKnown_iff_castsReady {strip : Function → Value → Value} (sound : StripsToOperand strip)
    {f : Function} (wf : f.WellFormed) : AllKnown strip f ↔ CastsReady f := by
  obtain ⟨wf', phiFree⟩ := eliminatePhis_phi_free wf
  rw [← castsReady_eliminatePhis wf, ← number_fault_iff wf' phiFree, AllKnown, runOnFunction]
  cases h : number (eliminatePhis f) with
  | ok num =>
    exact iff_of_true (requests_known sound wf' phiFree (number_numbered wf' h)) rfl
  | error e =>
    cases e with
    | stop m => exact iff_of_true trivial rfl
    | unknownValue => exact iff_of_false id (by simp [isFault])
    | unusedValue => exact iff_of_false id (by simp [isFault])

theorem castLoad_castsReady : CastsReady (castLoad (.arg 0)) := by
  intro B hB i hi v asks _
  obtain ⟨-, src, cast, -⟩ := asks
  simp only [castLoad, List.mem_singleton] at hB
  subst hB
  simp only [List.mem_cons, List.not_mem_nil, or_false] at hi
  rcases hi with rfl | rfl
  · cases cast
    exact Or.inl ⟨0, rfl⟩
  · cases cast

theorem allKnown_castLoad :
    (castLoad (.arg 0)).WellFormed ∧ AllKnown (fun _ v => v) (castLoad (.arg 0)) :=
  have wf := (castLoad_ssa (v := .arg 0) nofun (fun _ h => by cases h; rfl)).wf
  ⟨wf, (allKnown_iff_castsReady (fun _ _ => Or.inl rfl) wf).mpr castLoad_castsReady⟩

/-- The bit cast of a global asks for the id of a constant. -/
theorem global_cast_unknown :
    Ssa (castLoad (.const (.global 0))) ∧
      ¬ AllKnown (fun _ v => v) (castLoad (.const (.global 0))) :=
  ⟨castLoad_ssa nofun nofun, id⟩

end WriterOperands
