import ClamBC.ExtendPhis
import ClamBC.OperandEdits
import ClamBC.SsaChecks
import ClamBC.WriterOperands

/-!
# Memory intrinsics with a length of 32 bits

`llvm.memset`, `llvm.memcpy` and `llvm.memmove` are called with a length of 64 bits, and the
interpreter knows those with 32 bits only. `convertCall` makes the length of a call shorter: a
constant is converted, for everything else a `trunc` stands in front of the call.

`Ir` names the intrinsic without its types, so that the declaration that is called is not seen in
the instruction. Which calls have one of the six declarations with 64 bits is a parameter.
-/

namespace ConvertIntrinsics

open Ir IrExec SsaForm FunctionEdits RunComparison OperandEdits ValueNumbering

/-- `replacements[i].oldFunc == f`, by the number of the call. -/
abbrev OldFunc := Nat → Bool

/-- `setArgOperand(2, v)` -/
def setArgOperand (v : Value) : Op Value → Op Value
  | .call sideEffects callee args => .call sideEffects callee (args.set 2 v)
  | op => op

theorem setArgOperand_store {v x a : Value} {op : Op Value}
    (store : setArgOperand v op = .store x a) : op = .store x a := by
  cases op <;> simp_all [setArgOperand]

theorem setArgOperand_load {v a : Value} {b : Bool} {op : Op Value}
    (load : setArgOperand v op = .load b a) : op = .load b a := by
  cases op <;> simp_all [setArgOperand]

/-- The call `n` gets another length, for which instructions stand in front of it. -/
def shorten (n : Nat) (news : List Inst) (v : Value) : Edit where
  point := some n
  news := news
  erased := none
  update := fun i => if i.id = n then { i with op := setArgOperand v i.op } else i
  value := id
  update_id := fun i => by split_ifs <;> rfl
  update_ty := fun i => by split_ifs <;> rfl
  update_store := fun i x a store => by
    split_ifs at store
    · exact ⟨x, a, setArgOperand_store store⟩
    · exact ⟨x, a, store⟩
  update_load := fun i b a load => by
    split_ifs at load
    · exact ⟨b, a, setArgOperand_load load⟩
    · exact ⟨b, a, load⟩

/-- `ConstantInt::get(i32Ty, ci->getValue().getLimitedValue())` -/
def shortConstant (value : Nat) : Value :=
  .const (.int 32 (ExtendPhis.getLimitedValue value % 2 ^ 32))

/-- `CastInst::CreateTruncOrBitCast` of a length of 64 bits -/
def createTrunc (f : Function) (v : Value) : Inst := ⟨f.nextId, .int 32, .cast .trunc (.int 64) v⟩

def convertLength (f : Function) (n : Nat) : Value → Function
  | .const (.int _ value) => (shorten n [] (shortConstant value)).apply 0 f
  | v => (shorten n [createTrunc f v] (.inst f.nextId)).apply 1 f

def convertCall (f : Function) (n : Nat) : Function :=
  match (instruction f n).bind fun i => i.op.operands[2]? with
  | some v => convertLength f n v
  | none => f

def calls (old : OldFunc) (f : Function) : List Nat := collected (fun i => old i.id) f

def processFunction (old : OldFunc) (f : Function) : Function :=
  (calls old f).foldl convertCall f

def isMemory : Intrinsic → Bool
  | .memset | .memcpy | .memmove => true
  | .bswap | .other => false

/-- A call with a length of 64 bits. -/
def Waits (f : Function) (n : Nat) : Prop :=
  ∃ B ∈ f.blocks, ∃ i ∈ B.body, i.id = n ∧
    ∃ se k d s x vol, isMemory k = true ∧ i.op = .call se (.intrinsic k) [d, s, x, vol] ∧
      ∀ bits value, x = .const (.int bits value) → bits = 64 ∧ value < 2 ^ 64

/-- The `trunc` to 32 bits that stands right in front of the call `i`. -/
def TruncInFront (B : Block) (i : Inst) (x : Value) : Prop :=
  ∃ before j after v, B.body = before ++ j :: i :: after ∧ x = .inst j.id ∧ j.ty = .int 32 ∧
    j.op = .cast .trunc (.int 64) v

/-- A call with a length of 32 bits. -/
def Converted (f : Function) (n : Nat) : Prop :=
  ∃ B ∈ f.blocks, ∃ i ∈ B.body, i.id = n ∧
    ∃ se k d s x vol, isMemory k = true ∧ i.op = .call se (.intrinsic k) [d, s, x, vol] ∧
      ((∃ value, value < 2 ^ 32 ∧ x = .const (.int 32 value)) ∨ TruncInFront B i x)

/-- The same operation, or the same call with another value for the same length. -/
inductive Shortened {α : Type*} (size : α → Nat) : Op α → Op α → Prop
  | same (op : Op α) : Shortened size op op
  | call (se : Bool) {k : Intrinsic} (d s x y vol : α) (length : size x = size y) :
      Shortened size (.call se (.intrinsic k) [d, s, x, vol])
        (.call se (.intrinsic k) [d, s, y, vol])

theorem Shortened.trans {α : Type*} {size : α → Nat} {o p q : Op α} (first : Shortened size o p)
    (second : Shortened size p q) : Shortened size o q := by
  cases first with
  | same => exact second
  | call se d s x y vol length =>
    cases second with
    | same => exact .call se d s x y vol length
    | call _ _ _ _ z _ length' => exact .call se d s x z vol (length.trans length')

/-! The form of the function. -/

section
variable {f : Function} {N : Block} {before after : List Inst} {I : Inst}

theorem update_self (I : Inst) (news : List Inst) (v : Value) :
    (shorten I.id news v).update I = { I with op := setArgOperand v I.op } := if_pos rfl

theorem update_other {n : Nat} {i : Inst} (other : i.id ≠ n) (news : List Inst) (v : Value) :
    (shorten n news v).update i = i := if_neg other

theorem mem_shortened {n : Nat} {news : List Inst} {v : Value} {is : List Inst} {j : Inst} :
    j ∈ (shorten n news v).body is ↔
      (∃ i ∈ is, j = (shorten n news v).update i) ∨ (j ∈ news ∧ ∃ i ∈ is, i.id = n) := by
  refine Edit.mem_body.trans (or_congr ⟨?_, ?_⟩ (and_congr_right fun _ => ⟨?_, ?_⟩))
  · rintro ⟨i, hi, -, rfl⟩
    exact ⟨i, hi, rfl⟩
  · rintro ⟨i, hi, rfl⟩
    exact ⟨i, hi, (Option.some_ne_none _).symm, rfl⟩
  · rintro ⟨i, hi, point⟩
    exact ⟨i, hi, (Option.some.inj point).symm⟩
  · rintro ⟨i, hi, rfl⟩
    exact ⟨i, hi, rfl⟩

section
variable {se : Bool} {k : Intrinsic} {d s x vol : Value}
  (hN : N ∈ f.blocks) (split : N.body = before ++ I :: after)
  (op : I.op = .call se (.intrinsic k) [d, s, x, vol])
include op

theorem updated_op (news : List Inst) (v : Value) :
    ((shorten I.id news v).update I).op = .call se (.intrinsic k) [d, s, v, vol] := by
  rw [update_self, op]
  rfl

include hN split

/-- The other arguments are read as before. -/
theorem rewrites (ssa : Ssa f) {count : Nat} {news : List Inst} {v : Value}
    (fits : (shorten I.id news v).Fits count f)
    (reads : ∀ j ∈ news, ∀ w ∈ j.op.operands, Ready f N before w)
    (length : (∃ d ∈ news.map Inst.id, v = .inst d) ∨ Ready f N before v) :
    Rewrites f count N before I (shorten I.id news v) where
  point := rfl
  stays := rfl
  value := rfl
  others i other := update_other other news v
  fits := fits
  reads := reads
  updated w read := by
    have operand : ∀ w ∈ [d, s, x, vol], Ready f N before w := fun w hw =>
      Ready.operand ssa hN split (op ▸ hw)
    rw [updated_op op] at read
    simp only [Op.operands, List.mem_cons, List.not_mem_nil, or_false] at read
    rcases read with rfl | rfl | rfl | rfl
    · exact .inr (operand _ (by simp))
    · exact .inr (operand _ (by simp))
    · exact length
    · exact .inr (operand _ (by simp))

/-- A constant length. -/
theorem rewrites_constant (ssa : Ssa f) (value : Nat) :
    Rewrites f 0 N before I (shorten I.id [] (shortConstant value)) := by
  refine rewrites hN split op ssa ?_ (fun j new => by cases new) (.inr (ready_const _))
  constructor <;> simp [shorten]

/-- Any other length. -/
theorem rewrites_trunc (ssa : Ssa f) :
    Rewrites f 1 N before I (shorten I.id [createTrunc f x] (.inst f.nextId)) := by
  refine rewrites hN split op ssa ?_ ?_ (.inl ⟨_, List.mem_singleton_self _, rfl⟩)
  · constructor <;> simp [shorten, createTrunc, Ty.isVoid]
  · intro j hj w hw
    cases List.mem_singleton.mp hj
    cases List.mem_singleton.mp hw
    exact Ready.operand ssa hN split (by rw [op]; simp [Op.operands])

end

/-! What a call does. -/

section
universe u
variable {V M : Type u}

/-- The intrinsics depend on the number that the length is. -/
structure Lengths (S : Sem V M) (size : V → Nat) : Prop where
  const : ∀ bits value, size (S.const (.int bits value)) = value % 2 ^ bits
  trunc : ∀ x m, ∃ y, S.op (.int 32) (.cast .trunc (.int 64) x) m = some (y, m) ∧
    size y = size x % 2 ^ 32
  call : ∀ ty se k d s x y vol m, isMemory k = true → size x = size y →
    S.op ty (.call se (.intrinsic k) [d, s, x, vol]) m =
      S.op ty (.call se (.intrinsic k) [d, s, y, vol]) m

/-- No call has a length of 4 GiB or more. -/
def Short (size : V → Nat) (e : Event V M) : Prop :=
  ∀ se k d s x vol, isMemory k = true → e.op = .call se (.intrinsic k) [d, s, x, vol] →
    size x < 2 ^ 32

variable {S : Sem V M} {args : Nat → V} {size : V → Nat} {se : Bool} {k : Intrinsic}
  {d s x vol : Value} (memory : isMemory k = true)
  (op : I.op = .call se (.intrinsic k) [d, s, x, vol]) (lengths : Lengths S size)
  (wf : f.WellFormed) (hN : N ∈ f.blocks) (hI : I ∈ N.body) {a b : State V M}
include op memory

omit memory in
theorem evaluated (regs : Nat → V) : I.op.map (eval S args regs) = .call se (.intrinsic k)
    [eval S args regs d, eval S args regs s, eval S args regs x, eval S args regs vol] := by
  rw [op]
  rfl

theorem short_length (short : ∀ e ∈ (execBody S args noCells [I] a).1, Short size e) :
    size (eval S args a.regs x) < 2 ^ 32 := by
  obtain ⟨result, executed⟩ := mem_execBody_singleton S args I a
  exact short _ executed se k _ _ _ _ memory (evaluated op a.regs)

include lengths wf hN hI

/-- The call with the new length, after the instructions in front of it. -/
theorem step_shortened {news : List Inst} {v : Value} {es : List (Event V M)} {c : State V M}
    (front : execBody S args noCells news b = (es, some c))
    (hidden : ∀ e ∈ es, ¬ e.id < f.nextId) (behind : Agree f a c)
    (length : size (eval S args a.regs x) = size (eval S args c.regs v)) :
    StepLike S args (expand (shorten I.id news v)) (Shortened size) (fun d => d < f.nextId)
      (Agree f) I a b := by
  have evals : ∀ w ∈ [d, s, vol], eval S args c.regs w = eval S args a.regs w := fun w hw =>
    behind.eval wf hN (PhiElimination.inst_use hI (by
      rw [op]
      simp only [Op.operands, List.mem_cons, List.not_mem_nil, or_false] at hw ⊢
      tauto))
  have list : expand (shorten I.id news v) I = news ++ [(shorten I.id news v).update I] := by
    have here : (shorten I.id news v).point = some I.id := rfl
    rw [expand, Edit.inFront, if_pos here]
    rfl
  have old : exec S args noCells I a = (S.op I.ty (.call se (.intrinsic k) [eval S args a.regs d,
      eval S args a.regs s, eval S args a.regs x, eval S args a.regs vol]) a.mem).map fun r =>
        (r.1, { a with mem := r.2 }) := by
    rw [exec_noCells, evaluated op]
    rfl
  have read : ((shorten I.id news v).update I).op.map (eval S args c.regs) =
      .call se (.intrinsic k) [eval S args a.regs d, eval S args a.regs s, eval S args c.regs v,
        eval S args a.regs vol] := by
    rw [updated_op op, ← evals d (by simp), ← evals s (by simp), ← evals vol (by simp)]
    rfl
  have new : exec S args noCells ((shorten I.id news v).update I) c =
      (S.op I.ty (.call se (.intrinsic k) [eval S args a.regs d, eval S args a.regs s,
        eval S args a.regs x, eval S args a.regs vol]) a.mem).map fun r =>
        (r.1, { c with mem := r.2 }) := by
    rw [exec_noCells, read, behind.mem, lengths.call _ _ _ _ _ _ _ _ _ memory length, update_self]
    rfl
  have noFront : es.filter (fun e => decide (e.id < f.nextId)) = [] :=
    List.filter_eq_nil_iff.mpr fun e he => by simpa using hidden e he
  have id : ((shorten I.id news v).update I).id = I.id := (shorten I.id news v).update_id I
  have like : ∀ result : Option V, EventLike (Shortened size)
      ⟨I.id, a, I.op.map (eval S args a.regs), result⟩
      ⟨I.id, c, ((shorten I.id news v).update I).op.map (eval S args c.regs), result⟩ := by
    intro result
    refine ⟨rfl, ?_, rfl, behind.mem⟩
    change Shortened size (I.op.map _) (Op.map _ _)
    rw [evaluated op, read]
    exact .call se _ _ _ _ _ length
  rw [StepLike, list, execBody_append, front]
  simp only [execBody, old, new, id, List.filter_append, noFront, List.nil_append]
  cases S.op I.ty (.call se (.intrinsic k) [eval S args a.regs d, eval S args a.regs s,
      eval S args a.regs x, eval S args a.regs vol]) a.mem with
  | none => exact ⟨List.rel_filter (fun _ _ l => by simp [l.id]) (.cons (like none) .nil), .none⟩
  | some r =>
    exact ⟨List.rel_filter (fun _ _ l => by simp [l.id]) (.cons (like (some r.1)) .nil),
      .some (behind.setReg I.id r.1 r.2)⟩

/-- A constant is converted without a loss. -/
theorem step_constant {bits value : Nat} (isConst : x = .const (.int bits value))
    (wide : bits = 64 ∧ value < 2 ^ 64) (agree : Agree f a b)
    (short : ∀ e ∈ (execBody S args noCells [I] a).1, Short size e) :
    StepLike S args (expand (shorten I.id [] (shortConstant value))) (Shortened size)
      (fun d => d < f.nextId) (Agree f) I a b := by
  have nothing : execBody S args noCells [] b = ([], some b) := rfl
  refine step_shortened memory op lengths wf hN hI nothing (fun e he => by cases he) agree ?_
  have small := short_length memory op short
  obtain ⟨rfl, fits⟩ := wide
  subst isConst
  change size (S.const _) = size (S.const _)
  change size (S.const _) < _ at small
  rw [lengths.const] at small ⊢
  rw [lengths.const, ExtendPhis.getLimitedValue]
  omega

/-- The `trunc` in front of the call keeps a length below 4 GiB. -/
theorem step_trunc (agree : Agree f a b)
    (short : ∀ e ∈ (execBody S args noCells [I] a).1, Short size e) :
    StepLike S args (expand (shorten I.id [createTrunc f x] (.inst f.nextId))) (Shortened size)
      (fun d => d < f.nextId) (Agree f) I a b := by
  obtain ⟨y, result, number⟩ := lengths.trunc (eval S args b.regs x) b.mem
  have same : eval S args b.regs x = eval S args a.regs x :=
    agree.eval wf hN (PhiElimination.inst_use hI (by rw [op]; simp [Op.operands]))
  have ran : execBody S args noCells [createTrunc f x] b =
      ([⟨f.nextId, b, .cast .trunc (.int 64) (eval S args b.regs x), some y⟩],
        some (b.setReg f.nextId y)) := by
    have one : exec S args noCells (createTrunc f x) b = some (y, b) := by
      rw [exec_noCells]
      change (S.op _ _ _).map _ = _
      rw [createTrunc, Op.map, result]
      rfl
    simp only [execBody, one]
    rfl
  refine step_shortened memory op lengths wf hN hI ran (fun e he => ?_) ⟨fun i old => ?_, agree.mem⟩ ?_
  · cases List.mem_singleton.mp he
    exact lt_irrefl _
  · change Function.update b.regs f.nextId y i = _
    rw [Function.update_of_ne (by omega)]
    exact agree.regs i old
  · change _ = size (Function.update b.regs f.nextId y f.nextId)
    have small := short_length memory op short
    rw [Function.update_self, number, same, Nat.mod_eq_of_lt small]

end

end

/-! All calls. -/

section
variable {f : Function} {n : Nat}

/-- The other instructions stay where they are. -/
theorem mem_body_shortened (news : List Inst) (v : Value) {B : Block} {i : Inst} (hi : i ∈ B.body) :
    (shorten n news v).update i ∈ ((shorten n news v).block B).body :=
  mem_shortened.mpr (.inl ⟨i, hi, rfl⟩)

theorem Waits.later {count m : Nat} (waits : Waits f m) (other : m ≠ n) (news : List Inst)
    (v : Value) : Waits ((shorten n news v).apply count f) m := by
  obtain ⟨B, hB, i, hi, rfl, rest⟩ := waits
  have stays := mem_body_shortened (n := n) news v hi
  rw [update_other other] at stays
  exact ⟨_, List.mem_map_of_mem hB, i, stays, rfl, rest⟩

theorem Converted.later {count m : Nat} (converted : Converted f m) (other : m ≠ n)
    (news : List Inst) (v : Value) : Converted ((shorten n news v).apply count f) m := by
  obtain ⟨B, hB, i, hi, rfl, se, k, d, s, x, vol, memory, op, length⟩ := converted
  have stays := mem_body_shortened (n := n) news v hi
  rw [update_other other] at stays
  refine ⟨_, List.mem_map_of_mem hB, i, stays, rfl, se, k, d, s, x, vol, memory, op, ?_⟩
  refine length.imp_right fun trunc => ?_
  obtain ⟨before, j, after, u, split, isInst, ty, cast⟩ := trunc
  have nothing : (shorten n news v).inFront i = [] :=
    if_neg fun same => other (Option.some.inj same).symm
  have kept : (shorten n news v).update j = j := by
    by_cases same : j.id = n
    · have noCall : setArgOperand v j.op = j.op := by
        rw [cast]
        rfl
      subst same
      rw [update_self, noCall]
    · exact update_other same news v
  have alone : before ++ [j] = before ++ j :: [] := rfl
  have front := Edit.body_old (e := shorten n news v) alone (Option.some_ne_none j.id).symm
  rw [kept] at front
  have body := Edit.body_old (e := shorten n news v) (split.trans (List.append_cons _ _ _))
    (Option.some_ne_none _).symm
  rw [nothing, List.append_nil, update_other other, front, List.append_assoc] at body
  exact ⟨_, j, _, u, body, isInst, ty, cast⟩

theorem Converted.now {count : Nat} {N : Block} {I : Inst} {se : Bool} {k : Intrinsic}
    {d s x vol : Value} {news : List Inst} {v : Value} (hN : N ∈ f.blocks) (hI : I ∈ N.body)
    (memory : isMemory k = true) (op : I.op = .call se (.intrinsic k) [d, s, x, vol])
    (length : (∃ value, value < 2 ^ 32 ∧ v = .const (.int 32 value)) ∨
      ∃ j u, news = [j] ∧ v = .inst j.id ∧ j.ty = .int 32 ∧ j.op = .cast .trunc (.int 64) u) :
    Converted ((shorten I.id news v).apply count f) I.id := by
  refine ⟨_, List.mem_map_of_mem hN, _, mem_body_shortened news v hI, Edit.update_id _ I,
    se, k, d, s, v, vol, memory, updated_op op news v, length.imp_right ?_⟩
  rintro ⟨j, u, rfl, isInst, ty, cast⟩
  obtain ⟨before, after, split⟩ := List.append_of_mem hI
  have body := Edit.body_old (e := shorten I.id [j] v) split (Option.some_ne_none _).symm
  have here : (shorten I.id [j] v).inFront I = [j] := if_pos rfl
  rw [here, List.append_assoc] at body
  exact ⟨_, j, _, u, body, isInst, ty, cast⟩

theorem convertCall_eq (wf : f.WellFormed) {N : Block} (hN : N ∈ f.blocks) {I : Inst}
    (hI : I ∈ N.body) {se : Bool} {k : Intrinsic} {d s x vol : Value}
    (op : I.op = .call se (.intrinsic k) [d, s, x, vol]) :
    convertCall f I.id = convertLength f I.id x := by
  have found := WriterOperands.instruction_eq wf hN hI
  simp only [convertCall, found, Option.bind_some, op, Op.operands]
  rfl

/-- A constant of the IR, or a value that needs a `trunc`. -/
theorem convertLength_cases (f : Function) (n : Nat) (x : Value) :
    (∃ bits value, x = .const (.int bits value) ∧
      convertLength f n x = (shorten n [] (shortConstant value)).apply 0 f) ∨
    convertLength f n x = (shorten n [createTrunc f x] (.inst f.nextId)).apply 1 f := by
  cases x with
  | const c =>
    cases c with
    | int bits value => exact .inl ⟨bits, value, rfl, rfl⟩
    | fp | null | undef | global | function | castExpr | getElementPtrExpr | otherExpr
      | aggregateZero | array | struct | data => exact .inr rfl
  | inst d => exact .inr rfl
  | arg i => exact .inr rfl

theorem shortConstant_small (value : Nat) :
    ∃ small, small < 2 ^ 32 ∧ shortConstant value = .const (.int 32 small) :=
  ⟨_, Nat.mod_lt _ (Nat.two_pow_pos 32), rfl⟩

section
universe u
variable {V M : Type u} {S : Sem V M} (args : Nat → V) {size : V → Nat}

theorem Short.transfer {e d : Event V M} (like : EventLike (Shortened size) e d)
    (short : Short size e) : Short size d := by
  intro se k a b x vol memory op
  have ops := like.op
  rw [op] at ops
  generalize before : e.op = old at ops
  cases ops with
  | same => exact short se k a b x vol memory before
  | call _ _ _ y _ _ length =>
    rw [← length]
    exact short se k a b y vol memory before

/-- The new instructions are no calls, so that the lengths stay below 4 GiB. -/
theorem short_later (wf : f.WellFormed) {count : Nat} {news : List Inst} {v : Value}
    (casts : ∀ j ∈ news, ∃ c src x, j.op = .cast c src x) {i : Nat} {mem : M}
    (like : List.Forall₂ (VisitLike (Shortened size) fun d => d < f.nextId)
      (call S args noCells f i mem)
      (call S args noCells ((shorten n news v).apply count f) i mem))
    (short : ∀ v ∈ call S args noCells f i mem, ∀ e ∈ v.events, Short size e) :
    ∀ w ∈ call S args noCells ((shorten n news v).apply count f) i mem, ∀ e ∈ w.events,
      Short size e := by
  refine fine_transfer like (fun e d same => Short.transfer same) (fun w hw d hd new => ?_) short
  obtain ⟨B', hB', j, hj, id, op⟩ := call_ops S args _ i mem w hw d hd
  obtain ⟨B, hB, rfl⟩ := List.mem_map.mp hB'
  rcases mem_shortened.mp hj with ⟨old, hOld, rfl⟩ | ⟨isNew, -⟩
  · rw [Edit.update_id] at id
    have := wf.fresh B hB old.id (List.mem_append_left _ (List.mem_append_right _
      (List.mem_map_of_mem hOld)))
    simp only [decide_eq_false_iff_not] at new
    omega
  · obtain ⟨c, src, x, isCast⟩ := casts j isNew
    intro se k a b y vol _ call
    rw [op, isCast] at call
    cases call

variable (lengths : Lengths S size)
include lengths

/-- One call. -/
theorem convertCall_spec (ssa : Ssa f) (waits : Waits f n) :
    Ssa (convertCall f n) ∧ f.nextId ≤ (convertCall f n).nextId ∧ Converted (convertCall f n) n ∧
    (∀ m, m ≠ n → (Waits f m → Waits (convertCall f n) m) ∧
      (Converted f m → Converted (convertCall f n) m)) ∧
    ∀ i mem, (∀ v ∈ call S args noCells f i mem, ∀ e ∈ v.events, Short size e) →
      (∀ v ∈ call S args noCells (convertCall f n) i mem, ∀ e ∈ v.events, Short size e) ∧
      List.Forall₂ (VisitLike (Shortened size) fun d => d < f.nextId)
        (call S args noCells f i mem) (call S args noCells (convertCall f n) i mem) := by
  obtain ⟨N, hN, I, hI, rfl, se, k, d, s, x, vol, memory, op, wide⟩ := waits
  obtain ⟨before, after, split⟩ := List.append_of_mem hI
  rw [convertCall_eq ssa.wf hN hI op]
  rcases convertLength_cases f I.id x with ⟨bits, value, isConst, eq⟩ | eq <;> rw [eq]
  · have constant := rewrites_constant hN split op ssa value
    refine ⟨constant.ssa hN split ssa, Nat.le_refl _, .now hN hI memory op ?_, fun m other => ?_,
      fun i mem short => ?_⟩
    · exact .inl (shortConstant_small value)
    · exact ⟨fun waits => waits.later other _ _, fun done => done.later other _ _⟩
    · have like := constant.call_like .same ssa.wf hN split (fun a b agree executed =>
        step_constant memory op lengths ssa.wf hN hI isConst (wide bits value isConst) agree
          executed) i mem short
      exact ⟨short_later args ssa.wf (fun j new => by cases new) like short, like⟩
  · have trunc := rewrites_trunc hN split op ssa
    refine ⟨trunc.ssa hN split ssa, Nat.le_succ _, .now hN hI memory op ?_, fun m other => ?_,
      fun i mem short => ?_⟩
    · exact .inr ⟨_, x, rfl, rfl, rfl, rfl⟩
    · exact ⟨fun waits => waits.later other _ _, fun done => done.later other _ _⟩
    · have like := trunc.call_like .same ssa.wf hN split (fun a b agree executed =>
        step_trunc memory op lengths ssa.wf hN hI agree executed) i mem short
      refine ⟨short_later args ssa.wf (fun j new => ?_) like short, like⟩
      cases List.mem_singleton.mp new
      exact ⟨_, _, _, rfl⟩

theorem foldl_convertCall (ids : List Nat) (nodup : ids.Nodup) (f : Function) (ssa : Ssa f)
    (waits : ∀ n ∈ ids, Waits f n) :
    let g := ids.foldl convertCall f
    Ssa g ∧ f.nextId ≤ g.nextId ∧ (∀ n ∈ ids, Converted g n) ∧
    (∀ m, m ∉ ids → Converted f m → Converted g m) ∧
    ∀ i mem, (∀ v ∈ call S args noCells f i mem, ∀ e ∈ v.events, Short size e) →
      List.Forall₂ (VisitLike (Shortened size) fun d => d < f.nextId)
        (call S args noCells f i mem) (call S args noCells g i mem) := by
  induction ids generalizing f with
  | nil =>
    refine ⟨ssa, Nat.le_refl _, nofun, fun _ _ done => done, fun i mem _ => ?_⟩
    exact List.forall₂_same.mpr fun v _ => .refl .same v
  | cons d ids ih =>
    obtain ⟨fresh, nodup'⟩ := List.nodup_cons.mp nodup
    obtain ⟨ssa', more, now, later, runs⟩ :=
      convertCall_spec args lengths ssa (waits d List.mem_cons_self)
    obtain ⟨ssa'', more', done, stay, runs'⟩ := ih nodup' (convertCall f d) ssa' fun n hn =>
      (later n (ne_of_mem_of_not_mem hn fresh)).1 (waits n (List.mem_cons_of_mem d hn))
    refine ⟨ssa'', more.trans more', fun n hn => ?_, fun m notIn converted => ?_,
      fun i mem short => ?_⟩
    · rcases List.mem_cons.mp hn with rfl | hn
      · exact stay n fresh now
      · exact done n hn
    · rw [List.mem_cons, not_or] at notIn
      exact stay m notIn.2 ((later m notIn.1).2 converted)
    · obtain ⟨short', like⟩ := runs i mem short
      refine forall₂_comp (fun a b c first second => ?_) like (runs' i mem short')
      refine VisitLike.trans (fun o p q one two => one.trans two) first (second.fewer fun i old => ?_)
      simp only [decide_eq_true_eq] at old ⊢
      omega

/-- The pass keeps the single assignment form, every call that it handles has a length of 32 bits
afterwards, and every run in which no such call has a length of 4 GiB or more goes the same way,
with the same lengths, results and memory. -/
theorem processFunction_shortens {old : OldFunc} (ssa : Ssa f)
    (waits : ∀ n ∈ calls old f, Waits f n) :
    Ssa (processFunction old f) ∧ (∀ n ∈ calls old f, Converted (processFunction old f) n) ∧
    ∀ i mem, (∀ v ∈ call S args noCells f i mem, ∀ e ∈ v.events, Short size e) →
      List.Forall₂ (VisitLike (Shortened size) fun d => d < f.nextId)
        (call S args noCells f i mem) (call S args noCells (processFunction old f) i mem) := by
  obtain ⟨ssa', -, done, -, runs⟩ := foldl_convertCall args lengths (calls old f)
    (collected_nodup ssa.wf _) f ssa waits
  exact ⟨ssa', done, runs⟩

end

end

/-- A copy and a fill, of which the second has a constant length. -/
def copyAndFill : Function where
  args := [.ptr, .ptr, .int 64]
  nextId := 3
  blocks := [⟨0, [], [
    ⟨0, .void, .call true (.intrinsic .memcpy) [.arg 0, .arg 1, .arg 2, .const (.int 1 0)]⟩,
    ⟨1, .void, .call true (.intrinsic .memset)
      [.arg 0, .const (.int 8 0), .const (.int 64 16), .const (.int 1 0)]⟩], 2, .ret none⟩]

/-- The memory is the list of the lengths, the last one first. -/
def lengthLog : Sem Nat (List Nat) where
  const := fun c =>
    match c with
    | .int bits value => value % 2 ^ bits
    | _ => 0
  undef := 0
  op := fun _ op m =>
    match op with
    | .call _ _ [_, _, x, _] => some (0, x :: m)
    | .cast .trunc (.int 64) x => some (x % 2 ^ 32, m)
    | _ => none
  truth := fun v => v ≠ 0
  toNat := id

theorem lengthLog_lengths : Lengths lengthLog id where
  const _ _ := rfl
  trunc x _ := ⟨x % 2 ^ 32, rfl, rfl⟩
  call ty se k d s x y vol m _ same := by
    cases (same : x = y)
    rfl

example : ((processFunction (fun n => n < 2) copyAndFill).blocks.flatMap Block.body).map Inst.id =
    [3, 0, 1] := rfl

theorem processFunction_shortens_copyAndFill :
    Ssa (processFunction (fun n => n < 2) copyAndFill) ∧
    (∀ n ∈ calls (fun n => n < 2) copyAndFill,
      Converted (processFunction (fun n => n < 2) copyAndFill) n) ∧
    ∀ i mem, List.Forall₂ (VisitLike (Shortened id) fun d => d < 3)
      (call lengthLog (fun i => 10 * i) noCells copyAndFill i mem)
      (call lengthLog (fun i => 10 * i) noCells
        (processFunction (fun n => n < 2) copyAndFill) i mem) := by
  have waits : ∀ n ∈ calls (fun n => n < 2) copyAndFill, Waits copyAndFill n := by
    intro n hn
    have which : n ∈ [0, 1] := hn
    simp only [List.mem_cons, List.not_mem_nil, or_false] at which
    rcases which with rfl | rfl
    · refine ⟨_, List.mem_cons_self, _, List.mem_cons_self, rfl, _, _, _, _, _, _, rfl, rfl,
        fun bits value same => ?_⟩
      cases same
    · refine ⟨_, List.mem_cons_self, _, List.mem_cons_of_mem _ List.mem_cons_self, rfl,
        _, _, _, _, _, _, rfl, rfl, fun bits value same => ?_⟩
      cases same
      exact ⟨rfl, by decide⟩
  obtain ⟨ssa, converted, runs⟩ := processFunction_shortens (S := lengthLog) (fun i => 10 * i)
    lengthLog_lengths (SsaChecks.ssa_of_checks (f := copyAndFill) (by decide)).1 waits
  refine ⟨ssa, converted, fun i mem => runs i mem fun v hv e he => ?_⟩
  obtain ⟨B, hB, j, hj, -, op⟩ := call_ops _ _ _ i mem v hv e he
  cases List.mem_singleton.mp hB
  intro se k d s x vol _ isCall
  simp only [List.mem_cons, List.not_mem_nil, or_false] at hj
  rcases hj with rfl | rfl
  · cases op.symm.trans isCall
    exact (by decide : (20 : Nat) < 2 ^ 32)
  · cases op.symm.trans isCall
    exact (by decide : (16 : Nat) < 2 ^ 32)

end ConvertIntrinsics
