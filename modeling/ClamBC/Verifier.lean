import ClamBC.Fallible

/-!
# The verifier of the bytecode

`walk` goes through the instructions of all blocks. One flag has the verdict; an
instruction that is refused ends the loop over its block only, and the next block begins
with the flag set anew. Undefined values are searched in the constant expressions among
the operands, with the expressions that were visited.

Constants are unique: two that are equal are the same. `ClamBCStop` does not return.
-/

namespace Verifier

/-- A constant, as far as the search for undefined values distinguishes it; poison is a kind of
undef. Globals and other constants without operands are `leaf`. The numbers stand for opcodes, types
and values. -/
inductive Const where
  | undef (id : Nat)
  | expr (id : Nat) (operands : List Const)
  | aggregate (id : Nat) (elements : List Const)
  | leaf (id : Nat)

namespace Const

mutual

def beq : Const → Const → Bool
  | .undef i, .undef j => i = j
  | .expr i as, .expr j bs => i = j && beqList as bs
  | .aggregate i as, .aggregate j bs => i = j && beqList as bs
  | .leaf i, .leaf j => i = j
  | _, _ => false

def beqList : List Const → List Const → Bool
  | [], [] => true
  | a :: as, b :: bs => beq a b && beqList as bs
  | _, _ => false

end

mutual

theorem eq_of_beq : ∀ {a b : Const}, beq a b = true → a = b
  | .undef _, .undef _, h => by simpa [beq] using h
  | .expr i as, .expr j bs, h => by
    simp only [beq, Bool.and_eq_true, decide_eq_true_eq] at h
    rw [h.1, eq_of_beqList h.2]
  | .aggregate i as, .aggregate j bs, h => by
    simp only [beq, Bool.and_eq_true, decide_eq_true_eq] at h
    rw [h.1, eq_of_beqList h.2]
  | .leaf _, .leaf _, h => by simpa [beq] using h

theorem eq_of_beqList : ∀ {as bs : List Const}, beqList as bs = true → as = bs
  | [], [], _ => rfl
  | a :: as, b :: bs, h => by
    simp only [beqList, Bool.and_eq_true] at h
    rw [eq_of_beq h.1, eq_of_beqList h.2]

end

mutual

theorem beq_self : ∀ a : Const, beq a a = true
  | .undef _ => by simp [beq]
  | .expr _ as => by simp [beq, beqList_self as]
  | .aggregate _ as => by simp [beq, beqList_self as]
  | .leaf _ => by simp [beq]

theorem beqList_self : ∀ as : List Const, beqList as as = true
  | [] => rfl
  | a :: as => by simp [beqList, beq_self a, beqList_self as]

end

instance : DecidableEq Const := fun a b =>
  decidable_of_iff (beq a b = true) ⟨eq_of_beq, fun h => h ▸ beq_self a⟩

def isUndef : Const → Bool
  | .undef _ => true
  | _ => false

end Const

inductive Operand where
  | inst (id : Nat)
  | const (c : Const)
  | other

/-- What is read of a called function. -/
structure Prototype where
  name : String
  callingConv : Nat
  isVarArg : Bool
  numParams : Nat

inductive Callee where
  | function (f : Prototype)
  | bitCast (operand : Option Prototype)
  | other

inductive Kind where
  | phi
  | call (callee : Callee) (callingConv : Nat)
  | switch
  | store | load | getElementPtr | freeze | icmp | ret | binaryOperator | branch | select | cast
      | alloca | unreachable
  | other

structure Inst where
  kind : Kind
  operands : List Operand

/-- A block ends with one instruction at least. -/
structure Block where
  body : List Inst
  terminator : Inst

def Block.insts (b : Block) : List Inst := b.body ++ [b.terminator]

/-! ## The search for undefined values -/

mutual

/-- Whether an expression that was not visited before has an undefined value, and what is visited
then. -/
def searchExpr : Const → List Const → Bool × List Const
  | .expr i operands, visited =>
    if .expr i operands ∈ visited then (false, visited) else
      searchOperands operands (.expr i operands :: visited)
  | _, visited => (false, visited)

def searchOperands : List Const → List Const → Bool × List Const
  | [], visited => (false, visited)
  | c :: rest, visited =>
    if c.isUndef then (true, visited)
    else
      match searchExpr c visited with
      | (true, visited') => (true, visited')
      | (false, visited') => searchOperands rest visited'

end

def Operand.hasUndefsOrPoisonValues : Operand → Bool
  | .inst _ => false
  | .const c => c.isUndef || (searchExpr c []).1
  | .other => false

def Inst.hasUndefsOrPoisonValues (i : Inst) : Bool := i.operands.any Operand.hasUndefsOrPoisonValues

/-! ## The instructions -/

inductive Stop where
  | unknownCallee

def Stop.text : Stop → String
  | .unknownCallee => "Verifier unable to get called function from call instruction"

def getCalledFunction : Callee → Except Stop Prototype
  | .function f => .ok f
  | .bitCast (some f) => .ok f
  | .bitCast none => .error .unknownCallee
  | .other => .error .unknownCallee

/-- The verdict and what is printed. -/
def validateFunction (f : Prototype) : Bool × List String :=
  if f.isVarArg then
    if f.numParams = 0 then
      (false, ["Calling implicitly declared function '" ++ f.name ++
        "' is not supported (did you forget to" ++
        "implement it, or typoed the function name?)"])
    else (false,
      ["Checking calls to vararg functions/functions without" ++ "a prototype is not supported!"])
  else (true, [])

def visitCallInst (callee : Callee) (callingConv : Nat) : Except Stop (Bool × List String) :=
  match getCalledFunction callee with
  | .error s => .error s
  | .ok f =>
    if f.callingConv ≠ callingConv then
      .ok (false, ["For call to " ++ f.name ++ ", calling conventions don't match!"])
    else .ok (validateFunction f)

def Operand.isUndef : Operand → Bool
  | .const c => c.isUndef
  | _ => false

/-- An undefined value is only printed. -/
def visitPHINode (operands : List Operand) : Bool × List String :=
  (true, if operands.any Operand.isUndef then ["Undefined value in phi"] else [])

def isHandled : Kind → Bool
  | .store | .load | .getElementPtr | .freeze | .icmp | .ret | .binaryOperator | .branch | .select
      | .cast | .alloca
  | .unreachable => true
  | _ => false

def Inst.visit (i : Inst) : Except Stop (Bool × List String) :=
  match i.kind with
  | .phi => .ok (visitPHINode i.operands)
  | .call callee callingConv => visitCallInst callee callingConv
  | .switch => .ok (false, ["Need to lower switchInst's to branches"])
  | kind => .ok (isHandled kind, [])

/-! ## The walk -/

/-- The walk returned false, or the loop over a block is left with the flag. -/
inductive Left where
  | returned
  | flag (bRet : Bool)
  deriving DecidableEq

def walkBlock : List Inst → Bool → Except Stop (Left × List String)
  | [], bRet => .ok (.flag bRet, [])
  | i :: rest, _ =>
    if i.hasUndefsOrPoisonValues then
      .ok (.returned, ["Poison value or Undef value found in instruction."])
    else
      match i.visit with
      | .error s => .error s
      | .ok (false, log) => .ok (.flag false, log)
      | .ok (true, log) => (walkBlock rest true).map fun left => (left.1, log ++ left.2)

def walkBlocks : List Block → Bool → Except Stop (Bool × List String)
  | [], bRet => .ok (bRet, [])
  | b :: rest, bRet =>
    match walkBlock b.insts bRet with
    | .error s => .error s
    | .ok (.returned, log) => .ok (false, log)
    | .ok (.flag bRet, log) => (walkBlocks rest bRet).map fun result => (result.1, log ++ result.2)

def walk (blocks : List Block) : Except Stop (Bool × List String) := walkBlocks blocks true

/-! ## What is found among the constants -/

/-- There is an undefined value among the operands of the expression, or of an expression among
them. -/
inductive Const.Found : Const → Prop
  | operand {i : Nat} {operands : List Const} {c : Const} : c ∈ operands → c.isUndef = true →
      Found (.expr i operands)
  | nested {i : Nat} {operands : List Const} {c : Const} : c ∈ operands → Found c →
      Found (.expr i operands)

theorem Const.found_iff {c : Const} :
    c.Found ↔ ∃ i operands, c = .expr i operands ∧ ∃ d ∈ operands, d.isUndef = true ∨ d.Found := by
  constructor
  · intro found
    cases found with
    | operand hd undef => exact ⟨_, _, rfl, _, hd, Or.inl undef⟩
    | nested hd found => exact ⟨_, _, rfl, _, hd, Or.inr found⟩
  · rintro ⟨i, operands, rfl, d, hd, undef | found⟩
    · exact .operand hd undef
    · exact .nested hd found

/-- What was visited is without undefined values, or larger than `n` and still being searched. -/
def Settled (n : Nat) (visited : List Const) : Prop := ∀ v ∈ visited, ¬ v.Found ∨ n < sizeOf v

/-- A search finds what there is, and what it has visited in vain is without undefined values. -/
def Searches (found : Prop) (visited : List Const) (result : Bool × List Const) : Prop :=
  (result.1 = true ↔ found) ∧ (result.1 = false → ∀ v ∈ result.2, v ∈ visited ∨ ¬ v.Found)

mutual

theorem searchExpr_spec : ∀ (c : Const) (visited : List Const), Settled (sizeOf c) visited →
    Searches c.Found visited (searchExpr c visited)
  | .expr i operands, visited, settled => by
    rw [searchExpr]
    split_ifs with seen
    · have clean : ¬ (Const.expr i operands).Found := by
        rcases settled _ seen with clean | larger
        · exact clean
        · omega
      exact ⟨iff_of_false nofun clean, fun _ v hv => Or.inl hv⟩
    · have smaller : Settled (sizeOf operands) (.expr i operands :: visited) := by
        intro v hv
        rcases List.mem_cons.mp hv with rfl | hv
        · exact Or.inr (by simp only [Const.expr.sizeOf_spec]; omega)
        · refine (settled v hv).imp_right fun larger => ?_
          simp only [Const.expr.sizeOf_spec] at larger
          omega
      obtain ⟨exact, rest⟩ := searchOperands_spec operands _ smaller
      have same : (Const.expr i operands).Found ↔ ∃ c ∈ operands, c.isUndef = true ∨ c.Found := by
        rw [Const.found_iff]
        constructor
        · rintro ⟨j, others, same, found⟩
          cases same
          exact found
        · exact fun found => ⟨i, operands, rfl, found⟩
      refine ⟨exact.trans same.symm, fun failed v hv => ?_⟩
      rcases rest failed v hv with hv | clean
      · rcases List.mem_cons.mp hv with rfl | hv
        · refine Or.inr fun found => ?_
          rw [exact.mpr (same.mp found)] at failed
          cases failed
        · exact Or.inl hv
      · exact Or.inr clean
  | .undef _, visited, _ => ⟨iff_of_false nofun nofun, fun _ v hv => Or.inl hv⟩
  | .aggregate _ _, visited, _ => ⟨iff_of_false nofun nofun, fun _ v hv => Or.inl hv⟩
  | .leaf _, visited, _ => ⟨iff_of_false nofun nofun, fun _ v hv => Or.inl hv⟩

theorem searchOperands_spec : ∀ (operands visited : List Const), Settled (sizeOf operands) visited →
    Searches (∃ c ∈ operands, c.isUndef = true ∨ c.Found) visited (searchOperands operands visited)
  | [], visited, _ => ⟨iff_of_false nofun (by simp), fun _ v hv => Or.inl hv⟩
  | c :: rest, visited, settled => by
    rw [searchOperands]
    have here : Settled (sizeOf c) visited := fun v hv => (settled v hv).imp_right fun larger => by
      simp only [List.cons.sizeOf_spec] at larger
      omega
    obtain ⟨exact, visitedClean⟩ := searchExpr_spec c visited here
    split_ifs with undef
    · exact ⟨iff_of_true rfl ⟨c, List.mem_cons_self, Or.inl undef⟩, nofun⟩
    · generalize searchExpr c visited = first at exact visitedClean
      obtain ⟨found, visited'⟩ := first
      cases found with
      | true => exact ⟨iff_of_true rfl ⟨c, List.mem_cons_self, Or.inr (exact.mp rfl)⟩, nofun⟩
      | false =>
        have clean : ¬ c.Found := fun found => by cases exact.mpr found
        have later : Settled (sizeOf rest) visited' := by
          intro v hv
          rcases visitedClean rfl v hv with hv | clean
          · refine (settled v hv).imp_right fun larger => ?_
            simp only [List.cons.sizeOf_spec] at larger
            omega
          · exact Or.inl clean
        obtain ⟨exact', restClean⟩ := searchOperands_spec rest visited' later
        refine ⟨exact'.trans ?_, fun failed v hv => ?_⟩
        · simp [undef, clean]
        · rcases restClean failed v hv with hv | clean
          · exact visitedClean rfl v hv
          · exact Or.inr clean

end

/-! ## What is acceptable -/

/-- The constant stands in the other one, at any depth. -/
inductive Const.Inside : Const → Const → Prop
  | operand {i : Nat} {operands : List Const} {c : Const} : c ∈ operands →
      Inside c (.expr i operands)
  | element {i : Nat} {elements : List Const} {c : Const} : c ∈ elements →
      Inside c (.aggregate i elements)
  | trans {a b c : Const} : Inside a b → Inside b c → Inside a c

def Operand.Defined : Operand → Prop
  | .const c => c.isUndef = false ∧ ∀ i operands, c = .expr i operands → ∀ d : Const, d.Inside c →
      d.isUndef = false
  | _ => True

/-- The call has a known target, that is not variadic and has the calling convention of the call. -/
def CallKnown (callee : Callee) (callingConv : Nat) : Prop :=
  ∃ f, (callee = .function f ∨ callee = .bitCast (some f)) ∧ f.isVarArg = false ∧
    f.callingConv = callingConv

def Kind.Acceptable : Kind → Prop
  | .switch => False
  | .other => False
  | .call callee callingConv => CallKnown callee callingConv
  | _ => True

structure Inst.Acceptable (i : Inst) : Prop where
  kind : i.kind.Acceptable
  defined : ∀ o ∈ i.operands, o.Defined

/-- The walk returns, with this verdict. -/
def Verdict (blocks : List Block) (v : Bool) : Prop := ∃ log, walk blocks = .ok (v, log)

def Acceptable (blocks : List Block) : Prop := ∀ b ∈ blocks, ∀ i ∈ b.insts, i.Acceptable

/-- The visit of the instruction ends with true. -/
def Inst.passed (i : Inst) : Bool :=
  match i.visit with
  | .ok (true, _) => true
  | _ => false

/-- The instruction is refused, or has an undefined value that is found. -/
def Inst.refused (i : Inst) : Bool := i.hasUndefsOrPoisonValues || !i.passed

/-- The walk ends at the instruction: a value is undefined, or the target of a call is not known. -/
def Inst.Ends (i : Inst) : Prop := i.hasUndefsOrPoisonValues = true ∨ ∃ s, i.visit = .error s

/-- In some block the walk ends at the first instruction that is refused, or the last block has
one that is refused. -/
def Noticed (blocks : List Block) : Prop :=
  (∃ b ∈ blocks, ∃ i, b.insts.find? Inst.refused = some i ∧ i.Ends) ∨
    ∃ b ∈ blocks.getLast?, ∃ i ∈ b.insts, i.refused = true

theorem Const.Found.inside {c : Const} (found : c.Found) :
    ∃ i operands, c = .expr i operands ∧ ∃ d : Const, d.Inside c ∧ d.isUndef = true := by
  induction found with
  | operand hc undef => exact ⟨_, _, rfl, _, .operand hc, undef⟩
  | nested hc _ ih =>
    obtain ⟨-, -, -, d, inside, undef⟩ := ih
    exact ⟨_, _, rfl, d, inside.trans (.operand hc), undef⟩

theorem searchExpr_found (c : Const) : (searchExpr c []).1 = true ↔ c.Found :=
  (searchExpr_spec c [] nofun).1

/-- What is found in an operand is undefined. -/
theorem Operand.Defined.not_found {o : Operand} (defined : o.Defined) :
    o.hasUndefsOrPoisonValues = false := by
  cases o with
  | inst _ => rfl
  | other => rfl
  | const c =>
    obtain ⟨notUndef, inner⟩ := defined
    have clean : (searchExpr c []).1 = false := by
      refine Bool.eq_false_iff.mpr fun found => ?_
      obtain ⟨i, operands, same, d, inside, undef⟩ := ((searchExpr_found c).mp found).inside
      rw [inner i operands same d inside] at undef
      cases undef
    rw [Operand.hasUndefsOrPoisonValues, notUndef, clean]
    rfl

theorem Kind.Acceptable.passed {i : Inst} (acceptable : i.kind.Acceptable) : i.passed = true := by
  unfold Inst.passed Inst.visit
  cases kind : i.kind with
  | call callee callingConv =>
    rw [kind] at acceptable
    obtain ⟨f, rfl | rfl, notVariadic, same⟩ := acceptable
    · simp [visitCallInst, getCalledFunction, validateFunction, notVariadic, same]
    · simp [visitCallInst, getCalledFunction, validateFunction, notVariadic, same]
  | switch =>
    rw [kind] at acceptable
    exact acceptable.elim
  | other =>
    rw [kind] at acceptable
    exact acceptable.elim
  | _ => rfl

/-- Nothing acceptable is refused. -/
theorem Inst.Acceptable.not_refused {i : Inst} (acceptable : i.Acceptable) : i.refused = false := by
  have clean : i.hasUndefsOrPoisonValues = false :=
    List.any_eq_false.mpr fun o ho => by simp [(acceptable.defined o ho).not_found]
  rw [Inst.refused, clean, acceptable.kind.passed]
  rfl

/-! ## The verdict -/

theorem Inst.passed_iff {i : Inst} : i.passed = true ↔ ∃ log, i.visit = .ok (true, log) := by
  unfold Inst.passed
  split
  · next log visited => exact iff_of_true rfl ⟨log, visited⟩
  · next other => exact iff_of_false nofun fun ⟨log, visited⟩ => other log visited

theorem Inst.refused_false_iff {i : Inst} :
    i.refused = false ↔ i.hasUndefsOrPoisonValues = false ∧ ∃ log, i.visit = .ok (true, log) := by
  rw [Inst.refused, Bool.or_eq_false_iff, Bool.not_eq_false', Inst.passed_iff]

/-- Without instructions that are refused, a block sets the flag. -/
theorem walkBlock_clean {insts : List Inst} (clean : insts.find? Inst.refused = none)
    (some : insts ≠ []) (bRet : Bool) :
    ∃ log, walkBlock insts bRet = .ok (.flag true, log) := by
  induction insts generalizing bRet with
  | nil => exact absurd rfl some
  | cons i rest ih =>
    have here : i.refused = false := by simpa using List.find?_eq_none.mp clean i List.mem_cons_self
    obtain ⟨noUndef, log, visited⟩ := Inst.refused_false_iff.mp here
    simp only [walkBlock, noUndef, visited, Bool.false_eq_true, if_false]
    by_cases last : rest = []
    · subst last
      exact ⟨_, rfl⟩
    · obtain ⟨log', rest'⟩ := ih (List.find?_eq_none.mpr fun j hj =>
        List.find?_eq_none.mp clean j (List.mem_cons_of_mem i hj)) last true
      rw [rest']
      exact ⟨_, rfl⟩

/-- The first instruction that is refused decides how a block is left. -/
theorem walkBlock_refused {insts : List Inst} {i : Inst} (first : insts.find? Inst.refused = some i)
    (bRet : Bool) :
    (i.Ends → ∀ flag log, walkBlock insts bRet ≠ .ok (.flag flag, log)) ∧
    (¬ i.Ends → ∃ log, walkBlock insts bRet = .ok (.flag false, log)) := by
  induction insts generalizing bRet with
  | nil => cases first
  | cons j rest ih =>
    rw [walkBlock]
    by_cases here : j.refused = true
    · rw [List.find?_cons_of_pos here] at first
      cases first
      constructor
      · rintro (undef | ⟨s, failed⟩) flag log
        · rw [if_pos undef]
          exact nofun
        · split_ifs
          · exact nofun
          · rw [failed]
            exact nofun
      · intro goesOn
        have noUndef : i.hasUndefsOrPoisonValues = false :=
          Bool.eq_false_iff.mpr fun undef => goesOn (Or.inl undef)
        rw [noUndef]
        cases visited : i.visit with
        | error s => exact absurd (Or.inr ⟨s, visited⟩) goesOn
        | ok result =>
          obtain ⟨passed, log⟩ := result
          cases passed with
          | false => exact ⟨log, rfl⟩
          | true =>
            rw [Inst.refused_false_iff.mpr ⟨noUndef, log, visited⟩] at here
            cases here
    · obtain ⟨noUndef, log, visited⟩ := Inst.refused_false_iff.mp (Bool.eq_false_iff.mpr here)
      rw [List.find?_cons_of_neg here] at first
      obtain ⟨ends, goesOn⟩ := ih first true
      simp only [noUndef, visited, Bool.false_eq_true, if_false]
      constructor
      · intro isEnd flag log' left
        obtain ⟨⟨left', log''⟩, inner, same⟩ := Fallible.map_eq_ok.mp left
        cases same
        exact ends isEnd _ _ inner
      · intro noEnd
        obtain ⟨log', left⟩ := goesOn noEnd
        rw [left]
        exact ⟨_, rfl⟩

theorem Block.insts_ne_nil (b : Block) : b.insts ≠ [] := by simp [Block.insts]

/-- If the walk goes on behind the first block, the others decide. -/
theorem noticed_cons {b : Block} {rest : List Block}
    (goesOn : ∀ i, b.insts.find? Inst.refused = some i → ¬ i.Ends) (more : rest ≠ []) :
    Noticed (b :: rest) ↔ Noticed rest := by
  obtain ⟨c, rest, rfl⟩ := List.exists_cons_of_ne_nil more
  have first : (∃ i, b.insts.find? Inst.refused = some i ∧ i.Ends) ↔ False :=
    iff_of_false (fun ⟨i, found, ends⟩ => goesOn i found ends) not_false
  simp [Noticed, first]

theorem walkBlocks_true_iff (blocks : List Block) (bRet : Bool) :
    (∃ log, walkBlocks blocks bRet = .ok (true, log)) ↔
      ¬ Noticed blocks ∧ (blocks = [] → bRet = true) := by
  induction blocks generalizing bRet with
  | nil => simp [walkBlocks, Noticed]
  | cons b rest ih =>
    -- what is left to do when the block is left with a flag
    have onward {flag : Bool} (left : ∃ log, walkBlock b.insts bRet = .ok (.flag flag, log)) :
        (∃ log, walkBlocks (b :: rest) bRet = .ok (true, log)) ↔
          ¬ Noticed rest ∧ (rest = [] → flag = true) := by
      obtain ⟨log, left⟩ := left
      rw [← ih flag, walkBlocks, left]
      dsimp only
      constructor
      · rintro ⟨log', ran⟩
        obtain ⟨⟨v, log''⟩, inner, same⟩ := Fallible.map_eq_ok.mp ran
        cases same
        exact ⟨_, inner⟩
      · rintro ⟨log', ran⟩
        rw [ran]
        exact ⟨_, rfl⟩
    cases first : b.insts.find? Inst.refused with
    | none =>
      rw [onward (walkBlock_clean first b.insts_ne_nil bRet)]
      by_cases last : rest = []
      · subst last
        have clean : ∀ i ∈ b.insts, i.refused = false :=
          fun i hi => by simpa using List.find?_eq_none.mp first i hi
        simpa [Noticed, first] using clean
      · rw [noticed_cons (fun i found => by rw [first] at found; cases found) last]
        simp [last]
    | some i =>
      have refused : i.refused = true := List.find?_some first
      have mem : i ∈ b.insts := List.mem_of_find?_eq_some first
      by_cases ends : i.Ends
      · refine iff_of_false (fun ⟨log, ran⟩ => ?_) fun both =>
          both.1 (Or.inl ⟨b, List.mem_cons_self, i, first, ends⟩)
        have never := (walkBlock_refused first bRet).1 ends
        rw [walkBlocks] at ran
        split at ran
        · cases ran
        · cases ran
        · next flag log' left => exact never flag log' left
      · rw [onward ((walkBlock_refused first bRet).2 ends)]
        by_cases last : rest = []
        · subst last
          refine iff_of_false (fun both => ?_) fun both => both.1 (Or.inr ⟨b, rfl, i, mem, refused⟩)
          cases both.2 rfl
        · rw [noticed_cons (fun j found => by rw [first] at found; cases found; exact ends) last]
          simp [last]

/-- The verdict is right exactly if everything is acceptable, or what is not is noticed. -/
theorem verdict_exact_iff (blocks : List Block) :
    (Verdict blocks true ↔ Acceptable blocks) ↔ Acceptable blocks ∨ Noticed blocks := by
  have passes : Verdict blocks true ↔ ¬ Noticed blocks := by
    rw [Verdict, walk, walkBlocks_true_iff, and_iff_left fun _ => rfl]
  rw [passes]
  by_cases acceptable : Acceptable blocks
  · refine iff_of_true (iff_of_true ?_ acceptable) (Or.inl acceptable)
    rintro (⟨b, hb, i, first, -⟩ | ⟨b, last, i, hi, refused⟩)
    · have refused := List.find?_some first
      rw [(acceptable b hb i (List.mem_of_find?_eq_some first)).not_refused] at refused
      cases refused
    · rw [(acceptable b (List.mem_of_getLast? last) i hi).not_refused] at refused
      cases refused
  · rw [or_iff_right acceptable, iff_false_right acceptable, not_not]

/-- A switch before another block is not noticed. -/
theorem switch_before_return :
    Verdict [⟨[], ⟨.switch, []⟩⟩, ⟨[], ⟨.ret, []⟩⟩] true ∧
      ¬ Acceptable [⟨[], ⟨.switch, []⟩⟩, ⟨[], ⟨.ret, []⟩⟩] := by
  refine ⟨⟨_, rfl⟩, fun acceptable => ?_⟩
  exact (acceptable _ List.mem_cons_self ⟨.switch, []⟩ List.mem_cons_self).kind

end Verifier
