import ClamBC.Fallible
import ClamBC.SubstituteFunctions

/-!
# Replacing calls of intrinsics

Three passes replace calls of intrinsics by calls of functions that they generate. Each row of their
tables gives the intrinsic and, separately, the width the function is generated for. The row of
`llvm.fshl.i8` has the width 16.
-/

namespace IntrinsicSubstitutes

open Ir

/-! ## The passes -/

/-- A function of the module, or a declaration, with the name that the symbol table has for it. -/
structure Func where
  name : String
  type : Signature
  body : Option Function

/-- One call of `replaceCalls`: the name of the intrinsic, and the function that takes its place. -/
structure Row where
  intrinsicName : String
  functionName : String
  type : Signature
  code : Function

def fshlRow (intrinsicName functionName : String) (w : Nat) : Row :=
  ⟨intrinsicName, functionName, ⟨[.int w, .int w, .int w], .int w⟩, fshlFunction w⟩

def usubRow (intrinsicName : String) (w : Nat) : Row :=
  ⟨intrinsicName, ".usub", ⟨[.int w, .int w], .int w⟩, usubFunction w⟩

def icmpRow (intrinsicName newName : String) (pred : Predicate) (w : Nat) : Row :=
  ⟨intrinsicName, newName, ⟨[.int w, .int w], .int w⟩, icmpFunction pred w⟩

def removeFSHL : List Row := [
  fshlRow "llvm.fshl.i32" ".fshl.i32" 32,
  fshlRow "llvm.fshl.i16" ".fshl.i16" 16,
  fshlRow "llvm.fshl.i8" ".fshl.i8" 16]

def removeUSUB : List Row := [usubRow "llvm.usub.sat.i32" 32]

def removeUnsupportedICMPIntrinsics : List Row := [
  icmpRow "llvm.smin.i32" ".smin.32" .slt 32,
  icmpRow "llvm.smin.i16" ".smin.16" .slt 16,
  icmpRow "llvm.umin.i16" ".umin.16" .ult 16,
  icmpRow "llvm.umin.i32" ".umin.32" .ult 32,
  icmpRow "llvm.umax.i32" ".umax.32" .ugt 32,
  icmpRow "llvm.umax.i16" ".umax.16" .ugt 16,
  icmpRow "llvm.smax.i32" ".smax.32" .sgt 32,
  icmpRow "llvm.smax.i16" ".smax.16" .sgt 16]

/-- The instruction of a function, by its block and its place there. -/
structure Position where
  function : FunctionId
  block : Nat
  index : Nat
  deriving DecidableEq

def instAt (m : List Func) (p : Position) : Option Inst :=
  m[p.function]?.bind fun F => F.body.bind fun f => f.blocks[p.block]?.bind fun B =>
    B.body[p.index]?

/-- `getCalledFunction`, with the arguments. -/
def Op.calledFunction : Op Value → Option (FunctionId × List Value)
  | .call _ (.direct h) args => some (h, args)
  | _ => none

def isIntrinsic (name : String) : Bool := "llvm.".toList.isPrefixOf name.toList

def isCallTo (m : List Func) (functionName : String) (i : Inst) : Bool :=
  match Op.calledFunction i.op with
  | some (h, _) => m[h]?.any fun H => isIntrinsic H.name && functionName == H.name
  | none => false

/-- Declarations have nothing to gather. -/
def gatherCallsToIntrinsic (m : List Func) (functionName : String) : List Position :=
  m.zipIdx.flatMap fun F => (F.1.body.toList.flatMap (·.blocks.zipIdx)).flatMap fun B =>
    (B.1.body.zipIdx.filter fun i => isCallTo m functionName i.1).map fun i => ⟨F.2, B.2, i.2⟩

/-- The new call has the type of what it calls. It takes over the number, as it takes over the uses.
-/
def newCall (result : Ty) (h : FunctionId) (i : Inst) : Inst :=
  match Op.calledFunction i.op with
  | some (_, args) => ⟨i.id, result, .call true (.direct h) args⟩
  | none => i

def modifyAt (m : List Func) (p : Position) (g : Inst → Inst) : List Func :=
  m.modify p.function fun F => { F with body := F.body.map fun f =>
    { f with blocks := f.blocks.modify p.block fun B =>
      { B with body := B.body.modify p.index g } } }

def replaceAllCalls (result : Ty) (h : FunctionId) (calls : List Position)
    (m : List Func) : List Func :=
  calls.foldl (fun m p => modifyAt m p (newCall result h)) m

section
variable (suffix : List Func → String → String)

/-- The symbol table appends something to a name that is taken. -/
def Row.new (row : Row) (m : List Func) : Func :=
  ⟨row.functionName ++ suffix m row.functionName, row.type, some row.code⟩

def replaceCalls (m : List Func) (row : Row) : List Func :=
  match gatherCallsToIntrinsic m row.intrinsicName with
  | [] => m
  | calls => replaceAllCalls row.type.result m.length calls (m ++ [row.new suffix m])

def run (rows : List Row) (m : List Func) : List Func := rows.foldl (replaceCalls suffix) m

/-- The three passes in the order of the compiler. -/
def removals (m : List Func) : List Func :=
  run suffix removeFSHL (run suffix removeUSUB (run suffix removeUnsupportedICMPIntrinsics m))

end

/-! ## One replacement -/

theorem mem_gatherCallsToIntrinsic {m : List Func} {functionName : String} {p : Position} :
    p ∈ gatherCallsToIntrinsic m functionName ↔ ∃ i, instAt m p = some i ∧
      isCallTo m functionName i = true := by
  simp only [gatherCallsToIntrinsic, instAt, List.mem_flatMap, List.mem_map, List.mem_filter,
    Prod.exists, List.mem_zipIdx_iff_getElem?,
    Option.mem_toList, Option.bind_eq_some_iff]
  constructor
  · rintro ⟨F, g, atg, B, b, ⟨f, body, atb⟩, i, j, ⟨atj, call⟩, rfl⟩
    exact ⟨i, ⟨F, atg, f, body, B, atb, atj⟩, call⟩
  · rintro ⟨i, ⟨F, atg, f, body, B, atb, atj⟩, call⟩
    exact ⟨F, p.function, atg, B, p.block, ⟨f, body, atb⟩, i, p.index, ⟨atj, call⟩, rfl⟩

theorem instAt_modifyAt (m : List Func) (p q : Position) (g : Inst → Inst) :
    instAt (modifyAt m q g) p = if p = q then (instAt m p).map g else instAt m p := by
  obtain ⟨a, b, c⟩ := p
  obtain ⟨a', b', c'⟩ := q
  simp only [instAt, modifyAt, List.getElem?_modify, Position.mk.injEq]
  rcases ne_or_eq a' a with ne | rfl
  · simp [ne, ne.symm]
  cases m[a']? with
  | none => simp
  | some F =>
    obtain ⟨name, type, body⟩ := F
    cases body with
    | none => simp
    | some f =>
      simp only [if_true, Option.map_eq_map, Option.map_some, Option.bind_some,
        List.getElem?_modify, true_and]
      rcases ne_or_eq b' b with ne | rfl
      · simp [ne, ne.symm]
      cases f.blocks[b']? with
      | none => simp
      | some B =>
        rcases ne_or_eq c' c with ne | rfl
        · simp [ne, ne.symm]
        · simp

theorem newCall_of_called {i : Inst} {k : FunctionId} {args : List Value}
    (called : Op.calledFunction i.op = some (k, args)) (result : Ty) (h : FunctionId) :
    newCall result h i = ⟨i.id, result, .call true (.direct h) args⟩ := by
  rw [newCall, called]

theorem newCall_newCall (result : Ty) (h : FunctionId) (i : Inst) :
    newCall result h (newCall result h i) = newCall result h i := by
  cases called : Op.calledFunction i.op with
  | none =>
    have same : newCall result h i = i := by rw [newCall, called]
    rw [same, same]
  | some c =>
    rw [newCall_of_called called]
    rfl

theorem instAt_replaceAllCalls (result : Ty) (h : FunctionId) (calls : List Position)
    (m : List Func) (p : Position) :
    instAt (replaceAllCalls result h calls m) p = if p ∈ calls then
      (instAt m p).map (newCall result h) else instAt m p := by
  induction calls generalizing m with
  | nil => simp [replaceAllCalls]
  | cons q calls ih =>
    have step : replaceAllCalls result h (q :: calls) m =
      replaceAllCalls result h calls (modifyAt m q (newCall result h)) := rfl
    rw [step, ih, instAt_modifyAt]
    have twice : newCall result h ∘ newCall result h = newCall result h :=
      funext (newCall_newCall result h)
    by_cases here : p = q
    · by_cases later : p ∈ calls
      · simp [← here, later, twice]
      · simp [← here, later]
    · simp [here]

/-- Functions keep their names and types, and without a call to replace also the body. -/
theorem getElem?_modifyAt (m : List Func) (q : Position) (g : Inst → Inst) (h : Nat) :
    (modifyAt m q g)[h]?.map Func.name = m[h]?.map Func.name ∧
      (q.function ≠ h → (modifyAt m q g)[h]? = m[h]?) := by
  simp only [modifyAt, List.getElem?_modify]
  constructor
  · cases m[h]? with
    | none => rfl
    | some F => by_cases eq : q.function = h <;> simp [eq]
  · intro ne
    simp [ne]

theorem getElem?_replaceAllCalls (result : Ty) (new : FunctionId) (calls : List Position)
    (m : List Func) (h : Nat) :
    (replaceAllCalls result new calls m)[h]?.map Func.name = m[h]?.map Func.name ∧
      ((∀ q ∈ calls, q.function ≠ h) → (replaceAllCalls result new calls m)[h]? = m[h]?) := by
  induction calls generalizing m with
  | nil => exact ⟨rfl, fun _ => rfl⟩
  | cons q calls ih =>
    obtain ⟨names, same⟩ := getElem?_modifyAt m q (newCall result new) h
    obtain ⟨names', same'⟩ := ih (modifyAt m q (newCall result new))
    refine ⟨names'.trans names, fun apart => ?_⟩
    exact (same' fun q' mem => apart q' (List.mem_cons_of_mem _ mem)).trans
      (same (apart q List.mem_cons_self))

/-- The function that is called at a position, and the arguments. -/
def target (m : List Func) (p : Position) : Option (Func × List Value) :=
  (instAt m p).bind fun i => (Op.calledFunction i.op).bind fun c => m[c.1]?.map (·, c.2)

theorem target_eq_some {m : List Func} {p : Position} {H : Func} {args : List Value} :
    target m p = some (H, args) ↔ ∃ i h, instAt m p = some i ∧
      Op.calledFunction i.op = some (h, args) ∧ m[h]? = some H := by
  simp only [target, Option.bind_eq_some_iff, Option.map_eq_some_iff, Prod.mk.injEq, Prod.exists]
  constructor
  · rintro ⟨i, inst, h, args, called, H, atH, rfl, rfl⟩
    exact ⟨i, h, inst, called, atH⟩
  · rintro ⟨i, h, inst, called, atH⟩
    exact ⟨i, inst, h, args, called, H, atH, rfl, rfl⟩

/-- Nothing is called in it. -/
def Leaf (H : Func) : Prop :=
  ∀ f, H.body = some f → ∀ B ∈ f.blocks, ∀ i ∈ B.body, Op.calledFunction i.op = none

/-- What the rows of all tables have in common. -/
structure Row.Ok (row : Row) : Prop where
  intrinsic : isIntrinsic row.intrinsicName = true
  new : ∀ s, isIntrinsic (row.functionName ++ s) = false
  leaf : ∀ B ∈ row.code.blocks, ∀ i ∈ B.body, Op.calledFunction i.op = none

section
variable {suffix : List Func → String → String} {m : List Func} {row : Row} {p : Position}
  {H : Func} {args : List Value}

theorem instAt_lt {i : Inst} (inst : instAt m p = some i) : p.function < m.length := by
  rw [instAt, Option.bind_eq_some_iff] at inst
  obtain ⟨F, atF, -⟩ := inst
  exact (List.getElem?_eq_some_iff.mp atF).1

theorem instAt_append {new : Func} (lt : p.function < m.length) :
    instAt (m ++ [new]) p = instAt m p := by
  rw [instAt, List.getElem?_append_left lt, instAt]

theorem isCallTo_eq_true {name : String} (intrinsic : isIntrinsic name = true) {i : Inst} :
    isCallTo m name i = true ↔ ∃ h args H, Op.calledFunction i.op = some (h, args) ∧
      m[h]? = some H ∧ H.name = name := by
  rw [isCallTo]
  cases Op.calledFunction i.op with
  | none => simp
  | some c =>
    obtain ⟨h, args⟩ := c
    simp only [Option.any_eq_true, Bool.and_eq_true, beq_iff_eq, Option.some.injEq, Prod.mk.injEq]
    constructor
    · rintro ⟨H, atH, -, name⟩
      exact ⟨h, args, H, ⟨rfl, rfl⟩, atH, name.symm⟩
    · rintro ⟨h', args', H, ⟨rfl, rfl⟩, atH, rfl⟩
      exact ⟨H, atH, intrinsic, rfl⟩

theorem mem_gather_iff {name : String} (intrinsic : isIntrinsic name = true) :
    p ∈ gatherCallsToIntrinsic m name ↔ ∃ H args, target m p = some (H, args) ∧ H.name = name := by
  rw [mem_gatherCallsToIntrinsic]
  constructor
  · rintro ⟨i, inst, call⟩
    obtain ⟨h, args, H, called, atH, named⟩ := (isCallTo_eq_true intrinsic).mp call
    exact ⟨H, args, target_eq_some.mpr ⟨i, h, inst, called, atH⟩, named⟩
  · rintro ⟨H, args, calls, named⟩
    obtain ⟨i, h, inst, called, atH⟩ := target_eq_some.mp calls
    exact ⟨i, inst, (isCallTo_eq_true intrinsic).mpr ⟨h, args, H, called, atH, named⟩⟩

theorem gather_function_lt {name : String} {q : Position}
    (mem : q ∈ gatherCallsToIntrinsic m name) : q.function < m.length := by
  obtain ⟨i, inst, -⟩ := mem_gatherCallsToIntrinsic.mp mem
  exact instAt_lt inst

/-- Where nothing is called, nothing is gathered. -/
theorem gather_function_ne {h : FunctionId} (ok : row.Ok) (atH : m[h]? = some H) (leaf : Leaf H)
    {q : Position} (mem : q ∈ gatherCallsToIntrinsic m row.intrinsicName) : q.function ≠ h := by
  rintro rfl
  obtain ⟨H', args, calls, -⟩ := (mem_gather_iff ok.intrinsic).mp mem
  obtain ⟨i, h', inst, called, -⟩ := target_eq_some.mp calls
  simp only [instAt, atH, Option.bind_some, Option.bind_eq_some_iff] at inst
  obtain ⟨f, body, B, atB, ati⟩ := inst
  rw [leaf f body B (List.mem_of_getElem? atB) i (List.mem_of_getElem? ati)] at called
  exact nomatch called

theorem replaceCalls_eq (nonempty : gatherCallsToIntrinsic m row.intrinsicName ≠ []) :
    replaceCalls suffix m row =
    replaceAllCalls row.type.result m.length (gatherCallsToIntrinsic m row.intrinsicName)
      (m ++ [row.new suffix m]) := by
  unfold replaceCalls
  split
  · contradiction
  · rfl

/-- A call that was gathered calls the new function. -/
theorem target_of_named (ok : row.Ok) (calls : target m p = some (H, args))
    (named : H.name = row.intrinsicName) :
    target (replaceCalls suffix m row) p = some (row.new suffix m, args) := by
  obtain ⟨i, h, inst, called, atH⟩ := target_eq_some.mp calls
  have mem := (mem_gather_iff ok.intrinsic).mpr ⟨H, args, calls, named⟩
  rw [replaceCalls_eq (List.ne_nil_of_mem mem)]
  refine target_eq_some.mpr ⟨newCall row.type.result m.length i, m.length, ?_, ?_, ?_⟩
  · rw [instAt_replaceAllCalls, if_pos mem, instAt_append (instAt_lt inst), inst]
    rfl
  · rw [newCall_of_called called]
    rfl
  · rw [(getElem?_replaceAllCalls _ _ _ _ _).2 fun q hq => (gather_function_lt hq).ne]
    exact List.getElem?_concat_length

/-- Other calls stay, and so do the functions they call when nothing is called there. -/
theorem target_of_other (ok : row.Ok) (calls : target m p = some (H, args))
    (other : H.name ≠ row.intrinsicName) (leaf : Leaf H) :
    target (replaceCalls suffix m row) p = some (H, args) := by
  by_cases empty : gatherCallsToIntrinsic m row.intrinsicName = []
  · rw [replaceCalls, empty]
    exact calls
  obtain ⟨i, h, inst, called, atH⟩ := target_eq_some.mp calls
  have notMem : p ∉ gatherCallsToIntrinsic m row.intrinsicName := by
    intro mem
    obtain ⟨H', args', calls', named⟩ := (mem_gather_iff ok.intrinsic).mp mem
    obtain ⟨rfl, -⟩ := Prod.mk.inj (Option.some.inj (calls.symm.trans calls'))
    exact other named
  rw [replaceCalls_eq empty]
  refine target_eq_some.mpr ⟨i, h, ?_, called, ?_⟩
  · rw [instAt_replaceAllCalls, if_neg notMem, instAt_append (instAt_lt inst), inst]
  · rw [(getElem?_replaceAllCalls _ _ _ _ _).2 fun q hq => gather_function_ne ok atH leaf hq,
      List.getElem?_append_left (List.getElem?_eq_some_iff.mp atH).1, atH]

/-- Nothing is called in the new function. -/
theorem instAt_new (ok : row.Ok) {i : Inst} (inst : instAt (m ++ [row.new suffix m]) p = some i)
    (called : Op.calledFunction i.op ≠ none) :
    instAt m p = some i := by
  have lt : p.function < (m ++ [row.new suffix m]).length := instAt_lt inst
  rw [List.length_append, List.length_singleton, Nat.lt_succ_iff_lt_or_eq] at lt
  rcases lt with lt | new
  · rwa [instAt_append lt] at inst
  · simp only [instAt, new, List.getElem?_concat_length, Option.bind_some,
      Option.bind_eq_some_iff] at inst
    obtain ⟨f, body, B, atB, ati⟩ := inst
    obtain rfl := Option.some.inj body
    exact absurd (ok.leaf B (List.mem_of_getElem? atB) i (List.mem_of_getElem? ati)) called

/-- A call is to the new function, or was there and was not gathered. -/
theorem name_of_target (ok : row.Ok)
    (calls : target (replaceCalls suffix m row) p = some (H, args)) :
    isIntrinsic H.name = false ∨ H.name ≠ row.intrinsicName ∧ ∃ H', target m p = some (H', args) ∧
      H'.name = H.name := by
  by_cases empty : gatherCallsToIntrinsic m row.intrinsicName = []
  · rw [replaceCalls, empty] at calls
    refine .inr ⟨fun named => ?_, H, calls, rfl⟩
    have mem := (mem_gather_iff ok.intrinsic).mpr ⟨H, args, calls, named⟩
    rw [empty] at mem
    exact nomatch mem
  rw [replaceCalls_eq empty] at calls
  obtain ⟨i, h, inst, called, atH⟩ := target_eq_some.mp calls
  have names :=
    (getElem?_replaceAllCalls row.type.result m.length (gatherCallsToIntrinsic m row.intrinsicName)
    (m ++ [row.new suffix m]) h).1
  rw [atH] at names
  have new : h = m.length → isIntrinsic H.name = false := by
    rintro rfl
    rw [List.getElem?_concat_length] at names
    rw [Option.some.inj names]
    exact ok.new _
  rw [instAt_replaceAllCalls] at inst
  split at inst
  · rename_i mem
    obtain ⟨H', args', calls', -⟩ := (mem_gather_iff ok.intrinsic).mp mem
    obtain ⟨i', h', inst', called', -⟩ := target_eq_some.mp calls'
    rw [instAt_append (instAt_lt inst'), inst', Option.map_some, newCall_of_called called',
      Option.some.injEq] at inst
    subst inst
    exact .inl (new (congrArg Prod.fst (Option.some.inj called)).symm)
  · rename_i notMem
    have old := instAt_new ok inst (by rw [called]; nofun)
    by_cases lt : h < m.length
    · rw [List.getElem?_append_left lt] at names
      obtain ⟨H', atH', sameName⟩ := Option.map_eq_some_iff.mp names.symm
      have calls' : target m p = some (H', args) := target_eq_some.mpr ⟨i, h, old, called, atH'⟩
      refine .inr ⟨fun named => notMem ?_, H', calls', sameName⟩
      exact (mem_gather_iff ok.intrinsic).mpr ⟨H', args, calls', sameName.trans named⟩
    · refine .inl (new (le_antisymm ?_ (not_lt.mp lt)))
      obtain ⟨F, atF, -⟩ := Option.map_eq_some_iff.mp names.symm
      have bound := (List.getElem?_eq_some_iff.mp atF).1
      rw [List.length_append, List.length_singleton] at bound
      exact Nat.lt_succ_iff.mp bound

/-! ## All replacements -/

variable {rows : List Row}

theorem target_run_of_other (ok : ∀ row ∈ rows, row.Ok) (calls : target m p = some (H, args))
    (leaf : Leaf H) (other : ∀ row ∈ rows, H.name ≠ row.intrinsicName) :
    target (run suffix rows m) p = some (H, args) := by
  induction rows generalizing m with
  | nil => exact calls
  | cons row rows ih =>
    refine ih (fun row mem => ok row (List.mem_cons_of_mem _ mem)) ?_ fun row mem =>
      other row (List.mem_cons_of_mem _ mem)
    exact target_of_other (ok row List.mem_cons_self) calls (other row List.mem_cons_self) leaf

theorem Row.Ok.leaf_new (ok : row.Ok) (m : List Func) : Leaf (row.new suffix m) := by
  intro f body
  obtain rfl := Option.some.inj body
  exact ok.leaf

/-- The call of an intrinsic with a row calls the function of that row. -/
theorem target_run (ok : ∀ row ∈ rows, row.Ok) (calls : target m p = some (H, args)) (leaf : Leaf H)
    (handled : ∃ row ∈ rows, H.name = row.intrinsicName) :
    ∃ row ∈ rows, H.name = row.intrinsicName ∧
      ∃ m', target (run suffix rows m) p = some (row.new suffix m', args) := by
  induction rows generalizing m with
  | nil =>
    obtain ⟨row, mem, -⟩ := handled
    exact nomatch mem
  | cons row rows ih =>
    have ok' : ∀ row ∈ rows, row.Ok := fun row mem => ok row (List.mem_cons_of_mem _ mem)
    have first := ok row List.mem_cons_self
    by_cases named : H.name = row.intrinsicName
    · refine ⟨row, List.mem_cons_self, named, m, ?_⟩
      show target (run suffix rows (replaceCalls suffix m row)) p = _
      refine target_run_of_other ok' (target_of_named first calls named) (first.leaf_new m)
        fun other mem same => ?_
      have plain := first.new (suffix m row.functionName)
      rw [show row.functionName ++ suffix m row.functionName = other.intrinsicName from same,
        (ok' other mem).intrinsic] at plain
      exact nomatch plain
    · have later : ∃ row ∈ rows, H.name = row.intrinsicName := by
        obtain ⟨other, mem, named'⟩ := handled
        rcases List.mem_cons.mp mem with rfl | mem
        · exact absurd named' named
        · exact ⟨other, mem, named'⟩
      obtain ⟨other, mem, named', replaced⟩ := ih ok' (target_of_other first calls named leaf) later
      exact ⟨other, List.mem_cons_of_mem _ mem, named', replaced⟩

/-- No call of an intrinsic with a row is left. -/
theorem name_of_target_run (ok : ∀ row ∈ rows, row.Ok)
    (calls : target (run suffix rows m) p = some (H, args)) :
    isIntrinsic H.name = false ∨ (∀ row ∈ rows, H.name ≠ row.intrinsicName) ∧
      ∃ H', target m p = some (H', args) ∧ H'.name = H.name := by
  induction rows generalizing m with
  | nil => exact .inr ⟨nofun, H, calls, rfl⟩
  | cons row rows ih =>
    rcases ih (fun row mem => ok row (List.mem_cons_of_mem _ mem)) calls with plain
      | ⟨others, H', calls', name⟩
    · exact .inl plain
    rw [← name]
    rcases name_of_target (ok row List.mem_cons_self) calls' with plain | ⟨other, before⟩
    · exact .inl plain
    refine .inr ⟨?_, before⟩
    intro row' mem
    rcases List.mem_cons.mp mem with rfl | mem
    · exact other
    · exact name ▸ others row' mem

end

/-! ## Agreement with the intrinsics -/

/-- The intrinsics that the passes look for, in their order. -/
def intrinsics : List (String × Intrinsic) := [
  ("llvm.smin.i32", ⟨.smin, 32⟩), ("llvm.smin.i16", ⟨.smin, 16⟩), ("llvm.umin.i16", ⟨.umin, 16⟩),
    ("llvm.umin.i32", ⟨.umin, 32⟩),
  ("llvm.umax.i32", ⟨.umax, 32⟩), ("llvm.umax.i16", ⟨.umax, 16⟩), ("llvm.smax.i32", ⟨.smax, 32⟩),
    ("llvm.smax.i16", ⟨.smax, 16⟩),
  ("llvm.usub.sat.i32", ⟨.usubSat, 32⟩),
  ("llvm.fshl.i32", ⟨.fshl, 32⟩), ("llvm.fshl.i16", ⟨.fshl, 16⟩), ("llvm.fshl.i8", ⟨.fshl, 8⟩)]

/-- The declaration of an intrinsic has the type of the intrinsic. -/
structure Module where
  functions : List Func
  declared : ∀ H ∈ functions, ∀ x, (H.name, x) ∈ intrinsics → H.type = x.type ∧ H.body = none

/-- A function of the type of the intrinsic, which returns what the intrinsic returns. -/
structure Substitute (x : Intrinsic) (H : Func) : Prop where
  type : H.type = x.type
  returns : ∃ f, H.body = some f ∧ ∀ values : Nat → Nat, (∀ k, values k < 2 ^ x.width) →
    Returns f (fun k => ⟨x.width, values k⟩) ⟨x.width, x.value values⟩

/-- A call of an intrinsic, with its arguments. -/
def CallsIntrinsic (m : List Func) (p : Position) (x : Intrinsic) (args : List Value) : Prop :=
  ∃ H, target m p = some (H, args) ∧ (H.name, x) ∈ intrinsics

structure Agrees (m m' : List Func) : Prop where
  substituted : ∀ p x args, CallsIntrinsic m p x args → ∃ H, target m' p = some (H, args) ∧
    Substitute x H
  none_left : ∀ p x args, ¬ CallsIntrinsic m' p x args

def rows : List Row := removeUnsupportedICMPIntrinsics ++ removeUSUB ++ removeFSHL

theorem removals_eq (suffix : List Func → String → String) (m : List Func) :
    removals suffix m = run suffix rows m := by
  rw [rows, run, List.foldl_append, List.foldl_append]
  rfl

theorem not_isIntrinsic (s s' : String) (dot : s.toList.head? = some '.') :
    isIntrinsic (s ++ s') = false := by
  rw [isIntrinsic, String.toList_append]
  cases eq : s.toList with
  | nil => rw [eq] at dot; exact nomatch dot
  | cons c cs =>
    rw [eq] at dot
    obtain rfl : c = '.' := Option.some.inj dot
    rfl

theorem fshlRow_ok {name functionName : String} {w : Nat} (intrinsic : isIntrinsic name = true)
    (dot : functionName.toList.head? = some '.') :
    (fshlRow name functionName w).Ok where
  intrinsic := intrinsic
  new := fun s => not_isIntrinsic functionName s dot
  leaf := by simp [fshlRow, fshlFunction, fshlBody, Op.calledFunction]

theorem usubRow_ok {name : String} {w : Nat} (intrinsic : isIntrinsic name = true) :
    (usubRow name w).Ok where
  intrinsic := intrinsic
  new := fun s => not_isIntrinsic ".usub" s rfl
  leaf := by simp [usubRow, usubFunction, selecting, Op.calledFunction]

theorem icmpRow_ok {name newName : String} {pred : Predicate}
    {w : Nat} (intrinsic : isIntrinsic name = true) (dot : newName.toList.head? = some '.') :
    (icmpRow name newName pred w).Ok where
  intrinsic := intrinsic
  new := fun s => not_isIntrinsic newName s dot
  leaf := by simp [icmpRow, icmpFunction, selecting, Op.calledFunction]

theorem rows_ok : ∀ row ∈ rows, row.Ok := by
  simp only [rows, removeUnsupportedICMPIntrinsics, removeUSUB, removeFSHL, List.forall_mem_append,
    List.forall_mem_cons]
  exact ⟨⟨⟨icmpRow_ok rfl rfl, icmpRow_ok rfl rfl, icmpRow_ok rfl rfl, icmpRow_ok rfl rfl,
      icmpRow_ok rfl rfl, icmpRow_ok rfl rfl,
      icmpRow_ok rfl rfl, icmpRow_ok rfl rfl, nofun⟩, usubRow_ok rfl, nofun⟩,
    fshlRow_ok rfl rfl, fshlRow_ok rfl rfl, fshlRow_ok rfl rfl, nofun⟩

/-- The function of a row computes the intrinsic. -/
structure Row.Implements (row : Row) (x : Intrinsic) : Prop where
  type : row.type = x.type
  returns : ∀ values : Nat → Nat, (∀ k, values k < 2 ^ x.width) →
    Returns row.code (fun k => ⟨x.width, values k⟩) ⟨x.width, x.value values⟩

theorem fshlRow_implements (name functionName : String) {w : Nat} (positive : 0 < w)
    (half : w ≤ 32) :
    (fshlRow name functionName w).Implements ⟨.fshl, w⟩ :=
  ⟨rfl, fun _ bounded => fshl_returns positive half (bounded 0) (bounded 1) rfl rfl rfl⟩

theorem usubRow_implements (name : String) (w : Nat) : (usubRow name w).Implements ⟨.usubSat, w⟩ :=
  ⟨rfl, fun _ bounded => usub_returns (bounded 0) rfl rfl⟩

theorem smin_implements (name newName : String) (w : Nat) :
    (icmpRow name newName .slt w).Implements ⟨.smin, w⟩ :=
  ⟨rfl, fun _ bounded => smin_returns rfl rfl (bounded 0) (bounded 1)⟩

theorem smax_implements (name newName : String) (w : Nat) :
    (icmpRow name newName .sgt w).Implements ⟨.smax, w⟩ :=
  ⟨rfl, fun _ _ => smax_returns rfl rfl⟩

theorem umin_implements (name newName : String) (w : Nat) :
    (icmpRow name newName .ult w).Implements ⟨.umin, w⟩ :=
  ⟨rfl, fun _ _ => umin_returns rfl rfl⟩

theorem umax_implements (name newName : String) (w : Nat) :
    (icmpRow name newName .ugt w).Implements ⟨.umax, w⟩ :=
  ⟨rfl, fun _ _ => umax_returns rfl rfl⟩

/-- Every row but the last is right. -/
theorem rows_implement :
    List.Forall₂ (fun row e => row.intrinsicName = e.1 ∧ (e.2 ≠ ⟨.fshl, 8⟩ → row.Implements e.2))
      rows intrinsics :=
  .cons ⟨rfl, fun _ => smin_implements _ _ _⟩ <|
  .cons ⟨rfl, fun _ => smin_implements _ _ _⟩ <|
  .cons ⟨rfl, fun _ => umin_implements _ _ _⟩ <|
  .cons ⟨rfl, fun _ => umin_implements _ _ _⟩ <|
  .cons ⟨rfl, fun _ => umax_implements _ _ _⟩ <|
  .cons ⟨rfl, fun _ => umax_implements _ _ _⟩ <|
  .cons ⟨rfl, fun _ => smax_implements _ _ _⟩ <|
  .cons ⟨rfl, fun _ => smax_implements _ _ _⟩ <|
  .cons ⟨rfl, fun _ => usubRow_implements _ _⟩ <|
  .cons ⟨rfl, fun _ => fshlRow_implements _ _ (by decide) (by decide)⟩ <|
  .cons ⟨rfl, fun _ => fshlRow_implements _ _ (by decide) (by decide)⟩ <|
  .cons ⟨rfl, fun other => absurd rfl other⟩ .nil

theorem names_nodup : (rows.map Row.intrinsicName).Nodup := by
  decide

theorem eq_of_name {row row' : Row} (hr : row ∈ rows) (hr' : row' ∈ rows)
    (same : row.intrinsicName = row'.intrinsicName) : row = row' :=
  List.inj_on_of_nodup_map names_nodup hr hr' same

theorem exists_row {name : String} {x : Intrinsic} (mem : (name, x) ∈ intrinsics) :
    ∃ row ∈ rows, name = row.intrinsicName ∧ (x ≠ ⟨.fshl, 8⟩ → row.Implements x) := by
  obtain ⟨row, hr, same, right⟩ := Fallible.exists_of_forall₂ rows_implement mem
  exact ⟨row, hr, same.symm, right⟩

/-- A row whose name is that of the intrinsic computes it, but for the funnel shift of 8 bits. -/
theorem implements_of_row {row : Row} (hr : row ∈ rows) {x : Intrinsic}
    (mem : (row.intrinsicName, x) ∈ intrinsics) (other : x ≠ ⟨.fshl, 8⟩) : row.Implements x := by
  obtain ⟨row', hr', same, right⟩ := exists_row mem
  rw [eq_of_name hr hr' same]
  exact right other

theorem Row.Implements.substitute {row : Row} {x : Intrinsic} (right : row.Implements x)
    (suffix : List Func → String → String) (m : List Func) : Substitute x (row.new suffix m) :=
  ⟨right.type, row.code, rfl, right.returns⟩

/-- The last row has 16 bits. -/
theorem not_substitute {row : Row} (hr : row ∈ rows) (same : row.intrinsicName = "llvm.fshl.i8")
    (suffix : List Func → String → String) (m : List Func) :
    ¬ Substitute ⟨.fshl, 8⟩ (row.new suffix m) := by
  intro substitute
  obtain rfl : row = fshlRow "llvm.fshl.i8" ".fshl.i8" 16 :=
    eq_of_name hr (List.mem_of_getElem? (i := 11) rfl) same
  have result : Ty.int 16 = Ty.int 8 := congrArg Signature.result substitute.type
  exact absurd (Ty.int.inj result) (by decide)

/-- The substitutes agree with the intrinsics exactly if no funnel shift of 8 bits is called. -/
theorem removals_agree_iff (suffix : List Func → String → String) (m : Module) :
    Agrees m.functions (removals suffix m.functions) ↔
      ∀ p args, ¬ CallsIntrinsic m.functions p ⟨.fshl, 8⟩ args := by
  rw [removals_eq]
  have replaced : ∀ p x args, CallsIntrinsic m.functions p x args →
      ∃ row ∈ rows, (row.intrinsicName, x) ∈ intrinsics ∧
      ∃ m', target (run suffix rows m.functions) p = some (row.new suffix m', args) := by
    rintro p x args ⟨H, calls, mem⟩
    have leaf : Leaf H := by
      obtain ⟨i, h, -, -, atH⟩ := target_eq_some.mp calls
      intro f body
      rw [(m.declared H (List.mem_of_getElem? atH) x mem).2] at body
      exact nomatch body
    obtain ⟨row, hr, named, -⟩ := exists_row mem
    obtain ⟨row, hr, named, after⟩ := target_run rows_ok calls leaf ⟨row, hr, named⟩
    exact ⟨row, hr, named ▸ mem, after⟩
  constructor
  · intro agrees p args calls
    obtain ⟨H, after, substitute⟩ := agrees.substituted p _ args calls
    obtain ⟨row, hr, mem, m', after'⟩ := replaced p _ args calls
    obtain ⟨rfl, -⟩ := Prod.mk.inj (Option.some.inj (after.symm.trans after'))
    have named : row.intrinsicName = "llvm.fshl.i8" := by simpa [intrinsics] using mem
    exact not_substitute hr named suffix m' substitute
  · intro others
    refine ⟨fun p x args calls => ?_, fun p x args => ?_⟩
    · obtain ⟨row, hr, mem, m', after⟩ := replaced p x args calls
      refine ⟨_, after, (implements_of_row hr mem ?_).substitute suffix m'⟩
      rintro rfl
      exact others p args calls
    · rintro ⟨H, after, mem⟩
      obtain ⟨row, hr, named, -⟩ := exists_row mem
      rcases name_of_target_run rows_ok after with plain | ⟨none, -⟩
      · rw [named, (rows_ok row hr).intrinsic] at plain
        exact nomatch plain
      · exact none row hr named

/-- A function calls the funnel shift of 8 bits. -/
def shifting : Module where
  functions := [
    ⟨"rotate", ⟨[.int 8], .int 8⟩, some
      ⟨[.int 8], [⟨0, [], [⟨0, .int 8, .call false (.direct 1) [.arg 0, .arg 0,
        .const (.int 8 3)]⟩], 1, .ret (some (.inst 0))⟩], 2⟩⟩,
    ⟨"llvm.fshl.i8", signature .fshl 8, none⟩]
  declared := by
    refine List.forall_mem_cons.mpr ⟨fun x mem => ?_,
      List.forall_mem_cons.mpr ⟨fun x mem => ?_, nofun⟩⟩
    · simp [intrinsics] at mem
    · obtain rfl : x = ⟨.fshl, 8⟩ := by simpa [intrinsics] using mem
      exact ⟨rfl, rfl⟩

/-- The substitute takes and returns 16 bits. -/
theorem substitute_of_16_bits :
    ¬ Agrees shifting.functions (removals (fun _ _ => "") shifting.functions) := by
  intro agrees
  have calls :
      CallsIntrinsic shifting.functions ⟨0, 0, 0⟩ ⟨.fshl, 8⟩ [.arg 0, .arg 0, .const (.int 8 3)] :=
    ⟨⟨"llvm.fshl.i8", signature .fshl 8, none⟩, rfl, List.mem_of_getElem? (i := 11) rfl⟩
  obtain ⟨H, after, substitute⟩ := agrees.substituted _ _ _ calls
  have computed : (target (removals (fun _ _ => "") shifting.functions) ⟨0, 0, 0⟩).map
    (·.1.type.result) = some (.int 16) := rfl
  rw [after] at computed
  have result : Ty.int 8 = Ty.int 16 :=
    (congrArg Signature.result substitute.type).symm.trans (Option.some.inj computed)
  exact absurd (Ty.int.inj result) (by decide)

end IntrinsicSubstitutes
