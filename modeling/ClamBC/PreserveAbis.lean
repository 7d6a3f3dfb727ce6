import ClamBC.DependentValues
import ClamBC.Ir

/-!
# Preserving the arguments of functions

The first run gives every function with arguments a call of a declaration that is made for it, so
that the optimizer keeps the arguments. The names of the declarations are recorded in the module.
The second run looks the names up and removes the declarations with all their calls.

The optimizer can copy and delete such calls, and delete functions. When no call of a declaration is
left, it can also delete the declaration. Then the second run has no function to remove.
-/

namespace PreserveAbis

/-! ## Modules -/

inductive Linkage where
  | external | availableExternally | linkOnceAny | linkOnceODR | weakAny | weakODR
      | appending | internal
  | privateLinkage | externalWeak | common
  deriving DecidableEq

/-- Values are referred to by identity. -/
inductive Value where
  | function (id : Nat)
  | global (id : Nat)
  | constant (id : Nat)
  | inst (function id : Nat)
  | arg (function index : Nat)
  deriving DecidableEq

inductive Kind where
  | alloca
  | call
  | other (opcode : Nat)
  deriving DecidableEq

/-- The last operand of a call is what is called. -/
structure Inst where
  id : Nat
  kind : Kind
  operands : List Value
  deriving DecidableEq

structure FunctionType where
  params : List Ir.Ty
  result : Ir.Ty

/-- A declaration has no blocks. Terminators are the last instructions of their blocks. -/
structure Func where
  id : Nat
  name : String
  linkage : Linkage
  type : FunctionType
  blocks : List (List Inst)

def Func.insts (F : Func) : List Inst := F.blocks.flatten

structure Constant where
  id : Nat
  isExpr : Bool
  operands : List Value

structure Global where
  id : Nat
  initializer : Option Value

structure Contents where
  functions : List Func
  constants : List Constant
  globals : List Global

/-- The instructions, constants and global variables that a value is an operand of. -/
def Contents.users (m : Contents) (v : Value) : List Value :=
  (m.functions.flatMap fun F => (F.insts.filter fun i => v ∈ i.operands).map fun i =>
    .inst F.id i.id) ++
    (m.constants.filter fun c => v ∈ c.operands).map (fun c => .constant c.id) ++
    (m.globals.filter fun g => g.initializer = some v).map fun g => .global g.id

def Func.restrict (F : Func) (keep : Inst → Bool) : Func :=
  { F with blocks := F.blocks.map fun B => B.filter keep }

/-- Keep some of the functions, and some of their instructions. -/
def Contents.restrict (m : Contents) (keep : Nat → Bool) (keepInst : Nat → Inst → Bool) :
    Contents :=
  { m with functions := (m.functions.filter fun F => keep F.id).map fun F =>
    F.restrict (keepInst F.id) }

def Contents.eraseInst (m : Contents) (g n : Nat) : Contents :=
  m.restrict (fun _ => true) fun h i => !(h == g && i.id == n)

def Contents.eraseFunction (m : Contents) (h : Nat) : Contents :=
  m.restrict (fun g => g != h) fun _ _ => true

def Contents.insertInst (m : Contents) (g b j : Nat) (i : Inst) : Contents :=
  { m with functions := m.functions.map fun F =>
      if F.id = g then { F with blocks := F.blocks.modify b fun B => B.insertIdx j i } else F }

/-! ## The first run -/

inductive Fault where
  | null | impossible | whatGlobals | whatHappened | fuel
  deriving DecidableEq

/-- The symbol table changes a name that is taken. -/
structure SymbolTable where
  unique : List String → String → String
  unique_notMem : ∀ taken name, unique taken name ∉ taken

def fresh (ids : List Nat) : Nat := ids.foldr max 0 + 1

def Func.isDeclaration (F : Func) : Bool := F.blocks.isEmpty

def isAlloca (i : Inst) : Bool := i.kind = .alloca

section
variable (table : SymbolTable)

def fakeFunction (all : List Func) (F : Func) : Func where
  id := fresh (all.map Func.id)
  name := table.unique (all.map Func.name) (F.name ++ "_fake")
  linkage := .external
  type := F.type
  blocks := []

def fakeCall (F fake : Func) : Inst where
  id := fresh (F.insts.map Inst.id)
  kind := .call
  operands := (List.range F.type.params.length).map (Value.arg F.id) ++ [.function fake.id]

/-- The call stands before the first instruction of the entry that is no alloca. -/
def processFunction (all : List Func) (F : Func) : Except Fault (Func × List Func) :=
  if F.type.params.length = 0 then .ok (F, [])
  else
    let fake := fakeFunction table all F
    match F.blocks with
    | [] => .error .impossible
    | entry :: rest =>
      if entry.all isAlloca then .error .impossible
      else .ok ({ F with blocks := (entry.takeWhile isAlloca ++ fakeCall F fake ::
        entry.dropWhile isAlloca) :: rest }, [fake])

/-- From outside, the optimizer cannot see that an argument is not used. -/
def externalize (F : Func) : Func :=
  if F.isDeclaration then F else if F.linkage = .internal then
    { F with linkage := .external } else F

/-- The loop over the functions. New declarations stand behind all others, and have nothing to
process. -/
def addFakeFunctions (all : List Func) :
    List Func → List Func → Except Fault (List Func × List Func)
  | [], fakeFunctions => .ok ([], fakeFunctions)
  | F :: rest, fakeFunctions =>
    (if F.isDeclaration then .ok (F, []) else
        processFunction table (all ++ fakeFunctions) (externalize F)).bind fun r =>
      (addFakeFunctions all rest (fakeFunctions ++ r.2)).map fun s => (r.1 :: s.1, s.2)

def firstRun (m : Contents) : Except Fault (Contents × List String) :=
  (addFakeFunctions table m.functions m.functions []).map fun r =>
    ({ m with functions := r.1 ++ r.2 }, r.2.map Func.name)

/-! ## The second run -/

structure Search where
  visited : List Value
  insts : List (Nat × Nat)
  globs : List Nat

/-- All users of a value, and their users. The value that the search starts from is not among the
instructions. -/
def getDependentValues (m : Contents) : Nat → Value → Search → Except Fault Search
  | 0, _, _ => .error .fuel
  | fuel + 1, v, s =>
    if v ∈ s.visited then .ok s
    else
      let s' := { s with visited := v :: s.visited }
      let entered : Except Fault Search :=
        if s.visited.isEmpty then .ok s'
        else match v with
          | .inst g n => .ok { s' with insts := s'.insts.insert (g, n) }
          | .global k => .ok { s' with globs := s'.globs.insert k }
          | .constant c =>
            -- Of a constant expression, the base is searched, too.
            match (m.constants.find? fun e : Constant => e.id = c && e.isExpr).bind fun e =>
              e.operands.head? with
            | some base => getDependentValues m fuel base s'
            | none => .ok s'
          | _ => .ok s'
      entered.bind fun s => (m.users v).foldlM (fun s u => getDependentValues m fuel u s) s

def Contents.isCall (m : Contents) (g n : Nat) : Bool :=
  m.functions.any fun F => F.id = g && F.insts.any fun i => i.id = n && i.kind = .call

def Contents.eraseInsts (m : Contents) (insts : List (Nat × Nat)) : Except Fault Contents :=
  insts.foldlM (fun (m' : Contents) (u : Nat × Nat) =>
    if m.isCall u.1 u.2 then Except.ok (m'.eraseInst u.1 u.2) else
      Except.error Fault.whatHappened) m

/-- One name of the list. Without a function of this name, `getFunction` returns a null pointer. -/
def removeFakeFunction (fuel : Nat) (m : Contents) (name : String) : Except Fault Contents :=
  match m.functions.find? fun F => F.name = name with
  | none => .error .null
  | some pf => (getDependentValues m fuel (.function pf.id) ⟨[], [], []⟩).bind fun s =>
    if s.globs ≠ [] then .error .whatGlobals
    else (m.eraseInsts s.insts).map fun m' => m'.eraseFunction pf.id

def removeFakeFunctions (fuel : Nat) (m : Contents) (names : List String) : Except Fault Contents :=
  names.foldlM (removeFakeFunction fuel) m

/-- The names are in the metadata, which only the first run writes. -/
def run (fuel : Nat) (m : Contents) :
    Option (List String) → Except Fault (Contents × Option (List String))
  | some names => (removeFakeFunctions fuel m names).map fun m' => (m', none)
  | none => (firstRun table m).map fun r => (r.1, some r.2)

end

/-! ## Between the runs -/

def fakes (names : List String) (m : Contents) : List Nat :=
  (m.functions.filter fun F => F.name ∈ names).map Func.id

def Inst.calledFunction (i : Inst) : Option Nat :=
  match i.kind, i.operands.getLast? with
  | .call, some (.function h) => some h
  | _, _ => none

def Inst.calls (i : Inst) (hs : List Nat) : Bool := i.calledFunction.any fun h => h ∈ hs

/-- Without the recorded declarations and all calls of them. -/
def strip (names : List String) (m : Contents) : Contents :=
  m.restrict (fun h => h ∉ fakes names m) fun _ i => !i.calls (fakes names m)

/-- All recorded declarations are still there. -/
def Present (names : List String) (m : Contents) : Prop :=
  ∀ name ∈ names, ∃ F ∈ m.functions, F.name = name

instance (names : List String) (m : Contents) : Decidable (Present names m) :=
  inferInstanceAs (Decidable (∀ name ∈ names, ∃ F ∈ m.functions, F.name = name))

/-- A value that an optimizer can give to a call: not a fake function, and not what a fake call
returns. -/
def Plain (names : List String) (m : Contents) (v : Value) : Prop :=
  (∀ h ∈ fakes names m, v ≠ .function h) ∧
    ∀ F ∈ m.functions, ∀ i ∈ F.insts, i.calls (fakes names m) = true → v ≠ .inst F.id i.id

inductive Step (names : List String) (m : Contents) : Contents → Prop
  /-- Another call of a recorded declaration, with arguments for the place it is at and an unused
  result. -/
  | copyCall (g b j n h : Nat) (args : List Value) (fake : h ∈ fakes names m)
      (isNew : ∀ F ∈ m.functions, F.id = g → n ∉ F.insts.map Inst.id)
      (unused : m.users (.inst g n) = [])
      (plain : ∀ v ∈ args, v ≠ .inst g n ∧ Plain names m v) :
    Step names m (m.insertInst g b j ⟨n, .call, args ++ [.function h]⟩)
  | deleteCall (F : Func) (i : Inst) (here : F ∈ m.functions) (mem : i ∈ F.insts)
      (calls : i.calls (fakes names m) = true) :
      Step names m (m.eraseInst F.id i.id)
  | deleteFunction (h : Nat) (notFake : h ∉ fakes names m) : Step names m (m.eraseFunction h)
  | deleteDeclaration (h : Nat) (fake : h ∈ fakes names m) (unused : m.users (.function h) = []) :
      Step names m (m.eraseFunction h)

/-- A module as it comes to the first run. -/
structure Program extends Contents where
  ids : (functions.map Func.id).Nodup
  names : (functions.map Func.name).Nodup
  instIds : ∀ F ∈ functions, (F.insts.map Inst.id).Nodup
  functionOperands : ∀ v h, v ∈ toContents.users (.function h) → h ∈ functions.map Func.id
  instOperands : ∀ v g n, v ∈ toContents.users (.inst g n) → ∃ F ∈ functions, F.id = g ∧
    n ∈ F.insts.map Inst.id
  terminated : ∀ F ∈ functions, ∀ entry ∈ F.blocks.head?, entry.all isAlloca = false

/-! ## Users -/

theorem mem_users {m : Contents} {v u : Value} : u ∈ m.users v ↔
    (∃ F ∈ m.functions, ∃ i ∈ F.insts, v ∈ i.operands ∧ u = .inst F.id i.id) ∨
      (∃ c ∈ m.constants, v ∈ c.operands ∧ u = .constant c.id) ∨
        ∃ g ∈ m.globals, g.initializer = some v ∧ u = .global g.id := by
  simp only [Contents.users, List.mem_append, List.mem_flatMap, List.mem_map, List.mem_filter,
    decide_eq_true_eq, and_assoc, or_assoc,
    eq_comm (a := u)]

theorem users_eq_nil {m : Contents} {v : Value} :
    m.users v = [] ↔ (∀ F ∈ m.functions, ∀ i ∈ F.insts, v ∉ i.operands) ∧
    (∀ c ∈ m.constants, v ∉ c.operands) ∧ ∀ g ∈ m.globals, g.initializer ≠ some v := by
  rw [List.eq_nil_iff_forall_not_mem]
  constructor
  · intro none
    exact ⟨fun F hF i hi mem => none _ (mem_users.mpr (.inl ⟨F, hF, i, hi, mem, rfl⟩)),
      fun c hc mem => none _ (mem_users.mpr (.inr (.inl ⟨c, hc, mem, rfl⟩))),
      fun g hg init => none _ (mem_users.mpr (.inr (.inr ⟨g, hg, init, rfl⟩)))⟩
  · rintro ⟨insts, constants, globals⟩ u mem
    rcases mem_users.mp mem with ⟨F, hF, i, hi, use, -⟩ | ⟨c, hc, use, -⟩ | ⟨g, hg, use, -⟩
    · exact insts F hF i hi use
    · exact constants c hc use
    · exact globals g hg use

theorem calledFunction_eq_some {i : Inst} {h : Nat} :
    i.calledFunction = some h ↔ i.kind = .call ∧ i.operands.getLast? = some (.function h) := by
  unfold Inst.calledFunction
  split
  · rename_i kind last
    simp [kind, last]
  · rename_i other
    simp only [reduceCtorEq, false_iff, not_and]
    exact fun kind last => other h kind last

theorem calls_iff {i : Inst} {hs : List Nat} :
    i.calls hs = true ↔ ∃ h ∈ hs, i.calledFunction = some h := by
  simp only [Inst.calls, Option.any_eq_true, decide_eq_true_eq]
  exact ⟨fun ⟨h, called, mem⟩ => ⟨h, mem, called⟩, fun ⟨h, mem, called⟩ => ⟨h, called, mem⟩⟩

theorem mem_operands_of_calledFunction {i : Inst} {h : Nat} (called : i.calledFunction = some h) :
    .function h ∈ i.operands :=
  List.mem_of_getLast? (calledFunction_eq_some.mp called).2

/-! ## Restrictions -/

@[simp] theorem insts_restrict (F : Func) (keep : Inst → Bool) :
    (F.restrict keep).insts = F.insts.filter keep := by
  rw [Func.insts, Func.insts, List.filter_flatten]
  rfl

section
variable {m : Contents} {keep : Nat → Bool} {keepInst : Nat → Inst → Bool}

theorem mem_restrict {F : Func} :
    F ∈ (m.restrict keep keepInst).functions ↔ ∃ G ∈ m.functions, keep G.id = true ∧
      G.restrict (keepInst G.id) = F := by
  simp only [Contents.restrict, List.mem_map, List.mem_filter, and_assoc]

theorem restrict_restrict (m : Contents) (keep keep' : Nat → Bool)
    (keepInst keepInst' : Nat → Inst → Bool) :
    (m.restrict keep keepInst).restrict keep' keepInst' =
      m.restrict (fun h => keep h && keep' h) fun h i => keepInst h i && keepInst' h i := by
  have twice (F : Func) : (F.restrict (keepInst F.id)).restrict (keepInst' F.id) =
      F.restrict fun i => keepInst F.id i && keepInst' F.id i := by
    simp only [Func.restrict, List.map_map, Function.comp_def, List.filter_filter, Bool.and_comm]
  simp only [Contents.restrict, List.filter_map, List.map_map, List.filter_filter,
    Contents.mk.injEq, and_true]
  congr 1
  · funext F
    exact twice F
  · congr 1
    funext F
    exact Bool.and_comm _ _

theorem restrict_congr {keep' : Nat → Bool} {keepInst' : Nat → Inst → Bool}
    (same : ∀ F ∈ m.functions, keep F.id = keep' F.id) (sameInst : ∀ F ∈ m.functions, keep F.id =
      true → ∀ i ∈ F.insts, keepInst F.id i = keepInst' F.id i) :
    m.restrict keep keepInst = m.restrict keep' keepInst' := by
  have functions :
      m.functions.filter (fun F => keep F.id) = m.functions.filter fun F => keep' F.id :=
    List.filter_congr same
  unfold Contents.restrict
  rw [← functions]
  congr 1
  refine List.map_congr_left fun F mem => ?_
  obtain ⟨hF, kept⟩ := List.mem_filter.mp mem
  unfold Func.restrict
  congr 1
  exact List.map_congr_left fun B hB => List.filter_congr fun i hi =>
    sameInst F hF kept i (List.mem_flatten_of_mem hB hi)

theorem restrict_true (m : Contents) : (m.restrict (fun _ => true) fun _ _ => true) = m := by
  have same (F : Func) : (F.restrict fun _ => true) = F := by simp [Func.restrict]
  simp [Contents.restrict, same]

theorem users_restrict {v : Value} (unused : m.users v = []) :
    (m.restrict keep keepInst).users v = [] := by
  obtain ⟨insts, constants, globals⟩ := users_eq_nil.mp unused
  refine users_eq_nil.mpr ⟨fun F hF i hi => ?_, constants, globals⟩
  obtain ⟨G, hG, -, rfl⟩ := mem_restrict.mp hF
  rw [insts_restrict] at hi
  exact insts G hG i (List.mem_of_mem_filter hi)

theorem mem_fakes {names : List String} {h : Nat} :
    h ∈ fakes names m ↔ ∃ F ∈ m.functions, F.name ∈ names ∧ F.id = h := by
  simp only [fakes, List.mem_map, List.mem_filter, decide_eq_true_eq, and_assoc]

theorem mem_fakes_restrict {names : List String} {h : Nat} :
    h ∈ fakes names (m.restrict keep keepInst) ↔ h ∈ fakes names m ∧ keep h = true := by
  rw [mem_fakes, mem_fakes]
  constructor
  · rintro ⟨F, hF, named, rfl⟩
    obtain ⟨G, hG, kept, rfl⟩ := mem_restrict.mp hF
    exact ⟨⟨G, hG, named, rfl⟩, kept⟩
  · rintro ⟨⟨G, hG, named, rfl⟩, kept⟩
    exact ⟨_, mem_restrict.mpr ⟨G, hG, kept, rfl⟩, named, rfl⟩

end

/-! ## What stays true between the runs -/

/-- Recorded declarations are used in calls only, and the results of the calls are not used. -/
structure Inv (names : List String) (m : Contents) : Prop where
  recorded : names.Nodup
  ids : (m.functions.map Func.id).Nodup
  functionNames : (m.functions.map Func.name).Nodup
  instIds : ∀ F ∈ m.functions, (F.insts.map Inst.id).Nodup
  calls : ∀ h ∈ fakes names m, ∀ F ∈ m.functions, ∀ i ∈ F.insts, .function h ∈ i.operands →
    i.calledFunction = some h ∧ m.users (.inst F.id i.id) = []
  constants : ∀ h ∈ fakes names m, ∀ c ∈ m.constants, .function h ∉ c.operands
  globals : ∀ h ∈ fakes names m, ∀ g ∈ m.globals, g.initializer ≠ some (.function h)

section
variable {names : List String} {m : Contents}

theorem Inv.restrict (inv : Inv names m) (keep : Nat → Bool) (keepInst : Nat → Inst → Bool)
    {names' : List String} (sub : names' ⊆ names) (recorded : names'.Nodup) :
    Inv names' (m.restrict keep keepInst) := by
  have fake : ∀ h ∈ fakes names' (m.restrict keep keepInst), h ∈ fakes names m := by
    intro h mem
    obtain ⟨F, hF, named, same⟩ := mem_fakes.mp (mem_fakes_restrict.mp mem).1
    exact mem_fakes.mpr ⟨F, hF, sub named, same⟩
  have sublist : (m.functions.filter fun F => keep F.id).Sublist m.functions := List.filter_sublist
  refine ⟨recorded, ?_, ?_, ?_, ?_, fun h mem => inv.constants h (fake h mem),
    fun h mem => inv.globals h (fake h mem)⟩
  · simp only [Contents.restrict, List.map_map]
    exact inv.ids.sublist (sublist.map Func.id)
  · simp only [Contents.restrict, List.map_map]
    exact inv.functionNames.sublist (sublist.map Func.name)
  · intro F hF
    obtain ⟨G, hG, -, rfl⟩ := mem_restrict.mp hF
    rw [insts_restrict]
    exact (inv.instIds G hG).sublist (List.filter_sublist.map Inst.id)
  · intro h mem F hF i hi use
    obtain ⟨G, hG, -, rfl⟩ := mem_restrict.mp hF
    rw [insts_restrict] at hi
    obtain ⟨called, unused⟩ := inv.calls h (fake h mem) G hG i (List.mem_of_mem_filter hi) use
    exact ⟨called, users_restrict unused⟩

theorem Inv.function_unique (inv : Inv names m) {F G : Func} (hF : F ∈ m.functions)
    (hG : G ∈ m.functions) (same : F.id = G.id) : F = G :=
  List.inj_on_of_nodup_map inv.ids hF hG same

theorem Inv.name_unique (inv : Inv names m) {F G : Func} (hF : F ∈ m.functions)
    (hG : G ∈ m.functions) (same : F.name = G.name) : F = G :=
  List.inj_on_of_nodup_map inv.functionNames hF hG same

/-- An instruction has a function among its operands exactly if it is one of the users. -/
theorem Inv.mem_users_iff (inv : Inv names m) {F : Func} {i : Inst} (hF : F ∈ m.functions)
    (hi : i ∈ F.insts) (v : Value) :
    .inst F.id i.id ∈ m.users v ↔ v ∈ i.operands := by
  rw [mem_users]
  constructor
  · rintro (⟨G, hG, j, hj, use, eq⟩ | ⟨c, hc, use, eq⟩ | ⟨g, hg, use, eq⟩)
    · obtain ⟨sameF, sameI⟩ := Value.inst.inj eq
      obtain rfl := inv.function_unique hF hG sameF
      rwa [List.inj_on_of_nodup_map (inv.instIds F hF) hi hj sameI]
    · exact nomatch eq
    · exact nomatch eq
  · exact fun use => .inl ⟨F, hF, i, hi, use, rfl⟩

/-! ## The second run -/

/-- The values of the module, as they are searched in general. -/
def Contents.uses (m : Contents) : DependentValues.UseGraph Value where
  kind
    | .inst _ _ => .instruction
    | .global _ => .globalVariable
    | .constant c =>
      match (m.constants.find? fun e : Constant => e.id = c && e.isExpr).bind fun e =>
        e.operands.head? with
      | some base => .constantExpr .other base
      | none => .other
    | _ => .other
  users := m.users

/-- The same has been visited, and the same instructions and globals are recorded. -/
structure Same (s : Search) (t : DependentValues.Search Value) : Prop where
  visited : t.visited = s.visited
  insts : t.insts = s.insts.map fun u => .inst u.1 u.2
  globs : t.globs = s.globs.map .global

/-- Both searches fail, or both end with the same. -/
inductive Alike : Except Fault Search →
    Except DependentValues.Fault (DependentValues.Search Value) → Prop
  | ok {s : Search} {t : DependentValues.Search Value} (same : Same s t) : Alike (.ok s) (.ok t)
  | error (fault : Fault) (fault' : DependentValues.Fault) : Alike (.error fault) (.error fault')

theorem Alike.bind {x : Except Fault Search}
    {y : Except DependentValues.Fault (DependentValues.Search Value)} (alike : Alike x y)
    {k : Search → Except Fault Search}
    {k' : DependentValues.Search Value →
      Except DependentValues.Fault (DependentValues.Search Value)}
    (next : ∀ s t, Same s t → Alike (k s) (k' t)) : Alike (x.bind k) (y >>= k') := by
  cases alike with
  | ok same => exact next _ _ same
  | error fault fault' => exact .error fault fault'

theorem insert_map {α β : Type*} [BEq α] [LawfulBEq α] [BEq β] [LawfulBEq β] {h : α → β}
    (injective : Function.Injective h) (a : α) (as : List α) :
    (as.map h).insert (h a) = (as.insert a).map h := by
  by_cases mem : a ∈ as
  · rw [List.insert_of_mem mem, List.insert_of_mem (List.mem_map_of_mem mem)]
  · rw [List.insert_of_not_mem mem, List.insert_of_not_mem, List.map_cons]
    exact fun inside => mem ((List.mem_map_of_injective injective).mp inside)

/-- The search in a module is the search among values in general. -/
theorem getDependentValues_uses (m : Contents) (fuel : Nat) (v : Value) {s : Search}
    {t : DependentValues.Search Value} (same : Same s t) :
    Alike (getDependentValues m fuel v s)
      (DependentValues.getDependentValues m.uses fuel v t) := by
  induction fuel generalizing v s t with
  | zero => exact .error _ _
  | succ fuel ih =>
    rw [getDependentValues, DependentValues.getDependentValues]
    obtain ⟨insts, globs, ces, visited⟩ := t
    obtain ⟨rfl, rfl, rfl⟩ := same
    by_cases known : v ∈ s.visited
    · rw [if_pos known, if_pos known]
      exact .ok ⟨rfl, rfl, rfl⟩
    have users (us : List Value) {s : Search} {t : DependentValues.Search Value}
        (same : Same s t) : Alike (us.foldlM (fun s u => getDependentValues m fuel u s) s)
          (us.foldlM (fun t u => DependentValues.getDependentValues m.uses fuel u t) t) := by
      induction us generalizing s t with
      | nil => exact .ok same
      | cons u us rest =>
        rw [List.foldlM_cons, List.foldlM_cons]
        exact (ih u same).bind fun s t same => rest same
    have marked : s.visited.insert v = v :: s.visited := List.insert_of_not_mem known
    rw [if_neg known, if_neg known]
    dsimp only
    by_cases first : s.visited.isEmpty = true
    · rw [if_pos first, if_pos first]
      exact (Alike.ok ⟨marked, rfl, rfl⟩).bind fun s t same => users (m.users v) same
    rw [if_neg first, if_neg first]
    refine Alike.bind ?_ fun s t same => users (m.users v) same
    cases v with
    | inst g n =>
      refine .ok ⟨marked, ?_, rfl⟩
      exact insert_map (h := fun u : Nat × Nat => Value.inst u.1 u.2) (fun u w eq => by
        obtain ⟨left, right⟩ := Value.inst.inj eq
        exact Prod.ext left right) (g, n) s.insts
    | global k => exact .ok ⟨marked, rfl, insert_map (fun a b eq => Value.global.inj eq) k s.globs⟩
    | constant c =>
      cases found : (m.constants.find? fun e : Constant => e.id = c && e.isExpr).bind fun e =>
        e.operands.head? with
      | none =>
        simp only [DependentValues.enter, Contents.uses, found]
        exact .ok ⟨marked, rfl, rfl⟩
      | some base =>
        simp only [DependentValues.enter, Contents.uses, found]
        exact ih base ⟨marked, rfl, rfl⟩
    | function | arg =>
      refine .ok ?_
      exact ⟨marked, rfl, rfl⟩

/-- Of an instruction without users, the search only notes that it is there. -/
theorem getDependentValues_leaf {g n : Nat} (unused : m.users (.inst g n) = []) (k : Nat)
    {s : Search} (started : s.visited ≠ []) :
    getDependentValues m (k + 1) (.inst g n) s = .ok (if .inst g n ∈ s.visited then s
      else ⟨.inst g n :: s.visited, s.insts.insert (g, n), s.globs⟩) := by
  rw [getDependentValues]
  split
  · rfl
  · have later : s.visited.isEmpty = false := by simpa using started
    simp only [later, unused]
    rfl

theorem foldlM_leaves {us : List Value} (leaves : ∀ u ∈ us, ∃ g n, u = .inst g n ∧ m.users u = [])
    (k : Nat) {s : Search} (started : s.visited ≠ [])
    (noted : ∀ g n, .inst g n ∈ s.visited ↔ (g, n) ∈ s.insts) :
    ∃ s', us.foldlM (fun s u => getDependentValues m (k + 1) u s) s = .ok s' ∧ s'.globs = s.globs ∧
      ∀ g n, (g, n) ∈ s'.insts ↔ (g, n) ∈ s.insts ∨ .inst g n ∈ us := by
  induction us generalizing s with
  | nil => exact ⟨s, rfl, rfl, fun g n => by simp⟩
  | cons u us ih =>
    obtain ⟨g, n, rfl, unused⟩ := leaves u List.mem_cons_self
    have rest : ∀ u ∈ us, ∃ g n, u = .inst g n ∧ m.users u = [] :=
      fun u hu => leaves u (List.mem_cons_of_mem _ hu)
    rw [List.foldlM_cons, getDependentValues_leaf unused k started]
    by_cases old : .inst g n ∈ s.visited
    · rw [if_pos old]
      obtain ⟨s', run, globs, insts⟩ := ih rest started noted
      refine ⟨s', run, globs, fun g' n' => (insts g' n').trans ?_⟩
      have known := (noted g n).mp old
      grind
    · rw [if_neg old]
      obtain ⟨s', run, globs, insts⟩ := ih (s := ⟨.inst g n :: s.visited, s.insts.insert (g, n),
        s.globs⟩) rest (by simp) (by simp [noted])
      refine ⟨s', run, globs, fun g' n' => (insts g' n').trans ?_⟩
      simp only [List.mem_insert_iff, List.mem_cons, Prod.mk.injEq, Value.inst.injEq]
      tauto

/-- The search finds the users of a declaration that only calls use, and nothing else. -/
theorem getDependentValues_fake {h : Nat}
    (leaves : ∀ u ∈ m.users (.function h), ∃ g n, u = .inst g n ∧ m.users u = []) (k : Nat) :
    ∃ s, getDependentValues m (k + 2) (.function h) ⟨[], [], []⟩ = .ok s ∧ s.globs = [] ∧
      ∀ g n, (g, n) ∈ s.insts ↔ .inst g n ∈ m.users (.function h) := by
  obtain ⟨s, run, globs, insts⟩ :=
    foldlM_leaves leaves k (s := ⟨[.function h], [], []⟩) (by simp) (by simp)
  exact ⟨s, run, globs, fun g n => (insts g n).trans (by simp)⟩

theorem eraseInsts_loop (m : Contents) {us : List (Nat × Nat)} (m' : Contents)
    (calls : ∀ u ∈ us, m.isCall u.1 u.2 = true) :
    us.foldlM (fun (m' : Contents) (u : Nat × Nat) =>
      if m.isCall u.1 u.2 then Except.ok (m'.eraseInst u.1 u.2) else
        Except.error Fault.whatHappened) m' =
      .ok (m'.restrict (fun _ => true) fun g i => (g, i.id) ∉ us) := by
  induction us generalizing m' with
  | nil => exact congrArg Except.ok (by simp [restrict_true])
  | cons u us ih =>
    rw [List.foldlM_cons, if_pos (calls u List.mem_cons_self)]
    refine (ih _ fun v hv => calls v (List.mem_cons_of_mem _ hv)).trans ?_
    rw [Contents.eraseInst, restrict_restrict]
    refine congrArg Except.ok (restrict_congr (fun _ _ => rfl) fun F _ _ i _ => ?_)
    rw [Bool.eq_iff_iff]
    simp [Prod.ext_iff]

theorem eraseInsts_eq {us : List (Nat × Nat)} (calls : ∀ u ∈ us, m.isCall u.1 u.2 = true) :
    m.eraseInsts us = .ok (m.restrict (fun _ => true) fun g i => (g, i.id) ∉ us) :=
  eraseInsts_loop m m calls

theorem isCall_of_calledFunction {F : Func} (hF : F ∈ m.functions) {i : Inst} (hi : i ∈ F.insts)
    {h : Nat} (called : i.calledFunction = some h) : m.isCall F.id i.id = true := by
  simp only [Contents.isCall, List.any_eq_true, Bool.and_eq_true, decide_eq_true_eq]
  exact ⟨F, hF, rfl, i, hi, rfl, (calledFunction_eq_some.mp called).1⟩

theorem Inv.fakes_singleton (inv : Inv names m) {pf : Func} (hF : pf ∈ m.functions) {h : Nat} :
    h ∈ fakes [pf.name] m ↔ h = pf.id := by
  rw [mem_fakes]
  constructor
  · rintro ⟨F, hF', named, rfl⟩
    rw [inv.name_unique hF' hF (List.mem_singleton.mp named)]
  · rintro rfl
    exact ⟨pf, hF, List.mem_singleton_self _, rfl⟩

theorem Inv.calls_iff (inv : Inv names m) {F : Func}
    {i : Inst} (hF : F ∈ m.functions) (hi : i ∈ F.insts) {h : Nat} (fake : h ∈ fakes names m) :
    .function h ∈ i.operands ↔ i.calledFunction = some h :=
  ⟨fun use => (inv.calls h fake F hF i hi use).1, mem_operands_of_calledFunction⟩

/-- A declaration that is there is removed with all its calls. -/
theorem Inv.removeFakeFunction (inv : Inv names m) {pf : Func} (hF : pf ∈ m.functions)
    (recorded : pf.name ∈ names) (k : Nat) :
    removeFakeFunction (k + 2) m pf.name = .ok (strip [pf.name] m) := by
  have fake : pf.id ∈ fakes names m := mem_fakes.mpr ⟨pf, hF, recorded, rfl⟩
  have leaves : ∀ u ∈ m.users (.function pf.id), ∃ g n, u = .inst g n ∧ m.users u = [] := by
    intro u mem
    rcases mem_users.mp mem with ⟨F, hF', i, hi, use, rfl⟩ | ⟨c, hc, use, -⟩ | ⟨g, hg, use, -⟩
    · exact ⟨F.id, i.id, rfl, (inv.calls _ fake F hF' i hi use).2⟩
    · exact absurd use (inv.constants _ fake c hc)
    · exact absurd use (inv.globals _ fake g hg)
  obtain ⟨s, search, globs, insts⟩ := getDependentValues_fake leaves k
  have calls : ∀ u ∈ s.insts, m.isCall u.1 u.2 = true := by
    rintro ⟨g, n⟩ mem
    rcases mem_users.mp ((insts g n).mp mem) with ⟨F, hF', i, hi, use, eq⟩ | ⟨c, hc, use, eq⟩
      | ⟨g, hg, use, eq⟩
    · obtain ⟨rfl, rfl⟩ := Value.inst.inj eq
      exact isCall_of_calledFunction hF' hi (inv.calls _ fake F hF' i hi use).1
    · exact nomatch eq
    · exact nomatch eq
  have found : (m.functions.find? fun F => F.name = pf.name) = some pf := by
    cases eq : m.functions.find? fun F => F.name = pf.name with
    | none => exact absurd (List.find?_eq_none.mp eq pf hF) (by simp)
    | some F =>
        rw [inv.name_unique (List.mem_of_find?_eq_some eq) hF (by simpa using List.find?_some eq)]
  have removed : (m.restrict (fun _ => true) fun g i => (g, i.id) ∉ s.insts).eraseFunction pf.id =
      strip [pf.name] m := by
    rw [Contents.eraseFunction, restrict_restrict, strip]
    refine restrict_congr (fun F _ => ?_) fun F hF' _ i hi => ?_
    · rw [Bool.eq_iff_iff]
      simp [inv.fakes_singleton hF]
    · have same : (F.id, i.id) ∈ s.insts ↔ i.calls (fakes [pf.name] m) = true := by
        rw [insts, inv.mem_users_iff hF' hi, inv.calls_iff hF' hi fake, PreserveAbis.calls_iff]
        simp [inv.fakes_singleton hF]
      rw [Bool.eq_iff_iff]
      simp [same]
  unfold PreserveAbis.removeFakeFunction
  simp only [found, search, Except.bind, globs, eraseInsts_eq calls, Except.map, removed, ne_eq,
    not_true_eq_false, if_false]

/-- The names that are left are those of other functions. -/
theorem strip_cons (inv : Inv names m) {pf : Func} (hF : pf ∈ m.functions) (rest : List String) :
    strip rest (strip [pf.name] m) = strip (pf.name :: rest) m := by
  have fake (h : Nat) : h ∈ fakes (pf.name :: rest) m ↔ h = pf.id ∨ h ∈ fakes rest m := by
    rw [← inv.fakes_singleton hF, mem_fakes, mem_fakes, mem_fakes]
    simp only [List.mem_cons, List.not_mem_nil, or_false]
    grind
  have left (h : Nat) : h ∈ fakes rest (strip [pf.name] m) ↔ h ∈ fakes rest m ∧ h ≠ pf.id := by
    rw [strip, mem_fakes_restrict]
    simp [inv.fakes_singleton hF]
  show (strip [pf.name] m).restrict (fun h => h ∉ fakes rest (strip [pf.name] m))
    (fun _ i => !i.calls (fakes rest (strip [pf.name] m))) = _
  generalize fakes rest (strip [pf.name] m) = hs at left ⊢
  rw [strip, strip, restrict_restrict]
  refine restrict_congr (fun F _ => ?_) fun F _ _ i _ => ?_
  · rw [Bool.eq_iff_iff]
    simp only [Bool.and_eq_true, decide_eq_true_eq, fake, left, inv.fakes_singleton hF]
    tauto
  · unfold Inst.calls
    cases i.calledFunction with
    | none => rfl
    | some h =>
      rw [Bool.eq_iff_iff]
      simp only [Option.any_some, Bool.and_eq_true, Bool.not_eq_true', decide_eq_false_iff_not,
        fake, left, inv.fakes_singleton hF]
      tauto

theorem Present.strip {name : String} (inv : Inv (name :: names) m) {pf : Func}
    (hF : pf ∈ m.functions) (named : pf.name = name) :
    Present names (strip [pf.name] m) ↔ Present (name :: names) m := by
  have fresh : name ∉ names := (List.nodup_cons.mp inv.recorded).1
  constructor
  · intro present name' mem
    rcases List.mem_cons.mp mem with rfl | mem
    · exact ⟨pf, hF, named⟩
    · obtain ⟨F, hF', named'⟩ := present name' mem
      obtain ⟨G, hG, -, rfl⟩ := mem_restrict.mp hF'
      exact ⟨G, hG, named'⟩
  · intro present name' mem
    obtain ⟨F, hF', named'⟩ := present name' (List.mem_cons_of_mem _ mem)
    refine ⟨_, mem_restrict.mpr ⟨F, hF', ?_, rfl⟩, named'⟩
    simp only [decide_eq_true_eq, inv.fakes_singleton hF]
    intro same
    rw [inv.function_unique hF' hF same, named] at named'
    exact fresh (named' ▸ mem)

theorem strip_nil (m : Contents) : strip [] m = m := by
  have none : fakes [] m = [] := by simp [fakes]
  have noCalls (i : Inst) : i.calls [] = false := by
    cases called : i.calledFunction <;> simp [Inst.calls, called]
  rw [strip, none]
  simpa [noCalls] using restrict_true m

/-- The second run removes the recorded declarations and all calls of them if all are there.
Otherwise it uses a null pointer. -/
theorem removeFakeFunctions_eq (inv : Inv names m) (k : Nat) :
    removeFakeFunctions (k + 2) m names = if Present names m then .ok (strip names m) else
      .error .null := by
  induction names generalizing m with
  | nil => rw [if_pos (show Present [] m from nofun), strip_nil, removeFakeFunctions,
      List.foldlM_nil]; rfl
  | cons name rest ih =>
    rw [removeFakeFunctions, List.foldlM_cons]
    cases found : m.functions.find? fun F => F.name = name with
    | none =>
      have missing : ¬ Present (name :: rest) m := by
        intro present
        obtain ⟨F, hF, named⟩ := present name List.mem_cons_self
        simpa [named] using List.find?_eq_none.mp found F hF
      rw [if_neg missing, removeFakeFunction, found]
      rfl
    | some pf =>
      have hF := List.mem_of_find?_eq_some found
      obtain rfl : pf.name = name := by simpa using List.find?_some found
      rw [inv.removeFakeFunction hF List.mem_cons_self k]
      have later : Inv rest (strip [pf.name] m) :=
        inv.restrict _ _ (List.subset_cons_self _ _) (List.nodup_cons.mp inv.recorded).2
      refine (ih later).trans ?_
      rw [strip_cons inv hF]
      exact if_congr (Present.strip inv hF rfl) rfl rfl

end

end PreserveAbis
