import Mathlib.Data.List.Nodup
import Mathlib.Data.List.ReduceOption
import ClamBC.Fallible
import ClamBC.FunctionIds

/-!
# The type table

The analyzer numbers the types of a module. Types are shared and may be recursive through named
structs, so a type is a reference into the list of the module's types and its shape names its
parts by their references. Of an instruction only what is asked about its types is kept.
-/

namespace TypeTable

open Fallible FunctionIds

abbrev TypeRef := Nat

inductive Shape where
  | void
  | label
  | metadata
  | floating (bits : Nat)
  | int (width : Nat)
  | pointer (element : TypeRef)
  | array (count : Nat) (element : TypeRef)
  | vector (count : Nat) (element : TypeRef)
  | function (ret : TypeRef) (params : List TypeRef) (vararg : Bool)
  | struct (packed : Bool) (elements : List TypeRef)
  | opaqueStruct (name : String)
  deriving DecidableEq

/-- `subtype_begin()` to `subtype_end()`. -/
def Shape.subtypes : Shape → List TypeRef
  | .pointer element | .array _ element | .vector _ element => [element]
  | .function ret params _ => ret :: params
  | .struct _ elements => elements
  | _ => []

def Shape.isPointer : Shape → Bool
  | .pointer _ => true
  | _ => false

def Shape.isOpaque : Shape → Bool
  | .opaqueStruct _ => true
  | _ => false

/-- The instructions that the analyzer or the writer tells apart when it asks about types.
`terminator` stands for those but `ret`, whose result type is never printed. -/
inductive Op where
  | alloca (allocatedType : TypeRef)
  | getElementPtr
  | store
  | phi
  | bitcast
  | icmp
  | ret
  | terminator
  | dbgInfo
  | other
  deriving DecidableEq

/-- An operand that is a basic block has no type. -/
structure Inst where
  op : Op
  type : TypeRef
  operands : List (Option TypeRef)
  deriving DecidableEq

structure Fn where
  name : String
  functionType : TypeRef
  returnType : TypeRef
  params : List TypeRef
  isVarArg : Bool
  isDeclaration : Bool
  hasAvailableExternallyLinkage : Bool
  hasStructRetAttr : Bool
  useEmpty : Bool
  insts : List Inst
  deriving DecidableEq

structure Global where
  name : String
  valueType : TypeRef
  deriving DecidableEq

/-- The module as the type loops meet it: the globals with the helper globals that the analyzer
has appended, the functions in sorted order. -/
structure Module where
  types : List Shape
  globals : List Global
  functions : List Fn

section
variable (m : Module)

def Module.shape (t : TypeRef) : Shape := (m.types[t]?).getD .void

/-- The type of a shape: types are unique in their context. -/
def Module.type (s : Shape) : TypeRef := m.types.idxOf s

def Module.intType (width : Nat) : TypeRef := m.type (.int width)

/-- `PointerType::getUnqual` of an integer type. -/
def Module.intPtr (width : Nat) : TypeRef := m.type (.pointer (m.intType width))

def Module.padding (count : Nat) : TypeRef := m.type (.array count (m.intType 8))

end

/-- The three containers of the analyzer, its counter `tid` and the worklist `types`, whose
back is the head of the list. -/
structure Table where
  typeIDs : List (TypeRef × Nat)
  extraTypes : List TypeRef
  tid : Nat
  types : List TypeRef
  deriving DecidableEq

def Table.getTypeID (table : Table) (t : TypeRef) : Option Nat := table.typeIDs.lookup t

section
variable (m : Module)

def reservedTypes : List TypeRef :=
  m.type .void :: ((List.range 64).map fun i => m.intType (i + 1)) ++ [8, 16, 32, 64].map m.intPtr

def startTID : Nat := 69

/-- Ids 0 to 68, in the order of `reservedTypes`. -/
def initTypeIDs : List (TypeRef × Nat) := (reservedTypes m).zip (List.range startTID)

/-- Arrays of i8 used for struct padding. They enter the table and not the worklist. -/
def addPadding (table : Table) (count : Nat) : Table :=
  { table with
    typeIDs := (m.padding count, table.tid) :: table.typeIDs
    extraTypes := table.extraTypes ++ [m.padding count]
    tid := table.tid + 1 }

def paddingCounts : List Nat := [1, 2, 3, 4, 5, 6, 7]

def initial : Table := paddingCounts.foldl (addPadding m) ⟨initTypeIDs m, [], startTID, []⟩

end

/-- What all places do with a type that they meet. -/
def collect (table : Table) (t : TypeRef) : Table :=
  if (table.getTypeID t).isSome then table
  else
    { typeIDs := (t, table.tid) :: table.typeIDs
      extraTypes := table.extraTypes ++ [t]
      tid := table.tid + 1
      types := t :: table.types }

/-- The types of an instruction, in the order in which the analyzer collects them. -/
def Inst.collected (i : Inst) : List TypeRef :=
  match i.op with
  | .dbgInfo => []
  | .alloca allocatedType => i.operands.reduceOption ++ [allocatedType]
  | .getElementPtr => i.operands.head?.join.toList ++ i.operands.reduceOption ++ [i.type]
  | _ => i.operands.reduceOption ++ [i.type]

inductive Fault where
  | refused (r : Refusal)
  | unfinished
  deriving DecidableEq

def collectFunction (table : Table) (F : Fn) : Except Fault Table :=
  if F.isDeclaration then
    if startsWith F.name "llvm.dbg" then .ok table
    else if F.isVarArg then
      if F.params = [] then
        .error (.refused (.stop ("Calling implicitly declared function '" ++ F.name ++
          "' is not supported (did you forget to implement it, or called the wrong function?)")))
      else .error (.refused (.stop ("Vararg functions are not supported ('" ++ F.name ++ "')")))
    else .ok (collect table F.functionType)
  else .ok ((F.params ++ F.insts.flatMap Inst.collected).foldl collect table)

section
variable (m : Module)

/-- The body of the loop over the subtypes of `t`. -/
def collectSubtype (t : TypeRef) (table : Table) (s : TypeRef) : Except Fault Table :=
  if (m.shape s).isOpaque then
    if (m.shape t).isPointer then .ok table
    else .error (.refused (.stop "Bytecode cannot use abstract types (only pointers to them)!"))
  else .ok (collect table s)

/-- The worklist loop; `fuel` bounds its turns. -/
def collectClosure : Nat → Table → Except Fault Table
  | fuel, table =>
    match table.types, fuel with
    | [], _ => .ok table
    | _ :: _, 0 => .error .unfinished
    | t :: rest, fuel + 1 => do
      let table ← (m.shape t).subtypes.foldlM (collectSubtype m t) { table with types := rest }
      collectClosure fuel table

/-- The part of `ClamBCAnalysis::run` that builds the table. A type enters the worklist once,
so the number of types of the module bounds the turns. -/
def analyze : Except Fault Table :=
  match m.functions.find? fun F => F.name = "entrypoint" with
  | none => .error (.refused (.stop "Bytecode must define an entrypoint (with 0 parameters)!\n"))
  | some ep =>
    if ep.params ≠ [] then
      .error (.refused (.stop "Bytecode must define an entrypoint with 0 parameters!\n"))
    else do
      let table ← m.functions.foldlM collectFunction
        ((m.globals.map Global.valueType).foldl collect (initial m))
      let table ← collectClosure m m.types.length table
      if table.tid ≥ 65536 then .error (.refused (.stop "Attempted to use more than 64k types"))
      else return table

/-- The types whose ids `describeType` prints. It refuses vectors, structs with pointers inside
and what has no description; a pointer to an opaque struct prints the id of i8. -/
def describeType (t : TypeRef) : List TypeRef :=
  match m.shape t with
  | .function ret params vararg => if vararg then [] else ret :: params
  | .struct _ elements => elements.takeWhile fun e => !(m.shape e).isPointer
  | .array _ element => [element]
  | .pointer element => if (m.shape element).isOpaque then [m.intType 8] else [element]
  | _ => []

/-- The id that `printType` asks for, if it does not stop. -/
def printType (t : TypeRef) : List TypeRef :=
  match m.shape t with
  | .int _ => if t ∈ [1, 8, 16, 32, 64].map m.intType then [t] else []
  | .floating _ => []
  | _ => [t]

/-- What one instruction asks for: the type of its value, the type in front of the instruction
and what the visitor prints.

`fixGEPs` has replaced a single index into anything but i8 by a cast to i8*, a
multiplication, an access and a cast back; the register allocation has replaced a phi by a
slot of its type, a load and one store for each input. -/
def Inst.requests (table : Table) (i : Inst) : List TypeRef :=
  match i.op with
  | .alloca allocatedType => printType m allocatedType
  | .getElementPtr =>
    let pointer := i.operands.head?.join.toList
    let rewritten := i.operands.length = 2 ∧ pointer.any fun p => (table.getTypeID p).any (65 < ·)
    if rewritten then
      pointer ++
        (pointer ++ m.intPtr 8 :: i.operands.reduceOption.tail ++ [i.type]).flatMap (printType m)
    else pointer ++ (pointer ++ [i.type]).flatMap (printType m)
  | .store => i.operands.head?.join.toList.flatMap (printType m)
  | .phi => (i.type :: i.operands.reduceOption).flatMap (printType m)
  | .bitcast | .icmp => (i.type :: i.operands.head?.join.toList).flatMap (printType m)
  | .ret => i.operands.reduceOption.flatMap (printType m)
  | .terminator | .dbgInfo => []
  | .other => printType m i.type

/-- The functions that the writer prints. -/
def Module.written : List Fn :=
  m.functions.filter fun F => !F.isDeclaration && !F.hasAvailableExternallyLinkage

/-- `gatherGEPs` looks at every function that has a body, before the linkage is asked for. -/
def Module.gathered : List TypeRef :=
  (m.functions.filter fun F => !F.isDeclaration).flatMap fun F =>
    (F.insts.filter fun i => i.op = .getElementPtr ∧ i.operands.length = 2).flatMap fun i =>
      i.operands.head?.join.toList

def Module.apis : List Fn :=
  m.functions.filter fun F => !F.useEmpty && F.isDeclaration && !startsWith F.name "llvm."
    && F.name ∉ ["__is_bigendian", "memcmp", "abort"]

def specialNames : List String :=
  ["__clambc_match_counts", "__clambc_virusnames", "__clambc_pedata", "__clambc_filesize",
    "__clambc_match_offsets", "__clambc_kind"]

def Module.initialized : List Global := m.globals.filter fun g => g.name ∉ specialNames

def Fn.requests (table : Table) (F : Fn) : List TypeRef :=
  (if F.hasStructRetAttr then [] else printType m F.returnType)
    ++ F.params.flatMap (printType m) ++ F.insts.flatMap (Inst.requests m table)

/-- The types whose ids the print sites of the writer ask for. Each site is taken by itself: a
stop at another one only removes requests. -/
def requests (table : Table) : List TypeRef :=
  table.extraTypes.flatMap (describeType m) ++ m.apis.map Fn.functionType
    ++ m.initialized.map Global.valueType ++ m.gathered ++ m.written.flatMap (Fn.requests m table)

/-- The table is exact and closed. -/
structure Exact (table : Table) : Prop where
  numbered : ∀ j t, table.extraTypes[j]? = some t → table.getTypeID t = some (startTID + j)
  nodup : table.extraTypes.Nodup
  known : ∀ t ∈ requests m table, ∃ id, table.getTypeID t = some id ∧
    ((id < startTID ∧ t ∈ reservedTypes m) ∨ ∃ j, table.extraTypes[j]? = some t ∧ id = startTID + j)

/-- What LLVM guarantees of a module: the types that exist are closed under subtypes and hold
the types that the analyzer creates, every type mentioned exists, and a function's type is
made of its return type and its parameters. -/
structure Module.Sound : Prop where
  closed : ∀ t, ∀ s ∈ (m.shape t).subtypes, s < m.types.length
  void : .void ∈ m.types
  int : ∀ width, 1 ≤ width → width ≤ 64 → .int width ∈ m.types
  intPtr : ∀ width ∈ [8, 16, 32, 64], .pointer (m.intType width) ∈ m.types
  padding : ∀ count ∈ paddingCounts, .array count (m.intType 8) ∈ m.types
  global : ∀ g ∈ m.globals, g.valueType < m.types.length
  function : ∀ F ∈ m.functions, F.functionType < m.types.length ∧
    m.shape F.functionType = .function F.returnType F.params F.isVarArg
  inst : ∀ F ∈ m.functions, ∀ i ∈ F.insts, ∀ t ∈ i.collected, t < m.types.length

def Fn.roots (F : Fn) : List TypeRef :=
  if F.isDeclaration then if startsWith F.name "llvm.dbg" then [] else [F.functionType]
  else F.params ++ F.insts.flatMap Inst.collected

/-- The types that the module itself names. -/
def Module.roots : List TypeRef := m.globals.map Global.valueType ++ m.functions.flatMap Fn.roots

/-- Closure of the named types under subtypes. An opaque struct inside another type does not
count: behind a pointer it is skipped, elsewhere the analyzer stops. -/
inductive Mentioned : TypeRef → Prop
  | root {t : TypeRef} : t ∈ m.roots → Mentioned t
  | part {t s : TypeRef} : Mentioned t → s ∈ (m.shape t).subtypes →
      (m.shape s).isOpaque = false → Mentioned s

end

/-! ## Looking up types -/

def Known (table : Table) (t : TypeRef) : Prop := (table.getTypeID t).isSome

theorem getTypeID_cons (t s : TypeRef) (id : Nat) (ids : List (TypeRef × Nat))
    (extra pending : List TypeRef) (tid : Nat) :
    (Table.mk ((t, id) :: ids) extra tid pending).getTypeID s = if s = t then some id else
      ids.lookup s := by
  by_cases same : s = t
  · subst same
    simp [Table.getTypeID]
  · have differ : (s == t) = false := beq_false_of_ne same
    simp [Table.getTypeID, List.lookup_cons, same, differ]

@[simp] theorem collect_known {table : Table} {t s : TypeRef} :
    Known (collect table t) s ↔ s = t ∨ Known table s := by
  unfold collect
  by_cases known : (table.getTypeID t).isSome
  · rw [if_pos known]
    constructor
    · exact Or.inr
    · rintro (rfl | h)
      · exact known
      · exact h
  · rw [if_neg known]
    unfold Known
    rw [getTypeID_cons]
    by_cases same : s = t
    · simp [same]
    · simp [same, Table.getTypeID]

theorem foldl_collect_known {ts : List TypeRef} {table : Table} {s : TypeRef} :
    Known (ts.foldl collect table) s ↔ s ∈ ts ∨ Known table s := by
  induction ts generalizing table with
  | nil => simp
  | cons t ts ih => rw [List.foldl_cons, ih, collect_known, List.mem_cons]; tauto

theorem type_inj {m : Module} {s s' : Shape} (hs : s ∈ m.types) (same : m.type s = m.type s') :
    s = s' :=
  (List.idxOf_inj hs).mp same

theorem type_lt {m : Module} {s : Shape} (hs : s ∈ m.types) : m.type s < m.types.length :=
  List.idxOf_lt_length_iff.mpr hs

theorem shape_type {m : Module} {s : Shape} (hs : s ∈ m.types) : m.shape (m.type s) = s := by
  have bound := type_lt hs
  unfold Module.shape
  rw [List.getElem?_eq_getElem bound]
  exact List.getElem_idxOf bound

/-! ## The invariant of the collection -/

section
variable (m : Module)

def paddings : List TypeRef := paddingCounts.map m.padding

/-- All subtypes of `t` have ids, opaque structs behind a pointer apart. -/
def PartsKnown (table : Table) (t : TypeRef) : Prop :=
  ∀ s ∈ (m.shape t).subtypes, Known table s ∨
    ((m.shape s).isOpaque = true ∧ (m.shape t).isPointer = true)

/-- What holds of the table at every moment. `busy` are the types taken from the worklist whose
subtypes are not all looked at yet. -/
structure Built (busy : List TypeRef) (table : Table) : Prop where
  numbered : ∀ j t, table.extraTypes[j]? = some t → table.getTypeID t = some (startTID + j)
  reserved : ∀ t id, table.getTypeID t = some id → (id < startTID ∧ t ∈ reservedTypes m) ∨
    t ∈ table.extraTypes
  counted : table.tid = startTID + table.extraTypes.length
  inRange : ∀ t ∈ table.extraTypes, t < m.types.length
  origin : ∀ t ∈ table.extraTypes, t ∈ paddings m ∨ Mentioned m t
  pending : ∀ t ∈ table.types, Mentioned m t
  expanded : ∀ t, Known table t → t ∈ table.types ∨ t ∈ busy ∨ PartsKnown m table t

variable {m}

theorem PartsKnown.mono {table table' : Table} {t : TypeRef} (parts : PartsKnown m table t)
    (kept : ∀ s, Known table s → Known table' s) : PartsKnown m table' t :=
  fun s hs => (parts s hs).imp_left (kept s)

theorem Built.nodup {busy : List TypeRef} {table : Table} (built : Built m busy table) :
    table.extraTypes.Nodup := by
  rw [List.nodup_iff_getElem?_ne_getElem?]
  intro i j before bound same
  have hi : i < table.extraTypes.length := by omega
  rw [List.getElem?_eq_getElem hi] at same
  have first := built.numbered i _ (List.getElem?_eq_getElem hi)
  have second := built.numbered j _ same.symm
  rw [first] at second
  have := Option.some.inj second
  omega

/-- A type without an id gets the next one, at the end of the table. -/
theorem Built.add {busy : List TypeRef} {table : Table} {t : TypeRef} {pending : List TypeRef}
    (built : Built m busy table) (fresh : ¬ Known table t) (bound : t < m.types.length)
    (origin : t ∈ paddings m ∨ Mentioned m t) (kept : ∀ s ∈ table.types, s ∈ pending)
    (mentioned : ∀ s ∈ pending, Mentioned m s) (later : t ∈ pending ∨ PartsKnown m table t) :
    Built m busy ⟨(t, table.tid) :: table.typeIDs, table.extraTypes ++ [t], table.tid + 1,
      pending⟩ := by
  have known : ∀ s,
      Known ⟨(t, table.tid) :: table.typeIDs, table.extraTypes ++ [t], table.tid + 1, pending⟩ s ↔
      s = t ∨ Known table s := by
    intro s
    unfold Known
    rw [getTypeID_cons]
    by_cases same : s = t
    · simp [same]
    · simp [same, Table.getTypeID]
  refine ⟨?_, ?_, ?_, ?_, ?_, mentioned, ?_⟩
  · intro j s at_j
    rw [getTypeID_cons]
    dsimp only at at_j
    by_cases old : j < table.extraTypes.length
    · rw [List.getElem?_append_left old] at at_j
      have id := built.numbered j s at_j
      have differ : s ≠ t := by
        rintro rfl
        exact fresh (by simp [Known, id])
      rw [if_neg differ]
      exact id
    · have last : j = table.extraTypes.length := by
        have := (List.getElem?_eq_some_iff.mp at_j).1
        simp only [List.length_append, List.length_singleton] at this
        omega
      subst last
      simp only [List.getElem?_concat_length, Option.some.injEq] at at_j
      rw [if_pos at_j.symm, built.counted]
  · intro s id found
    rw [getTypeID_cons] at found
    by_cases same : s = t
    · exact .inr (by simp [same])
    · rw [if_neg same] at found
      rcases built.reserved s id found with h | h
      · exact .inl h
      · exact .inr (List.mem_append_left _ h)
  · simp [built.counted, Nat.add_assoc]
  · intro s hs
    rcases List.mem_append.mp hs with hs | hs
    · exact built.inRange s hs
    · rw [List.mem_singleton.mp hs]
      exact bound
  · intro s hs
    rcases List.mem_append.mp hs with hs | hs
    · exact built.origin s hs
    · rw [List.mem_singleton.mp hs]
      exact origin
  · intro s hs
    rcases (known s).mp hs with rfl | hs
    · rcases later with h | h
      · exact .inl h
      · exact .inr (.inr (h.mono fun r hr => (known r).mpr (.inr hr)))
    · rcases built.expanded s hs with h | h | h
      · exact .inl (kept s h)
      · exact .inr (.inl h)
      · exact .inr (.inr (h.mono fun r hr => (known r).mpr (.inr hr)))

theorem collect_built {busy : List TypeRef} {table : Table} {t : TypeRef}
    (built : Built m busy table) (bound : t < m.types.length) (mentioned : Mentioned m t) :
    Built m busy (collect table t) := by
  unfold collect
  by_cases known : (table.getTypeID t).isSome
  · rw [if_pos known]
    exact built
  · rw [if_neg known]
    refine built.add known bound (.inr mentioned) (fun s hs => List.mem_cons_of_mem _ hs) ?_
      (.inl List.mem_cons_self)
    intro s hs
    rcases List.mem_cons.mp hs with rfl | hs
    · exact mentioned
    · exact built.pending s hs

theorem foldl_collect_built {busy : List TypeRef} {ts : List TypeRef}
    {table : Table} (built : Built m busy table) (bound : ∀ t ∈ ts, t < m.types.length)
    (mentioned : ∀ t ∈ ts, Mentioned m t) :
    Built m busy (ts.foldl collect table) := by
  induction ts generalizing table with
  | nil => exact built
  | cons t ts ih =>
    refine ih (collect_built built (bound t List.mem_cons_self) (mentioned t List.mem_cons_self)) ?_
      ?_
    · exact fun s hs => bound s (List.mem_cons_of_mem _ hs)
    · exact fun s hs => mentioned s (List.mem_cons_of_mem _ hs)

/-! ## The initial table -/

theorem mem_reservedTypes {t : TypeRef} : t ∈ reservedTypes m ↔
    t = m.type .void ∨ (∃ width, 1 ≤ width ∧ width ≤ 64 ∧ t = m.intType width) ∨
      ∃ width ∈ [8, 16, 32, 64], t = m.intPtr width := by
  unfold reservedTypes
  simp only [List.mem_append, List.mem_cons, List.mem_map, List.mem_range, List.cons_append]
  constructor
  · rintro (rfl | ⟨i, bound, rfl⟩ | ⟨width, hw, rfl⟩)
    · exact .inl rfl
    · exact .inr (.inl ⟨i + 1, by omega, by omega, rfl⟩)
    · exact .inr (.inr ⟨width, hw, rfl⟩)
  · rintro (rfl | ⟨width, low, high, rfl⟩ | ⟨width, hw, rfl⟩)
    · exact .inl rfl
    · exact .inr (.inl ⟨width - 1, by omega, by rw [Nat.sub_add_cancel low]⟩)
    · exact .inr (.inr ⟨width, hw, rfl⟩)

theorem initTypeIDs_known {t : TypeRef} :
    ((initTypeIDs m).lookup t).isSome ↔ t ∈ reservedTypes m := by
  have length : (reservedTypes m).length = (List.range startTID).length := by
    simp [reservedTypes, startTID]
  have keys : (initTypeIDs m).map Prod.fst = reservedTypes m := List.map_fst_zip (le_of_eq length)
  rw [← keys, List.lookup_isSome_iff]
  simp only [List.mem_map, beq_iff_eq]
  exact ⟨fun ⟨p, hp, same⟩ => ⟨p, hp, same.symm⟩, fun ⟨p, hp, same⟩ => ⟨p, hp, same.symm⟩⟩

theorem initTypeIDs_lt {t : TypeRef} {id : Nat} (found : (initTypeIDs m).lookup t = some id) :
    id < startTID ∧ t ∈ reservedTypes m := by
  refine ⟨?_, initTypeIDs_known.mp (by simp [found])⟩
  obtain ⟨before, after, split, -⟩ := List.lookup_eq_some_iff.mp found
  have entry : (t, id) ∈ initTypeIDs m := by
    rw [split]
    simp
  exact List.mem_range.mp (List.of_mem_zip entry).2

theorem int_mem {width : Nat} (low : 1 ≤ width) (high : width ≤ 64) :
    m.intType width ∈ reservedTypes m :=
  mem_reservedTypes.mpr (.inr (.inl ⟨width, low, high, rfl⟩))

variable (sound : m.Sound)
include sound

/-- The subtypes of the reserved types are reserved. -/
theorem reserved_subtypes {t s : TypeRef} (ht : t ∈ reservedTypes m)
    (part : s ∈ (m.shape t).subtypes) :
    s ∈ reservedTypes m := by
  rcases mem_reservedTypes.mp ht with rfl | ⟨width, low, high, rfl⟩ | ⟨width, hw, rfl⟩
  · rw [shape_type sound.void] at part
    cases part
  · rw [Module.intType, shape_type (sound.int width low high)] at part
    cases part
  · rw [Module.intPtr, shape_type (sound.intPtr width hw)] at part
    rw [List.mem_singleton.mp part]
    have range : 1 ≤ width ∧ width ≤ 64 := by
      simp only [List.mem_cons, List.not_mem_nil, or_false] at hw
      omega
    exact int_mem range.1 range.2

theorem padding_subtypes {count : Nat} {s : TypeRef} (hc : count ∈ paddingCounts)
    (part : s ∈ (m.shape (m.padding count)).subtypes) : s ∈ reservedTypes m := by
  rw [Module.padding, shape_type (sound.padding count hc)] at part
  rw [List.mem_singleton.mp part]
  exact int_mem (by omega) (by omega)

theorem padding_not_reserved {count : Nat} (hc : count ∈ paddingCounts) :
    m.padding count ∉ reservedTypes m := by
  intro h
  rcases mem_reservedTypes.mp h with same | ⟨width, low, high, same⟩ | ⟨width, hw, same⟩
  · exact Shape.noConfusion (type_inj (sound.padding count hc) same)
  · exact Shape.noConfusion (type_inj (sound.padding count hc) same)
  · exact Shape.noConfusion (type_inj (sound.padding count hc) same)

theorem padding_inj {count count' : Nat} (hc : count ∈ paddingCounts)
    (same : m.padding count = m.padding count') :
    count = count' := by
  have shapes := type_inj (sound.padding count hc) same
  injection shapes

omit sound in
theorem addPadding_known {table : Table} {count : Nat} {s : TypeRef} :
    Known (addPadding m table count) s ↔ s = m.padding count ∨ Known table s := by
  unfold Known addPadding
  rw [getTypeID_cons]
  by_cases same : s = m.padding count
  · simp [same]
  · simp [same, Table.getTypeID]

theorem foldl_addPadding {counts : List Nat} {table : Table} (built : Built m [] table)
    (empty : table.types = []) (mem : ∀ count ∈ counts, count ∈ paddingCounts)
    (distinct : counts.Nodup) (fresh : ∀ count ∈ counts, ¬ Known table (m.padding count))
    (known : ∀ t ∈ reservedTypes m, Known table t) :
    Built m [] (counts.foldl (addPadding m) table) ∧
      (counts.foldl (addPadding m) table).types = [] ∧
      ∀ t, Known (counts.foldl (addPadding m) table) t ↔ t ∈ counts.map m.padding ∨
        Known table t := by
  induction counts generalizing table with
  | nil => exact ⟨built, empty, by simp⟩
  | cons count counts ih =>
    have hc := mem count List.mem_cons_self
    have apart := (List.nodup_cons.mp distinct).1
    have step : Built m [] (addPadding m table count) := by
      refine built.add (fresh count List.mem_cons_self) (type_lt (sound.padding count hc)) ?_
        (fun s hs => hs) built.pending ?_
      · exact .inl (List.mem_map_of_mem hc)
      · exact .inr fun s hs => .inl (known s (padding_subtypes sound hc hs))
    obtain ⟨built', empty', known'⟩ :=
      ih step empty (fun c h => mem c (List.mem_cons_of_mem _ h)) (List.nodup_cons.mp distinct).2
      (fun c h => by
        rw [addPadding_known]
        rintro (same | old)
        · have := padding_inj sound (mem c (List.mem_cons_of_mem _ h)) same
          exact apart (this ▸ h)
        · exact fresh c (List.mem_cons_of_mem _ h) old)
      (fun t ht => addPadding_known.mpr (.inr (known t ht)))
    refine ⟨built', empty', fun t => ?_⟩
    rw [List.foldl_cons, known', addPadding_known, List.map_cons, List.mem_cons]
    tauto

theorem initial_built : Built m [] (initial m) ∧ (initial m).types = [] ∧
    ∀ t, Known (initial m) t ↔ t ∈ paddings m ∨ t ∈ reservedTypes m := by
  have base : Built m [] ⟨initTypeIDs m, [], startTID, []⟩ := by
    refine ⟨by simp, fun t id found => .inl (initTypeIDs_lt found),
      rfl, by simp, by simp, by simp, ?_⟩
    intro t known
    refine .inr (.inr fun s part => .inl (initTypeIDs_known.mpr ?_))
    exact reserved_subtypes sound (initTypeIDs_known.mp known) part
  obtain ⟨built, empty, known⟩ := foldl_addPadding sound base rfl (fun c h => h) (by decide)
    (fun c h known => padding_not_reserved sound h (initTypeIDs_known.mp known))
    (fun t ht => initTypeIDs_known.mpr ht)
  refine ⟨built, empty, fun t => ?_⟩
  rw [paddings, ← initTypeIDs_known]
  exact known t

/-! ## Collection -/

omit sound

theorem collect_lengths (table : Table) (t : TypeRef) :
    (collect table t).extraTypes.length + table.types.length =
      table.extraTypes.length + (collect table t).types.length := by
  unfold collect
  split
  · rfl
  · simp only [List.length_append, List.length_cons, List.length_nil]
    omega

theorem foldl_collect_lengths (ts : List TypeRef) (table : Table) :
    (ts.foldl collect table).extraTypes.length + table.types.length =
      table.extraTypes.length + (ts.foldl collect table).types.length := by
  induction ts generalizing table with
  | nil => rfl
  | cons t ts ih =>
    have first := collect_lengths table t
    have rest := ih (collect table t)
    rw [List.foldl_cons]
    omega

theorem collectFunction_eq {table table' : Table} {F : Fn}
    (ok : collectFunction table F = .ok table') :
    table' = F.roots.foldl collect table := by
  unfold collectFunction at ok
  unfold Fn.roots
  by_cases declaration : F.isDeclaration
  · rw [if_pos declaration] at ok ⊢
    by_cases debug : startsWith F.name "llvm.dbg"
    · rw [if_pos debug] at ok ⊢
      cases ok
      rfl
    · rw [if_neg debug] at ok ⊢
      split at ok
      · split at ok <;> cases ok
      · cases ok
        rfl
  · rw [if_neg declaration] at ok ⊢
    cases ok
    rfl

theorem collectFunctions_eq {functions : List Fn} {table table' : Table}
    (ok : functions.foldlM collectFunction table = .ok table') :
    table' = (functions.flatMap Fn.roots).foldl collect table := by
  induction functions generalizing table with
  | nil =>
    cases ok
    rfl
  | cons F functions ih =>
    rw [List.foldlM_cons] at ok
    obtain ⟨middle, first, rest⟩ := bind_eq_ok.mp ok
    rw [List.flatMap_cons, List.foldl_append, ← collectFunction_eq first]
    exact ih rest

theorem collectFunctions_finishes {functions : List Fn} {table : Table} :
    functions.foldlM collectFunction table ≠ .error .unfinished := by
  induction functions generalizing table with
  | nil => exact nofun
  | cons F functions ih =>
    rw [List.foldlM_cons]
    cases step : collectFunction table F with
    | ok middle => exact ih
    | error e =>
      rintro ⟨rfl⟩
      unfold collectFunction at step
      repeat' split at step
      all_goals cases step

/-- One subtype: skipped behind a pointer if it is opaque, else collected. -/
theorem collectSubtype_eq {t s : TypeRef} {table table' : Table}
    (ok : collectSubtype m t table s = .ok table') :
    table' = if (m.shape s).isOpaque then table else collect table s := by
  unfold collectSubtype at ok
  by_cases hidden : (m.shape s).isOpaque
  · rw [if_pos hidden] at ok ⊢
    split at ok <;> cases ok
    rfl
  · rw [if_neg hidden] at ok ⊢
    cases ok
    rfl

/-- The subtypes of one type. -/
theorem collectSubtypes_eq {t : TypeRef} {parts : List TypeRef} {table table' : Table}
    (ok : parts.foldlM (collectSubtype m t) table = .ok table') :
    table' = (parts.filter fun s => !(m.shape s).isOpaque).foldl collect table := by
  induction parts generalizing table with
  | nil =>
    cases ok
    rfl
  | cons s parts ih =>
    rw [List.foldlM_cons] at ok
    obtain ⟨middle, first, rest⟩ := bind_eq_ok.mp ok
    have step := collectSubtype_eq first
    cases hidden : (m.shape s).isOpaque with
    | true =>
      rw [List.filter_cons_of_neg (by simp [hidden])]
      rw [hidden, if_pos rfl] at step
      exact step ▸ ih rest
    | false =>
      rw [List.filter_cons_of_pos (by simp [hidden]), List.foldl_cons]
      rw [hidden, if_neg Bool.false_ne_true] at step
      exact step ▸ ih rest

/-- Only a pointer may lead to an opaque struct. -/
theorem collectSubtypes_opaque {t : TypeRef} {parts : List TypeRef} {table table' : Table}
    (ok : parts.foldlM (collectSubtype m t) table = .ok table') {s : TypeRef} (part : s ∈ parts)
    (hidden : (m.shape s).isOpaque = true) : (m.shape t).isPointer = true := by
  induction parts generalizing table with
  | nil => cases part
  | cons r parts ih =>
    rw [List.foldlM_cons] at ok
    obtain ⟨middle, first, rest⟩ := bind_eq_ok.mp ok
    rcases List.mem_cons.mp part with rfl | part
    · unfold collectSubtype at first
      rw [if_pos hidden] at first
      by_contra notPointer
      rw [if_neg notPointer] at first
      cases first
    · exact ih rest part

theorem collectSubtypes_finishes {t : TypeRef} {parts : List TypeRef} {table : Table} :
    parts.foldlM (collectSubtype m t) table ≠ .error .unfinished := by
  induction parts generalizing table with
  | nil => exact nofun
  | cons s parts ih =>
    rw [List.foldlM_cons]
    cases step : collectSubtype m t table s with
    | ok middle => exact ih
    | error e =>
      rintro ⟨rfl⟩
      unfold collectSubtype at step
      repeat' split at step
      all_goals cases step

include sound

/-- One turn of the worklist. -/
theorem turn_built {t : TypeRef} {rest : List TypeRef} {table table' : Table}
    (built : Built m [] table) (pending : table.types = t :: rest) (ok : (m.shape t).subtypes.foldlM
      (collectSubtype m t) { table with types := rest } = .ok table') :
    Built m [] table' ∧
      table'.extraTypes.length + rest.length = table.extraTypes.length + table'.types.length := by
  have mentioned : Mentioned m t := built.pending t (pending ▸ List.mem_cons_self)
  have popped : Built m [t] { table with types := rest } := by
    refine ⟨built.numbered, built.reserved, built.counted, built.inRange, built.origin, ?_, ?_⟩
    · exact fun s hs => built.pending s (pending ▸ List.mem_cons_of_mem _ hs)
    · intro s known
      rcases built.expanded s known with h | h | h
      · rw [pending] at h
        rcases List.mem_cons.mp h with rfl | h
        · exact .inr (.inl List.mem_cons_self)
        · exact .inl h
      · cases h
      · exact .inr (.inr h)
  have shown := collectSubtypes_eq ok
  have after : Built m [t] (((m.shape t).subtypes.filter fun s => !(m.shape s).isOpaque).foldl
      collect { table with types := rest }) := by
    refine foldl_collect_built popped ?_ ?_
    · exact fun s hs => sound.closed t s (List.mem_of_mem_filter hs)
    · intro s hs
      obtain ⟨part, clear⟩ := List.mem_filter.mp hs
      exact .part mentioned part (by simpa using clear)
  rw [shown]
  refine ⟨⟨after.numbered, after.reserved, after.counted, after.inRange, after.origin,
    after.pending, ?_⟩, ?_⟩
  · intro s known
    rcases after.expanded s known with h | h | h
    · exact .inl h
    · refine .inr (.inr fun r part => ?_)
      rw [List.mem_singleton.mp h] at part ⊢
      cases hidden : (m.shape r).isOpaque with
      | true => exact .inr ⟨rfl, collectSubtypes_opaque ok part hidden⟩
      | false =>
          exact .inl (foldl_collect_known.mpr (.inl (List.mem_filter.mpr ⟨part, by simp [hidden]⟩)))
    · exact .inr (.inr h)
  · exact foldl_collect_lengths _ _

/-- The table never holds more types than there are, so the worklist runs empty in time. -/
theorem collectClosure_spec {fuel : Nat} {table : Table} (built : Built m [] table)
    (slack : m.types.length + table.types.length ≤ fuel + table.extraTypes.length) :
    collectClosure m fuel table ≠ .error .unfinished ∧
      ∀ table', collectClosure m fuel table = .ok table' →
        Built m [] table' ∧ table'.types = [] ∧ ∀ t, Known table t → Known table' t := by
  induction fuel generalizing table with
  | zero =>
    cases pending : table.types with
    | nil =>
      unfold collectClosure
      rw [pending]
      refine ⟨nofun, ?_⟩
      rintro table' ⟨rfl⟩
      exact ⟨built, pending, fun t h => h⟩
    | cons t rest =>
      have within : table.extraTypes.length ≤ (List.range m.types.length).length :=
        (List.subperm_of_subset built.nodup fun s hs =>
          List.mem_range.mpr (built.inRange s hs)).length_le
      rw [pending, List.length_cons] at slack
      rw [List.length_range] at within
      omega
  | succ fuel ih =>
    cases pending : table.types with
    | nil =>
      unfold collectClosure
      rw [pending]
      refine ⟨nofun, ?_⟩
      rintro table' ⟨rfl⟩
      exact ⟨built, pending, fun t h => h⟩
    | cons t rest =>
      unfold collectClosure
      rw [pending]
      dsimp only
      cases step :
        (m.shape t).subtypes.foldlM (collectSubtype m t) { table with types := rest } with
      | error e =>
        refine ⟨?_, nofun⟩
        rintro ⟨rfl⟩
        exact collectSubtypes_finishes step
      | ok middle =>
        obtain ⟨turned, lengths⟩ := turn_built sound built pending step
        have more : m.types.length + middle.types.length ≤ fuel + middle.extraTypes.length := by
          rw [pending, List.length_cons] at slack
          omega
        obtain ⟨finishes, spec⟩ := ih turned more
        refine ⟨finishes, fun table' ok => ?_⟩
        obtain ⟨built', empty, kept⟩ := spec table' ok
        refine ⟨built', empty, fun s known => kept s ?_⟩
        rw [collectSubtypes_eq step]
        exact foldl_collect_known.mpr (.inr known)

theorem root_lt {t : TypeRef} (root : t ∈ m.roots) : t < m.types.length := by
  rcases List.mem_append.mp root with h | h
  · obtain ⟨g, hg, rfl⟩ := List.mem_map.mp h
    exact sound.global g hg
  · obtain ⟨F, hF, h⟩ := List.mem_flatMap.mp h
    obtain ⟨bound, shape⟩ := sound.function F hF
    unfold Fn.roots at h
    split at h
    · split at h
      · cases h
      · rw [List.mem_singleton.mp h]
        exact bound
    · rcases List.mem_append.mp h with h | h
      · refine sound.closed F.functionType t ?_
        rw [shape]
        exact List.mem_cons_of_mem _ h
      · obtain ⟨i, hi, h⟩ := List.mem_flatMap.mp h
        exact sound.inst F hF i hi t h

/-- The table after the module's own types. -/
theorem roots_built : Built m [] (m.roots.foldl collect (initial m)) :=
  foldl_collect_built (initial_built sound).1 (fun _ h => root_lt sound h) fun _ h => .root h

/-- The analyzer does not get lost in the worklist, and the types with ids are the reserved
ones, the padding and the mentioned ones. -/
theorem analyze_spec : analyze m ≠ .error .unfinished ∧ ∀ table, analyze m = .ok table →
    Built m [] table ∧ table.types = [] ∧
      ∀ t, Known table t ↔ t ∈ reservedTypes m ∨ t ∈ paddings m ∨ Mentioned m t := by
  obtain ⟨initialBuilt, empty, initialKnown⟩ := initial_built sound
  have built := roots_built sound
  have slack : m.types.length + (m.roots.foldl collect (initial m)).types.length ≤
      m.types.length + (m.roots.foldl collect (initial m)).extraTypes.length := by
    have lengths := foldl_collect_lengths m.roots (initial m)
    rw [empty, List.length_nil] at lengths
    omega
  obtain ⟨finishes, spec⟩ := collectClosure_spec sound built slack
  have joined : ∀ table, m.functions.foldlM collectFunction
      ((m.globals.map Global.valueType).foldl collect (initial m)) = .ok table →
      table = m.roots.foldl collect (initial m) := by
    intro table ok
    rw [Module.roots, List.foldl_append]
    exact collectFunctions_eq ok
  unfold analyze
  cases m.functions.find? fun F => F.name = "entrypoint" with
  | none => exact ⟨nofun, nofun⟩
  | some ep =>
    dsimp only
    split
    · exact ⟨nofun, nofun⟩
    cases collected : m.functions.foldlM collectFunction
      ((m.globals.map Global.valueType).foldl collect (initial m)) with
    | error e =>
      refine ⟨?_, nofun⟩
      rintro ⟨rfl⟩
      exact collectFunctions_finishes collected
    | ok first =>
      rw [joined first collected, ok_bind]
      cases closed : collectClosure m m.types.length (m.roots.foldl collect (initial m)) with
      | error e =>
        refine ⟨?_, nofun⟩
        rintro ⟨rfl⟩
        exact finishes closed
      | ok last =>
        rw [ok_bind]
        obtain ⟨lastBuilt, done, kept⟩ := spec last closed
        split
        · exact ⟨nofun, nofun⟩
        refine ⟨nofun, ?_⟩
        rintro table ⟨rfl⟩
        refine ⟨lastBuilt, done, fun t => ⟨?_, ?_⟩⟩
        · intro known
          obtain ⟨id, found⟩ := Option.isSome_iff_exists.mp known
          rcases lastBuilt.reserved t id found with h | h
          · exact .inl h.2
          · exact .inr (lastBuilt.origin t h)
        · rintro (h | h | h)
          · exact kept t (foldl_collect_known.mpr (.inr ((initialKnown t).mpr (.inr h))))
          · exact kept t (foldl_collect_known.mpr (.inr ((initialKnown t).mpr (.inl h))))
          · induction h with
            | root h => exact kept _ (foldl_collect_known.mpr (.inl h))
            | part _ part clear ih =>
              rcases lastBuilt.expanded _ ih with h | h | h
              · rw [done] at h
                cases h
              · cases h
              · rcases h _ part with h | h
                · exact h
                · rw [clear] at h
                  cases h.1

omit sound

/-! ## Requests -/

theorem mem_printType {t s : TypeRef} (h : s ∈ printType m t) : s = t := by
  unfold printType at h
  split at h
  · split at h
    · exact List.mem_singleton.mp h
    · cases h
  · cases h
  · exact List.mem_singleton.mp h

theorem mem_flatMap_printType {ts : List TypeRef} {s : TypeRef} (h : s ∈ ts.flatMap (printType m)) :
    s ∈ ts := by
  obtain ⟨t, ht, h⟩ := List.mem_flatMap.mp h
  exact mem_printType h ▸ ht

theorem mem_reduceOption_of_head {operands : List (Option TypeRef)} {t : TypeRef}
    (h : t ∈ operands.head?.join.toList) :
    t ∈ operands.reduceOption := by
  cases operands with
  | nil => cases h
  | cons o operands =>
    cases o with
    | none => cases h
    | some s =>
      have same : t = s := by simpa using h
      simp [List.reduceOption_cons_of_some, same]

/-- An instruction asks for types that were collected for it, or for i8*. -/
theorem mem_inst_requests {table : Table} {i : Inst} {t : TypeRef} (h : t ∈ i.requests m table) :
    t ∈ i.collected ∨ t = m.intPtr 8 := by
  unfold Inst.requests at h
  unfold Inst.collected
  cases op : i.op with
  | alloca allocatedType =>
    rw [op] at h
    exact .inl (List.mem_append_right _ (List.mem_singleton.mpr (mem_printType h)))
  | getElementPtr =>
    rw [op] at h
    dsimp only at h ⊢
    have pointer : ∀ {s}, s ∈ i.operands.head?.join.toList →
        s ∈ i.operands.head?.join.toList ++ i.operands.reduceOption ++ [i.type] :=
      fun hs => List.mem_append_left _ (List.mem_append_left _ hs)
    split at h
    · rcases List.mem_append.mp h with h | h
      · exact .inl (pointer h)
      · rcases List.mem_append.mp (mem_flatMap_printType h) with h | h
        · rcases List.mem_append.mp h with h | h
          · exact .inl (pointer h)
          · rcases List.mem_cons.mp h with h | h
            · exact .inr h
            · exact .inl (List.mem_append_left _ (List.mem_append_right _ (List.mem_of_mem_tail h)))
        · exact .inl (List.mem_append_right _ h)
    · rcases List.mem_append.mp h with h | h
      · exact .inl (pointer h)
      · rcases List.mem_append.mp (mem_flatMap_printType h) with h | h
        · exact .inl (pointer h)
        · exact .inl (List.mem_append_right _ h)
  | store =>
    rw [op] at h
    exact .inl (List.mem_append_left _ (mem_reduceOption_of_head (mem_flatMap_printType h)))
  | phi =>
    rw [op] at h
    rcases List.mem_cons.mp (mem_flatMap_printType h) with h | h
    · exact .inl (List.mem_append_right _ (List.mem_singleton.mpr h))
    · exact .inl (List.mem_append_left _ h)
  | bitcast | icmp =>
    rw [op] at h
    rcases List.mem_cons.mp (mem_flatMap_printType h) with h | h
    · exact .inl (List.mem_append_right _ (List.mem_singleton.mpr h))
    · exact .inl (List.mem_append_left _ (mem_reduceOption_of_head h))
  | ret =>
    rw [op] at h
    exact .inl (List.mem_append_left _ (mem_flatMap_printType h))
  | terminator | dbgInfo =>
    rw [op] at h
    cases h
  | other =>
    rw [op] at h
    exact .inl (List.mem_append_right _ (List.mem_singleton.mpr (mem_printType h)))

theorem startsWith_shorter {name p q : String} (h : startsWith name p = true)
    (start : startsWith p q = true) (le : q.length ≤ p.length) : startsWith name q = true := by
  unfold startsWith at *
  have long : name.toList.take p.length = p.toList := of_decide_eq_true h
  have short : p.toList.take q.length = q.toList := of_decide_eq_true start
  refine decide_eq_true ?_
  rw [← short, ← long, List.take_take, Nat.min_eq_left le]

theorem not_debug_of_not_llvm {name : String} (h : startsWith name "llvm." = false) :
    startsWith name "llvm.dbg" = false := by
  rw [Bool.eq_false_iff] at h ⊢
  intro debug
  exact h (startsWith_shorter debug (by decide) (by decide))

theorem fn_root {F : Fn} {t : TypeRef} (hF : F ∈ m.functions) (root : t ∈ F.roots) :
    Mentioned m t :=
  .root (List.mem_append_right _ (List.mem_flatMap.mpr ⟨F, hF, root⟩))

theorem mem_gathered {t : TypeRef} (h : t ∈ m.gathered) : Mentioned m t := by
  obtain ⟨F, hF, h⟩ := List.mem_flatMap.mp h
  obtain ⟨i, hi, h⟩ := List.mem_flatMap.mp h
  obtain ⟨hF, defined⟩ := List.mem_filter.mp hF
  obtain ⟨hi, gep⟩ := List.mem_filter.mp hi
  have op : i.op = .getElementPtr := (of_decide_eq_true gep).1
  refine fn_root hF ?_
  unfold Fn.roots
  rw [if_neg (by simpa using defined)]
  refine List.mem_append_right _ (List.mem_flatMap.mpr ⟨i, hi, ?_⟩)
  unfold Inst.collected
  rw [op]
  exact List.mem_append_left _ (List.mem_append_left _ h)

theorem mem_apis {F : Fn} (h : F ∈ m.apis) : Mentioned m F.functionType := by
  obtain ⟨hF, h⟩ := List.mem_filter.mp h
  simp only [Bool.and_eq_true, Bool.not_eq_true', decide_eq_true_eq] at h
  obtain ⟨⟨⟨-, declaration⟩, notLlvm⟩, -⟩ := h
  refine fn_root hF ?_
  unfold Fn.roots
  rw [if_pos declaration, if_neg (by simp [not_debug_of_not_llvm notLlvm])]
  exact List.mem_singleton_self _

/-- What `describeType` asks for is a subtype, or i8 in place of an opaque struct. -/
theorem mem_describeType {table : Table} {t s : TypeRef} (parts : PartsKnown m table t)
    (h : s ∈ describeType m t) :
    Known table s ∨ s = m.intType 8 := by
  unfold describeType at h
  have plain : ∀ {r}, r ∈ (m.shape t).subtypes → (m.shape t).isPointer = false → Known table r := by
    intro r hr notPointer
    rcases parts r hr with h | ⟨-, pointer⟩
    · exact h
    · rw [notPointer] at pointer
      cases pointer
  split at h
  · rename_i ret params vararg shape
    split at h
    · cases h
    · exact .inl (plain (by rw [shape]; exact h) (by rw [shape]; rfl))
  · rename_i packed elements shape
    refine .inl (plain ?_ (by rw [shape]; rfl))
    rw [shape]
    exact (List.takeWhile_sublist _).subset h
  · rename_i count element shape
    refine .inl (plain ?_ (by rw [shape]; rfl))
    rw [shape]
    exact h
  · rename_i element shape
    split at h
    · exact .inr (List.mem_singleton.mp h)
    · rename_i clear
      rcases parts s (by rw [shape]; exact h) with known | ⟨hidden, -⟩
      · exact .inl known
      · rw [List.mem_singleton.mp h] at hidden
        exact absurd hidden clear
  · cases h

/-- The return type has an id or never needs one. -/
def ReturnCovered (m : Module) (t : TypeRef) : Prop :=
  (∃ width, m.shape t = .int width) ∨ (∃ bits, m.shape t = .floating bits) ∨
    t ∈ reservedTypes m ∨ t ∈ paddings m ∨ Mentioned m t

theorem mem_printType_of_int {t s : TypeRef} {width : Nat} (shape : m.shape t = .int width)
    (h : s ∈ printType m t) :
    s ∈ reservedTypes m := by
  unfold printType at h
  rw [shape] at h
  dsimp only at h
  split at h
  · rename_i supported
    obtain ⟨w, hw, same⟩ := List.mem_map.mp supported
    rw [List.mem_singleton.mp h, ← same]
    have range : 1 ≤ w ∧ w ≤ 64 := by
      simp only [List.mem_cons, List.not_mem_nil, or_false] at hw
      omega
    exact int_mem range.1 range.2
  · cases h

theorem printType_of_other {t : TypeRef} (notInt : ∀ width, m.shape t ≠ .int width)
    (notFloat : ∀ bits, m.shape t ≠ .floating bits) :
    printType m t = [t] := by
  unfold printType
  split
  · rename_i width shape
    exact absurd shape (notInt width)
  · rename_i bits shape
    exact absurd shape (notFloat bits)
  · rfl

/-- For every module that the analyzer accepts the table is exact and closed if and only if the
return type of every function that is written is mentioned somewhere: no loop of the analyzer
collects it. -/
theorem analyze_exact_iff (m : Module) (sound : m.Sound) :
    analyze m ≠ .error .unfinished ∧ ∀ table, analyze m = .ok table →
      (Exact m table ↔ ∀ F ∈ m.written, F.hasStructRetAttr = false →
        ReturnCovered m F.returnType) := by
  obtain ⟨finishes, spec⟩ := analyze_spec sound
  refine ⟨finishes, fun table accepted => ?_⟩
  obtain ⟨built, done, known⟩ := spec table accepted
  constructor
  · intro exact F hF plain
    by_cases int : ∃ width, m.shape F.returnType = .int width
    · exact .inl int
    by_cases floating : ∃ bits, m.shape F.returnType = .floating bits
    · exact .inr (.inl floating)
    have asked : F.returnType ∈ requests m table := by
      refine List.mem_append_right _ (List.mem_flatMap.mpr ⟨F, hF, ?_⟩)
      refine List.mem_append_left _ (List.mem_append_left _ ?_)
      rw [plain, if_neg Bool.false_ne_true,
        printType_of_other (not_exists.mp int) (not_exists.mp floating)]
      exact List.mem_singleton_self _
    obtain ⟨id, found, -⟩ := exact.known _ asked
    exact .inr (.inr ((known _).mp (by simp [Known, found])))
  · intro covered
    have complete : ∀ t ∈ requests m table, Known table t := by
      intro t asked
      have mentioned : ∀ {s}, Mentioned m s → Known table s :=
        fun h => (known _).mpr (.inr (.inr h))
      have reserved : ∀ {s}, s ∈ reservedTypes m → Known table s := fun h => (known _).mpr (.inl h)
      rcases List.mem_append.mp asked with h | h
      · rcases List.mem_append.mp h with h | h
        · rcases List.mem_append.mp h with h | h
          · rcases List.mem_append.mp h with h | h
            · obtain ⟨s, hs, h⟩ := List.mem_flatMap.mp h
              obtain ⟨j, at_j⟩ := List.mem_iff_getElem?.mp hs
              have hasId : Known table s := by simp [Known, built.numbered j s at_j]
              rcases built.expanded s hasId with pending | busy | parts
              · rw [done] at pending
                cases pending
              · cases busy
              · rcases mem_describeType parts h with h | rfl
                · exact h
                · exact reserved (int_mem (by omega) (by omega))
            · obtain ⟨F, hF, rfl⟩ := List.mem_map.mp h
              exact mentioned (mem_apis hF)
          · obtain ⟨g, hg, rfl⟩ := List.mem_map.mp h
            exact mentioned
              (.root (List.mem_append_left _ (List.mem_map_of_mem (List.mem_of_mem_filter hg))))
        · exact mentioned (mem_gathered h)
      · obtain ⟨F, hF, h⟩ := List.mem_flatMap.mp h
        obtain ⟨member, body⟩ := List.mem_filter.mp hF
        have defined : F.isDeclaration = false := by
          simp only [Bool.and_eq_true, Bool.not_eq_true'] at body
          exact body.1
        have roots : F.roots = F.params ++ F.insts.flatMap Inst.collected := by
          unfold Fn.roots
          rw [defined, if_neg Bool.false_ne_true]
        rcases List.mem_append.mp h with h | h
        · rcases List.mem_append.mp h with h | h
          · split at h
            · cases h
            rename_i plain
            rcases covered F hF (by simpa using plain) with ⟨width, shape⟩ | ⟨bits, shape⟩ | rest
            · exact reserved (mem_printType_of_int shape h)
            · unfold printType at h
              rw [shape] at h
              cases h
            · rw [mem_printType h]
              exact (known _).mpr rest
          · refine mentioned (fn_root member ?_)
            rw [roots]
            exact List.mem_append_left _ (mem_flatMap_printType h)
        · obtain ⟨i, hi, h⟩ := List.mem_flatMap.mp h
          rcases mem_inst_requests h with h | rfl
          · refine mentioned (fn_root member ?_)
            rw [roots]
            exact List.mem_append_right _ (List.mem_flatMap.mpr ⟨i, hi, h⟩)
          · exact reserved (mem_reservedTypes.mpr (.inr (.inr ⟨8, by decide, rfl⟩)))
    refine ⟨built.numbered, built.nodup, fun t asked => ?_⟩
    obtain ⟨id, found⟩ := Option.isSome_iff_exists.mp (complete t asked)
    refine ⟨id, found, ?_⟩
    rcases built.reserved t id found with h | h
    · exact .inl h
    · obtain ⟨j, at_j⟩ := List.mem_iff_getElem?.mp h
      refine .inr ⟨j, at_j, ?_⟩
      rw [built.numbered j t at_j] at found
      exact (Option.some.inj found).symm

/-! The types every context has, at the references that are their ids; the padding follows. -/

def baseTypes : List Shape :=
  .void :: (List.range 64).map (fun i => .int (i + 1)) ++
    [.pointer 8, .pointer 16, .pointer 32, .pointer 64]
    ++ paddingCounts.map (.array · 8)

theorem base_sound {extra : List Shape} {globals : List Global} {functions : List Fn} (m : Module)
    (shown : m = ⟨baseTypes ++ extra, globals, functions⟩)
    (closed : ∀ s ∈ m.types, ∀ t ∈ s.subtypes, t < m.types.length)
    (global : ∀ g ∈ m.globals, g.valueType < m.types.length)
    (function : ∀ F ∈ m.functions, F.functionType < m.types.length ∧
      m.shape F.functionType = .function F.returnType F.params F.isVarArg)
    (inst : ∀ F ∈ m.functions, ∀ i ∈ F.insts, ∀ t ∈ i.collected, t < m.types.length) : m.Sound := by
  have place : ∀ s ∈ baseTypes, m.type s = baseTypes.idxOf s := by
    intro s hs
    rw [shown]
    exact List.idxOf_append_of_mem hs
  have present : ∀ s ∈ baseTypes, s ∈ m.types := by
    intro s hs
    rw [shown]
    exact List.mem_append_left _ hs
  have ints : ∀ width, 1 ≤ width → width ≤ 64 → .int width ∈ baseTypes := by
    intro width low high
    refine List.mem_append_left _ (List.mem_append_left _ (List.mem_cons_of_mem _ ?_))
    exact List.mem_map.mpr ⟨width - 1,
      List.mem_range.mpr (by omega), by rw [Nat.sub_add_cancel low]⟩
  refine ⟨?_, present _ (by decide), fun width low high => present _ (ints width low high), ?_, ?_,
    global, function, inst⟩
  · intro t s hs
    unfold Module.shape at hs
    cases found : m.types[t]? with
    | none =>
      rw [found] at hs
      cases hs
    | some shape =>
      rw [found] at hs
      exact closed shape (List.mem_of_getElem? found) s hs
  · intro width hw
    refine present _ ?_
    rw [Module.intType]
    simp only [List.mem_cons, List.not_mem_nil, or_false] at hw
    rcases hw with rfl | rfl | rfl | rfl <;> rw [place _ (ints _ (by omega) (by omega))] <;> decide
  · intro count hc
    refine present _ ?_
    rw [Module.intType, place _ (ints 8 (by omega) (by omega))]
    have eight : baseTypes.idxOf (.int 8) = 8 := by decide
    rw [eight]
    exact List.mem_append_right _ (List.mem_map.mpr ⟨count, hc, rfl⟩)

def entrypoint (insts : List Inst) : Fn :=
  { name := "entrypoint", functionType := 76, returnType := 32, params := [], isVarArg := false,
    isDeclaration := false
    hasAvailableExternallyLinkage := false, hasStructRetAttr := false, useEmpty := true, insts }

/-- `%node = { i32, %node* }` and an entrypoint with a node on its stack. -/
def nodeModule : Module :=
  { types := baseTypes ++ [.function 32 [] false, .struct false [32, 78], .pointer 77]
    globals := []
    functions := [entrypoint [⟨.alloca 77, 78, [some 32]⟩, ⟨.ret, 0, [some 32]⟩]] }

theorem nodeModule_sound : nodeModule.Sound :=
  base_sound nodeModule rfl (by decide +kernel) (by decide) (by decide) (by decide)

theorem analyze_exact_nodeModule :
    nodeModule.Sound ∧ ∃ table, analyze nodeModule = .ok table ∧ Exact nodeModule table := by
  have accepted : (analyze nodeModule).isOk = true := by decide +kernel
  obtain ⟨table, accepted⟩ : ∃ table, analyze nodeModule = .ok table := by
    cases result : analyze nodeModule with
    | ok table => exact ⟨table, rfl⟩
    | error e =>
      rw [result] at accepted
      cases accepted
  refine ⟨nodeModule_sound, table, accepted, ?_⟩
  refine ((analyze_exact_iff nodeModule nodeModule_sound).2 table accepted).mpr ?_
  intro F hF _
  have only : F = entrypoint [⟨.alloca 77, 78, [some 32]⟩, ⟨.ret, 0, [some 32]⟩] :=
    List.mem_singleton.mp (List.mem_of_mem_filter hF)
  subst only
  exact .inl ⟨32, by decide⟩

/-- `define i16** @f() { unreachable }` beside the entrypoint. -/
def noReturnModule : Module :=
  { types := baseTypes ++ [.function 32 [] false, .pointer 66, .function 77 [] false]
    globals := []
    functions :=
      [entrypoint [⟨.ret, 0, [some 32]⟩],
        { name := "f", functionType := 78, returnType := 77, params := [], isVarArg := false,
          isDeclaration := false
          hasAvailableExternallyLinkage := false, hasStructRetAttr := false, useEmpty := true
          insts := [⟨.terminator, 0, []⟩] }] }

theorem noReturn_type_unknown : noReturnModule.Sound ∧
    ∃ table, analyze noReturnModule = .ok table ∧ 77 ∈ requests noReturnModule table ∧
      table.getTypeID 77 = none ∧
      ¬ Exact noReturnModule table := by
  refine ⟨base_sound noReturnModule rfl (by decide +kernel) (by decide) (by decide) (by decide),
    initial noReturnModule, ?_, ?_, ?_, ?_⟩
  · decide +kernel
  · decide +kernel
  · decide +kernel
  · intro exact
    obtain ⟨id, found, -⟩ := exact.known 77 (by decide +kernel)
    have missing : (initial noReturnModule).getTypeID 77 = none := by decide +kernel
    rw [missing] at found
    cases found

end

end TypeTable
