import ClamBC.TypeTable
import ClamBC.VisitOrder

/-!
# The tables of the API

From the prototypes and globals of the API the generator prints the tables that the engine is
compiled with: the types, an entry for each function with its type, the list of functions that it is
in and its place there, and these lists. A list holds functions that can be called in the same way.

Types are those of a module without functions. The names of C types, the prototypes that are printed
and the texts of the errors are left out.
-/

namespace ApiTables

open Fallible TypeTable

structure Proto where
  name : String
  type : TypeRef

inductive Fault where
  | unknownPrototype (name : String)
  /-- `getParamType` behind the last parameter. -/
  | noSuchParam
  | assertion (text : String)
  | unfinished

/-- The containers of the loop over the types; the back of `addTypes` is its head. -/
structure Table where
  typeIDs : List (TypeRef × Nat)
  apiTypes : List TypeRef
  tid : Nat
  addTypes : List TypeRef

/-- A type that is missing gets the id 0. -/
def Table.getTypeID (table : Table) (t : TypeRef) : Nat := (table.typeIDs.lookup t).getD 0

inductive Descriptor where
  | pointer
  | struct
  | array
  | function
  deriving DecidableEq

/-- A `cli_tmp` array and the entry of `cli_apicall_types`. Other types have no descriptor and no
count. -/
structure TypeEntry where
  parts : List Nat
  kind : Option Descriptor
  count : Option Nat

structure ApiCall where
  name : String
  type : Nat
  index : UInt16
  kind : Nat

structure Tables where
  globals : List (String × Nat)
  types : List TypeEntry
  apicalls : List ApiCall
  /-- `cli_apicalls0` to `cli_apicalls9`. -/
  calls : List (List String)

section
variable (m : Module)

/-! ## Kinds of functions -/

/-- `Api0Ty` to `Api9Ty`. -/
def apiShapes : List Shape :=
  let i32 := m.intType 32
  let buffer := m.intPtr 8
  [.function i32 [i32, i32] false,
    .function i32 [buffer, i32] false,
    .function i32 [i32] false,
    .function buffer [i32] false,
    .function i32 [buffer, i32, i32, i32, i32] false,
    .function i32 [] false,
    .function buffer [i32, i32] false,
    .function i32 [i32, i32, i32] false,
    .function i32 [buffer, i32, buffer, i32] false,
    .function i32 [buffer, i32, i32] false]

def apiTy (kind : Nat) : TypeRef := m.type ((apiShapes m).getD kind .void)

/-- The first of the kinds whose function type this is. -/
def findKind (kinds : List Nat) (t : TypeRef) : Option Nat := kinds.find? fun kind => t = apiTy m kind

/-- The condition behind the comparisons of the first loop. -/
def takesPointer (t : TypeRef) : Except Fault Bool :=
  match m.shape t with
  | .function ret params _ =>
    if ret ≠ m.intType 32 then .ok false
    else
      match params with
      | [] => .error .noSuchParam
      | p :: rest =>
        if !(m.shape p).isPointer then .ok false
        else
          match rest with
          | [] => .error .noSuchParam
          | q :: _ => .ok (q = m.intType 32)
  | _ => .ok false

/-- The condition behind the comparisons of the second loop. -/
def takesPointerAndSize (t : TypeRef) : Bool :=
  match m.shape t with
  | .function ret [p, q] _ => ret = m.intType 32 ∧ (m.shape p).isPointer ∧ q = m.intType 32
  | _ => false

/-- The list that the first loop puts a function into. -/
def listKind (F : Proto) : Except Fault Nat :=
  match findKind m [0, 1, 2, 3, 4, 5, 6, 7, 8, 9] F.type with
  | some kind => .ok kind
  | none => do
    let pointer ← takesPointer m F.type
    if pointer then return 1 else throw (.unknownPrototype F.name)

def addCall (apicalls : Nat → List Proto) (F : Proto) : Except Fault (Nat → List Proto) := do
  let kind ← listKind m F
  return Function.update apicalls kind (apicalls kind ++ [F])

/-- The kind that the second loop prints. -/
def entryKind (F : Proto) : Except Fault Nat :=
  match findKind m [0, 2, 3, 4, 5, 6, 7, 8, 9] F.type with
  | some kind => .ok kind
  | none =>
    if F.type = apiTy m 1 ∨ takesPointerAndSize m F.type then .ok 1
    else .error (.unknownPrototype F.name)

/-! ## Types -/

/-- Behind a pointer opaque types are not looked at. -/
def visibleParts (t : TypeRef) : List TypeRef :=
  (m.shape t).subtypes.filter fun s => !((m.shape s).isOpaque && (m.shape t).isPointer)

/-- The loop over the types; `fuel` bounds its turns. The parts are pushed in their order. -/
def numberTypes : Nat → Table → Except Fault Table
  | fuel, table =>
    match table.addTypes, fuel with
    | [], _ => .ok table
    | _ :: _, 0 => .error .unfinished
    | t :: rest, fuel + 1 =>
      if (table.typeIDs.lookup t).isSome then numberTypes fuel { table with addTypes := rest }
      else
        numberTypes fuel
          { typeIDs := (t, table.tid) :: table.typeIDs
            apiTypes := table.apiTypes ++ [t]
            tid := table.tid + 1
            addTypes := (visibleParts m t).reverse ++ rest }

/-- Every type is visited once, so its parts are pushed once. -/
def turns (roots : List TypeRef) : Nat :=
  roots.length + ((List.range m.types.length).map fun t => (visibleParts m t).length).sum

/-- An id that is missing stands for `void *`, which is printed as `i8`. -/
def partID (table : Table) (t : TypeRef) : Nat :=
  if table.getTypeID t = 0 then 8 else table.getTypeID t

def descriptor : Shape → Option Descriptor
  | .pointer _ => some .pointer
  | .struct _ _ => some .struct
  | .array _ _ => some .array
  | .function _ _ _ => some .function
  | _ => none

def partCount : Shape → Option Nat
  | .pointer _ => some 1
  | .struct _ elements => some elements.length
  | .array count _ => some count
  | .function _ params _ => some (params.length + 1)
  | _ => none

def typeEntry (table : Table) (t : TypeRef) : TypeEntry :=
  ⟨(m.shape t).subtypes.map (partID table), descriptor (m.shape t), partCount (m.shape t)⟩

/-- The assertion in front of every type that is printed. -/
def inOrder (table : Table) : Bool :=
  table.apiTypes.zipIdx.all fun (t, i) => table.getTypeID t = startTID + i

/-! ## The tables -/

/-- The entries of the functions; the counters are `uint16_t`. -/
def printEntries (table : Table) : (Nat → UInt16) → List Proto → Except Fault (List ApiCall)
  | _, [] => .ok []
  | counters, F :: rest => do
    if table.getTypeID F.type = 0 then throw (.assertion "Type not in map?")
    else
      let kind ← entryKind m F
      let entries ← printEntries table (Function.update counters kind (counters kind + 1)) rest
      return ⟨F.name, table.getTypeID F.type - startTID, counters kind, kind⟩ :: entries

/-- The globals come in the order of their map. -/
def output (functions globals : List Proto) : Except Fault Tables := do
  let apicalls ← functions.foldlM (addCall m) fun _ => []
  let roots := (functions ++ globals).map Proto.type
  let table ← numberTypes m (turns m roots) ⟨initTypeIDs m, [], startTID, roots.reverse⟩
  if !inOrder table then throw (.assertion "typeIDs[apiTypes[i - tidStart]] == i")
  else
    let entries ← printEntries m table (fun _ => 0) functions
    return ⟨globals.map fun g => (g.name, table.getTypeID g.type),
      table.apiTypes.map (typeEntry m table), entries,
      (List.range 10).map fun kind => (apicalls kind).map Proto.name⟩

/-! ## Tables that fit together -/

/-- What LLVM guarantees of the types of the API. -/
structure Sound (functions globals : List Proto) : Prop where
  closed : ∀ t, ∀ s ∈ (m.shape t).subtypes, s < m.types.length
  void : .void ∈ m.types
  int : ∀ width, 1 ≤ width → width ≤ 64 → .int width ∈ m.types
  intPtr : ∀ width ∈ [8, 16, 32, 64], .pointer (m.intType width) ∈ m.types
  api : ∀ shape ∈ apiShapes m, shape ∈ m.types
  function : ∀ F ∈ functions, F.type < m.types.length ∧
    ∃ ret params vararg, m.shape F.type = .function ret params vararg
  global : ∀ g ∈ globals, g.type < m.types.length

/-- The function is of a known type, or has a pointer and a size as the functions of kind 1. -/
def HasKind (t : TypeRef) (kind : Nat) : Prop :=
  (kind < 10 ∧ t = apiTy m kind) ∨ (kind = 1 ∧ takesPointerAndSize m t)

/-- The types that the prototypes and globals are made of. -/
inductive Mentioned (roots : List TypeRef) : TypeRef → Prop
  | root {t : TypeRef} : t ∈ roots → Mentioned roots t
  | part {t s : TypeRef} : Mentioned roots t → s ∈ visibleParts m t → Mentioned roots s

variable (apiTypes : List TypeRef)

/-- The type that an id stands for. -/
def Names (id : Nat) (t : TypeRef) : Prop :=
  (id < startTID ∧ (reservedTypes m)[id]? = some t) ∨
    ∃ j : Nat, apiTypes[j]? = some t ∧ id = startTID + j

/-- What a type has inside is named by its id, but void and what is opaque behind a pointer are
called bytes. -/
def NamesPart (t : TypeRef) (s : TypeRef) (id : Nat) : Prop :=
  ((s = m.type .void ∨ (s ∉ visibleParts m t ∧ s ∉ apiTypes)) ∧ id = 8) ∨
    (s ≠ m.type .void ∧ Names m apiTypes id s)

/-- An entry leads to the function it is for. -/
structure LeadsTo (tables : Tables) (place : Nat) (F : Proto) (entry : ApiCall) : Prop where
  name : entry.name = F.name
  type : apiTypes[entry.type]? = some F.type
  kind : HasKind m F.type entry.kind
  index : ∃ position list, tables.calls[entry.kind]? = some list ∧ list[position]? = some F.name ∧
    position = ((tables.apicalls.take place).filter fun e => e.kind = entry.kind).length ∧
    entry.index = UInt16.ofNat position

structure Linked (functions globals : List Proto) (tables : Tables) : Prop where
  distinct : apiTypes.Nodup
  mentioned : ∀ t, t ∈ apiTypes ↔
    Mentioned m ((functions ++ globals).map Proto.type) t ∧ t ∉ reservedTypes m
  types : List.Forall₂ (fun t entry => entry.kind = descriptor (m.shape t) ∧
    entry.count = partCount (m.shape t) ∧
    List.Forall₂ (NamesPart m apiTypes t) (m.shape t).subtypes entry.parts) apiTypes tables.types
  apicalls : tables.apicalls.length = functions.length ∧ ∀ place F entry,
    functions[place]? = some F → tables.apicalls[place]? = some entry →
      LeadsTo m apiTypes tables place F entry
  globals : List.Forall₂ (fun g entry => entry.1 = g.name ∧ Names m apiTypes entry.2 g.type) globals
    tables.globals

end

/-! ## The order of the types -/

section
variable {m : Module}

/-- The table when these types have been numbered. -/
def tableOf (m : Module) (visited stack : List TypeRef) : Table :=
  ⟨(visited.zip (List.range' startTID visited.length)).reverse ++ initTypeIDs m, visited,
    startTID + visited.length, stack⟩

theorem lookup_tableOf_isSome (visited stack : List TypeRef) (t : TypeRef) :
    ((tableOf m visited stack).typeIDs.lookup t).isSome = true ↔
      t ∈ reservedTypes m ∨ t ∈ visited := by
  have keys : (visited.zip (List.range' startTID visited.length)).map Prod.fst = visited :=
    List.map_fst_zip (by rw [List.length_range'])
  rw [tableOf, List.lookup_append, Option.isSome_or, Bool.or_eq_true, initTypeIDs_known,
    List.lookup_isSome_iff, or_comm]
  simp only [List.mem_reverse, beq_iff_eq]
  refine or_congr_right ?_
  constructor
  · rintro ⟨p, mem, rfl⟩
    exact (List.of_mem_zip mem).1
  · intro mem
    obtain ⟨p, here, rfl⟩ := List.mem_map.mp (keys.symm ▸ mem)
    exact ⟨p, here, rfl⟩

theorem tableOf_visit (visited rest : List TypeRef) (t : TypeRef) :
    tableOf m (visited ++ [t]) rest =
      { typeIDs := (t, (tableOf m visited []).tid) :: (tableOf m visited []).typeIDs
        apiTypes := visited ++ [t]
        tid := (tableOf m visited []).tid + 1
        addTypes := rest } := by
  have numbers : List.range' startTID (visited ++ [t]).length =
      List.range' startTID visited.length ++ [startTID + visited.length] := by
    rw [List.length_append, List.length_singleton, List.range'_concat, Nat.one_mul]
  have zipped : (visited ++ [t]).zip (List.range' startTID (visited ++ [t]).length) =
      visited.zip (List.range' startTID visited.length) ++ [(t, startTID + visited.length)] := by
    rw [numbers, List.zip_append (List.length_range').symm]
    rfl
  rw [tableOf, zipped, List.reverse_append, List.length_append]
  rfl

/-- The loop over the types is a visit of what the prototypes and globals are made of. -/
theorem numberTypes_eq (fuel : Nat) (visited stack : List TypeRef) :
    numberTypes m fuel (tableOf m visited stack) =
      (VisitOrder.visit (fun t => (visibleParts m t).reverse) (· ∈ reservedTypes m) fuel visited
        stack).elim (.error .unfinished) fun order => .ok (tableOf m order []) := by
  induction fuel generalizing visited stack with
  | zero => cases stack <;> rfl
  | succ fuel ih =>
    cases stack with
    | nil => rfl
    | cons t rest =>
      have known := lookup_tableOf_isSome (m := m) visited (t :: rest) t
      rw [VisitOrder.visit]
      by_cases seen : t ∈ reservedTypes m ∨ t ∈ visited
      · rw [if_pos seen, ← ih visited rest]
        exact if_pos (known.mpr seen)
      · rw [if_neg seen, ← ih, tableOf_visit]
        exact if_neg fun h => seen (known.mp h)

theorem reserved_at {t : TypeRef} {id : Nat} (found : (initTypeIDs m).lookup t = some id) :
    id < startTID ∧ (reservedTypes m)[id]? = some t := by
  obtain ⟨before, after, split, -⟩ := List.lookup_eq_some_iff.mp found
  have entry : (t, id) ∈ (reservedTypes m).zip (List.range startTID) := by
    rw [← initTypeIDs, split]
    exact List.mem_append_right _ List.mem_cons_self
  obtain ⟨i, bound, here⟩ := List.mem_iff_getElem.mp entry
  rw [List.getElem_zip, Prod.mk.injEq, List.getElem_range] at here
  obtain ⟨rfl, rfl⟩ := here
  exact ⟨(initTypeIDs_lt found).1, List.getElem?_eq_getElem _⟩

/-- The id of a type in the table stands for it. -/
theorem names_of_lookup {order stack : List TypeRef} {t : TypeRef} {id : Nat}
    (found : (tableOf m order stack).typeIDs.lookup t = some id) : Names m order id t := by
  rw [tableOf, List.lookup_append, Option.or_eq_some_iff] at found
  rcases found with found | ⟨-, found⟩
  · obtain ⟨before, after, split, -⟩ := List.lookup_eq_some_iff.mp found
    have entry : (t, id) ∈ order.zip (List.range' startTID order.length) := by
      rw [← List.mem_reverse, split]
      exact List.mem_append_right _ List.mem_cons_self
    obtain ⟨j, bound, here⟩ := List.mem_iff_getElem.mp entry
    rw [List.getElem_zip, Prod.mk.injEq, List.getElem_range', Nat.one_mul] at here
    obtain ⟨rfl, rfl⟩ := here
    exact .inr ⟨j, List.getElem?_eq_getElem _, rfl⟩
  · exact .inl (reserved_at found)

theorem names_id {order stack : List TypeRef} {t : TypeRef}
    (known : t ∈ reservedTypes m ∨ t ∈ order) :
    Names m order ((tableOf m order stack).getTypeID t) t := by
  obtain ⟨id, found⟩ := Option.isSome_iff_exists.mp
    ((lookup_tableOf_isSome order stack t).mpr known)
  rw [Table.getTypeID, found]
  exact names_of_lookup found

theorem id_unknown {order stack : List TypeRef} {t : TypeRef}
    (unknown : ¬(t ∈ reservedTypes m ∨ t ∈ order)) : (tableOf m order stack).getTypeID t = 0 := by
  rw [← lookup_tableOf_isSome order stack t, Option.not_isSome_iff_eq_none] at unknown
  rw [Table.getTypeID, unknown]
  rfl

theorem id_at {order stack : List TypeRef} (nodup : order.Nodup)
    (fresh : ∀ t ∈ order, t ∉ reservedTypes m) {j : Nat} {t : TypeRef} (here : order[j]? = some t) :
    (tableOf m order stack).getTypeID t = startTID + j := by
  have mem := List.mem_of_getElem? here
  have names : Names m order ((tableOf m order stack).getTypeID t) t := names_id (.inr mem)
  rcases names with ⟨-, reserved⟩ | ⟨i, there, same⟩
  · exact absurd (List.mem_of_getElem? reserved) (fresh t mem)
  · obtain ⟨bound, -⟩ := List.getElem?_eq_some_iff.mp here
    rw [same, (List.getElem?_inj bound nodup).mp (here.trans there.symm)]

variable {functions globals : List Proto} (sound : Sound m functions globals)
include sound

theorem reserved_parts {t s : TypeRef} (reserved : t ∈ reservedTypes m)
    (part : s ∈ (m.shape t).subtypes) : s ∈ reservedTypes m := by
  rcases mem_reservedTypes.mp reserved with rfl | ⟨width, low, high, rfl⟩ | ⟨width, hw, rfl⟩
  · rw [shape_type sound.void] at part
    cases part
  · rw [Module.intType, shape_type (sound.int width low high)] at part
    cases part
  · rw [Module.intPtr, shape_type (sound.intPtr width hw)] at part
    have range : ∀ width ∈ [8, 16, 32, 64], 1 ≤ width ∧ width ≤ 64 := by decide
    rw [List.mem_singleton.mp part]
    exact int_mem (range width hw).1 (range width hw).2

theorem reached_iff {roots : List TypeRef} {t : TypeRef} :
    VisitOrder.Reached (fun t => (visibleParts m t).reverse) (· ∈ reservedTypes m) roots.reverse t ∧
      t ∉ reservedTypes m ↔ Mentioned m roots t ∧ t ∉ reservedTypes m := by
  refine and_congr_left fun fresh => ⟨fun reached => ?_, fun mentioned => ?_⟩
  · clear fresh
    induction reached with
    | root h => exact .root (List.mem_reverse.mp h)
    | next _ _ h ih => exact .part ih (List.mem_reverse.mp h)
  · have either : t ∈ reservedTypes m ∨ VisitOrder.Reached (fun t => (visibleParts m t).reverse)
        (· ∈ reservedTypes m) roots.reverse t := by
      clear fresh
      induction mentioned with
      | root h => exact .inr (.root (List.mem_reverse.mpr h))
      | @part t s _ h ih =>
        by_cases reserved : t ∈ reservedTypes m
        · exact .inl (reserved_parts sound reserved (List.mem_of_mem_filter h))
        · exact .inr (.next (ih.resolve_left reserved) reserved (List.mem_reverse.mpr h))
    exact either.resolve_left fresh

/-- The loop ends, having numbered what is mentioned and has no id of its own. -/
theorem numberTypes_spec :
    ∃ order, order.Nodup ∧
      (∀ t, t ∈ order ↔
        Mentioned m ((functions ++ globals).map Proto.type) t ∧ t ∉ reservedTypes m) ∧
      numberTypes m (turns m ((functions ++ globals).map Proto.type))
        ⟨initTypeIDs m, [], startTID, ((functions ++ globals).map Proto.type).reverse⟩ =
        .ok (tableOf m order []) := by
  have roots : ∀ t ∈ ((functions ++ globals).map Proto.type).reverse,
      t ∈ List.range m.types.length := by
    intro t mem
    obtain ⟨F, hF, rfl⟩ := List.mem_map.mp (List.mem_reverse.mp mem)
    rcases List.mem_append.mp hF with hF | hF
    · exact List.mem_range.mpr (sound.function F hF).1
    · exact List.mem_range.mpr (sound.global F hF)
  have closed : ∀ t ∈ List.range m.types.length, t ∉ reservedTypes m →
      ∀ s ∈ (visibleParts m t).reverse, s ∈ List.range m.types.length := by
    intro t _ _ s mem
    exact List.mem_range.mpr (sound.closed t s (List.mem_of_mem_filter (List.mem_reverse.mp mem)))
  have enough : ((functions ++ globals).map Proto.type).reverse.length +
      Worklist.weight (fun t => (visibleParts m t).reverse) (List.range m.types.length) [] ≤
      turns m ((functions ++ globals).map Proto.type) := by
    simp only [Worklist.weight, List.not_mem_nil, if_false, List.length_reverse, turns, Nat.le_refl]
  obtain ⟨order, visited⟩ := VisitOrder.visit_finishes closed roots enough
  have inv := (VisitOrder.inv_start _).result visited
  refine ⟨order, inv.nodup, fun t => ?_, ?_⟩
  · rw [VisitOrder.mem_result visited, reached_iff sound]
  · have eq := numberTypes_eq (m := m) (turns m ((functions ++ globals).map Proto.type)) []
      ((functions ++ globals).map Proto.type).reverse
    rw [visited] at eq
    exact eq

omit sound

/-! ## The kinds -/

theorem findKind_some {kinds : List Nat} {t : TypeRef} {kind : Nat}
    (found : findKind m kinds t = some kind) : kind ∈ kinds ∧ t = apiTy m kind :=
  ⟨List.mem_of_find?_eq_some found,
    of_decide_eq_true (List.find?_some (p := fun kind => decide (t = apiTy m kind)) found)⟩

theorem findKind_none {kinds : List Nat} {t : TypeRef} (none : findKind m kinds t = none)
    {kind : Nat} (mem : kind ∈ kinds) : t ≠ apiTy m kind :=
  of_decide_eq_false (Bool.eq_false_iff.mpr (List.find?_eq_none.mp none kind mem))

/-- The two loops look for the kinds in different orders, which are all distinct from kind 1. -/
theorem findKind_first {t : TypeRef} (other : t ≠ apiTy m 1) :
    findKind m [0, 1, 2, 3, 4, 5, 6, 7, 8, 9] t = findKind m [0, 2, 3, 4, 5, 6, 7, 8, 9] t := by
  simp only [findKind, List.find?_cons, decide_eq_false other]

theorem takesPointer_of_size {t : TypeRef} (takes : takesPointerAndSize m t = true) :
    takesPointer m t = .ok true := by
  unfold takesPointerAndSize at takes
  unfold takesPointer
  split at takes
  · next ret p q vararg shape =>
    obtain ⟨rfl, pointer, rfl⟩ := of_decide_eq_true takes
    simp [shape, pointer]
  · cases takes

theorem entryKind_hasKind {F : Proto} {kind : Nat} (h : entryKind m F = .ok kind) :
    HasKind m F.type kind := by
  unfold entryKind at h
  split at h
  · next found =>
    cases h
    obtain ⟨mem, same⟩ := findKind_some found
    have small : ∀ kind ∈ [0, 2, 3, 4, 5, 6, 7, 8, 9], kind < 10 := by decide
    exact .inl ⟨small kind mem, same⟩
  · split_ifs at h with first
    cases h
    exact first.imp (fun same => ⟨by decide, same⟩) fun takes => ⟨rfl, takes⟩

theorem entryKind_of_hasKind {F : Proto} {kind : Nat} (has : HasKind m F.type kind) :
    ∃ kind, entryKind m F = .ok kind := by
  unfold entryKind
  split
  · exact ⟨_, rfl⟩
  · next none =>
    rw [if_pos]
    · exact ⟨1, rfl⟩
    · rcases has with ⟨small, same⟩ | ⟨-, takes⟩
      · by_cases first : kind = 1
        · exact .inl (first ▸ same)
        · have others : ∀ kind < 10, kind ≠ 1 → kind ∈ [0, 2, 3, 4, 5, 6, 7, 8, 9] := by decide
          exact absurd same (findKind_none none (others kind small first))
      · exact .inr takes

include sound

theorem apiTy_ne_first {kind : Nat} (mem : kind ∈ [0, 2, 3, 4, 5, 6, 7, 8, 9]) :
    apiTy m 1 ≠ apiTy m kind := by
  have apart : m.intPtr 8 ≠ m.intType 32 := by
    intro same
    cases type_inj (sound.intPtr 8 (by decide)) same
  have first : (apiShapes m).getD 1 .void ∈ m.types := sound.api _ (by simp [apiShapes])
  intro same
  have shapes := type_inj first same
  simp only [List.mem_cons, List.not_mem_nil, or_false] at mem
  rcases mem with rfl | rfl | rfl | rfl | rfl | rfl | rfl | rfl | rfl <;>
    simp [apiShapes, apart, apart.symm] at shapes

/-- Both loops find the same kind. -/
theorem listKind_of_entryKind {F : Proto} {kind : Nat} (h : entryKind m F = .ok kind) :
    listKind m F = .ok kind := by
  unfold listKind
  by_cases first : F.type = apiTy m 1
  · have zero : apiTy m 1 ≠ apiTy m 0 := apiTy_ne_first sound (by decide)
    have found : findKind m [0, 1, 2, 3, 4, 5, 6, 7, 8, 9] F.type = some 1 := by
      simp only [first, findKind, List.find?_cons, decide_eq_false zero, decide_true]
    have none : findKind m [0, 2, 3, 4, 5, 6, 7, 8, 9] F.type = none := by
      rw [findKind, List.find?_eq_none]
      intro kind mem same
      exact apiTy_ne_first sound mem (first.symm.trans (of_decide_eq_true same))
    rw [entryKind, none, if_pos (.inl first)] at h
    rw [found]
    exact h
  · rw [findKind_first first]
    unfold entryKind at h
    split at h
    · exact h
    · split_ifs at h with takes
      rw [takesPointer_of_size (takes.resolve_left first)]
      exact h

omit sound

/-! ## The entries -/

/-- The function is printed as one of this kind. -/
def inKind (m : Module) (kind : Nat) (F : Proto) : Bool :=
  match entryKind m F with
  | .ok k => k = kind
  | .error _ => false

/-- Where an element of a list is found among those that are selected. -/
theorem filter_place {α : Type*} {p : α → Bool} {l : List α} {i : Nat} {x : α}
    (here : l[i]? = some x) (selected : p x = true) :
    (l.filter p)[((l.take i).filter p).length]? = some x := by
  induction l generalizing i with
  | nil => cases here
  | cons y l ih =>
    cases i with
    | zero =>
      cases here
      rw [List.take_zero, List.filter_nil, List.filter_cons_of_pos selected]
      rfl
    | succ i =>
      rw [List.take_succ_cons, List.filter_cons, List.filter_cons]
      split_ifs
      · exact ih here
      · exact ih here

/-- The entries belong to the functions in turn, and each has the number of those of its kind in
front of it. -/
structure Printed (m : Module) (table : Table) (counters : Nat → UInt16) (functions : List Proto)
    (entries : List ApiCall) : Prop where
  rows : List.Forall₂ (fun F entry => entry.name = F.name ∧
    entry.type = table.getTypeID F.type - startTID ∧ entryKind m F = .ok entry.kind)
    functions entries
  index : ∀ (place : Nat) (entry : ApiCall), entries[place]? = some entry →
    entry.index = counters entry.kind +
      UInt16.ofNat ((entries.take place).filter fun e => e.kind = entry.kind).length

theorem Printed.cons {table : Table} {counters : Nat → UInt16} {F : Proto}
    {rest : List Proto} {entries : List ApiCall} {kind : Nat} (found : entryKind m F = .ok kind)
    (printed : Printed m table (Function.update counters kind (counters kind + 1)) rest entries) :
    Printed m table counters (F :: rest)
      (⟨F.name, table.getTypeID F.type - startTID, counters kind, kind⟩ :: entries) := by
  refine ⟨.cons ⟨rfl, rfl, found⟩ printed.rows, fun place entry here => ?_⟩
  cases place with
  | zero =>
    cases here
    exact (UInt16.add_zero _).symm
  | succ place =>
    have later := printed.index place entry here
    rw [List.take_succ_cons, List.filter_cons]
    by_cases same : kind = entry.kind
    · subst same
      rw [Function.update_self] at later
      rw [later, if_pos (decide_eq_true rfl), List.length_cons, UInt16.ofNat_add, UInt16.add_assoc]
      exact congrArg (counters entry.kind + ·) (UInt16.add_comm _ _)
    · rw [Function.update_of_ne (Ne.symm same)] at later
      rw [later, if_neg (by simpa using same)]

theorem printEntries_spec {table : Table} {functions : List Proto}
    (ids : ∀ F ∈ functions, table.getTypeID F.type ≠ 0)
    (kinds : ∀ F ∈ functions, ∃ kind, entryKind m F = .ok kind) (counters : Nat → UInt16) :
    ∃ entries, printEntries m table counters functions = .ok entries ∧
      Printed m table counters functions entries := by
  induction functions generalizing counters with
  | nil => exact ⟨[], rfl, .nil, fun place entry here => by cases here⟩
  | cons F rest ih =>
    obtain ⟨kind, found⟩ := kinds F List.mem_cons_self
    obtain ⟨entries, done, printed⟩ := ih (fun G h => ids G (List.mem_cons_of_mem F h))
      (fun G h => kinds G (List.mem_cons_of_mem F h))
      (Function.update counters kind (counters kind + 1))
    refine ⟨_, ?_, printed.cons found⟩
    rw [printEntries, if_neg (ids F List.mem_cons_self), found]
    exact bind_eq_ok.mpr ⟨kind, rfl, bind_eq_ok.mpr ⟨entries, done, rfl⟩⟩

theorem Printed.names {table : Table} {counters : Nat → UInt16} {functions : List Proto}
    {entries : List ApiCall} (printed : Printed m table counters functions entries) (kind : Nat) :
    (functions.filter (inKind m kind)).map Proto.name =
      (entries.filter fun e => e.kind = kind).map ApiCall.name := by
  obtain ⟨rows, -⟩ := printed
  induction rows with
  | nil => rfl
  | @cons F entry rest entries row _ ih =>
    obtain ⟨name, -, found⟩ := row
    have selected : inKind m kind F = decide (entry.kind = kind) := by rw [inKind, found]
    rw [List.filter_cons, List.filter_cons, selected]
    split_ifs
    · rw [List.map_cons, List.map_cons, ih, name]
    · exact ih

include sound in
/-- The lists of the first loop hold what the second one prints as their kind. -/
theorem addCalls (functions : List Proto) (lists : Nat → List Proto)
    (kinds : ∀ F ∈ functions, ∃ kind, entryKind m F = .ok kind) :
    functions.foldlM (addCall m) lists =
      .ok fun kind => lists kind ++ functions.filter (inKind m kind) := by
  induction functions generalizing lists with
  | nil => simp [pure, Except.pure]
  | cons F rest ih =>
    obtain ⟨kind, found⟩ := kinds F List.mem_cons_self
    have step : addCall m lists F =
        .ok (Function.update lists kind (lists kind ++ [F])) := by
      rw [addCall, listKind_of_entryKind sound found]
      rfl
    rw [List.foldlM_cons, step]
    refine (ih _ fun G h => kinds G (List.mem_cons_of_mem F h)).trans (congrArg Except.ok ?_)
    funext k
    have selected : inKind m k F = decide (kind = k) := by rw [inKind, found]
    rw [List.filter_cons, selected]
    by_cases same : kind = k
    · subst same
      simp
    · simp [same, Function.update_of_ne (Ne.symm same)]

/-- If a function has no kind there are no tables. -/
theorem kinds_of_printEntries {table : Table} {functions : List Proto} {counters : Nat → UInt16}
    {entries : List ApiCall} (done : printEntries m table counters functions = .ok entries) :
    ∀ F ∈ functions, ∃ kind, entryKind m F = .ok kind := by
  induction functions generalizing counters entries with
  | nil => simp
  | cons F rest ih =>
    rw [printEntries] at done
    split_ifs at done
    obtain ⟨kind, found, done⟩ := bind_eq_ok.mp done
    obtain ⟨others, later, -⟩ := bind_eq_ok.mp done
    intro G h
    rcases List.mem_cons.mp h with rfl | h
    · exact ⟨kind, found⟩
    · exact ih later G h

/-! ## The tables -/

theorem reserved_void : (reservedTypes m)[0]? = some (m.type .void) := rfl

theorem names_zero {apiTypes : List TypeRef} {t : TypeRef} (names : Names m apiTypes 0 t) :
    t = m.type .void := by
  rcases names with ⟨-, here⟩ | ⟨j, -, same⟩
  · rw [reserved_void] at here
    exact (Option.some.inj here).symm
  · unfold startTID at same
    omega

theorem id_void {order stack : List TypeRef} (fresh : m.type .void ∉ order) :
    (tableOf m order stack).getTypeID (m.type .void) = 0 := by
  have first : (initTypeIDs m).lookup (m.type .void) = some 0 := List.lookup_cons_self
  have other : ((order.zip (List.range' startTID order.length)).reverse).lookup (m.type .void) =
      none := by
    rw [List.lookup_eq_none_iff]
    rintro ⟨t, id⟩ mem
    have here : t ∈ order := (List.of_mem_zip (List.mem_reverse.mp mem)).1
    have apart : m.type .void ≠ t := fun same => fresh (same ▸ here)
    exact bne_iff_ne.mpr apart
  rw [Table.getTypeID, tableOf, List.lookup_append, other, first]
  rfl

theorem namesPart_id {order : List TypeRef} {t s : TypeRef} (fresh : m.type .void ∉ order)
    (known : s ∈ visibleParts m t → s ∈ reservedTypes m ∨ s ∈ order) :
    NamesPart m order t s (partID (tableOf m order []) s) := by
  unfold partID
  by_cases there : s ∈ reservedTypes m ∨ s ∈ order
  · have names : Names m order ((tableOf m order []).getTypeID s) s := names_id there
    split_ifs with zero
    · rw [zero] at names
      exact .inl ⟨.inl (names_zero names), rfl⟩
    · exact .inr ⟨fun void => zero (void ▸ id_void fresh), names⟩
  · rw [if_pos (id_unknown there)]
    exact .inl ⟨.inr ⟨fun part => there (known part), fun mem => there (.inr mem)⟩, rfl⟩

theorem inOrder_tableOf {order stack : List TypeRef} (nodup : order.Nodup)
    (fresh : ∀ t ∈ order, t ∉ reservedTypes m) : inOrder (tableOf m order stack) = true := by
  rw [inOrder, List.all_eq_true]
  rintro ⟨t, i⟩ mem
  exact decide_eq_true (id_at nodup fresh (List.mem_zipIdx_iff_getElem?.mp mem))

include sound

/-- Functions have no id of their own. -/
theorem function_not_reserved {F : Proto} (hF : F ∈ functions) : F.type ∉ reservedTypes m := by
  obtain ⟨ret, params, vararg, shape⟩ := (sound.function F hF).2
  intro reserved
  rcases mem_reservedTypes.mp reserved with same | ⟨width, low, high, same⟩ | ⟨width, hw, same⟩
  · rw [same, shape_type sound.void] at shape
    cases shape
  · rw [same, Module.intType, shape_type (sound.int width low high)] at shape
    cases shape
  · rw [same, Module.intPtr, shape_type (sound.intPtr width hw)] at shape
    cases shape

/-- The tables for a numbering of the types. -/
theorem linked_of_printed {order : List TypeRef} (nodup : order.Nodup)
    (mentioned : ∀ t, t ∈ order ↔
      Mentioned m ((functions ++ globals).map Proto.type) t ∧ t ∉ reservedTypes m)
    {entries : List ApiCall}
    (printed : Printed m (tableOf m order []) (fun _ => 0) functions entries) :
    Linked m order functions globals
      ⟨globals.map fun g => (g.name, (tableOf m order []).getTypeID g.type),
        order.map (typeEntry m (tableOf m order [])), entries,
        (List.range 10).map fun kind => (functions.filter (inKind m kind)).map Proto.name⟩ := by
  have fresh : ∀ t ∈ order, t ∉ reservedTypes m := fun t h => ((mentioned t).mp h).2
  have known : ∀ t, Mentioned m ((functions ++ globals).map Proto.type) t →
      t ∈ reservedTypes m ∨ t ∈ order := by
    intro t h
    by_cases reserved : t ∈ reservedTypes m
    · exact .inl reserved
    · exact .inr ((mentioned t).mpr ⟨h, reserved⟩)
  have noVoid : m.type .void ∉ order := fun h =>
    fresh _ h (mem_reservedTypes.mpr (.inl rfl))
  have lengths := printed.rows.length_eq
  refine ⟨nodup, mentioned, ?_, ⟨lengths.symm, fun place F entry function here => ?_⟩, ?_⟩
  · rw [List.forall₂_map_right_iff, List.forall₂_same]
    intro t h
    refine ⟨rfl, rfl, ?_⟩
    rw [typeEntry, List.forall₂_map_right_iff, List.forall₂_same]
    intro s part
    exact namesPart_id noVoid fun visible => known s (.part ((mentioned t).mp h).1 visible)
  · change entries[place]? = some entry at here
    have hF := List.mem_of_getElem? function
    have row : entry.name = F.name ∧ entry.type = (tableOf m order []).getTypeID F.type - startTID ∧
        entryKind m F = .ok entry.kind := by
      obtain ⟨bound, rfl⟩ := List.getElem?_eq_some_iff.mp function
      obtain ⟨bound', rfl⟩ := List.getElem?_eq_some_iff.mp here
      exact printed.rows.get bound bound'
    obtain ⟨name, type, found⟩ := row
    have has := entryKind_hasKind found
    have small : entry.kind < 10 := by
      rcases has with ⟨small, -⟩ | ⟨one, -⟩
      · exact small
      · omega
    constructor
    · exact name
    · have mem : F.type ∈ order := (known _ (.root (List.mem_map_of_mem
        (List.mem_append_left _ hF)))).resolve_left (function_not_reserved sound hF)
      obtain ⟨j, at_j⟩ := List.getElem?_of_mem mem
      rw [type, id_at nodup fresh at_j, Nat.add_sub_cancel_left]
      exact at_j
    · exact has
    · refine ⟨_, (functions.filter (inKind m entry.kind)).map Proto.name, ?_, ?_, rfl, ?_⟩
      · rw [List.getElem?_map, List.getElem?_range small]
        rfl
      · rw [printed.names, List.getElem?_map, filter_place here (decide_eq_true rfl)]
        exact congrArg some name
      · rw [printed.index place _ here]
        exact UInt16.zero_add _
  · rw [List.forall₂_map_right_iff, List.forall₂_same]
    intro g hg
    exact ⟨rfl, names_id (known _ (.root (List.mem_map_of_mem (List.mem_append_right _ hg))))⟩

/-- Tables are made exactly if every function can be called in one of the known ways, and they fit
together: each entry leads to its function and its type, and each type to its parts. -/
theorem output_linked :
    ((∃ tables, output m functions globals = .ok tables) ↔
      ∀ F ∈ functions, ∃ kind, HasKind m F.type kind) ∧
    ∀ tables, output m functions globals = .ok tables →
      ∃ apiTypes, Linked m apiTypes functions globals tables := by
  obtain ⟨order, nodup, mentioned, numbered⟩ := numberTypes_spec sound
  have fresh : ∀ t ∈ order, t ∉ reservedTypes m := fun t h => ((mentioned t).mp h).2
  have ids : ∀ F ∈ functions, (tableOf m order []).getTypeID F.type ≠ 0 := by
    intro F hF
    have mem : F.type ∈ order := (mentioned _).mpr ⟨.root (List.mem_map_of_mem
      (List.mem_append_left _ hF)), function_not_reserved sound hF⟩
    obtain ⟨j, at_j⟩ := List.getElem?_of_mem mem
    rw [id_at nodup fresh at_j, startTID]
    omega
  have eq : output m functions globals = do
      let apicalls ← functions.foldlM (addCall m) fun _ => []
      let entries ← printEntries m (tableOf m order []) (fun _ => 0) functions
      return ⟨globals.map fun g => (g.name, (tableOf m order []).getTypeID g.type),
        order.map (typeEntry m (tableOf m order [])), entries,
        (List.range 10).map fun kind => (apicalls kind).map Proto.name⟩ := by
    rw [output]
    refine congrArg (_ >>= ·) (funext fun apicalls => ?_)
    dsimp only
    rw [numbered]
    exact if_neg (by simp [inOrder_tableOf nodup fresh])
  have run : (∀ F ∈ functions, ∃ kind, entryKind m F = .ok kind) → ∃ tables,
      output m functions globals = .ok tables ∧ Linked m order functions globals tables := by
    intro kinds
    obtain ⟨entries, done, printed⟩ := printEntries_spec ids kinds fun _ => 0
    refine ⟨_, ?_, linked_of_printed sound nodup mentioned printed⟩
    rw [eq, addCalls sound functions _ kinds, done]
    rfl
  have kinds : ∀ tables, output m functions globals = .ok tables →
      ∀ F ∈ functions, ∃ kind, entryKind m F = .ok kind := by
    intro tables done
    rw [eq] at done
    obtain ⟨lists, -, done⟩ := bind_eq_ok.mp done
    obtain ⟨entries, printed, -⟩ := bind_eq_ok.mp done
    exact kinds_of_printEntries printed
  refine ⟨⟨?_, ?_⟩, ?_⟩
  · rintro ⟨tables, done⟩ F hF
    obtain ⟨kind, found⟩ := kinds tables done F hF
    exact ⟨kind, entryKind_hasKind found⟩
  · intro has
    obtain ⟨tables, done, -⟩ := run fun F hF => entryKind_of_hasKind (has F hF).choose_spec
    exact ⟨tables, done⟩
  · intro tables done
    obtain ⟨tables', done', linked⟩ := run (kinds tables done)
    obtain rfl := Except.ok.inj (done.symm.trans done')
    exact ⟨order, linked⟩

omit sound

/-- The context of an API with a struct of its own: `read`, `disasm_x86` and `malloc`. -/
def apiModule : Module :=
  { types := baseTypes ++ [.function 32 [32, 32] false, .function 32 [65, 32] false,
      .function 32 [32] false, .function 65 [32] false, .function 32 [65, 32, 32, 32, 32] false,
      .function 32 [] false, .function 65 [32, 32] false, .function 32 [32, 32, 32] false,
      .function 32 [65, 32, 65, 32] false, .function 32 [65, 32, 32] false,
      .struct false [32, 16, 8, 8], .pointer 86, .function 32 [87, 32] false]
    globals := []
    functions := [] }

def apiFunctions : List Proto := [⟨"read", 77⟩, ⟨"disasm_x86", 88⟩, ⟨"malloc", 79⟩]

theorem apiModule_sound : Sound apiModule apiFunctions [⟨"__clambc_kind", 16⟩] := by
  have base : apiModule.Sound :=
    base_sound apiModule rfl (by decide +kernel) (by decide) (by decide) (by decide)
  have present : ∀ shape ∈ apiShapes apiModule, shape ∈ apiModule.types := by decide +kernel
  refine ⟨base.closed, base.void, base.int, base.intPtr, present, ?_, by decide⟩
  intro F hF
  simp only [apiFunctions, List.mem_cons, List.not_mem_nil, or_false] at hF
  rcases hF with rfl | rfl | rfl
  · exact ⟨by decide, 32, [65, 32], false, rfl⟩
  · exact ⟨by decide, 32, [87, 32], false, rfl⟩
  · exact ⟨by decide, 65, [32], false, rfl⟩

theorem output_linked_structPointer :
    Sound apiModule apiFunctions [⟨"__clambc_kind", 16⟩] ∧
    ∃ tables, output apiModule apiFunctions [⟨"__clambc_kind", 16⟩] = .ok tables ∧
      ∃ apiTypes, Linked apiModule apiTypes apiFunctions [⟨"__clambc_kind", 16⟩] tables := by
  obtain ⟨iff, linked⟩ := output_linked apiModule_sound
  have kinds : ∀ F ∈ apiFunctions, ∃ kind < 10, F.type = apiTy apiModule kind ∨
      (kind = 1 ∧ takesPointerAndSize apiModule F.type) := by decide +kernel
  obtain ⟨tables, done⟩ := iff.mpr fun F hF => by
    obtain ⟨kind, small, has⟩ := kinds F hF
    exact ⟨kind, has.imp_left fun same => ⟨small, same⟩⟩
  exact ⟨apiModule_sound, tables, done, linked tables done⟩

/-- The last prototype is numbered first; two functions take a pointer and a size. -/
example : (output apiModule apiFunctions []).toOption.map (fun tables =>
    tables.apicalls.map fun e => (e.name, e.type, e.index.toNat, e.kind)) =
    some [("read", 4, 0, 1), ("disasm_x86", 1, 1, 1), ("malloc", 0, 0, 3)] := by
  decide +kernel

end

end ApiTables
