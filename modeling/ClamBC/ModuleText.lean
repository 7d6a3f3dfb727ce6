import ClamBC.FunctionText
import ClamBC.GlobalInitializers
import ClamBC.ModuleFormat
import ClamBC.TypeTable

/-!
# The text of a module

`printGlobals` prints what the analyzer has found, then every function prints its record, and
`finished` puts the header in front. The header counts all functions with a body, while those with
available_externally linkage print nothing.
-/

namespace ModuleText

open Ir PhiElimination ValueNumbering Fallible TypeTable
open PrefixReader InstructionFormat FunctionFormat ModuleFormat
open BytecodeStream (Field Datum)
open FunctionRecord (Refusal)
open FunctionText (Ids)

/-- A function of the module as `runOnFunction` of the writer finds it. -/
structure Fn where
  isDeclaration : Bool
  hasAvailableExternallyLinkage : Bool
  ids : Ids
  body : Function

structure Api where
  ref : Nat
  name : List UInt8
  functionType : TypeRef

/-- The environment, and what the analyzer has found. The first of the initializers is null. -/
structure Input where
  now : UInt64
  signduser : Option (List UInt8)
  user : Option (List UInt8)
  version : List UInt8
  funcmin : Option Nat
  funcmax : Option Nat
  kind : UInt32
  logicalSignature : List UInt8
  virusnames : List UInt8
  types : TypeTable.Module
  table : Table
  abiTypeAlignment : Nat → Nat
  maxApi : UInt32
  apis : List Api
  apiCalls : List (Nat × UInt32)
  maxGlobal : UInt32
  globalInits : List (Option (Const × TypeRef))
  getGlobalID : GlobalId → Option UInt32
  hasDbgIds : Bool
  functions : List Fn
  maxLineLength : UInt32

def funcLevel096 : UInt32 := 51

def bcFormat096 : Nat := 6

def bcFormatLevel : Nat := 7

/-- A min or max of 0 means no min or max. -/
def checkFunctionalityLevel (query min max : UInt32) : Bool :=
  if min ≠ 0 ∧ query < min then false
  else if max ≠ 0 ∧ query > max then false
  else true

/-- `getLimitedValue`, kept in an `unsigned`. -/
def functionalityLevel (md : Option Nat) : UInt32 :=
  match md with
  | none => 0
  | some value => (UInt64.ofNat (min value (2 ^ 64 - 1))).toUInt32

/-- A C string with its terminator, cut to a maximal length. -/
def printString (string : Option (List UInt8)) (maxlength : Nat) : List UInt8 :=
  ((string.getD []).takeWhile (· ≠ 0)).take maxlength ++ [0]

section
variable (inp : Input)

def moduleHeader : Header :=
  let minfunc := functionalityLevel inp.funcmin
  let maxfunc := functionalityLevel inp.funcmax
  { formatLevel :=
      if checkFunctionalityLevel funcLevel096 minfunc maxfunc then bcFormat096 else bcFormatLevel
    timestamp := inp.now.toNat
    sigmaker := printString (inp.signduser <|> inp.user) 64
    kind := inp.kind.toNat
    minfunc := minfunc.toNat
    maxfunc := maxfunc.toNat
    compiler := printString (some inp.version) 64
    types := inp.table.extraTypes.length + startTID - 64
    functions := (UInt32.ofNat (inp.functions.filter fun F => !F.isDeclaration).length).toNat
    maxLine := (if inp.maxLineLength + 1 < 4096 then 4096 else inp.maxLineLength + 1).toNat }

def getTypeID (t : TypeRef) : Except Refusal Nat :=
  match inp.table.getTypeID t with
  | none => .error (.assertion "Type ID requested for unknown type")
  | some id => .ok (UInt32.ofNat id).toNat

/-- One field of a struct. Integers are aligned to their size in the data layout of the target. -/
def describeElement (t : TypeRef) : Except Refusal Nat :=
  match inp.types.shape t with
  | .pointer _ => .error (.assertion "Find replacement for WriteTypeSymbolic")
  | .int width =>
    if 8 * inp.abiTypeAlignment width < width then
      .error (.stop "Internal error: ABI alignment less than typesize for integer!\n")
    else getTypeID inp t
  | _ => getTypeID inp t

def describeType (t : TypeRef) : Except Refusal TypeListing :=
  match inp.types.shape t with
  | .function ret params vararg =>
    if vararg then .error (.assertion "!FTy->isVarArg()")
    else do return .function (← (ret :: params).mapM (getTypeID inp))
  | .struct packed elements => do return .struct packed (← elements.mapM (describeElement inp))
  | .opaqueStruct _ => .ok (.struct false [])
  | .array count element => do return .array (UInt64.ofNat count).toNat (← getTypeID inp element)
  | .pointer element =>
    if (inp.types.shape element).isOpaque then .ok (.pointer 8)
    else do return .pointer (← getTypeID inp element)
  | _ => .error (.stop "Unsupported type ")

/-- The loop over the extra types, with `tid` for the first of them. -/
def describeTypes : Nat → List TypeRef → Except Refusal (List TypeListing)
  | _, [] => .ok []
  | tid, t :: rest => do
    let id ← getTypeID inp t
    if id = tid then
      let first ← describeType inp t
      let others ← describeTypes (tid + 1) rest
      return first :: others
    else .error (.assertion "internal type ID mismatch")

def printApi (F : Api) : Except Refusal ApiListing := do
  let type ← getTypeID inp F.functionType
  return ⟨((inp.apiCalls.lookup F.ref).getD 0).toNat, type, F.name ++ [0]⟩

def printConstant (c : Const) : Except Refusal (List Nat) :=
  match GlobalInitializers.printConstant (fun g => (inp.getGlobalID g).map UInt32.toNat) c with
  | none => .error (.stop "Unsupported constant type")
  | some constants => .ok constants

/-- The id of the type is kept in 16 bits. -/
def printGlobalInit (init : Option (Const × TypeRef)) : Except Refusal GlobalListing :=
  match init with
  | none => .error (.assertion "isa<> used on a null pointer")
  | some (c, t) => do
    let id ← getTypeID inp t
    let constants ← printConstant inp c
    return ⟨id % 2 ^ 16, constants⟩

def printGlobalInits : Except Refusal (List GlobalListing) :=
  match inp.globalInits with
  | [] => .ok []
  | some _ :: _ => .error (.assertion "!*I")
  | none :: rest => do return ⟨0, [0]⟩ :: (← rest.mapM (printGlobalInit inp))

variable (strip : Function → Value → Value)

/-- `runOnFunction` of the writer, after the register allocation has been asked for. -/
def runOnFunction (F : Fn) : Except Refusal (Listing Field) :=
  match ValueNumbering.runOnFunction F.body with
  | .error h => .error (.halt h)
  | .ok (f, num) => FunctionText.printFunction F.ids num strip f

def written : List Fn :=
  inp.functions.filter fun F => !F.isDeclaration && !F.hasAvailableExternallyLinkage

def signature : List UInt8 :=
  if inp.logicalSignature = [] then inp.virusnames else inp.logicalSignature

def write : Except Refusal (FileListing Field) := do
  let types ← describeTypes inp startTID inp.table.extraTypes
  if inp.apis.length ≠ inp.apiCalls.length then
    .error (.assertion "Number of apis don't match")
  else
    let apis ← inp.apis.mapM (printApi inp)
    let globals ← printGlobalInits inp
    if inp.hasDbgIds then
      .error (.assertion "Just want to see if any of them have debug ids")
    else
      let functions ← (written inp).mapM (runOnFunction strip)
      return ⟨moduleHeader inp, (signature inp).map UInt8.toNat, startTID, types, inp.maxApi.toNat,
        apis, inp.maxGlobal.toNat, globals, functions⟩

end

/-! What the loader makes of it. -/

/-- The containers of the compiler have fewer than 2^32 entries. -/
structure Input.Fits (inp : Input) : Prop where
  functions : inp.functions.length < 2 ^ 32
  apis : inp.apis.length < 2 ^ 32
  globals : inp.globalInits.length < 2 ^ 32
  parts : ∀ t ∈ inp.table.extraTypes, (inp.types.shape t).subtypes.length < 2 ^ 32
  names : ∀ F ∈ inp.apis, F.name.length < 2 ^ 32

section
variable {inp : Input} {strip : Function → Value → Value}

theorem getTypeID_lt {t : TypeRef} {id : Nat} (h : getTypeID inp t = .ok id) : id < 2 ^ 32 := by
  unfold getTypeID at h
  split at h
  · cases h
  · cases h
    exact UInt32.toNat_lt _

theorem mapM_lt {k : TypeRef → Except Refusal Nat} {ts : List TypeRef} {ids : List Nat}
    (h : ts.mapM k = .ok ids) (small : ∀ t id, k t = .ok id → id < 2 ^ 32) :
    ids.length = ts.length ∧ ∀ id ∈ ids, id < 2 ^ 32 := by
  refine ⟨(forall₂_of_mapM h).length_eq.symm, fun id hid => ?_⟩
  obtain ⟨t, -, found⟩ := mem_of_mapM h hid
  exact small t id found

theorem describeElement_lt {t : TypeRef} {id : Nat} (h : describeElement inp t = .ok id) :
    id < 2 ^ 32 := by
  unfold describeElement at h
  split at h
  · cases h
  · split_ifs at h
    exact getTypeID_lt h
  · exact getTypeID_lt h

theorem describeType_readable {t : TypeRef} (parts : (inp.types.shape t).subtypes.length < 2 ^ 32)
    {l : TypeListing} (h : describeType inp t = .ok l) : l.Readable := by
  unfold describeType at h
  cases shape : inp.types.shape t with
  | function ret params vararg =>
    rw [shape] at h parts
    dsimp only at h
    split_ifs at h
    obtain ⟨ids, known, h⟩ := bind_eq_ok.mp h
    cases h
    obtain ⟨length, small⟩ := mapM_lt known fun _ _ => getTypeID_lt
    exact ⟨by rw [length]; exact parts, small⟩
  | struct packed elements =>
    rw [shape] at h parts
    obtain ⟨ids, known, h⟩ := bind_eq_ok.mp h
    cases h
    obtain ⟨length, small⟩ := mapM_lt known fun _ _ => describeElement_lt
    exact ⟨by rw [length]; exact parts, small⟩
  | opaqueStruct name =>
    rw [shape] at h
    cases h
    exact ⟨by decide, nofun⟩
  | array count element =>
    rw [shape] at h
    obtain ⟨id, known, h⟩ := bind_eq_ok.mp h
    cases h
    exact ⟨UInt64.toNat_lt _, getTypeID_lt known⟩
  | pointer element =>
    rw [shape] at h
    dsimp only at h
    split_ifs at h
    · cases h
      change 8 < 2 ^ 32
      decide
    · obtain ⟨id, known, h⟩ := bind_eq_ok.mp h
      cases h
      exact getTypeID_lt known
  | _ =>
    rw [shape] at h
    cases h

/-- Every extra type has its own id, and ids have 32 bits. -/
theorem describeTypes_ok {tid : Nat} {ts : List TypeRef} {ls : List TypeListing}
    (parts : ∀ t ∈ ts, (inp.types.shape t).subtypes.length < 2 ^ 32)
    (h : describeTypes inp tid ts = .ok ls) :
    ls.length = ts.length ∧ (ts ≠ [] → tid + ts.length ≤ 2 ^ 32) ∧ ∀ l ∈ ls, l.Readable := by
  induction ts generalizing tid ls with
  | nil =>
    cases h
    exact ⟨rfl, nofun, nofun⟩
  | cons t ts ih =>
    obtain ⟨id, known, h⟩ := bind_eq_ok.mp h
    split_ifs at h with same
    obtain ⟨first, described, h⟩ := bind_eq_ok.mp h
    obtain ⟨others, rest, h⟩ := bind_eq_ok.mp h
    cases h
    obtain ⟨part, parts⟩ := List.forall_mem_cons.mp parts
    obtain ⟨length, bound, readable⟩ := ih parts rest
    have small := getTypeID_lt known
    refine ⟨by rw [List.length_cons, length, List.length_cons], fun _ => ?_,
      List.forall_mem_cons.mpr ⟨describeType_readable part described, readable⟩⟩
    by_cases none : ts = []
    · subst none
      simp only [List.length_cons, List.length_nil]
      omega
    · have := bound none
      rw [List.length_cons]
      omega

end

/-! Initializers are numbers of 64 bits. -/

section
open GlobalInitializers
variable {getGlobalID : GlobalId → Option Nat}

def IsWord (n : Nat) : Prop := n < 2 ^ 64

theorem getZExtValue_lt {c : Const} {v : Nat} (h : getZExtValue c = some v) : IsWord v := by
  unfold getZExtValue at h
  split at h
  · split_ifs at h with small
    cases h
    exact small
  · cases h

theorem data_lt {bits : Nat} {elements out : List Nat}
    (h : elements.mapM (fun e => getZExtValue (.int bits e)) = some out) : ∀ n ∈ out, IsWord n := by
  induction elements generalizing out with
  | nil =>
    cases h
    exact nofun
  | cons e elements ih =>
    rw [List.mapM_cons] at h
    obtain ⟨v, hv, h⟩ := Option.bind_eq_some_iff.mp h
    obtain ⟨rest, hr, h⟩ := Option.bind_eq_some_iff.mp h
    cases h
    exact List.forall_mem_cons.mpr ⟨getZExtValue_lt hv, ih hr⟩

theorem printExpr_lt (small : ∀ g id, getGlobalID g = some id → IsWord id) {expr : Const}
    {out : List Nat} (h : printExpr getGlobalID expr = some out) : ∀ n ∈ out, IsWord n := by
  have address : ∀ {c g out}, printAddress getGlobalID c g = some out → ∀ n ∈ out, IsWord n := by
    intro c g out h
    obtain ⟨v, hv, h⟩ := Option.bind_eq_some_iff.mp h
    obtain ⟨id, hid, h⟩ := Option.bind_eq_some_iff.mp h
    cases h
    simp only [List.forall_mem_cons]
    exact ⟨getZExtValue_lt hv, small g id hid, nofun⟩
  have cast : ∀ {e g out}, printCast getGlobalID e g = some out → ∀ n ∈ out, IsWord n := by
    intro e g out h
    unfold printCast at h
    split at h
    · obtain ⟨id, hid, rfl⟩ := Option.map_eq_some_iff.mp h
      simp only [List.forall_mem_cons]
      exact ⟨by change 0 < 2 ^ 64; decide, small g id hid, nofun⟩
    · cases h
  obtain ⟨g, -, inner⟩ := Option.bind_eq_some_iff.mp h
  unfold printInner at inner
  split at inner
  · exact address inner
  · exact address inner
  · exact cast inner
  · cases inner
  · exact cast inner

mutual

theorem printConstant_lt (small : ∀ g id, getGlobalID g = some id → IsWord id) :
    ∀ (c : Const) (out : List Nat),
    GlobalInitializers.printConstant getGlobalID c = some out → ∀ n ∈ out, IsWord n
  | .int bits value, out, h => by
    rw [GlobalInitializers.printConstant] at h
    split_ifs at h
    · cases h
      simp [IsWord]
    · obtain ⟨v, hv, rfl⟩ := Option.map_eq_some_iff.mp h
      simpa using getZExtValue_lt hv
  | .fp posZero, out, h => by
    rw [GlobalInitializers.printConstant] at h
    split_ifs at h
    cases h
    simp [IsWord]
  | .null, out, h => by
    cases h
    simp [IsWord]
  | .aggregateZero ty, out, h => by
    cases h
    simp [IsWord]
  | .array elements, out, h => by
    rw [GlobalInitializers.printConstant] at h
    split_ifs at h
    exact printElements_lt small elements out h
  | .struct elements, out, h => by
    rw [GlobalInitializers.printConstant] at h
    split_ifs at h
    exact printElements_lt small elements out h
  | .data bits elements, out, h => by
    rw [GlobalInitializers.printConstant] at h
    split_ifs at h
    exact data_lt h
  | .castExpr op v, out, h => printExpr_lt small (by rwa [GlobalInitializers.printConstant] at h)
  | .getElementPtrExpr base indices, out, h =>
    printExpr_lt small (by rwa [GlobalInitializers.printConstant] at h)
  | .otherExpr operands, out, h =>
    printExpr_lt small (by rwa [GlobalInitializers.printConstant] at h)
  | .undef, out, h => by simp [GlobalInitializers.printConstant] at h
  | .global g, out, h => by simp [GlobalInitializers.printConstant] at h
  | .function f, out, h => by simp [GlobalInitializers.printConstant] at h

theorem printElements_lt (small : ∀ g id, getGlobalID g = some id → IsWord id) :
    ∀ (cs : List Const) (out : List Nat),
    printElements getGlobalID cs = some out → ∀ n ∈ out, IsWord n
  | [], out, h => by
    have none : [] = out := by simpa [printElements] using h
    exact none ▸ nofun
  | c :: cs, out, h => by
    rw [printElements] at h
    obtain ⟨first, hf, h⟩ := Option.bind_eq_some_iff.mp h
    obtain ⟨rest, hr, h⟩ := Option.bind_eq_some_iff.mp h
    cases h
    intro n hn
    rcases List.mem_append.mp hn with hn | hn
    · exact printConstant_lt small c first hf n hn
    · exact printElements_lt small cs rest hr n hn

end

end

/-! The file. -/

section
variable {inp : Input} {strip : Function → Value → Value}

theorem printApi_readable {F : Api} {l : ApiListing} (h : printApi inp F = .ok l) : l.Readable := by
  obtain ⟨type, known, h⟩ := bind_eq_ok.mp h
  cases h
  exact ⟨UInt32.toNat_lt _, getTypeID_lt known⟩

theorem printGlobalInit_readable {init : Option (Const × TypeRef)} {l : GlobalListing}
    (h : printGlobalInit inp init = .ok l) : l.Readable := by
  unfold printGlobalInit at h
  split at h
  · cases h
  · next c t =>
    obtain ⟨id, known, h⟩ := bind_eq_ok.mp h
    obtain ⟨constants, printed, h⟩ := bind_eq_ok.mp h
    cases h
    refine ⟨(Nat.mod_lt _ (by decide)).trans (by decide), ?_⟩
    unfold printConstant at printed
    split at printed
    · cases printed
    · next same =>
      cases printed
      refine printConstant_lt ?_ c _ same
      intro g id found
      obtain ⟨id, -, rfl⟩ := Option.map_eq_some_iff.mp found
      exact (UInt32.toNat_lt id).trans (by decide)

theorem printGlobalInits_ok {ls : List GlobalListing} (h : printGlobalInits inp = .ok ls) :
    ls.length = inp.globalInits.length ∧ ∀ l ∈ ls, l.Readable := by
  unfold printGlobalInits at h
  split at h
  · next none =>
    cases h
    rw [none]
    exact ⟨rfl, nofun⟩
  · cases h
  · next rest inits =>
    obtain ⟨others, printed, h⟩ := bind_eq_ok.mp h
    cases h
    rw [inits, List.length_cons, List.length_cons, (forall₂_of_mapM printed).length_eq]
    refine ⟨rfl, List.forall_mem_cons.mpr ⟨?_, ?_⟩⟩
    · exact ⟨by decide, by simp⟩
    · intro l hl
      obtain ⟨init, -, one⟩ := mem_of_mapM printed hl
      exact printGlobalInit_readable one

theorem runOnFunction_listed {F : Fn} (wf : F.body.WellFormed) {l : Listing Field}
    (h : runOnFunction strip F = .ok l) : l.Readable ∧ l.args < 16 ∧ l.datum.Sound := by
  unfold runOnFunction at h
  split at h
  · cases h
  · next g num numbered =>
    have done := FunctionText.numbered_of_run wf numbered
    have accepted := FunctionText.printFunction_ok done h
    exact ⟨accepted.readable, accepted.args, accepted.sound done.inv⟩

theorem moduleHeader_readable (types : inp.table.extraTypes.length + 5 < 2 ^ 32) :
    (moduleHeader inp).Readable := by
  refine ⟨?_, UInt64.toNat_lt _, UInt32.toNat_lt _, UInt32.toNat_lt _, UInt32.toNat_lt _, ?_,
    UInt32.toNat_lt _⟩
  · simp only [moduleHeader, bcFormat096, bcFormatLevel]
    split_ifs <;> decide
  · change inp.table.extraTypes.length + 69 - 64 < 2 ^ 32
    omega

/-- What is written, for a signature of one line. -/
structure Written (inp : Input) (l : FileListing Field) : Prop where
  readable : l.Readable
  header : l.header = moduleHeader inp
  startTID : l.startTID = startTID
  names : ∀ a ∈ l.apis, a.name.length < 2 ^ 64
  count : l.functions.length = (written inp).length
  functions : ∀ F ∈ l.functions, F.Readable ∧ F.args < 16 ∧ F.datum.Sound

theorem write_written (fits : inp.Fits) (oneLine : '\n'.toNat ∉ (signature inp).map UInt8.toNat)
    (wf : ∀ F ∈ written inp, F.body.WellFormed) {l : FileListing Field}
    (accepted : write inp strip = .ok l) : Written inp l := by
  obtain ⟨types, described, accepted⟩ := bind_eq_ok.mp accepted
  split_ifs at accepted with sizes debug
  · obtain ⟨apis, -, accepted⟩ := bind_eq_ok.mp accepted
    obtain ⟨globals, -, accepted⟩ := bind_eq_ok.mp accepted
    cases accepted
  obtain ⟨apis, hapis, accepted⟩ := bind_eq_ok.mp accepted
  obtain ⟨globals, hglobals, accepted⟩ := bind_eq_ok.mp accepted
  obtain ⟨functions, hfunctions, accepted⟩ := bind_eq_ok.mp accepted
  cases accepted
  obtain ⟨typeCount, typeBound, typesReadable⟩ := describeTypes_ok fits.parts described
  obtain ⟨globalCount, globalsReadable⟩ := printGlobalInits_ok hglobals
  have bodies : ∀ F ∈ functions, F.Readable ∧ F.args < 16 ∧ F.datum.Sound := by
    intro F hF
    obtain ⟨G, hG, ran⟩ := mem_of_mapM hfunctions hF
    exact runOnFunction_listed (wf G hG) ran
  have few : inp.table.extraTypes.length + 5 < 2 ^ 32 := by
    by_cases none : inp.table.extraTypes = []
    · rw [none]
      decide
    · have := typeBound none
      unfold TypeTable.startTID at this
      omega
  refine ⟨⟨moduleHeader_readable few, ?_, show startTID < 2 ^ 32 by decide, ?_, typesReadable,
    UInt32.toNat_lt _, ?_, ?_,
    UInt32.toNat_lt _, ?_, globalsReadable, fun F hF => (bodies F hF).1⟩, rfl, rfl, ?_,
    (forall₂_of_mapM hfunctions).length_eq.symm, bodies⟩
  · intro c member
    refine decide_eq_false fun same => oneLine ?_
    exact same ▸ member
  · change inp.table.extraTypes.length + 69 - 64 + 64 = 69 + types.length
    omega
  · change apis.length < 2 ^ 32
    rw [← (forall₂_of_mapM hapis).length_eq]
    exact fits.apis
  · intro a ha
    obtain ⟨F, -, printed⟩ := mem_of_mapM hapis ha
    exact printApi_readable printed
  · change globals.length < 2 ^ 32
    exact globalCount ▸ fits.globals
  · intro a ha
    obtain ⟨F, hF, printed⟩ := mem_of_mapM hapis ha
    obtain ⟨type, -, printed⟩ := bind_eq_ok.mp printed
    cases printed
    have := fits.names F hF
    change (F.name ++ [0]).length < 2 ^ 64
    simp only [List.length_append, List.length_singleton]
    omega

theorem printString_length (string : Option (List UInt8)) :
    (printString string 64).length ≤ 65 := by
  have := List.length_take_le 64 ((string.getD []).takeWhile (· ≠ 0))
  simp only [printString, List.length_append, List.length_singleton]
  omega

/-- A file is written whenever the compiler does not stop, and its first line fits into 8k. The
loader reads the file back, up to the source, exactly when no function with a body is left out;
and then every function keeps what it announces. -/
theorem readFile_write (fits : inp.Fits) (oneLine : '\n'.toNat ∉ (signature inp).map UInt8.toNat)
    (wf : ∀ F ∈ written inp, F.body.WellFormed) {l : FileListing Field}
    (accepted : write inp strip = .ok l) :
    (∃ line, l.header.print = some line ∧ line.length < 8192) ∧
    (∀ F ∈ l.datum.functions, F.Sound) ∧
    ∃ text, l.print = some text ∧ (Reads readFile text l.datum ↔
      ∀ F ∈ inp.functions, F.isDeclaration = false → F.hasAvailableExternallyLinkage = false) := by
  have result := write_written fits oneLine wf accepted
  have header := header_length (h := moduleHeader inp) (printString_length _) (printString_length _)
    (UInt32.toNat_lt _)
  rw [← result.header] at header
  obtain ⟨line, printedLine, short⟩ := header
  refine ⟨⟨line, printedLine, short⟩, ?_, ?_⟩
  · intro F hF
    obtain ⟨G, hG, rfl⟩ := List.mem_map.mp hF
    exact (result.functions G hG).2.2
  obtain ⟨text, printed⟩ := Option.isSome_iff_exists.mp (file_isSome (l := l)
    (by rw [result.startTID]; decide) (by rw [printedLine]; rfl) result.names
    fun F hF => ⟨(result.functions F hF).1, (result.functions F hF).2.1⟩)
  refine ⟨text, printed, ?_⟩
  let defined := inp.functions.filter fun F => !F.isDeclaration
  have shorter : defined.length ≤ inp.functions.length := List.length_filter_le _ _
  have few := fits.functions
  have announced : l.header.functions = defined.length := by
    rw [result.header]
    exact UInt32.toNat_ofNat_of_lt' (by change defined.length < 2 ^ 32; omega)
  have both : written inp = defined.filter fun F => !F.hasAvailableExternallyLinkage := by
    simp only [written, defined, List.filter_filter]
    exact List.filter_congr fun F _ => Bool.and_comm _ _
  have sublist : (written inp).length ≤ defined.length := by
    rw [both]
    exact List.length_filter_le _ _
  rw [reads_file_iff result.readable (by rw [result.count, announced]; exact sublist) printed,
    announced, result.count, both, eq_comm, List.length_filter_eq_length_iff]
  simp [defined]

end

/-- A pattern id, a struct and a pointer to it, one function of the API, and a function. -/
def smallInput : Input where
  now := 0
  signduser := none
  user := some [0x6d, 0x65]
  version := [0x31]
  funcmin := some 51
  funcmax := none
  kind := 0
  logicalSignature := []
  virusnames := [0x41]
  types := ⟨[.void, .int 32, .struct false [1, 1], .pointer 2, .function 1 [3] false], [], []⟩
  table := ⟨[(0, 0), (1, 32), (2, 69), (3, 70), (4, 71)], [2, 3, 4], 72, []⟩
  abiTypeAlignment := fun width => (width + 7) / 8
  maxApi := 1
  apis := [⟨7, [0x66], 4⟩]
  apiCalls := [(7, 1)]
  maxGlobal := 0x8000
  globalInits := [none, some (.int 32 5, 1)]
  getGlobalID := fun _ => some 1
  hasDbgIds := false
  functions := [⟨false, false, FunctionText.twoReturnsIds, FunctionRecord.twoReturns⟩]
  maxLineLength := 80

theorem readFile_write_smallInput : ∃ l, write smallInput (fun _ v => v) = .ok l ∧
    (∃ line, l.header.print = some line ∧ line.length < 8192) ∧
    (∀ F ∈ l.datum.functions, F.Sound) ∧
    ∃ text, l.print = some text ∧ (Reads readFile text l.datum ↔ ∀ F ∈ smallInput.functions,
      F.isDeclaration = false → F.hasAvailableExternallyLinkage = false) := by
  have wf : FunctionRecord.twoReturns.WellFormed := SsaChecks.wellFormed_of_checks (by decide)
  have fits : smallInput.Fits := by
    refine ⟨by decide, by decide, by decide, by decide, by decide⟩
  have accepted : ∃ l, write smallInput (fun _ v => v) = .ok l := ⟨_, rfl⟩
  obtain ⟨l, accepted⟩ := accepted
  refine ⟨l, accepted, readFile_write fits (by decide) ?_ accepted⟩
  intro F hF
  have only : F = ⟨false, false, FunctionText.twoReturnsIds, FunctionRecord.twoReturns⟩ := by
    simpa [written, smallInput] using hF
  exact only ▸ wf

end ModuleText
