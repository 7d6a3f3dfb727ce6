import Mathlib.Data.String.Basic
import Mathlib.Data.List.Nodup
import Mathlib.Data.List.Sort
import ClamBC.Fallible

/-!
# Function ids

Three loops count the functions of a module: the analyzer when it hands out ids, the module
header, and the writer, which skips functions with available_externally linkage and asserts
that its own count is the id. Only what these loops look at is modelled of a function; what
else its body prints belongs to the function record.
-/

namespace FunctionIds

open Fallible

inductive Refusal where
  | stop (message : String)
  | assertion (message : String)
  deriving DecidableEq

/-- A function of the module. `ref` is its identity, which names do not give: any number of
functions may be without a name. -/
structure Fn where
  ref : Nat
  name : String
  params : Nat
  isDeclaration : Bool
  isVarArg : Bool
  hasAvailableExternallyLinkage : Bool
  useEmpty : Bool
  callees : List Nat

def maxWord : Nat := 2 ^ 32 - 1

/-- The entrypoint is sorted before any other function. -/
def getSpecialIndex (name : String) : Nat :=
  if name = "entrypoint" then 0
  else if name = "logical_trigger" then 1
  else maxWord

/-- Special functions first, then by the number of parameters, then by name. -/
def compareLtFunctions (a b : Fn) : Bool :=
  if getSpecialIndex a.name ≠ maxWord ∨ getSpecialIndex b.name ≠ maxWord then
    getSpecialIndex a.name < getSpecialIndex b.name
  else if a.params ≠ b.params then a.params < b.params
  else a.name < b.name

/-- `std::sort` with `compare_lt_functions`: which of two equivalent functions comes first is
not specified. -/
structure StdSort where
  run : List Fn → List Fn
  perm : ∀ fs, (run fs).Perm fs
  sorted : ∀ fs, (run fs).Pairwise fun a b => compareLtFunctions b a = false

/-- The ids and names that the analyzer knows of the API. -/
structure Api where
  ids : String → Option Nat
  banned : String → Bool

def startsWith (name p : String) : Bool := name.toList.take p.length = p.toList

/-- The loop over all functions that hands out ids from `fid` on. -/
def numberFunctions : Nat → List Fn → Except Refusal (List (Nat × Nat))
  | _, [] => .ok []
  | fid, F :: rest =>
    if F.isDeclaration then
      if startsWith F.name "llvm.dbg" then numberFunctions fid rest
      else if F.isVarArg then
        if F.params = 0 then
          .error (.stop ("Calling implicitly declared function '" ++ F.name ++
            "' is not supported (did you forget to implement it, or called the wrong function?)"))
        else .error (.stop ("Vararg functions are not supported ('" ++ F.name ++ "')"))
      else numberFunctions fid rest
    else do
      let ids ← numberFunctions (fid + 1) rest
      return (F.ref, fid) :: ids

/-- The part of `printGlobals` that looks at the functions. -/
def checkFunctions (api : Api) : List Fn → Except Refusal Unit
  | [] => .ok ()
  | F :: rest =>
    if F.useEmpty then checkFunctions api rest
    else if !F.isDeclaration then
      if (api.ids F.name).isSome then
        .error (.stop ("Attempted to declare function that is part of ClamAV API: " ++ F.name))
      else checkFunctions api rest
    else if api.banned F.name then
      .error (.stop ("Usage of function '" ++ F.name ++ "' is currently disabled"))
    else if startsWith F.name "llvm." then checkFunctions api rest
    else if F.name = "__is_bigendian" ∨ F.name = "memcmp" ∨ F.name = "abort" then
      checkFunctions api rest
    else if (api.ids F.name).isNone then
      .error (.stop ("Call to unknown external function: " ++ F.name))
    else checkFunctions api rest

/-- What `ClamBCAnalysis::run` makes of the functions: their order and the ids. -/
structure Analysis where
  functions : List Fn
  functionIDs : List (Nat × Nat)

def analyze (sort : StdSort) (api : Api) (module : List Fn) : Except Refusal Analysis :=
  let functions := sort.run module
  match functions.find? fun F => F.name = "entrypoint" with
  | none => .error (.stop "Bytecode must define an entrypoint (with 0 parameters)!\n")
  | some ep =>
    if ep.params ≠ 0 then .error (.stop "Bytecode must define an entrypoint with 0 parameters!\n")
    else do
      let functionIDs ← numberFunctions 1 functions
      checkFunctions api functions
      return ⟨functions, functionIDs⟩

def Analysis.getFunctionID (a : Analysis) (ref : Nat) : Except Refusal Nat :=
  match a.functionIDs.lookup ref with
  | none => .error (.assertion "Function ID requested for unknown function")
  | some id => .ok id

/-- A written record: the function, and for each direct call the callee and the id printed. -/
structure Emitted where
  ref : Nat
  calls : List (Nat × Nat)

section
variable (a : Analysis)

def isDefined (ref : Nat) : Bool := a.functions.any fun F => F.ref = ref && !F.isDeclaration

def printCall (callee : Nat) : Except Refusal (Nat × Nat) :=
  (a.getFunctionID callee).map fun id => (callee, id)

/-- `runOnFunction` of the writer for all functions of the module that have a body; `fid` is the
number of the last record. -/
def emit : Nat → List Fn → Except Refusal (List Emitted)
  | _, [] => .ok []
  | fid, F :: rest =>
    if F.isDeclaration then emit fid rest
    else if F.name = "" then
      .error (.assertion "Function created by ClamBCRebuild is not being deleted")
    else if F.hasAvailableExternallyLinkage then emit fid rest
    else do
      let id ← a.getFunctionID F.ref
      if id ≠ fid + 1 then .error (.assertion "Function IDs don't match")
      else
        let calls ← (F.callees.filter (isDefined a)).mapM (printCall a)
        let records ← emit (fid + 1) rest
        return ⟨F.ref, calls⟩ :: records

end

/-- What is written about the functions. -/
structure Output where
  analysis : Analysis
  header : Nat
  records : List Emitted

def write (sort : StdSort) (api : Api) (module : List Fn) : Except Refusal Output := do
  let a ← analyze sort api module
  let records ← emit a 0 a.functions
  return ⟨a, (a.functions.filter fun F => !F.isDeclaration).length, records⟩

/-- Functions are told apart by their identity and, if they have one, by their name; a call is
of a function of the module. -/
structure WellFormed (module : List Fn) : Prop where
  refs : (module.map Fn.ref).Nodup
  names : ∀ F ∈ module, ∀ G ∈ module, F.name = G.name → F.name ≠ "" → F = G

/-- The ids of an output are the positions of the records. -/
structure Matches (out : Output) : Prop where
  order : out.records.Pairwise fun r s => ∀ F ∈ out.analysis.functions,
    ∀ G ∈ out.analysis.functions,
    F.ref = r.ref → G.ref = s.ref → compareLtFunctions F G = true
  position : ∀ i r, out.records[i]? = some r → out.analysis.getFunctionID r.ref = .ok (i + 1)
  entrypoint : ∃ F ∈ out.analysis.functions, F.name = "entrypoint" ∧ F.isDeclaration = false ∧
    out.records.head?.map Emitted.ref = some F.ref
  header : out.header = out.records.length
  calls : ∀ r ∈ out.records, ∀ call ∈ r.calls, 1 ≤ call.2 ∧
    out.records[call.2 - 1]?.map Emitted.ref = some call.1

/-! The three loops. -/

/-- The functions that get an id. -/
def defined (fs : List Fn) : List Fn := fs.filter fun F => !F.isDeclaration

/-- The functions that get a record. -/
def written (fs : List Fn) : List Fn :=
  (defined fs).filter fun F => !F.hasAvailableExternallyLinkage

theorem defined_cons (F : Fn) (fs : List Fn) :
    defined (F :: fs) = if F.isDeclaration then defined fs else F :: defined fs := by
  cases decl : F.isDeclaration <;> simp [defined, decl]

theorem numberFunctions_eq {fid : Nat} {fs : List Fn} {ids : List (Nat × Nat)}
    (h : numberFunctions fid fs = .ok ids) : ids = ((defined fs).map Fn.ref).zipIdx fid := by
  induction fs generalizing fid ids with
  | nil =>
    cases h
    rfl
  | cons F fs ih =>
    rw [numberFunctions] at h
    rw [defined_cons]
    split_ifs at h ⊢ with decl
    · exact ih h
    · exact ih h
    · obtain ⟨rest, numbered, h⟩ := bind_eq_ok.mp h
      cases h
      rw [ih numbered]
      rfl

theorem lookup_zipIdx {refs : List Nat} (nodup : refs.Nodup) {k ref n : Nat} :
    (refs.zipIdx k).lookup ref = some n ↔ ∃ i, refs[i]? = some ref ∧ n = k + i := by
  induction refs generalizing k with
  | nil => simp
  | cons r refs ih =>
    obtain ⟨new, nodup⟩ := List.nodup_cons.mp nodup
    rw [List.zipIdx_cons, List.lookup_cons]
    by_cases same : ref = r
    · subst same
      simp only [BEq.rfl, Option.some.injEq]
      constructor
      · rintro rfl
        exact ⟨0, rfl, rfl⟩
      · rintro ⟨i, found, rfl⟩
        cases i with
        | zero => rfl
        | succ i =>
          have again : refs[i]? = some ref := by simpa using found
          exact absurd (List.mem_of_getElem? again) new
    · have ne : (ref == r) = false := by simpa using same
      simp only [ne, ih nodup]
      constructor
      · rintro ⟨i, found, rfl⟩
        exact ⟨i + 1, found, by omega⟩
      · rintro ⟨i, found, rfl⟩
        cases i with
        | zero =>
          have here : r = ref := by simpa using found
          exact absurd here.symm same
        | succ i => exact ⟨i, by simpa using found, by omega⟩

section
variable {a : Analysis}

/-- The records are those of the written functions, each with the id that was handed out. -/
theorem emit_records {fid : Nat} {fs : List Fn} {records : List Emitted}
    (h : emit a fid fs = .ok records) :
    records.map Emitted.ref = (written fs).map Fn.ref ∧
      (∀ i r, records[i]? = some r → a.getFunctionID r.ref = .ok (fid + i + 1)) ∧
      (∀ F ∈ defined fs, F.name ≠ "") ∧
      ∀ r ∈ records, ∀ call ∈ r.calls, a.getFunctionID call.1 = .ok call.2 := by
  induction fs generalizing fid records with
  | nil =>
    cases h
    exact ⟨rfl, nofun, nofun, nofun⟩
  | cons F fs ih =>
    rw [emit] at h
    rw [written, defined_cons]
    split_ifs at h ⊢ with decl unnamed external
    · exact ih h
    · obtain ⟨refs, ids, named, calls⟩ := ih h
      refine ⟨?_, ids, List.forall_mem_cons.mpr ⟨unnamed, named⟩, calls⟩
      simpa [written, external] using refs
    · obtain ⟨id, found, h⟩ := bind_eq_ok.mp h
      split_ifs at h with mismatch
      obtain ⟨printed, direct, h⟩ := bind_eq_ok.mp h
      obtain ⟨rest, emitted, h⟩ := bind_eq_ok.mp h
      cases h
      obtain ⟨refs, ids, named, calls⟩ := ih emitted
      have next : id = fid + 1 := by simpa using mismatch
      refine ⟨?_, ?_, List.forall_mem_cons.mpr ⟨unnamed, named⟩,
        List.forall_mem_cons.mpr ⟨?_, calls⟩⟩
      · simpa [written, external] using refs
      · intro i r here
        cases i with
        | zero =>
          cases here
          rw [found, next]
        | succ i =>
          rw [ids i r (by simpa using here)]
          congr 1
          omega
      · intro call member
        obtain ⟨callee, -, printed⟩ := mem_of_mapM direct member
        obtain ⟨id, found, rfl⟩ := map_eq_ok.mp printed
        exact found

end

/-! The order. -/

theorem getSpecialIndex_zero {name : String} (h : getSpecialIndex name = 0) :
    name = "entrypoint" := by
  unfold getSpecialIndex at h
  split_ifs at h with here trigger
  · exact here
  · simp [maxWord] at h

theorem getSpecialIndex_inj {x y : String} (special : getSpecialIndex x ≠ maxWord)
    (same : getSpecialIndex x = getSpecialIndex y) : x = y := by
  have cases : ∀ z : String, (z = "entrypoint" ∧ getSpecialIndex z = 0) ∨
      (z = "logical_trigger" ∧ getSpecialIndex z = 1) ∨
      getSpecialIndex z = maxWord := by
    intro z
    unfold getSpecialIndex
    split_ifs with here trigger
    · exact Or.inl ⟨here, rfl⟩
    · exact Or.inr (Or.inl ⟨trigger, rfl⟩)
    · exact Or.inr (Or.inr rfl)
  rcases cases x with ⟨rfl, first⟩ | ⟨rfl, first⟩ | max
  · rcases cases y with ⟨rfl, -⟩ | ⟨-, second⟩ | second
    · rfl
    · rw [first, second] at same
      cases same
    · exact absurd (same.trans second) special
  · rcases cases y with ⟨-, second⟩ | ⟨rfl, -⟩ | second
    · rw [first, second] at same
      cases same
    · rfl
    · exact absurd (same.trans second) special
  · exact absurd max special

/-- Two functions with different names are ordered one way or the other. -/
theorem compareLt_of_not {F G : Fn} (ne : F.name ≠ G.name) (h : compareLtFunctions G F = false) :
    compareLtFunctions F G = true := by
  unfold compareLtFunctions at h ⊢
  by_cases either : getSpecialIndex F.name ≠ maxWord ∨ getSpecialIndex G.name ≠ maxWord
  · rw [if_pos either]
    rw [if_pos (Or.comm.mp either)] at h
    have le : getSpecialIndex F.name ≤ getSpecialIndex G.name := by simpa using h
    have apart : getSpecialIndex F.name ≠ getSpecialIndex G.name := by
      intro same
      rcases either with first | second
      · exact ne (getSpecialIndex_inj first same)
      · exact ne (getSpecialIndex_inj second same.symm).symm
    simpa using Nat.lt_of_le_of_ne le apart
  · rw [if_neg either]
    rw [if_neg fun other => either (Or.comm.mp other)] at h
    by_cases params : F.params = G.params
    · rw [if_neg (not_not.mpr params)]
      rw [if_neg (not_not.mpr params.symm)] at h
      have le : F.name ≤ G.name := not_lt.mp (of_decide_eq_false h)
      exact decide_eq_true (lt_of_le_of_ne le ne)
    · rw [if_pos params]
      rw [if_pos (Ne.symm params)] at h
      have le : F.params ≤ G.params := by simpa using h
      simpa using Nat.lt_of_le_of_ne le params

/-- What is known of an accepted module. -/
structure Accepted (module : List Fn) (out : Output) : Prop where
  perm : out.analysis.functions.Perm module
  sorted : out.analysis.functions.Pairwise fun F G => compareLtFunctions G F = false
  entrypoint : ∃ F ∈ out.analysis.functions, F.name = "entrypoint"
  ids : ∀ ref n, out.analysis.getFunctionID ref = .ok n ↔
    ∃ i, ((defined out.analysis.functions).map Fn.ref)[i]? = some ref ∧ n = i + 1
  refs : out.records.map Emitted.ref = (written out.analysis.functions).map Fn.ref
  position : ∀ i r, out.records[i]? = some r → out.analysis.getFunctionID r.ref = .ok (i + 1)
  named : ∀ F ∈ defined out.analysis.functions, F.name ≠ ""
  calls : ∀ r ∈ out.records, ∀ call ∈ r.calls, out.analysis.getFunctionID call.1 = .ok call.2
  header : out.header = (defined out.analysis.functions).length

theorem accepted_of_write {sort : StdSort} {api : Api} {module : List Fn} {out : Output}
    (wf : WellFormed module) (h : write sort api module = .ok out) : Accepted module out := by
  obtain ⟨a, analyzed, h⟩ := bind_eq_ok.mp h
  obtain ⟨records, emitted, h⟩ := bind_eq_ok.mp h
  cases h
  simp only [analyze] at analyzed
  split at analyzed
  · cases analyzed
  · next ep found =>
    split_ifs at analyzed
    obtain ⟨ids, numbered, analyzed⟩ := bind_eq_ok.mp analyzed
    obtain ⟨-, -, analyzed⟩ := bind_eq_ok.mp analyzed
    cases analyzed
    obtain ⟨refs, position, named, calls⟩ := emit_records emitted
    have perm := sort.perm module
    have nodup : ((defined (sort.run module)).map Fn.ref).Nodup := by
      have all : ((sort.run module).map Fn.ref).Nodup := (perm.map Fn.ref).nodup_iff.mpr wf.refs
      exact all.sublist (List.filter_sublist.map Fn.ref)
    refine ⟨perm, sort.sorted module,
      ⟨ep, List.mem_of_find?_eq_some found, by simpa using List.find?_some found⟩, ?_, refs,
      ?_, named, calls, rfl⟩
    · intro ref n
      have lookup := @lookup_zipIdx _ nodup 1 ref n
      rw [← numberFunctions_eq numbered] at lookup
      unfold Analysis.getFunctionID
      simp only
      cases look : ids.lookup ref with
      | none =>
        rw [look] at lookup
        simp only [reduceCtorEq, false_iff, not_exists, not_and] at lookup ⊢
        intro i here
        have := lookup i here
        omega
      | some m =>
        rw [look] at lookup
        simp only [Except.ok.injEq, Option.some.injEq] at lookup ⊢
        rw [lookup]
        exact exists_congr fun i => and_congr_right fun _ => by omega
    · intro i r here
      have found := position i r here
      rwa [Nat.zero_add] at found

section
variable {module : List Fn} {out : Output} (wf : WellFormed module) (acc : Accepted module out)
include wf acc

theorem Accepted.same_name {F G : Fn} (hF : F ∈ out.analysis.functions)
    (hG : G ∈ out.analysis.functions) (same : F.name = G.name) (named : F.name ≠ "") : F = G :=
  wf.names F (acc.perm.mem_iff.mp hF) G (acc.perm.mem_iff.mp hG) same named

theorem Accepted.same_ref {F G : Fn} (hF : F ∈ out.analysis.functions)
    (hG : G ∈ out.analysis.functions) (same : F.ref = G.ref) : F = G :=
  List.inj_on_of_nodup_map wf.refs (acc.perm.mem_iff.mp hF) (acc.perm.mem_iff.mp hG) same

/-- The records are in the order of the comparison. -/
theorem Accepted.ordered :
    (written out.analysis.functions).Pairwise fun F G => compareLtFunctions F G = true := by
  have sub : (written out.analysis.functions).Sublist out.analysis.functions :=
    List.filter_sublist.trans List.filter_sublist
  have nodup : (out.analysis.functions.map Fn.ref).Nodup :=
    (acc.perm.map Fn.ref).nodup_iff.mpr wf.refs
  have apart : out.analysis.functions.Pairwise fun F G => F.ref ≠ G.ref :=
    List.pairwise_map.mp nodup
  have both := (acc.sorted.and apart).sublist sub
  refine both.imp_of_mem fun {F G} hF hG h => ?_
  obtain ⟨notLess, ne⟩ := h
  refine compareLt_of_not ?_ notLess
  intro same
  have named := acc.named F (List.mem_filter.mp hF).1
  exact ne (congrArg Fn.ref (acc.same_name wf (sub.subset hF) (sub.subset hG) same named))

/-- A defined entrypoint is the first of the functions with an id. -/
theorem Accepted.first {E : Fn} (hE : E ∈ out.analysis.functions) (name : E.name = "entrypoint")
    (isDefined : E.isDeclaration = false) : (defined out.analysis.functions).head? = some E := by
  have member : E ∈ defined out.analysis.functions := List.mem_filter.mpr ⟨hE, by simp [isDefined]⟩
  cases split : defined out.analysis.functions with
  | nil =>
    rw [split] at member
    cases member
  | cons H rest =>
    rw [split] at member
    rcases List.mem_cons.mp member with rfl | later
    · rfl
    · -- whatever stands before the entrypoint is not less than it
      have sorted := acc.sorted.sublist (List.filter_sublist (p := fun F : Fn => !F.isDeclaration))
      have sorted : (H :: rest).Pairwise fun F G => compareLtFunctions G F = false := split ▸ sorted
      have notLess := (List.pairwise_cons.mp sorted).1 E later
      have hH : H ∈ out.analysis.functions :=
        List.filter_sublist.subset (split ▸ List.mem_cons_self : H ∈ defined out.analysis.functions)
      have zero : getSpecialIndex E.name = 0 := by rw [name]; rfl
      have here : getSpecialIndex H.name = 0 := by
        unfold compareLtFunctions at notLess
        rw [if_pos (Or.inl (by rw [zero]; decide)), zero] at notLess
        simpa using notLess
      have same : H.name = E.name := (getSpecialIndex_zero here).trans name.symm
      have named : H.name ≠ "" := by rw [same, name]; decide
      rw [acc.same_name wf hH hE same named]
      rfl

end

/-- The ids of an accepted module are the positions of the records exactly if the entrypoint has a
body and no function with a body has available_externally linkage. -/
theorem write_matches_iff {sort : StdSort} {api : Api} {module : List Fn} {out : Output}
    (wf : WellFormed module) (accepted : write sort api module = .ok out) :
    Matches out ↔ (∀ F ∈ module, F.name = "entrypoint" → F.isDeclaration = false) ∧
      ∀ F ∈ module, F.isDeclaration = false → F.hasAvailableExternallyLinkage = false := by
  have acc := accepted_of_write wf accepted
  constructor
  · intro matched
    constructor
    · intro F hF name
      obtain ⟨E, hE, nameE, isDefined, -⟩ := matched.entrypoint
      have same : F = E :=
        wf.names F hF E (acc.perm.mem_iff.mp hE) (name.trans nameE.symm) (by rw [name]; decide)
      exact same ▸ isDefined
    · intro F hF isDefined
      have lengths :
          (defined out.analysis.functions).length = (written out.analysis.functions).length := by
        have refs := congrArg List.length acc.refs
        rw [List.length_map, List.length_map] at refs
        rw [← acc.header, matched.header, refs]
      have all := List.length_filter_eq_length_iff.mp lengths.symm
      have member : F ∈ defined out.analysis.functions :=
        List.mem_filter.mpr ⟨acc.perm.mem_iff.mpr hF, by simp [isDefined]⟩
      simpa using all F member
  · rintro ⟨entryDefined, internal⟩
    have all : written out.analysis.functions = defined out.analysis.functions := by
      refine List.filter_eq_self.mpr fun F hF => ?_
      obtain ⟨member, isDefined⟩ := List.mem_filter.mp hF
      simpa using internal F (acc.perm.mem_iff.mp member) (by simpa using isDefined)
    have refs : out.records.map Emitted.ref = (defined out.analysis.functions).map Fn.ref :=
      all ▸ acc.refs
    constructor
    case order =>
      have ordered := acc.ordered wf
      have pairs : ((written out.analysis.functions).map Fn.ref).Pairwise fun r s =>
          ∀ F ∈ out.analysis.functions, ∀ G ∈ out.analysis.functions, F.ref = r → G.ref = s →
            compareLtFunctions F G = true := by
        refine List.pairwise_map.mpr (ordered.imp_of_mem fun {H K} hH hK less => ?_)
        intro F hF G hG sameF sameG
        have sub : (written out.analysis.functions).Sublist out.analysis.functions :=
          List.filter_sublist.trans List.filter_sublist
        rw [acc.same_ref wf hF (sub.subset hH) sameF, acc.same_ref wf hG (sub.subset hK) sameG]
        exact less
      rw [← acc.refs] at pairs
      exact List.pairwise_map.mp pairs
    case position => exact acc.position
    case entrypoint =>
      obtain ⟨E, hE, name⟩ := acc.entrypoint
      have isDefined := entryDefined E (acc.perm.mem_iff.mp hE) name
      refine ⟨E, hE, name, isDefined, ?_⟩
      rw [← List.head?_map, refs, List.head?_map, acc.first wf hE name isDefined]
      rfl
    case header =>
      have lengths := congrArg List.length refs
      rw [List.length_map, List.length_map] at lengths
      rw [acc.header, lengths]
    case calls =>
      intro r hr call member
      obtain ⟨i, found, position⟩ := (acc.ids call.1 call.2).mp (acc.calls r hr call member)
      rw [← refs, List.getElem?_map] at found
      refine ⟨by omega, ?_⟩
      rw [position, Nat.add_sub_cancel]
      exact found

/-! The comparison is one that can be sorted by. -/

theorem not_compareLt_iff {F G : Fn} : compareLtFunctions G F = false ↔
    getSpecialIndex F.name < getSpecialIndex G.name ∨
      (getSpecialIndex F.name = getSpecialIndex G.name ∧
      (getSpecialIndex F.name ≠ maxWord ∨ F.params < G.params ∨
        (F.params = G.params ∧ F.name ≤ G.name))) := by
  have bounded : ∀ name, getSpecialIndex name ≤ maxWord := by
    intro name
    unfold getSpecialIndex maxWord
    split_ifs <;> omega
  have boundF := bounded F.name
  have boundG := bounded G.name
  unfold compareLtFunctions
  split_ifs with either params
  · rw [decide_eq_false_iff_not]
    omega
  · rw [decide_eq_false_iff_not]
    omega
  · rw [decide_eq_false_iff_not, not_lt]
    have plain : getSpecialIndex F.name = maxWord ∧ getSpecialIndex G.name = maxWord := by omega
    have same : F.params = G.params := by omega
    simp [plain, same]

instance : Std.Total fun F G : Fn => compareLtFunctions G F = false where
  total F G := by
    rw [not_compareLt_iff, not_compareLt_iff]
    have names := le_total F.name G.name
    grind

instance : IsTrans Fn fun F G => compareLtFunctions G F = false where
  trans F G H := by
    rw [not_compareLt_iff, not_compareLt_iff, not_compareLt_iff]
    have names : F.name ≤ G.name → G.name ≤ H.name → F.name ≤ H.name := le_trans
    grind

/-- A stable sort is one of those that `std::sort` may be. -/
def StdSort.stable : StdSort where
  run := List.insertionSort fun F G => compareLtFunctions G F = false
  perm := List.perm_insertionSort _
  sorted := List.pairwise_insertionSort _

/-- A helper, and an entrypoint that calls it if it has a body. -/
def entryAndHelper (entryDeclared : Bool) : List Fn :=
  [⟨0, "helper", 1, false, false, false, entryDeclared, []⟩,
    ⟨1, "entrypoint", 0, entryDeclared, false, false, true, if entryDeclared then [] else [0]⟩]

def noApi : Api := ⟨fun _ => none, fun _ => false⟩

theorem entryAndHelper_wellFormed (entryDeclared : Bool) :
    WellFormed (entryAndHelper entryDeclared) where
  refs := by simp [entryAndHelper]
  names := by
    intro F hF G hG same _
    simp only [entryAndHelper, List.mem_cons, List.not_mem_nil, or_false] at hF hG
    rcases hF with rfl | rfl <;> rcases hG with rfl | rfl
    · rfl
    · simp at same
    · simp at same
    · rfl

theorem write_matches_entryAndHelper :
    ∃ out, write .stable noApi (entryAndHelper false) = .ok out ∧ Matches out := by
  have accepted : ∃ out, write .stable noApi (entryAndHelper false) = .ok out := ⟨_, rfl⟩
  obtain ⟨out, accepted⟩ := accepted
  refine ⟨out, accepted,
    (write_matches_iff (entryAndHelper_wellFormed false) accepted).mpr ⟨?_, ?_⟩⟩
  · simp [entryAndHelper]
  · simp [entryAndHelper]

/-- With a declared entrypoint the first record is that of the helper. -/
theorem declared_entrypoint_accepted : WellFormed (entryAndHelper true) ∧
    ∃ out, write .stable noApi (entryAndHelper true) = .ok out ∧ out.records.map Emitted.ref = [0] ∧
      ¬ Matches out := by
  refine ⟨entryAndHelper_wellFormed true, _, rfl, rfl, ?_⟩
  rintro ⟨-, -, ⟨F, hF, name, isDefined, -⟩, -, -⟩
  have member : F ∈ entryAndHelper true := (StdSort.stable.perm _).mem_iff.mp hF
  simp only [entryAndHelper, List.mem_cons, List.not_mem_nil, or_false] at member
  rcases member with rfl | rfl
  · exact absurd name (by decide)
  · cases isDefined

end FunctionIds
