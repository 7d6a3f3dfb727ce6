import ClamBC.Fallible
import ClamBC.IgnoredLines
import ClamBC.TextLines
import Mathlib.Data.List.Dedup
import Mathlib.Data.List.Flatten
import Mathlib.Data.List.Sort

/-!
# The published source

The source that goes into a signature is put together from the files of the linked module. Of
every file the definitions that the optimizer has removed should be left out, up to the
next definition that is still there. The test for removed definitions looks for a line
number among the keys of a table, where it never is, so that nothing is left out.

The lines of a module are given as what the patterns of `parseIR` find in them, and a file as
the text that is read from it.
-/

namespace PublishedSource

open Fallible TextLines IgnoredLines

abbrev Text := List Char

/-- `os.path.join`. -/
def joinPath (directory filename : Text) : Text :=
  if filename.head? = some '/' then filename
  else if directory = [] ∨ directory.getLast? = some '/' then directory ++ filename
  else directory ++ '/' :: filename

/-- `os.path.basename`. -/
def basename (fileName : Text) : Text := (fileName.reverse.takeWhile (· ≠ '/')).reverse

/-- An assignment to a key of a dictionary. -/
def setItem {α : Type} (d : List (Text × α)) (key : Text) (value : α) : List (Text × α) :=
  if d.any (·.1 = key) then d.map fun e => if e.1 = key then (key, value) else e
  else d ++ [(key, value)]

theorem setItem_nodup {α : Type} {d : List (Text × α)} (nodup : (d.map Prod.fst).Nodup) (key : Text)
    (value : α) : ((setItem d key value).map Prod.fst).Nodup := by
  rw [setItem]
  split
  · have same : (d.map fun e => if e.1 = key then (key, value) else e).map Prod.fst =
        d.map Prod.fst := by
      rw [List.map_map]
      refine List.map_congr_left fun e _ => ?_
      simp only [Function.comp_apply]
      split
      · next h => exact h.symm
      · rfl
    rwa [same]
  · next new =>
    rw [List.map_append, List.nodup_append]
    refine ⟨nodup, List.nodup_singleton key, fun a ha b hb => ?_⟩
    rw [List.mem_singleton.mp hb]
    rintro rfl
    obtain ⟨e, he, same⟩ := List.mem_map.mp ha
    exact new (List.any_eq_true.mpr ⟨e, he, decide_eq_true same⟩)

theorem mem_setItem {α : Type} {d : List (Text × α)} {key : Text} {value : α} {e : Text × α}
    (h : e ∈ setItem d key value) : e ∈ d ∨ e = (key, value) := by
  rw [setItem] at h
  split at h
  · obtain ⟨old, hOld, eq⟩ := List.mem_map.mp h
    split at eq
    · exact .inr eq.symm
    · exact .inl (eq ▸ hOld)
  · exact (List.mem_append.mp h).imp_right List.mem_singleton.mp

/-- A line with a file, or with a global variable or a function. The keys are without their `!`. -/
inductive Entry where
  | diFile (key filename directory : Text)
  | definition (key : Text) (line : Nat)

/-- The names of the files, and the lines in which the definitions of a file start. -/
structure IRFile where
  files : List (Text × Text)
  globalValues : List (Text × List Nat)
  files_nodup : (files.map Prod.fst).Nodup
  globals_nodup : (globalValues.map Prod.fst).Nodup
  keys_ne : ∀ f ∈ files, f.1 ≠ []
  sorted : ∀ g ∈ globalValues, g.2.Pairwise (· ≤ ·)

namespace IRFile

def addFile (dbgFiles : List (Text × Text)) : Entry → List (Text × Text)
  | .diFile key filename directory => setItem dbgFiles ('!' :: key) (joinPath directory filename)
  | .definition _ _ => dbgFiles

def addGlobal (dbgGlobals : List (Text × List Nat)) : Entry → List (Text × List Nat)
  | .diFile _ _ _ => dbgGlobals
  | .definition key line =>
    setItem dbgGlobals ('!' :: key) ((dbgGlobals.lookup ('!' :: key)).getD [] ++ [line])

theorem addFiles_keys (entries : List Entry) :
    ((entries.foldl addFile []).map Prod.fst).Nodup ∧
      ∀ f ∈ entries.foldl addFile [], f.1 ≠ [] := by
  have empty : (([] : List (Text × Text)).map Prod.fst).Nodup ∧
      ∀ f ∈ ([] : List (Text × Text)), f.1 ≠ [] := ⟨List.nodup_nil, fun _ h => nomatch h⟩
  refine List.foldlRecOn (motive := fun d => (d.map Prod.fst).Nodup ∧ ∀ f ∈ d, f.1 ≠ []) entries
    addFile empty fun d h e _ => ?_
  cases e with
  | diFile key filename directory =>
    refine ⟨setItem_nodup h.1 _ _, fun f hf => ?_⟩
    rcases mem_setItem hf with hf | rfl
    · exact h.2 f hf
    · exact List.cons_ne_nil _ _
  | definition => exact h

theorem addGlobals_keys (entries : List Entry) :
    ((entries.foldl addGlobal []).map Prod.fst).Nodup :=
  List.foldlRecOn (motive := fun d => (d.map Prod.fst).Nodup) entries addGlobal List.nodup_nil
    fun d h e _ => by
    cases e with
    | diFile => exact h
    | definition => exact setItem_nodup h _ _

/-- `parseIR`, from the lines that it looks at. -/
def parseIR (entries : List Entry) : IRFile where
  files := entries.foldl addFile []
  globalValues := (entries.foldl addGlobal []).map fun g => (g.1, g.2.insertionSort (· ≤ ·))
  files_nodup := (addFiles_keys entries).1
  globals_nodup := by
    rw [List.map_map]
    exact addGlobals_keys entries
  keys_ne := (addFiles_keys entries).2
  sorted := by
    intro g hg
    obtain ⟨d, -, rfl⟩ := List.mem_map.mp hg
    exact List.pairwise_insertionSort _ _

end IRFile

def getKeyFromFile (linked : IRFile) (fileName : Text) : Option Text :=
  (linked.files.find? fun f => f.2 = fileName).map Prod.fst

inductive Fault where
  | breakpoint
  | keyError (key : Text)
  deriving DecidableEq

def getItem {α : Type} (d : List (Text × α)) (key : Text) : Except Fault α :=
  match d.lookup key with
  | some value => .ok value
  | none => .error (.keyError key)

/-- What is compared: keys are strings, and line numbers are not. -/
inductive PyValue where
  | str (s : Text)
  | int (n : Nat)
  deriving DecidableEq

def keys {α : Type} (d : List (Text × α)) : List PyValue := d.map fun e => .str e.1

abbrev Ignore := List (Text × List Nat)

/-- The inner loop of `generateIgnoreList`. -/
def ignoreValue (optimized : IRFile) (key linkedKey : Text) (ignore : Ignore) (vLinked : Nat) :
    Except Fault Ignore :=
  if .int vLinked ∉ keys optimized.globalValues then .ok ignore
  else do
    let values ← getItem optimized.globalValues key
    if vLinked ∈ values then return ignore
    return setItem ignore linkedKey ((ignore.lookup linkedKey).getD [] ++ [vLinked])

/-- For one file of the optimized module; without a key in the linked one it stops in the
debugger. -/
def ignoreFile (optimized linked : IRFile) (ignore : Ignore) (file : Text × Text) :
    Except Fault Ignore :=
  match getKeyFromFile linked file.2 with
  | none => .error .breakpoint
  | some linkedKey =>
    if linkedKey = [] then .error .breakpoint
    else
      match linked.globalValues.lookup linkedKey with
      | none => .ok ignore
      | some values => values.foldlM (ignoreValue optimized file.1 linkedKey) ignore

def generateIgnoreList (optimized linked : IRFile) : Except Fault Ignore :=
  optimized.files.foldlM (ignoreFile optimized linked) []

def clamBytecodeHeaders : List Text := ["bytecode_api.h".toList, "bytecode_local.h".toList]

def isBytecodeHeader (fileName : Text) : Bool :=
  clamBytecodeHeaders.contains (basename fileName)

def isHeader (fileName : Text) : Bool := ['.', 'h'].isSuffixOf fileName

/-- One turn of the loop over the keys, in the iteration for headers or the one for the
others. -/
def printFile (linked : IRFile) (ignore : Ignore) (disk : Text → Option Text) (headers : Bool)
    (gvs : Text × List Nat) : Except Fault Text := do
  let fileName ← getItem linked.files gvs.1
  if isBytecodeHeader fileName then return []
  if isHeader fileName ≠ headers then return []
  match disk fileName with
  | none => return []
  | some text =>
    match ignore.lookup gvs.1 with
    | none => return (lines '\n' text).flatten
    | some ignoreLst => return (printLines (lines '\n' text) ignoreLst gvs.2).flatten

def getOutputString (linked : IRFile) (ignore : Ignore) (disk : Text → Option Text) :
    Except Fault Text := do
  let first ← linked.globalValues.mapM (printFile linked ignore disk true)
  let second ← linked.globalValues.mapM (printFile linked ignore disk false)
  return (first ++ second).flatten

/-- What `createInputSourceFile` writes. -/
def createInputSource (optimized linked : IRFile) (disk : Text → Option Text) :
    Except Fault Text := do
  let ignore ← generateIgnoreList optimized linked
  getOutputString linked ignore disk

/-! ## What should be published -/

/-- Where definitions start in a file. -/
def startsIn (t : IRFile) (fileName : Text) : List Nat :=
  (t.globalValues.filter fun g => t.files.lookup g.1 = some fileName).flatMap Prod.snd

def missing (optimized linked : IRFile) (fileName : Text) : List Nat :=
  (startsIn linked fileName).filter fun s => s ∉ startsIn optimized fileName

def kept (optimized linked : IRFile) (fileName : Text) : List Nat :=
  (startsIn linked fileName).filter fun s => s ∈ startsIn optimized fileName

/-- The files with definitions, without the headers that every signature has and those that are
not there. -/
def definitionFiles (linked : IRFile) (disk : Text → Option Text) : List Text :=
  (linked.globalValues.filterMap fun g => linked.files.lookup g.1).filter fun fileName =>
    !isBytecodeHeader fileName && (disk fileName).isSome

/-- In the order in which they are printed. -/
def listed (linked : IRFile) (disk : Text → Option Text) : List Text :=
  (definitionFiles linked disk).filter (isHeader ·) ++
    (definitionFiles linked disk).filter (!isHeader ·)

def textOf (disk : Text → Option Text) (fileName : Text) : Text := (disk fileName).getD []

def publishedLines (optimized linked : IRFile) (disk : Text → Option Text) (fileName : Text) :
    List Text :=
  keptLines (missing optimized linked fileName) (kept optimized linked fileName)
    (lines '\n' (textOf disk fileName))

/-- Every listed file is there once, without the lines of removed definitions. -/
def OmitsRemoved (optimized linked : IRFile) (disk : Text → Option Text) : Prop :=
  createInputSource optimized linked disk =
    .ok ((listed linked disk).dedup.flatMap fun fileName =>
      (publishedLines optimized linked disk fileName).flatten)

/-- The files of both tables are known, and nothing has to be left out. -/
structure NothingRemoved (optimized linked : IRFile) (disk : Text → Option Text) : Prop where
  known : ∀ f ∈ optimized.files, ∃ g ∈ linked.files, g.2 = f.2
  named : ∀ g ∈ linked.globalValues, linked.files.lookup g.1 ≠ none
  once : ∀ fileName ∈ listed linked disk, textOf disk fileName ≠ [] →
    (listed linked disk).count fileName ≤ 1
  complete : ∀ fileName ∈ listed linked disk, ∀ i, 0 < i →
    i ≤ (lines '\n' (textOf disk fileName)).length →
      ¬ Omitted (missing optimized linked fileName) (kept optimized linked fileName) i

/-! ## What is published -/

variable {optimized linked : IRFile} {disk : Text → Option Text}

theorem ignoreValue_eq (optimized : IRFile) (key linkedKey : Text) (ignore : Ignore)
    (vLinked : Nat) : ignoreValue optimized key linkedKey ignore vLinked = .ok ignore := by
  have absent : PyValue.int vLinked ∉ keys optimized.globalValues := by
    simp [keys]
  rw [ignoreValue, if_pos absent]

theorem ignoreFile_known {file : Text × Text} (ignore : Ignore)
    (known : ∃ g ∈ linked.files, g.2 = file.2) :
    ignoreFile optimized linked ignore file = .ok ignore := by
  obtain ⟨g, hg, same⟩ := known
  have isSome : (linked.files.find? fun f => f.2 = file.2).isSome = true :=
    List.find?_isSome.mpr ⟨g, hg, by simpa using same⟩
  obtain ⟨f, found⟩ := Option.isSome_iff_exists.mp isSome
  rw [ignoreFile, getKeyFromFile, found, Option.map_some]
  dsimp only
  rw [if_neg (linked.keys_ne f (List.mem_of_find?_eq_some found))]
  split
  · rfl
  · exact foldlM_unchanged fun v _ => ignoreValue_eq _ _ _ _ _

theorem ignoreFile_unknown {file : Text × Text} (ignore : Ignore)
    (unknown : ¬ ∃ g ∈ linked.files, g.2 = file.2) :
    ignoreFile optimized linked ignore file = .error .breakpoint := by
  have none : linked.files.find? (fun f => f.2 = file.2) = none :=
    List.find?_eq_none.mpr fun g hg same => unknown ⟨g, hg, by simpa using same⟩
  rw [ignoreFile, getKeyFromFile, none]
  rfl

/-- Nothing is ever ignored. -/
theorem generateIgnoreList_eq_ok {ignore : Ignore} :
    generateIgnoreList optimized linked = .ok ignore ↔
      ignore = [] ∧ ∀ f ∈ optimized.files, ∃ g ∈ linked.files, g.2 = f.2 := by
  constructor
  · intro h
    rw [generateIgnoreList] at h
    generalize optimized.files = files at h
    induction files with
    | nil =>
      cases h
      exact ⟨rfl, nofun⟩
    | cons f files ih =>
      rw [List.foldlM_cons] at h
      by_cases known : ∃ g ∈ linked.files, g.2 = f.2
      · rw [ignoreFile_known [] known] at h
        obtain ⟨nothing, rest⟩ := ih h
        refine ⟨nothing, fun g hg => ?_⟩
        rcases List.mem_cons.mp hg with rfl | hg
        · exact known
        · exact rest g hg
      · rw [ignoreFile_unknown [] known] at h
        cases h
  · rintro ⟨rfl, known⟩
    exact foldlM_unchanged fun f hf => ignoreFile_known [] (known f hf)

/-- What a turn of the loop prints when nothing is ignored. -/
theorem printFile_eq {headers : Bool} {gvs : Text × List Nat} {fileName : Text}
    (named : linked.files.lookup gvs.1 = some fileName) :
    printFile linked [] disk headers gvs = .ok
      (if (!isBytecodeHeader fileName && (disk fileName).isSome) ∧ isHeader fileName = headers
        then textOf disk fileName else []) := by
  have found : getItem linked.files gvs.1 = .ok fileName := by rw [getItem, named]
  rw [printFile, found, ok_bind]
  by_cases own : isBytecodeHeader fileName
  · simp [own]
  · by_cases turn : isHeader fileName = headers
    · cases content : disk fileName with
      | none => simp [own, turn]
      | some text => simp [own, turn, textOf, content, flatten_lines]
    · simp [own, turn]

/-- With a list of definitions to ignore, a turn leaves out their lines. -/
theorem printFile_ignored {ignore : Ignore} {gvs : Text × List Nat} (hg : gvs ∈ linked.globalValues)
    {fileName text : Text} (named : linked.files.lookup gvs.1 = some fileName)
    (own : isBytecodeHeader fileName = false) (content : disk fileName = some text)
    {ignoreLst : List Nat} (ignored : ignore.lookup gvs.1 = some ignoreLst)
    (nonempty : ignoreLst ≠ []) (pos : ∀ s ∈ ignoreLst, 0 < s)
    (sorted : ignoreLst.Pairwise (· ≤ ·)) :
    printFile linked ignore disk (isHeader fileName) gvs =
      .ok (keptLines ignoreLst (gvs.2.filter fun e => e ∉ ignoreLst)
        (lines '\n' text)).flatten := by
  have found : getItem linked.files gvs.1 = .ok fileName := by rw [getItem, named]
  rw [printFile, found, ok_bind, ← printLines_eq nonempty pos sorted (linked.sorted gvs hg)]
  simp [own, content, ignored]

/-- What a turn of the loop prints when nothing is ignored and the file has a name. -/
def turnText (linked : IRFile) (disk : Text → Option Text) (headers : Bool)
    (gvs : Text × List Nat) : Text :=
  match linked.files.lookup gvs.1 with
  | none => []
  | some fileName =>
    if (!isBytecodeHeader fileName && (disk fileName).isSome) ∧ isHeader fileName = headers
    then textOf disk fileName else []

theorem printFile_named {headers : Bool} {gvs : Text × List Nat}
    (named : linked.files.lookup gvs.1 ≠ none) :
    printFile linked [] disk headers gvs = .ok (turnText linked disk headers gvs) := by
  obtain ⟨fileName, found⟩ := Option.ne_none_iff_exists'.mp named
  rw [printFile_eq found, turnText, found]

theorem named_of_printFile {headers : Bool} {gvs : Text × List Nat} {text : Text}
    (h : printFile linked [] disk headers gvs = .ok text) : linked.files.lookup gvs.1 ≠ none := by
  intro unnamed
  rw [printFile, getItem, unnamed] at h
  cases h

/-- The turns of one iteration print the files that are its turn. -/
theorem flatten_turns (headers : Bool) (gvs : List (Text × List Nat)) :
    (gvs.map (turnText linked disk headers)).flatten =
      (((gvs.filterMap fun g => linked.files.lookup g.1).filter fun fileName =>
        !isBytecodeHeader fileName && (disk fileName).isSome).filter
          fun fileName => isHeader fileName = headers).flatMap (textOf disk) := by
  induction gvs with
  | nil => rfl
  | cons g gvs ih =>
    rw [List.map_cons, List.flatten_cons, ih, turnText, List.filterMap_cons]
    cases linked.files.lookup g.1 with
    | none => rfl
    | some fileName =>
      by_cases own : (!isBytecodeHeader fileName && (disk fileName).isSome) = true
      · by_cases turn : isHeader fileName = headers
        · simp [own, turn]
        · simp [own, turn]
      · simp [own]

theorem getOutputString_eq_ok {out : Text} :
    getOutputString linked [] disk = .ok out ↔
      (∀ g ∈ linked.globalValues, linked.files.lookup g.1 ≠ none) ∧
        out = (listed linked disk).flatMap (textOf disk) := by
  have printed (named : ∀ g ∈ linked.globalValues, linked.files.lookup g.1 ≠ none) :
      getOutputString linked [] disk = .ok ((listed linked disk).flatMap (textOf disk)) := by
    have turns (headers : Bool) :
        linked.globalValues.mapM (printFile linked [] disk headers) =
          .ok (linked.globalValues.map (turnText linked disk headers)) :=
      mapM_ok fun g hg => printFile_named (named g hg)
    rw [getOutputString, turns true, ok_bind, turns false, ok_bind, List.flatten_append,
      flatten_turns, flatten_turns, listed, List.flatMap_append]
    simp [definitionFiles]
  constructor
  · intro h
    obtain ⟨first, ran, rest⟩ := bind_eq_ok.mp h
    have named : ∀ g ∈ linked.globalValues, linked.files.lookup g.1 ≠ none := by
      intro g hg
      obtain ⟨text, -, printed⟩ := exists_of_forall₂ (forall₂_of_mapM ran).flip hg
      exact named_of_printFile printed
    exact ⟨named, Except.ok.inj (h.symm.trans (printed named))⟩
  · rintro ⟨named, rfl⟩
    exact printed named

/-! ## What should be published -/

theorem select_sublist {α : Type} (keep : Nat → Bool) (i : Nat) (ls : List α) :
    (select keep i ls).Sublist ls := by
  have all : ((ls.zipIdx i).map Prod.fst) = ls := List.zipIdx_map_fst i ls
  conv_rhs => rw [← all]
  exact List.filter_sublist.map _

/-- Texts with as many characters after some of them were left out. -/
theorem eq_of_flatten_eq {ls ls' : List Text} (sub : ls.Sublist ls') (ne : ∀ l ∈ ls', l ≠ [])
    (h : ls.flatten = ls'.flatten) : ls = ls' := by
  induction sub with
  | slnil => rfl
  | cons l sub ih =>
    have shorter := sub.flatten.length_le
    have pos := List.length_pos_iff.mpr (ne l List.mem_cons_self)
    rw [h, List.flatten_cons, List.length_append] at shorter
    omega
  | cons_cons l sub ih =>
    rw [List.flatten_cons, List.flatten_cons] at h
    rw [ih (fun m hm => ne m (List.mem_cons_of_mem _ hm)) (List.append_cancel_left h)]

theorem flatMap_eq_iff {f g : Text → Text} (shorter : ∀ n, (g n).Sublist (f n))
    (names : List Text) :
    names.flatMap g = names.flatMap f ↔ ∀ n ∈ names, g n = f n := by
  induction names with
  | nil => simp
  | cons n names ih =>
    rw [List.flatMap_cons, List.flatMap_cons, List.forall_mem_cons, ← ih]
    constructor
    · intro h
      have first := (shorter n).length_le
      have rest := (List.Sublist.flatMap_right names fun n _ => shorter n).length_le
      have length := congrArg List.length h
      rw [List.length_append, List.length_append] at length
      have same : g n = f n := (shorter n).eq_of_length (by omega)
      rw [same] at h
      exact ⟨same, List.append_cancel_left h⟩
    · rintro ⟨first, rest⟩
      rw [first, rest]

/-- Without the later copies nothing is missing if they are empty. -/
theorem flatMap_dedup_eq_iff (f : Text → Text) (names : List Text) :
    names.dedup.flatMap f = names.flatMap f ↔ ∀ n ∈ names, f n ≠ [] → names.count n ≤ 1 := by
  induction names with
  | nil => simp
  | cons n names ih =>
    rw [List.flatMap_cons, List.dedup_cons, List.forall_mem_cons, List.count_cons_self]
    split
    · next again =>
      have copies := List.count_pos_iff.mpr again
      have rest := ((List.dedup_sublist names).flatMap f).length_le
      constructor
      · intro h
        have length := congrArg List.length h
        rw [List.length_append] at length
        have empty : f n = [] := List.length_eq_zero_iff.mp (by omega)
        rw [empty, List.nil_append, ih] at h
        refine ⟨fun text => absurd empty text, fun m hm text => ?_⟩
        have different : n ≠ m := by
          rintro rfl
          exact text empty
        rw [List.count_cons_of_ne different]
        exact h m hm text
      · rintro ⟨once, others⟩
        have empty : f n = [] := by
          by_contra text
          have := once text
          omega
        rw [empty, List.nil_append, ih]
        exact fun m hm text => List.count_le_count_cons.trans (others m hm text)
    · next new =>
      rw [List.flatMap_cons, List.append_cancel_left_eq, ih, List.count_eq_zero.mpr new]
      constructor
      · intro h
        refine ⟨fun _ => Nat.le_refl 1, fun m hm text => ?_⟩
        have different : n ≠ m := by
          rintro rfl
          exact new hm
        rw [List.count_cons_of_ne different]
        exact h m hm text
      · rintro ⟨-, others⟩
        exact fun m hm text => List.count_le_count_cons.trans (others m hm text)

/-- Texts that are there once and were not changed. -/
theorem flatMap_dedup_shorter_eq_iff {f g : Text → Text} (shorter : ∀ n, (g n).Sublist (f n))
    (names : List Text) :
    names.dedup.flatMap g = names.flatMap f ↔
      (∀ n ∈ names, g n = f n) ∧ ∀ n ∈ names, f n ≠ [] → names.count n ≤ 1 := by
  have changed := List.Sublist.flatMap_right names.dedup fun n _ => shorter n
  have left := (List.dedup_sublist names).flatMap f
  rw [← flatMap_dedup_eq_iff f names]
  have members : (∀ n ∈ names, g n = f n) ↔ names.dedup.flatMap g = names.dedup.flatMap f := by
    simp [flatMap_eq_iff shorter]
  rw [members]
  constructor
  · intro h
    have length := congrArg List.length h
    have := changed.length_le
    have := left.length_le
    exact ⟨changed.eq_of_length (by omega), left.eq_of_length (by omega)⟩
  · rintro ⟨unchanged, whole⟩
    rw [unchanged, whole]

theorem publishedLines_sublist (fileName : Text) :
    (publishedLines optimized linked disk fileName).Sublist
      (lines '\n' (textOf disk fileName)) := by
  rw [publishedLines, keptLines]
  exact select_sublist _ _ _

theorem select_eq_self {α : Type} {keep : Nat → Bool} {i : Nat} {ls : List α}
    (h : select keep i ls = ls) : ∀ j, i ≤ j → j < i + ls.length → keep j = true := by
  intro j first last
  have length := congrArg List.length h
  rw [select, List.length_map, ← List.length_zipIdx (l := ls) (i := i)] at length
  have line : (ls[j - i], j) ∈ ls.zipIdx i := by
    rw [List.mk_mem_zipIdx_iff_le_and_getElem?_sub]
    exact ⟨first, List.getElem?_eq_getElem _⟩
  exact List.length_filter_eq_length_iff.mp length _ line

/-- A file is printed as a whole if none of its lines is omitted. -/
theorem publishedLines_flatten_eq_iff (fileName : Text) :
    (publishedLines optimized linked disk fileName).flatten = textOf disk fileName ↔
      ∀ i, 0 < i → i ≤ (lines '\n' (textOf disk fileName)).length →
        ¬ Omitted (missing optimized linked fileName) (kept optimized linked fileName) i := by
  constructor
  · intro h i pos last
    have same : publishedLines optimized linked disk fileName = lines '\n' (textOf disk fileName) :=
      eq_of_flatten_eq (publishedLines_sublist fileName) (fun _ => ne_nil_of_mem_lines)
        (by rw [h, flatten_lines])
    rw [publishedLines, keptLines] at same
    exact of_decide_eq_true (select_eq_self same i pos (by omega))
  · intro h
    have all : publishedLines optimized linked disk fileName = lines '\n' (textOf disk fileName) :=
      select_all fun i first last => decide_eq_true (h i first (by omega))
    rw [all, flatten_lines]

/-- Exactly when nothing has to be left out, and the tables are complete. -/
theorem omitsRemoved_iff (optimized linked : IRFile) (disk : Text → Option Text) :
    OmitsRemoved optimized linked disk ↔ NothingRemoved optimized linked disk := by
  have shorter (fileName : Text) :
      (publishedLines optimized linked disk fileName).flatten.Sublist (textOf disk fileName) := by
    have sub := (@publishedLines_sublist optimized linked disk fileName).flatten
    rwa [flatten_lines] at sub
  have same := flatMap_dedup_shorter_eq_iff shorter (listed linked disk)
  rw [OmitsRemoved, createInputSource, bind_eq_ok]
  constructor
  · rintro ⟨ignore, generated, printed⟩
    obtain ⟨rfl, known⟩ := generateIgnoreList_eq_ok.mp generated
    obtain ⟨named, texts⟩ := getOutputString_eq_ok.mp printed
    obtain ⟨whole, once⟩ := same.mp texts
    exact ⟨known, named, once, fun n hn => (publishedLines_flatten_eq_iff n).mp (whole n hn)⟩
  · rintro ⟨known, named, once, complete⟩
    refine ⟨[], generateIgnoreList_eq_ok.mpr ⟨rfl, known⟩,
      getOutputString_eq_ok.mpr ⟨named, same.mpr ⟨fun n hn => ?_, once⟩⟩⟩
    exact (publishedLines_flatten_eq_iff n).mpr (complete n hn)

/-! ## A function that is not used -/

def linkedExample : IRFile :=
  .parseIR [.diFile ['1'] ['a', '.', 'c'] ['d'], .definition ['1'] 1, .definition ['1'] 3]

/-- The function in the first line was removed. -/
def optimizedExample : IRFile :=
  .parseIR [.diFile ['4'] ['a', '.', 'c'] ['d'], .definition ['4'] 3]

def diskExample (fileName : Text) : Option Text :=
  if fileName = ['d', '/', 'a', '.', 'c'] then some ['f', '\n', '\n', 'g', '\n'] else none

theorem removed_published : ¬ OmitsRemoved optimizedExample linkedExample diskExample := by
  rw [OmitsRemoved]
  decide

end PublishedSource
