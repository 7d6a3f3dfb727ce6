import ClamBC.LogicalTrigger
import ClamBC.SignatureLine
import ClamBC.VirusNames
import ClamBC.ModuleText

/-!
# The pass that compiles the trigger

`run` reads the globals of the module, lets the names, the trigger and the subsignatures be compiled
and leaves the results in metadata. The first line of the compiled file repeats the functionality
levels that were declared, the logical signature has levels of its own.
-/

namespace LogicalRun

open VirusNames SubSignatures SignatureLine
open Fallible (ok_bind bind_eq_ok)

inductive Fault where
  | nullPointer | assertion
  | names (f : VirusNames.Fault)
  | signatures (f : SubSignatures.Fault)

/-- The initializer, absent for a declaration, is a constant string or something else. -/
structure StringGlobal where
  initializer : Option (Option (List Char))
  definitive : Bool

/-- The function, with what the searches for loops and for recursion say, and what is read for its
subsignatures. -/
structure Trigger where
  hasLoop : Bool
  recurses : Bool
  source : SubSignatures.Source

/-- The globals that are numbers have the value of a definitive initializer. The kind may also be
there without one. -/
structure Module where
  kind : Option (Option Nat)
  names : VirusNames.Source
  logicalTrigger : Option Trigger
  funcMin : Option Nat
  funcMax : Option Nat
  target : Option Nat
  iconGroup1 : Option StringGlobal
  iconGroup2 : Option StringGlobal
  container : Option StringGlobal

/-- What is left behind in the module. -/
structure Metadata where
  kind : Nat
  virusnames : List Char
  funcmin : Option Nat
  funcmax : Option Nat
  logicalSignature : Option String

inductive Outcome where
  | unchanged (log : List String)
  | exit (log : List String)
  | changed (md : Metadata) (log : List String)

def funcLevel096 : Nat := 51

/-- The kind of a bytecode with a trigger. -/
def bcLogical : Nat := 256

/-- `getZExtValue`, kept in an `unsigned`. -/
def getZExtValue (value : Nat) : Except Fault Nat :=
  if value < 2 ^ 64 then .ok (value % 2 ^ 32) else .error .assertion

def kind (m : Module) : Except Fault Nat := do
  let kind ← (m.kind.getD none).elim (.ok 0) getZExtValue
  if 65536 ≤ kind then .error .assertion
  else if m.logicalTrigger.isSome = true ∧ kind = 0 then
    if m.kind = none then .error .nullPointer else .ok bcLogical
  else .ok kind

/-- The same message for a loop and for recursion. -/
def checkTrigger (m : Module) : List String :=
  let message := "Logical signature: loop/recursion not supported"
  match m.logicalTrigger with
  | none => []
  | some t => (if t.hasLoop then [message] else []) ++ if t.recurses then [message] else []

/-- The level, and the messages about it. -/
def readFuncMin (m : Module) : Except Fault (Nat × List String) :=
  match m.funcMin with
  | none => .ok (funcLevel0964, [])
  | some value => do
    let funcmin ← getZExtValue value
    return (funcmin, if funcmin < funcLevel096 then
      ["Minimum functionality level can't be set lower than 0.96"] else [])

def readFuncMax (m : Module) (funcmin : Nat) : Except Fault (Nat × List String) :=
  match m.funcMax with
  | none => .ok (0, [])
  | some value => do
    let funcmax ← getZExtValue value
    return (funcmax,
      (if funcmax < funcLevel096 then
        ["Maximum functionality level can't be set lower than 0.96"] else []) ++
      if funcmax < funcmin then
        ["Maximum functionality level can't be lower than minimum"] else [])

def readTarget (m : Module) : Except Fault (Nat × List String) :=
  match m.target with
  | none => .ok (2 ^ 32 - 1, ["__Target not defined"])
  | some value => do return (← getZExtValue value, [])

/-- The text of a global is empty if the global is missing or not a string. -/
def textOf (g : Option StringGlobal) : List Char :=
  ((g.bind StringGlobal.initializer).getD none).getD []

/-- The text is looked at if it is a string that cannot be replaced later. -/
def isChecked (g : Option StringGlobal) : Bool :=
  match g with
  | none => false
  | some g => g.definitive && (g.initializer.getD none).isSome

/-- The initializer is read without asking whether there is one. -/
def readString (g : Option StringGlobal) : Except Fault (List Char) :=
  match g with
  | some ⟨none, _⟩ => .error .assertion
  | _ => .ok (textOf g)

def checkIconGroup (g : Option StringGlobal) : List String :=
  if isChecked g then (validateVirusName (textOf g) false).toList else []

/-- There is no message about a container. -/
def checkContainer (g : Option StringGlobal) : Bool :=
  !isChecked g || "CL_TYPE_".toList.isPrefixOf (textOf g)

def readRequest (m : Module) (kind funcmin funcmax : Nat) (virusnames : List Char) :
    Except Fault (Request × List String) := do
  let (target, log) ← readTarget m
  let icon1 ← readString m.iconGroup1
  let icon2 ← readString m.iconGroup2
  let container ← readString m.container
  return (
    { target := target, min := funcmin, max := funcmax, icon1 := String.ofList icon1,
      icon2 := String.ofList icon2, container := String.ofList container, kind := kind,
      virusnames := String.ofList virusnames },
    log ++ checkIconGroup m.iconGroup1 ++ checkIconGroup m.iconGroup2)

/-- The part for the trigger: the signature unless something is not valid. -/
def compileTrigger (o : LogicalNode.PtrOrder) (m : Module) (t : Trigger)
    (kind funcmin funcmax : Nat) (virusnames : List Char) :
    Except Fault (Option String × List String) := do
  let (request, log) ← readRequest m kind funcmin funcmax virusnames
  match compileLogicalSignature o request t.source with
  | .error f => .error (.signatures f)
  | .ok (.rejected more) => return (none, log ++ more)
  | .ok (.accepted signature more) =>
    return (if log = [] ∧ checkContainer m.container then some signature else none, log ++ more)

/-- What follows the names and the search for loops, if nothing is wrong so far. -/
def finish (o : LogicalNode.PtrOrder) (m : Module) (kind : Nat) (virusnames : List Char)
    (log : List String) : Except Fault Outcome := do
  let (funcmin, logMin) ← readFuncMin m
  if logMin ≠ [] then return .exit (log ++ logMin)
  let (funcmax, logMax) ← readFuncMax m funcmin
  if logMax ≠ [] then return .exit (log ++ logMax)
  match m.logicalTrigger with
  | none => return .changed ⟨kind, virusnames, m.funcMin, m.funcMax, none⟩ log
  | some t =>
    match ← compileTrigger o m t kind funcmin funcmax virusnames with
    | (none, more) => return .exit (log ++ more)
    | (some signature, more) =>
      return .changed ⟨kind, virusnames, m.funcMin, m.funcMax, some signature⟩ (log ++ more)

def run (o : LogicalNode.PtrOrder) (m : Module) : Except Fault Outcome := do
  let kind ← kind m
  match compileVirusNames kind m.names with
  | .error f => .error (.names f)
  | .ok names =>
    let log := names.log ++ names.reports.filterMap id
    if ¬ names.valid ∧ (kind = 0 ∨ kind = bcStartup) then return .unchanged log
    else if names.valid ∧ checkTrigger m = [] then finish o m kind names.virusnames log
    else return .exit (log ++ checkTrigger m)

/-! ## What is true of the metadata -/

/-- The levels as they are read. -/
structure Levels (m : Module) (funcmin funcmax : Nat) : Prop where
  lower : readFuncMin m = .ok (funcmin, [])
  upper : readFuncMax m funcmin = .ok (funcmax, [])

/-- The request was right, and the signature is the one for it. -/
structure Signed (o : LogicalNode.PtrOrder) (m : Module) (md : Metadata) (t : Trigger)
    (request : Request) (signature : String) : Prop where
  asked : ∃ funcmin funcmax, Levels m funcmin funcmax ∧
    readRequest m md.kind funcmin funcmax md.virusnames = .ok (request, [])
  accepted : ∃ log, compileLogicalSignature o request t.source = .ok (.accepted signature log)
  recorded : md.logicalSignature = some signature

structure Ran (o : LogicalNode.PtrOrder) (m : Module) (md : Metadata) : Prop where
  names : ∃ names, compileVirusNames md.kind m.names = .ok names ∧ names.valid = true ∧
    names.virusnames = md.virusnames
  trigger : checkTrigger m = []
  levels : ∃ funcmin funcmax, Levels m funcmin funcmax
  funcmin : md.funcmin = m.funcMin
  funcmax : md.funcmax = m.funcMax
  signed : ∀ t, m.logicalTrigger = some t → ∃ request signature, Signed o m md t request signature

theorem compileTrigger_some {o : LogicalNode.PtrOrder} {m : Module} {t : Trigger}
    {kind funcmin funcmax : Nat} {virusnames : List Char} {signature : String} {log : List String}
    (ran : compileTrigger o m t kind funcmin funcmax virusnames = .ok (some signature, log)) :
    ∃ request, readRequest m kind funcmin funcmax virusnames = .ok (request, []) ∧
      ∃ log, compileLogicalSignature o request t.source = .ok (.accepted signature log) := by
  obtain ⟨⟨request, log'⟩, read, ran⟩ := bind_eq_ok.mp ran
  dsimp only at ran
  split at ran
  · cases ran
  · cases ran
  · next signature' more accepted =>
    split_ifs at ran with valid
    · cases ran
      rw [valid.1] at read
      exact ⟨request, read, more, accepted⟩
    · cases ran

theorem finish_changed {o : LogicalNode.PtrOrder} {m : Module} {kind : Nat} {virusnames : List Char}
    {log log' : List String} {md : Metadata}
    (ran : finish o m kind virusnames log = .ok (.changed md log')) :
    md.kind = kind ∧ md.virusnames = virusnames ∧ md.funcmin = m.funcMin ∧ md.funcmax = m.funcMax ∧
      (∃ funcmin funcmax, Levels m funcmin funcmax) ∧
      ∀ t, m.logicalTrigger = some t → ∃ request signature, Signed o m md t request signature := by
  obtain ⟨⟨funcmin, logMin⟩, readMin, ran⟩ := bind_eq_ok.mp ran
  by_cases noneMin : logMin = []
  · subst noneMin
    obtain ⟨⟨funcmax, logMax⟩, readMax, ran⟩ := bind_eq_ok.mp ran
    by_cases noneMax : logMax = []
    · subst noneMax
      have levels : Levels m funcmin funcmax := ⟨readMin, readMax⟩
      cases trigger : m.logicalTrigger with
      | none =>
        simp only [trigger] at ran
        cases ran
        exact ⟨rfl, rfl, rfl, rfl, ⟨_, _, levels⟩, fun t found => by cases found⟩
      | some t =>
        simp only [trigger] at ran
        obtain ⟨⟨signature, more⟩, compiled, ran⟩ := bind_eq_ok.mp ran
        cases signature with
        | none => cases ran
        | some signature =>
          cases ran
          obtain ⟨request, read, accepted⟩ := compileTrigger_some compiled
          refine ⟨rfl, rfl, rfl, rfl, ⟨_, _, levels⟩, fun t' found => ?_⟩
          cases found
          exact ⟨request, signature, ⟨_, _, levels, read⟩, accepted, rfl⟩
    · simp only [ne_eq, noneMax, not_false_eq_true, if_true] at ran
      cases ran
  · simp only [ne_eq, noneMin, not_false_eq_true, if_true] at ran
    cases ran

/-- Metadata is only left behind if nothing went wrong. -/
theorem run_changed {o : LogicalNode.PtrOrder} {m : Module} {md : Metadata} {log : List String}
    (ran : run o m = .ok (.changed md log)) : Ran o m md := by
  obtain ⟨kind, -, ran⟩ := bind_eq_ok.mp ran
  dsimp only at ran
  split at ran
  · cases ran
  · next names compiled =>
    split_ifs at ran with unchanged valid
    · cases ran
    · obtain ⟨rfl, same, funcmin, funcmax, levels, signed⟩ := finish_changed ran
      exact ⟨⟨names, compiled, valid.1, same.symm⟩, valid.2, levels, funcmin, funcmax, signed⟩
    · cases ran

/-! ## The names -/

theorem inert_name {name : List Char} {suffix : Bool}
    (valid : validateVirusName name suffix = none) : InertAttribute name := by
  have all := validateVirusName_none.mp valid
  have semicolon : isNameChar suffix ';' = false := by cases suffix <;> rfl
  have newline : isNameChar suffix '\n' = false := by cases suffix <;> rfl
  have refused : isNameChar suffix ',' = false := by cases suffix <;> rfl
  refine ⟨inert_of_all all semicolon newline, fun comma => ?_⟩
  rw [all _ comma] at refused
  cases refused

theorem valid_of_readParts {parts : List (Option (List Char))} (valid : (readParts parts).2 = []) :
    ∀ name ∈ (readParts parts).1, validateVirusName name true = none := by
  induction parts with
  | nil => exact fun name hname => by cases hname
  | cons part parts ih =>
    cases part with
    | none => cases valid
    | some name =>
      cases name with
      | nil => exact ih valid
      | cons c name =>
        obtain ⟨first, rest⟩ := List.append_eq_nil_iff.mp valid
        have none : validateVirusName (c :: name) true = none := Option.toList_eq_nil_iff.mp first
        exact List.forall_mem_cons.mpr ⟨none, ih rest⟩

/-- The commas between the names stay. -/
theorem inert_header {virusNamePrefix : List Char} {parts : List (Option (List Char))}
    (first : Inert virusNamePrefix) (valid : (readParts parts).2 = []) :
    Inert (header virusNamePrefix parts) := by
  have brace : Inert ['\x7d'] := ⟨by decide, by decide⟩
  have start : Inert (if parts = [] then "\x7b" else ".\x7b").toList := by
    split_ifs
    · exact ⟨by decide, by decide⟩
    · exact ⟨by decide, by decide⟩
  have each : ∀ name ∈ (readParts parts).1.mergeSort fun a b => decide (a ≤ b), Inert name :=
    fun name hname => (inert_name
      (valid_of_readParts valid name (List.mem_mergeSort.mp hname))).toInert
  have names : ∀ names : List (List Char), (∀ name ∈ names, Inert name) →
      Inert (List.intercalate [','] names) := by
    intro names each
    rw [← TextFields.joined_eq_intercalate]
    have inside {c : Char} (other : c ≠ ',') := @TextFields.not_mem_joined _ _ c other names
    exact ⟨(inside (by decide)).mpr fun name hname => (each name hname).noSemicolon,
      (inside (by decide)).mpr fun name hname => (each name hname).noNewline⟩
  unfold header
  simp only [Inert.append_iff]
  exact ⟨⟨⟨first, start⟩, names _ each⟩, brace⟩

theorem compileCalls_virusnames {kind : Nat} {m : VirusNames.Source}
    {virusnames virusNamePrefix : List Char} {virusNamesSet : List (List Char)} {result : Result}
    (ran : compileCalls kind m virusnames virusNamePrefix virusNamesSet = .ok result) :
    result.virusnames = virusnames := by
  unfold compileCalls at ran
  cases users : m.setvirusname with
  | none =>
    rw [users] at ran
    cases ran
    rfl
  | some callers =>
    rw [users] at ran
    cases callers with
    | nil =>
      cases ran
      rfl
    | cons caller callers =>
      obtain ⟨compiled, -, ran⟩ := bind_eq_ok.mp ran
      cases ran
      rfl

theorem inert_virusnames {kind : Nat} {m : VirusNames.Source} {result : Result}
    (ran : compileVirusNames kind m = .ok result) (valid : result.valid = true) :
    Inert result.virusnames := by
  unfold compileVirusNames at ran
  split at ran
  · cases ran
    cases valid
  · cases ran
    cases valid
  · next virusNamePrefix _ =>
    split at ran
    · cases ran
      cases valid
    · next allowed =>
      have first : Inert virusNamePrefix := (inert_name allowed).toInert
      split at ran
      · rw [compileCalls_virusnames ran]
        exact first
      · cases ran
      · split_ifs at ran with noMessages
        · rw [compileCalls_virusnames ran]
          exact inert_header first noMessages
        · cases ran
          cases valid

/-! ## The expression -/

section
open Ir IrExec LogicalNode LogicalMeaning LogicalText LogicalFragment LogicalReturns LogicalTrigger
  LogicalSteps LogicalInstructions LogicalMap TriggerRun SsaForm

/-- The texts of the module in which nothing has been looked for are clean: the container, the icon
groups that can be replaced and the patterns. -/
structure Unquoted (m : Module) (patterns : List (List Char)) : Prop where
  icons : ∀ g ∈ [m.iconGroup1, m.iconGroup2], isChecked g = false → InertAttribute (textOf g)
  container : InertAttribute (textOf m.container)
  patterns : ∀ s ∈ patterns, Inert s

theorem inert_icon {g : Option StringGlobal} (none : checkIconGroup g = [])
    (isChecked : isChecked g = true) : InertAttribute (textOf g) := by
  rw [checkIconGroup, if_pos isChecked] at none
  exact inert_name (Option.toList_eq_nil_iff.mp none)

theorem readString_ok {g : Option StringGlobal} {text : List Char}
    (read : readString g = .ok text) : text = textOf g := by
  unfold readString at read
  split at read
  · cases read
  · cases read
    rfl

theorem readRequest_ok {m : Module} {kind funcmin funcmax : Nat} {virusnames : List Char}
    {request : Request} (read : readRequest m kind funcmin funcmax virusnames = .ok (request, [])) :
    ∃ target, request = ⟨target, funcmin, funcmax, String.ofList (textOf m.iconGroup1),
      String.ofList (textOf m.iconGroup2), String.ofList (textOf m.container), kind,
      String.ofList virusnames⟩ ∧
      checkIconGroup m.iconGroup1 = [] ∧ checkIconGroup m.iconGroup2 = [] := by
  obtain ⟨⟨target, log⟩, -, read⟩ := bind_eq_ok.mp read
  obtain ⟨icon1, read1, read⟩ := bind_eq_ok.mp read
  obtain ⟨icon2, read2, read⟩ := bind_eq_ok.mp read
  obtain ⟨container, read3, read⟩ := bind_eq_ok.mp read
  cases readString_ok read1
  cases readString_ok read2
  cases readString_ok read3
  obtain ⟨same, messages⟩ := Prod.mk.inj (Except.ok.inj read)
  rw [List.append_eq_nil_iff, List.append_eq_nil_iff] at messages
  exact ⟨target, same.symm, messages.1.2, messages.2⟩

theorem clean_iff_unquoted {m : Module} {source : SubSignatures.Source} {kind funcmin funcmax : Nat}
    {virusnames : List Char} {request : Request} {expression : List Char} {table : List (List Char)}
    (read : readRequest m kind funcmin funcmax virusnames = .ok (request, []))
    (names : Inert virusnames) (inert : Inert expression)
    (allowed : source.rawattrs.bind badAttribute = none) :
    (line request source expression table).Clean ↔ Unquoted m table := by
  obtain ⟨target, rfl, noMessage1, noMessage2⟩ := readRequest_ok read
  rw [line_clean_iff (by simpa using names) inert allowed]
  constructor
  · rintro ⟨icon1, icon2, container, patterns⟩
    simp only [String.toList_ofList] at icon1 icon2 container
    refine ⟨?_, container, patterns⟩
    simp only [List.forall_mem_cons, List.not_mem_nil, false_implies, implies_true, and_true]
    exact ⟨fun _ => icon1, fun _ => icon2⟩
  · rintro ⟨icons, container, patterns⟩
    have icon : ∀ g ∈ [m.iconGroup1, m.iconGroup2], checkIconGroup g = [] →
        InertAttribute (textOf g) := by
      intro g hg none
      cases checked : isChecked g with
      | true => exact inert_icon none checked
      | false => exact icons g hg checked
    have first := icon m.iconGroup1 (by simp) noMessage1
    have second := icon m.iconGroup2 (by simp) noMessage2
    exact ⟨by simpa using first, by simpa using second, by simpa using container, patterns⟩

/-- The sum of two counts or a third one, with three patterns. -/
def smallTrigger : Trigger where
  hasLoop := false
  recurses := false
  source :=
    { initialized := true, isStruct := true,
      entries := [⟨some ['a', 'a'], .id 0⟩, ⟨some ['b', 'b'], .id 1⟩, ⟨some ['c', 'c'], .id 2⟩],
      oddField := false, matchCounts := some 0, rawattrs := none, usesJson := false,
      trigger := sumOrThird }

def smallModule : Module where
  kind := some (some bcLogical)
  names := ⟨some (some ['T']), false, none, none⟩
  logicalTrigger := some smallTrigger
  funcMin := none
  funcMax := none
  target := some 0
  iconGroup1 := none
  iconGroup2 := none
  container := none

def smallRequest : Request where
  target := 0
  min := funcLevel0964
  max := 0
  icon1 := ""
  icon2 := ""
  container := ""
  kind := bcLogical
  virusnames := "T"

/-- Not even macros need more than the default. -/
theorem smallTrigger_levels (signature : List Char) : ∀ level reason,
    minRequired smallTrigger.source signature smallRequest.kind = some (level, reason) →
      level ≤ funcLevel0964 := by
  intro level reason required
  have noHook : ¬ bcPreclass ≤ smallRequest.kind ∧ ¬ bcPeAll ≤ smallRequest.kind ∧
      ¬ bcPdf ≤ smallRequest.kind := by decide
  have noJson : ¬ smallTrigger.source.usesJson = true := by decide
  rw [minRequired, if_neg noHook.1, if_neg noJson, if_neg noHook.2.1, if_neg noHook.2.2] at required
  split_ifs at required
  cases required
  decide

theorem smallRequest_accepted : ∃ signature log,
    compileLogicalSignature .inOrder smallRequest smallTrigger.source =
      .ok (.accepted signature log) := by
  have stored : Stored 3 smallTrigger.source.entries
      [⟨0, ['a', 'a'], []⟩, ⟨1, ['b', 'b'], []⟩, ⟨2, ['c', 'c'], []⟩] :=
    .cons rfl (by decide) (.cons rfl (by decide) (.cons rfl (by decide) .nil))
  have started : Started smallTrigger.source := ⟨rfl, rfl, rfl, List.cons_ne_nil _ _⟩
  have last : LastValid smallTrigger.source := by
    rintro e ⟨⟩
    exact ⟨['c', 'c'], rfl, rfl⟩
  obtain ⟨s, compiled⟩ := sumOrThird_compiled
  obtain ⟨text, groups, printed, few⟩ : ∃ text groups, node2String sumNode 0 = .ok (text, groups) ∧
      ¬ 64 < groups := ⟨_, _, rfl, by decide⟩
  have emitted : ∀ table, ∃ signature log, emit smallRequest smallTrigger.source sumNode table =
      .ok (.accepted signature log) := by
    intro table
    have none : smallTrigger.source.rawattrs.bind badAttribute = none := rfl
    unfold emit
    rw [printed]
    simp only [none, few, if_false]
    split
    · next log checked =>
      have refused := congrArg Prod.fst checked
      exact absurd (refused.symm.trans (checkMinimum_iff.mpr (smallTrigger_levels _)))
        Bool.false_ne_true
    · exact ⟨_, _, rfl⟩
  obtain ⟨signature, log, emitted⟩ := emitted _
  obtain ⟨log, accepted⟩ :=
    (accepted_iff started).mpr ⟨_, stored, last, s, sumNode, log, compiled, rfl, emitted⟩
  exact ⟨signature, log, accepted⟩

theorem smallModule_changed : ∃ md log, run .inOrder smallModule = .ok (.changed md log) := by
  obtain ⟨signature, log, accepted⟩ := smallRequest_accepted
  have compiled : compileTrigger .inOrder smallModule smallTrigger bcLogical funcLevel0964 0 ['T'] =
      .ok (some signature, log) := by
    have read : readRequest smallModule bcLogical funcLevel0964 0 ['T'] = .ok (smallRequest, []) :=
      rfl
    rw [compileTrigger, read, ok_bind]
    simp only [accepted]
    rfl
  let warning := ["Virusnames declared, but foundVirus was not called!"]
  have finished : finish .inOrder smallModule bcLogical ['T'] warning =
      .ok (.changed ⟨bcLogical, ['T'], none, none, some signature⟩ (warning ++ log)) := by
    have lower : readFuncMin smallModule = .ok (funcLevel0964, []) := rfl
    have upper : readFuncMax smallModule funcLevel0964 = .ok (0, []) := rfl
    have trigger : smallModule.logicalTrigger = some smallTrigger := rfl
    rw [finish, lower, ok_bind]
    simp only [ne_eq, not_true_eq_false, if_false, upper, ok_bind, trigger, compiled]
    rfl
  exact ⟨_, _, finished⟩

end

/-! ## The functionality levels -/

def readEngine (text : List Char) : Option (Nat × Nat) :=
  if "Engine:".toList <+: text then
    match (text.drop 7).splitOn '-' with
    | [min, max] => (getAsInteger min).bind fun min => (getAsInteger max).map (min, ·)
    | _ => none
  else none

theorem getAsInteger_toString {n : Nat} (small : n < 2 ^ 32) :
    getAsInteger (toString n).toList = some n := by
  obtain ⟨some, digits, value⟩ := LdbText.isNumber_toDigits n
  rw [Nat.toString_eq_repr, Nat.toList_repr, getAsInteger, value]
  exact if_pos ⟨some, List.all_eq_true.mpr digits, small⟩

theorem readEngine_print {min max : Nat} (smallMin : min < 2 ^ 32) (smallMax : max < 2 ^ 32) :
    readEngine ("Engine:" ++ toString min ++ "-" ++ toString max).toList = some (min, max) := by
  have noDash : ∀ n : Nat, '-' ∉ (toString n).toList := by
    intro n inside
    rw [Nat.toString_eq_repr, Nat.toList_repr] at inside
    exact absurd ((LdbText.isNumber_toDigits n).2.1 _ inside) (by decide)
  have parts : ((toString min).toList ++ '-' :: (toString max).toList).splitOn '-' =
      [(toString min).toList, (toString max).toList] := by
    rw [List.splitOn_append_cons_self, List.splitOn_eq_singleton (noDash min),
      List.splitOn_eq_singleton (noDash max)]
    rfl
  have text : ("Engine:" ++ toString min ++ "-" ++ toString max).toList =
      "Engine:".toList ++ ((toString min).toList ++ '-' :: (toString max).toList) := by simp
  rw [text, readEngine, if_pos (List.prefix_append _ _)]
  change (match ((toString min).toList ++ '-' :: (toString max).toList).splitOn '-' with
    | [min, max] => (getAsInteger min).bind fun min => (getAsInteger max).map (min, ·)
    | _ => none) = _
  rw [parts]
  simp only [getAsInteger_toString smallMin, getAsInteger_toString smallMax]
  rfl

section
open ModuleText (functionalityLevel checkFunctionalityLevel)

theorem functionalityLevel_toNat {value : Nat} (small : value < 2 ^ 64) :
    (functionalityLevel (some value)).toNat = value % 2 ^ 32 := by
  have whole : min value (2 ^ 64 - 1) = value := by omega
  simp only [functionalityLevel, whole, UInt64.toNat_toUInt32, UInt64.toNat_ofNat']
  omega

theorem getZExtValue_ok {value n : Nat} (read : getZExtValue value = .ok n) :
    n < 2 ^ 32 ∧ (functionalityLevel (some value)).toNat = n := by
  unfold getZExtValue at read
  split_ifs at read with small
  cases read
  exact ⟨Nat.mod_lt _ (Nat.two_pow_pos 32), functionalityLevel_toNat small⟩

/-- The level that the pass goes on with is the one that the header of the file gets, unless there
is none in the header. -/
theorem lower_eq {m : Module} {funcmin : Nat} (read : readFuncMin m = .ok (funcmin, [])) :
    funcLevel096 ≤ funcmin ∧ funcmin < 2 ^ 32 ∧
      (functionalityLevel m.funcMin).toNat = (if m.funcMin = none then 0 else funcmin) ∧
      (m.funcMin = none → funcmin = funcLevel0964) := by
  unfold readFuncMin at read
  cases declared : m.funcMin with
  | none =>
    rw [declared] at read
    cases read
    exact ⟨by decide, by decide, rfl, fun _ => rfl⟩
  | some value =>
    rw [declared] at read
    obtain ⟨level, known, read⟩ := bind_eq_ok.mp read
    obtain ⟨small, header⟩ := getZExtValue_ok known
    split_ifs at read with low
    · cases read
    · cases read
      refine ⟨by omega, small, header, fun none => by cases none⟩

theorem upper_eq {m : Module} {funcmin funcmax : Nat}
    (read : readFuncMax m funcmin = .ok (funcmax, [])) :
    funcmax < 2 ^ 32 ∧ (functionalityLevel m.funcMax).toNat = funcmax ∧
      (m.funcMax = none ↔ funcmax = 0) := by
  unfold readFuncMax at read
  cases declared : m.funcMax with
  | none =>
    rw [declared] at read
    cases read
    exact ⟨by decide, rfl, iff_of_true rfl rfl⟩
  | some value =>
    rw [declared] at read
    obtain ⟨level, known, read⟩ := bind_eq_ok.mp read
    obtain ⟨small, header⟩ := getZExtValue_ok known
    obtain ⟨same, messages⟩ := Prod.mk.inj (Except.ok.inj read)
    cases same
    rw [List.append_eq_nil_iff] at messages
    have high : ¬ funcmax < funcLevel096 := by
      intro low
      rw [if_pos low] at messages
      cases messages.1
    have positive : funcmax ≠ 0 := by
      rintro rfl
      exact high (by decide)
    exact ⟨small, header, iff_of_false (fun none => by cases none) positive⟩

theorem checkFunctionalityLevel_iff {query min max : UInt32} :
    checkFunctionalityLevel query min max = true ↔
      (min.toNat ≠ 0 → min.toNat ≤ query.toNat) ∧ (max.toNat ≠ 0 → query.toNat ≤ max.toNat) := by
  have zero : ∀ n : UInt32, n ≠ 0 ↔ n.toNat ≠ 0 := fun n =>
    not_congr ⟨fun same => same ▸ rfl, fun same => UInt32.toNat_inj.mp same⟩
  simp only [checkFunctionalityLevel, zero, UInt32.lt_iff_toNat_lt, gt_iff_lt]
  split_ifs with low high
  · simp only [false_iff]
    omega
  · simp only [false_iff]
    omega
  · simp only [true_iff]
    omega

/-- The levels in the first attribute are not below what anything in the signature requires; and an
engine is between them exactly if it may load the compiled file by the levels in its header, is not
older than 0.96.4 if no minimum is declared, and is at most 255 if no maximum is. -/
theorem engine_levels_iff {o : LogicalNode.PtrOrder} {m : Module} {t : Trigger} {md : Metadata}
    {log : List String} (trigger : m.logicalTrigger = some t)
    (ran : run o m = .ok (.changed md log)) :
    ∃ (signature : String) (l : Line) (min max : Nat),
      md.logicalSignature = some signature ∧ signature.toList = l.print ∧
      l.attributes.head?.bind readEngine = some (min, max) ∧
      (∀ level reason, minRequired t.source signature.toList md.kind = some (level, reason) →
        level ≤ min) ∧
      ∀ query : UInt32, (min ≤ query.toNat ∧ query.toNat ≤ max) ↔
        checkFunctionalityLevel query (functionalityLevel md.funcmin)
          (functionalityLevel md.funcmax) = true ∧
        (m.funcMin = none → funcLevel0964 ≤ query.toNat) ∧
        (m.funcMax = none → query.toNat ≤ 255) := by
  have final := run_changed ran
  obtain ⟨request, signature, signed⟩ := final.signed t trigger
  obtain ⟨log', accepted⟩ := signed.accepted
  obtain ⟨xs, -, -, s, node, log'', -, -, emitted⟩ :=
    (accepted_iff (started_of_accepts ⟨signature, log', accepted⟩)).mp ⟨log', accepted⟩
  obtain ⟨ndbsigs, groups, -, -, whole, checked⟩ := emit_accepted emitted
  obtain ⟨funcmin, funcmax, levels, read⟩ := signed.asked
  obtain ⟨target, asked, -, -⟩ := readRequest_ok read
  obtain ⟨high, smallMin, headerMin, defaultMin⟩ := lower_eq levels.lower
  obtain ⟨smallMax, headerMax, noMax⟩ := upper_eq levels.upper
  let max := if funcmax = 0 then 255 else funcmax
  have written : engineLevels request = some (funcmin, max) := by
    have positive : funcmin ≠ 0 := by
      rintro rfl
      exact absurd high (by decide)
    rw [asked, engineLevels]
    simp only [ne_eq, positive, not_false_eq_true, true_or, if_true, if_false]
    rfl
  refine ⟨signature, _, funcmin, max, signed.recorded, whole, ?_, ?_, ?_⟩
  · have smallMax : max < 2 ^ 32 := by
      change (if funcmax = 0 then 255 else funcmax) < 2 ^ 32
      split_ifs <;> omega
    have first : (line request t.source ndbsigs.toList
        (write (List.replicate t.source.entries.length []) xs)).attributes.head? =
        some ("Engine:" ++ toString funcmin ++ "-" ++ toString max).toList := by
      simp only [line, optionalAttributes, engine, written]
      rfl
    rw [first]
    exact readEngine_print smallMin smallMax
  · intro level reason required
    have kind : request.kind = md.kind := by rw [asked]
    rw [written, kind] at checked
    exact checkMinimum_iff.mp checked level reason required
  · intro query
    rw [checkFunctionalityLevel_iff, final.funcmin, final.funcmax, headerMin, headerMax, noMax]
    change _ ∧ query.toNat ≤ (if funcmax = 0 then 255 else funcmax) ↔ _
    have lowest : 51 ≤ funcmin := high
    by_cases undeclared : m.funcMin = none
    · have default := defaultMin undeclared
      simp only [undeclared, if_true, true_implies, default]
      split_ifs <;> omega
    · simp only [undeclared, if_false, false_implies, true_and]
      split_ifs <;> omega

theorem engine_levels_iff_smallModule : ∃ md log, run .inOrder smallModule = .ok (.changed md log) ∧
    ∃ (signature : String) (l : Line) (min max : Nat),
      md.logicalSignature = some signature ∧ signature.toList = l.print ∧
      l.attributes.head?.bind readEngine = some (min, max) ∧
      (∀ level reason, minRequired smallTrigger.source signature.toList md.kind =
        some (level, reason) → level ≤ min) ∧
      ∀ query : UInt32, (min ≤ query.toNat ∧ query.toNat ≤ max) ↔
        checkFunctionalityLevel query (functionalityLevel md.funcmin)
          (functionalityLevel md.funcmax) = true ∧
        (smallModule.funcMin = none → funcLevel0964 ≤ query.toNat) ∧
        (smallModule.funcMax = none → query.toNat ≤ 255) := by
  obtain ⟨md, log, ran⟩ := smallModule_changed
  exact ⟨md, log, ran, engine_levels_iff (t := smallTrigger) rfl ran⟩

end

end LogicalRun
