import ClamBC.Fallible
import Mathlib.Algebra.Order.Ring.Int
import Mathlib.Data.Char
import Mathlib.Data.List.Lex
import Mathlib.Data.List.TakeWhile

/-!
# The names of viruses

`compileVirusNames` reads the prefix and the suffixes that a bytecode declares, and puts
the full name into every call of setvirusname. A call names the virus by nothing, by a
suffix or by the full name. The prefix is taken off without the dot behind it, wherever
the argument begins with it.

A user of setvirusname that is not a call and declared names that are not an array fail a
cast. The linkages of the variables are not modelled.
-/

namespace VirusNames

inductive Fault where
  | badCast

def bcStartup : Nat := 1
def bcPeUnpacker : Nat := 257
def bcElfUnpacker : Nat := 261
def bcMachoUnpacker : Nat := 262

def isUnpacker (kind : Nat) : Bool :=
  kind == bcPeUnpacker || kind == bcElfUnpacker || kind == bcMachoUnpacker

def isNameChar (suffix : Bool) (c : Char) : Bool :=
  c.isAlphanum || c == '_' || c == '-' || (!suffix && c == '.')

/-- The message about the first character that is not allowed, if there is one. -/
def validateVirusName (name : List Char) (suffix : Bool) : Option String :=
  match name.dropWhile (isNameChar suffix) with
  | [] => none
  | c :: _ =>
    let upTo := String.ofList (name.takeWhile (isNameChar suffix) ++ [c])
    if suffix && c == '.' then
      some ("Character '.' is not allowed in virusname suffix: '" ++ upTo ++
        "'. Use - or _: " ++ upTo)
    else some ("Invalid character in virusname: " ++ upTo)

/-- The initializer of the declared names; an element that is not a string is absent. -/
inductive Names where
  | array (parts : List (Option (List Char)))
  | other

inductive Argument where
  | string (s : List Char)
  | int (value : BitVec 32)
  | other

structure Call where
  direct : Bool
  args : List Argument

inductive User where
  | call (c : Call)
  | other

/-- What is read of the module. A prefix without an initializer is absent, one that is not a string
is `some none`; `setvirusname` has the users of the function, if it is declared. -/
structure Source where
  virusNamePrefix : Option (Option (List Char))
  prefixUsed : Bool
  virusNames : Option Names
  setvirusname : Option (List User)

/-- `reports` has what is printed about each user of setvirusname, `log` what is printed before. -/
structure Result where
  valid : Bool
  virusnames : List Char
  users : List User
  reports : List (Option String)
  log : List String

/-! ## The declaration -/

/-- The names that are kept, and the messages about the parts. -/
def readParts : List (Option (List Char)) → List (List Char) × List String
  | [] => ([], [])
  | none :: parts =>
      ((readParts parts).1, "Unable to determine virusname part string" :: (readParts parts).2)
  | some [] :: parts => readParts parts
  | some name :: parts =>
      (name :: (readParts parts).1, (validateVirusName name true).toList ++ (readParts parts).2)

/-- The names in the header, in order and between braces. -/
def header (virusNamePrefix : List Char) (parts : List (Option (List Char))) : List Char :=
  let names := (readParts parts).1.mergeSort fun a b => decide (a ≤ b)
  virusNamePrefix ++ (if parts = [] then "\x7b" else ".\x7b").toList ++
    List.intercalate [','] names ++ ['\x7d']

/-! ## The calls -/

/-- The full name, or what is left of an argument that is not declared. -/
def fullname (virusNamePrefix : List Char) (virusNamesSet : List (List Char)) (param : List Char) :
    Except (List Char) (List Char) :=
  let p := if virusNamePrefix <+: param then param.drop virusNamePrefix.length else param
  if p ≠ [] ∧ p ∉ virusNamesSet then .error p
  else .ok (if p = [] then virusNamePrefix else virusNamePrefix ++ '.' :: p)

/-- The call afterwards, or the message about it. -/
def Call.compile (virusNamePrefix : List Char) (virusNamesSet : List (List Char)) (c : Call) :
    Call × Option String :=
  if ¬ c.direct then (c, some "setvirusname can only be directly called")
  else
    match c.args with
    | [.string param, _] =>
      match fullname virusNamePrefix virusNamesSet param with
      | .error p =>
          (c, some ("foundVirus called with an undeclared virusname: " ++ String.ofList p))
      | .ok name => ({ c with args := [.string name, .int (BitVec.ofNat 32 name.length)] }, none)
    | [_, _] => (c, some "Argument of foundVirus() must be a constant string")
    | _ => (c, some "setvirusname has 2 args")

def User.compile (virusNamePrefix : List Char) (virusNamesSet : List (List Char)) :
    User → Except Fault (User × Option String)
  | .call c =>
    let (c', report) := c.compile virusNamePrefix virusNamesSet
    .ok (.call c', report)
  | .other => .error .badCast

def compileCalls (kind : Nat) (m : Source) (virusnames virusNamePrefix : List Char)
    (virusNamesSet : List (List Char)) :
    Except Fault Result :=
  let log := if m.prefixUsed then ["Virusname prefix should not be used in the bytecode!"] else []
  match m.setvirusname with
  | none | some [] =>
    let warning := if isUnpacker kind then [] else
      ["Virusnames declared, but foundVirus was not called!"]
    .ok ⟨true, virusnames, [], [], log ++ warning⟩
  | some users => do
    let compiled ← users.mapM (User.compile virusNamePrefix virusNamesSet)
    let reports := compiled.map Prod.snd
    return ⟨reports.all Option.isNone, virusnames, compiled.map Prod.fst, reports, log⟩

def rejected (m : Source) (virusnames : List Char) (log : List String) : Result :=
  ⟨false, virusnames, m.setvirusname.getD [], [], log⟩

def compileVirusNames (kind : Nat) (m : Source) : Except Fault Result :=
  match m.virusNamePrefix with
  | none =>
    .ok (rejected m [] (if kind ≠ 0 ∧ kind ≠ bcStartup then
      ["Virusname must be declared for non-generic bytecodes"] else []))
  | some none =>
      .ok (rejected m [] (if kind ≠ 0 then ["Unable to determine virusname prefix string"] else []))
  | some (some virusNamePrefix) =>
    match validateVirusName virusNamePrefix false with
    | some message => .ok (rejected m virusNamePrefix [message])
    | none =>
      match m.virusNames with
      | none => compileCalls kind m virusNamePrefix virusNamePrefix []
      | some .other => .error .badCast
      | some (.array parts) =>
        if (readParts parts).2 = [] then
          compileCalls kind m (header virusNamePrefix parts) virusNamePrefix (readParts parts).1
        else .ok (rejected m (header virusNamePrefix parts) (readParts parts).2)

/-! ## What a call stands for -/

/-- A prefix and suffixes that are valid. -/
structure Declaration where
  virusNamePrefix : List Char
  suffixes : List (List Char)
  validPrefix : validateVirusName virusNamePrefix false = none
  validSuffixes : ∀ d ∈ suffixes, validateVirusName d true = none
  nonempty : [] ∉ suffixes

/-- The module declares the prefix and the suffixes; empty strings among the names are not counted.
-/
def Source.Declares (m : Source) (d : Declaration) : Prop :=
  m.virusNamePrefix = some (some d.virusNamePrefix) ∧
    ((m.virusNames = none ∧ d.suffixes = []) ∨
      ∃ parts : List (List Char), m.virusNames = some (.array (parts.map some)) ∧
        d.suffixes = parts.filter (· ≠ []))

/-- The three ways in which a call names a virus, and the prefix alone. -/
inductive Named (d : Declaration) : List Char → List Char → Prop
  | nothing : Named d [] d.virusNamePrefix
  | own : d.virusNamePrefix ∉ d.suffixes → Named d d.virusNamePrefix d.virusNamePrefix
  | suffix {x : List Char} : x ∈ d.suffixes → Named d x (d.virusNamePrefix ++ '.' :: x)
  | full {x : List Char} : x ∈ d.suffixes →
      Named d (d.virusNamePrefix ++ '.' :: x) (d.virusNamePrefix ++ '.' :: x)

/-- Wherever the string is passed to setvirusname in a module with the declaration, the call
becomes one with the name and its length, and the module is rejected if there is no name. -/
def Documented (d : Declaration) (s : List Char) : Prop :=
  ∀ (kind : Nat) (m : Source) (users : List User), m.Declares d → m.setvirusname = some users →
    (∀ c ∈ users, ∃ call, c = .call call) →
    ∀ (i : Nat) (length : Argument), users[i]? = some (.call ⟨true, [.string s, length]⟩) →
      ∃ result, compileVirusNames kind m = .ok result ∧
        (∀ name, Named d s name → result.reports[i]? = some none ∧
          ∃ size : BitVec 32, size.toNat = name.length ∧
            result.users[i]? = some (.call ⟨true, [.string name, .int size]⟩)) ∧
        ((∀ name, ¬ Named d s name) → result.valid = false)

/-- The argument is not the full name of a virus, and with a prefix also not the prefix directly
followed by a suffix, nor a suffix that begins with the prefix. -/
def Clear (d : Declaration) (s : List Char) : Prop :=
  ∀ x ∈ d.suffixes, s ≠ d.virusNamePrefix ++ '.' :: x ∧
    (d.virusNamePrefix ≠ [] → s ≠ d.virusNamePrefix ++ x ∧ ¬ (s = x ∧ d.virusNamePrefix <+: x))

theorem validateVirusName_none {name : List Char} {suffix : Bool} :
    validateVirusName name suffix = none ↔ ∀ c ∈ name, isNameChar suffix c = true := by
  unfold validateVirusName
  split
  · next all => exact iff_of_true rfl (List.dropWhile_eq_nil_iff.mp all)
  · next c rest found =>
    refine iff_of_false (by dsimp only; split <;> exact nofun) fun all => ?_
    rw [List.dropWhile_eq_nil_iff.mpr all] at found
    cases found

/-- No suffix has a dot. -/
theorem Declaration.noDot (d : Declaration) {x : List Char} (hx : x ∈ d.suffixes) : '.' ∉ x := by
  intro dot
  have allowed := validateVirusName_none.mp (d.validSuffixes x hx) '.' dot
  revert allowed
  decide

theorem Declaration.ne_nil (d : Declaration) {x : List Char} (hx : x ∈ d.suffixes) : x ≠ [] := by
  rintro rfl
  exact d.nonempty hx

section
variable {d : Declaration} {s name : List Char}

theorem fullname_append {q : List Char} :
    fullname d.virusNamePrefix d.suffixes (d.virusNamePrefix ++ q) =
    if q ≠ [] ∧ q ∉ d.suffixes then .error q
    else .ok (if q = [] then d.virusNamePrefix else d.virusNamePrefix ++ '.' :: q) := by
  rw [fullname, if_pos (List.prefix_append _ _), List.drop_left]

theorem fullname_other (other : ¬ d.virusNamePrefix <+: s) :
    fullname d.virusNamePrefix d.suffixes s =
    if s ≠ [] ∧ s ∉ d.suffixes then .error s
    else .ok (if s = [] then d.virusNamePrefix else d.virusNamePrefix ++ '.' :: s) := by
  rw [fullname, if_neg other]

theorem fullname_of_named (clear : Clear d s) (named : Named d s name) :
    fullname d.virusNamePrefix d.suffixes s = .ok name := by
  cases named with
  | nothing =>
    by_cases empty : d.virusNamePrefix = []
    · have same : ([] : List Char) = d.virusNamePrefix ++ [] := by rw [empty, List.append_nil]
      rw [same, fullname_append]
      simp [empty]
    · rw [fullname_other fun first => empty (List.prefix_nil.mp first)]
      simp
  | own _ =>
    have same : d.virusNamePrefix = d.virusNamePrefix ++ [] := (List.append_nil _).symm
    nth_rewrite 2 [same]
    rw [fullname_append]
    simp
  | suffix hx =>
    by_cases empty : d.virusNamePrefix = []
    · have same : s = d.virusNamePrefix ++ s := by rw [empty, List.nil_append]
      nth_rewrite 1 [same]
      rw [fullname_append]
      simp [hx, d.ne_nil hx]
    · rw [fullname_other fun first => ((clear s hx).2 empty).2 ⟨rfl, first⟩]
      simp [hx, d.ne_nil hx]
  | full hx => exact absurd rfl (clear _ hx).1

theorem named_of_fullname (clear : Clear d s)
    (found : fullname d.virusNamePrefix d.suffixes s = .ok name) : Named d s name := by
  by_cases first : d.virusNamePrefix <+: s
  · obtain ⟨q, rfl⟩ := first
    rw [fullname_append] at found
    split_ifs at found with undeclared empty
    · cases found
      subst empty
      rw [List.append_nil] at clear ⊢
      by_cases none : d.virusNamePrefix = []
      · nth_rewrite 1 [none]
        exact .nothing
      · exact .own fun declared => ((clear _ declared).2 none).2 ⟨rfl, List.prefix_rfl⟩
    · cases found
      have declared : q ∈ d.suffixes := by_contra fun missing => undeclared ⟨empty, missing⟩
      by_cases none : d.virusNamePrefix = []
      · nth_rewrite 1 [none]
        exact .suffix declared
      · exact absurd rfl ((clear q declared).2 none).1
  · rw [fullname_other first] at found
    split_ifs at found with undeclared empty
    · cases found
      subst empty
      exact .nothing
    · cases found
      exact .suffix (by_contra fun missing => undeclared ⟨empty, missing⟩)

/-- Names are found as they are documented exactly if the argument is clear. -/
theorem fullname_exact_iff :
    (∀ name, Named d s name ↔ fullname d.virusNamePrefix d.suffixes s = .ok name) ↔ Clear d s := by
  constructor
  · intro exact x hx
    refine ⟨?_, fun some => ⟨?_, ?_⟩⟩
    · rintro rfl
      have found := (exact _).mp (.full hx)
      have undeclared : '.' :: x ≠ [] ∧ '.' :: x ∉ d.suffixes :=
        ⟨List.cons_ne_nil _ _, fun declared => d.noDot declared List.mem_cons_self⟩
      rw [fullname_append, if_pos undeclared] at found
      cases found
    · rintro rfl
      have found : fullname d.virusNamePrefix d.suffixes (d.virusNamePrefix ++ x) =
          .ok (d.virusNamePrefix ++ '.' :: x) := by
        rw [fullname_append]
        simp [hx, d.ne_nil hx]
      have named := (exact _).mpr found
      have positive := List.length_pos_iff.mpr some
      generalize argument : d.virusNamePrefix ++ x = s at named
      generalize full : d.virusNamePrefix ++ '.' :: x = name at named
      have sizes := congrArg List.length argument
      have sizes' := congrArg List.length full
      simp only [List.length_append, List.length_cons] at sizes sizes'
      cases named with
      | nothing =>
        rw [List.length_nil] at sizes
        omega
      | own _ => omega
      | suffix _ =>
        simp only [List.length_append, List.length_cons] at sizes'
        omega
      | full _ =>
        simp only [List.length_append, List.length_cons] at sizes sizes'
        omega
    · rintro ⟨rfl, q, rfl⟩
      have found := (exact _).mp (.suffix hx)
      have positive := List.length_pos_iff.mpr some
      rw [fullname_append] at found
      split_ifs at found with undeclared empty
      · have sizes := congrArg List.length (Except.ok.inj found)
        simp only [List.length_append, List.length_cons] at sizes
        omega
      · have sizes := congrArg List.length (Except.ok.inj found)
        simp only [List.length_append, List.length_cons] at sizes
        omega
  · intro clear name
    exact ⟨fullname_of_named clear, named_of_fullname clear⟩

end

/-! ## The module -/

theorem readParts_strings (parts : List (List Char))
    (valid : ∀ x ∈ parts.filter (· ≠ []), validateVirusName x true = none) :
    readParts (parts.map some) = (parts.filter (· ≠ []), []) := by
  induction parts with
  | nil => rfl
  | cons name parts ih =>
    have rest := ih fun x hx => valid x (List.mem_filter.mpr
      ⟨List.mem_cons_of_mem name (List.mem_filter.mp hx).1, (List.mem_filter.mp hx).2⟩)
    cases name with
    | nil => simpa [readParts] using rest
    | cons c name =>
      have first := valid (c :: name) (List.mem_filter.mpr ⟨List.mem_cons_self, by simp⟩)
      rw [List.map_cons, readParts, rest, first]
      · simp
      · exact nofun

/-- With a valid declaration, what is left are the calls. -/
theorem Source.Declares.run {m : Source} {d : Declaration} (declares : m.Declares d) (kind : Nat) :
    ∃ virusnames, compileVirusNames kind m =
      compileCalls kind m virusnames d.virusNamePrefix d.suffixes := by
  obtain ⟨declared, ⟨none, empty⟩ | ⟨parts, names, suffixes⟩⟩ := declares
  · refine ⟨d.virusNamePrefix, ?_⟩
    simp only [compileVirusNames, declared, d.validPrefix, none, empty]
  · have read := readParts_strings parts (suffixes ▸ d.validSuffixes)
    refine ⟨header d.virusNamePrefix (parts.map some), ?_⟩
    simp only [compileVirusNames, declared, d.validPrefix, names, read, suffixes, if_true]

/-- Each call is treated for itself. -/
theorem compileCalls_calls (kind : Nat) (m : Source)
    (calls : List Call) (some : m.setvirusname = some (calls.map User.call)) (called : calls ≠ [])
    (virusnames p : List Char) (names : List (List Char)) :
    ∃ log, compileCalls kind m virusnames p names = .ok
      ⟨calls.all fun c => (c.compile p names).2.isNone, virusnames,
        calls.map fun c => .call (c.compile p names).1,
        calls.map fun c => (c.compile p names).2, log⟩ := by
  have each : (calls.map User.call).mapM (User.compile p names) =
      .ok (calls.map fun c => (.call (c.compile p names).1, (c.compile p names).2)) := by
    clear some called
    induction calls with
    | nil => rfl
    | cons c calls ih =>
      rw [List.map_cons, List.mapM_cons, ih]
      rfl
  obtain ⟨c, rest, rfl⟩ := List.exists_cons_of_ne_nil called
  unfold compileCalls
  rw [some]
  simp only [List.map_cons] at each ⊢
  rw [each]
  exact ⟨_, by simp only [Fallible.ok_bind]; simp [Function.comp_def]; rfl⟩

theorem compile_string (d : Declaration) (s : List Char) (length : Argument) :
    (Call.compile d.virusNamePrefix d.suffixes ⟨true, [.string s, length]⟩) =
      match fullname d.virusNamePrefix d.suffixes s with
      | .error p => (⟨true, [.string s, length]⟩,
          some ("foundVirus called with an undeclared virusname: " ++ String.ofList p))
      | .ok name => (⟨true, [.string name, .int (BitVec.ofNat 32 name.length)]⟩, none) := rfl

theorem exists_calls {users : List User} (all : ∀ c ∈ users, ∃ call, c = .call call) :
    ∃ calls : List Call, users = calls.map User.call := by
  induction users with
  | nil => exact ⟨[], rfl⟩
  | cons u users ih =>
    obtain ⟨calls, rfl⟩ := ih fun c hc => all c (List.mem_cons_of_mem u hc)
    obtain ⟨c, rfl⟩ := all u List.mem_cons_self
    exact ⟨c :: calls, rfl⟩

/-- The module with the declaration and one call of setvirusname. -/
def oneCall (d : Declaration) (s : List Char) : Source where
  virusNamePrefix := some (some d.virusNamePrefix)
  prefixUsed := false
  virusNames := some (.array (d.suffixes.map some))
  setvirusname := some [.call ⟨true, [.string s, .other]⟩]

theorem oneCall_declares (d : Declaration) (s : List Char) : (oneCall d s).Declares d := by
  refine ⟨rfl, Or.inr ⟨d.suffixes, rfl, (List.filter_eq_self.mpr fun x hx => ?_).symm⟩⟩
  simpa using d.ne_nil hx

theorem clear_of_documented {d : Declaration} {s : List Char} (documented : Documented d s) :
    Clear d s ∧ ∀ name, Named d s name → name.length < 2 ^ 32 := by
  obtain ⟨result, ran, named, nameless⟩ :=
    documented 0 (oneCall d s) _ (oneCall_declares d s) rfl (by simp) 0 .other rfl
  obtain ⟨virusnames, run⟩ := (oneCall_declares d s).run 0
  obtain ⟨log, calls⟩ := compileCalls_calls 0 (oneCall d s) [⟨true, [.string s, .other]⟩] rfl
    (List.cons_ne_nil _ _) virusnames d.virusNamePrefix d.suffixes
  rw [run, calls] at ran
  cases ran
  simp only [List.map_cons, List.map_nil, List.all_cons, List.all_nil, List.getElem?_cons_zero,
    compile_string] at named nameless
  refine ⟨fullname_exact_iff.mp fun name => ⟨fun isName => ?_, fun found => ?_⟩,
    fun name isName => ?_⟩
  · obtain ⟨report, -⟩ := named name isName
    cases found : fullname d.virusNamePrefix d.suffixes s with
    | error p =>
      rw [found] at report
      cases report
    | ok other =>
      rw [found] at named
      obtain ⟨-, size, -, rewritten⟩ := named name isName
      cases rewritten
      rfl
  · rw [found] at named nameless
    by_contra unnamed
    by_cases some : ∃ other, Named d s other
    · obtain ⟨other, isName⟩ := some
      obtain ⟨-, size, -, rewritten⟩ := named other isName
      cases rewritten
      exact unnamed isName
    · cases nameless fun other isName => some ⟨other, isName⟩
  · obtain ⟨-, size, length, -⟩ := named name isName
    rw [← length]
    exact size.isLt

/-- The names are resolved as they are documented exactly if the argument is clear and the name is
not too long for its length. -/
theorem documented_iff (d : Declaration) (s : List Char) :
    Documented d s ↔ Clear d s ∧ ∀ name, Named d s name → name.length < 2 ^ 32 := by
  constructor
  · exact clear_of_documented
  · rintro ⟨clear, short⟩ kind m users declares some onlyCalls i length here
    obtain ⟨calls, rfl⟩ := exists_calls onlyCalls
    rw [List.getElem?_map, Option.map_eq_some_iff] at here
    obtain ⟨c, here, isCall⟩ := here
    cases isCall
    have called : calls ≠ [] := by
      rintro rfl
      cases here
    obtain ⟨virusnames, run⟩ := declares.run kind
    obtain ⟨log, result⟩ :=
      compileCalls_calls kind m calls some called virusnames d.virusNamePrefix d.suffixes
    refine ⟨_, run.trans result, fun name isName => ?_, fun unnamed => ?_⟩
    · have found := (fullname_exact_iff.mpr clear name).mp isName
      simp only [List.getElem?_map, here, Option.map_some, compile_string, found]
      refine ⟨trivial, _, ?_, rfl⟩
      rw [BitVec.toNat_ofNat, Nat.mod_eq_of_lt (short name isName)]
    · refine List.all_eq_false.mpr ⟨_, List.mem_of_getElem? here, ?_⟩
      cases found : fullname d.virusNamePrefix d.suffixes s with
      | error p => simp [compile_string, found]
      | ok name => exact absurd ((fullname_exact_iff.mpr clear name).mpr found) (unnamed name)

/-- The prefix `Test` with the suffix `A`. -/
def testA : Declaration where
  virusNamePrefix := ['T', 'e', 's', 't']
  suffixes := [['A']]
  validPrefix := rfl
  validSuffixes := by decide
  nonempty := by decide

/-- `Test.A` is a full name and is refused as undeclared, and `TestA` is none and becomes `Test.A`.
-/
theorem testA_not_documented :
    Named testA ['T', 'e', 's', 't', '.', 'A'] ['T', 'e', 's', 't', '.', 'A'] ∧
    ¬ Documented testA ['T', 'e', 's', 't', '.', 'A'] ∧
      ¬ Documented testA ['T', 'e', 's', 't', 'A'] := by
  refine ⟨.full (x := ['A']) (by decide), fun documented => ?_, fun documented => ?_⟩
  · exact ((clear_of_documented documented).1 ['A'] (by decide)).1 rfl
  · exact (((clear_of_documented documented).1 ['A'] (by decide)).2 (by decide)).1 rfl

end VirusNames
