import ClamBC.LogicalCompiler
import ClamBC.LogicalText

/-!
# The subsignatures of a logical signature

`compileLogicalSignature` reads the patterns and ids of `Signatures` into a table,
compiles the trigger and puts the text of the signature together. The patterns are
validated in the loop that reads them, but `valid` keeps only the verdict on the last one.
An id may be as large as the table is long, one more than its last index, and an id that
was seen before overwrites the pattern.

Failing an assertion, a cast to another kind of constant and a write behind the end of
the table are faults. The changes to the module (the variable `_Signatures_` without the
pointers, linkages) are not modelled.
-/

namespace SubSignatures

open Ir LogicalNode LogicalCompiler LogicalText
open Fallible (Meets)

inductive Fault where
  | badCast | noElement | wideId | emptyAnchor | outOfBounds
  | compiler (f : LogicalNode.Fault)

/-! ## Validation of a pattern -/

/-- What stands before and behind the first such character. -/
def splitAtFirst (p : Char → Bool) (s : List Char) : Option (List Char × List Char) :=
  match s.dropWhile fun c => !p c with
  | [] => none
  | _ :: rest => some (s.takeWhile fun c => !p c, rest)

/-- `getAsInteger` with radix 10 and an `unsigned` result. -/
def getAsInteger (s : List Char) : Option Nat :=
  if s ≠ [] ∧ s.all Char.isDigit ∧ Nat.ofDigitChars 10 s 0 < 2 ^ 32 then
    some (Nat.ofDigitChars 10 s 0) else none

def quoted (message : String) (s : List Char) : String := message ++ "'" ++ String.ofList s ++ "'"

/-- The message about `,N` at the end of an offset, or the offset without it. -/
def floatingOffset (offset : List Char) : List String × List Char :=
  match splitAtFirst (· == ',') offset with
  | none => ([], offset)
  | some (before, floatO) =>
    match getAsInteger floatO with
    | none => ([quoted "Floating offset is not an integer in" offset], offset)
    | some _ => ([], before)

/-- An offset with an anchor and a distance. -/
def anchoredOffset (pattern offset : List Char) : Except Fault (List String) :=
  match splitAtFirst (fun c => c == '+' || c == '-') offset with
  | none => .ok [quoted "Pattern: unrecognized offset format: " offset]
  | some (anchor, delta) =>
    let distance := if getAsInteger delta = none then
      [quoted "Anchored offset is not an integer: " offset] else []
    if "EOF-".toList <+: offset ∨ anchor = "EP".toList ∨ anchor = "SL".toList then .ok distance
    else
      match anchor with
      | [] => .error .emptyAnchor
      | 'S' :: digits =>
        if getAsInteger digits = none then
          .ok (distance ++ [quoted "Section number in offset is not an integer:" offset])
        else .ok distance
      | _ => .ok (distance ++
          [quoted "Unknown anchor " anchor ++ " in pattern '" ++ String.ofList pattern])

def validateOffset (pattern offset : List Char) : Except Fault (List String) :=
  let (floating, offset) := floatingOffset offset
  if offset = [] then .ok (floating ++ [quoted "Offset is empty in pattern: " pattern])
  else
    match pattern with
    | '*' :: rest =>
      if rest.head? = some ':' then .ok floating
      else .ok (floating ++ [quoted "Offset ANY ('*') followed by garbage: " offset])
    | _ =>
      if pattern.head?.any Char.isDigit then
        if getAsInteger offset = none then
          .ok (floating ++ [quoted "Absolute offset is not an integer: " offset])
        else .ok floating
      else if offset = "VI".toList then .ok floating
      else (anchoredOffset pattern offset).map (floating ++ ·)

def isAllowed (c : Char) : Bool :=
  c.isDigit || ('a' ≤ c && c ≤ 'f') || "?*\x7b\x7d-()|![]BL".toList.contains c

/-- Only the first character that a pattern may not have is named. -/
def validateCharacters (pattern : List Char) : List String :=
  match pattern.find? fun c => !isAllowed c with
  | none => []
  | some c =>
    ["Pattern contains forbidden character '" ++ c.toString ++ "': " ++ String.ofList pattern]

/-- The messages about a pattern, which is valid if there are none. -/
def validateNDB (pattern : List Char) : Except Fault (List String) :=
  match splitAtFirst (· == ':') pattern with
  | none => .ok (validateCharacters pattern)
  | some (offset, rest) => (validateOffset pattern offset).map (· ++ validateCharacters rest)

/-! ## The table -/

/-- The second field of an entry: all zero, a structure with a constant integer, or another
constant. -/
inductive IdField where
  | zero
  | id (value : Nat)
  | other
  deriving DecidableEq

/-- `pattern` is absent where the first field is not a static string. -/
structure Entry where
  pattern : Option (List Char)
  idField : IdField

/-- An offset stays as it is. -/
def lowered (s : List Char) : List Char :=
  match splitAtFirst (· == ':') s with
  | none => s.map Char.toLower
  | some (offset, rest) => offset ++ ':' :: rest.map Char.toLower

/-- The id is an `unsigned`. -/
def Entry.id (e : Entry) : Except Fault Word :=
  match e.idField with
  | .zero => .ok 0
  | .id v => if v < 2 ^ 64 then .ok (BitVec.ofNat 32 v) else .error .wideId
  | .other => .error .badCast

/-- What is read of one entry: its index, its pattern and the messages about it, or the message with
which the loop returns. -/
def Entry.read (half : Nat) (e : Entry) :
    Except Fault (String ⊕ (Nat × List Char × List String)) := do
  let id ← e.id
  if e.idField ≠ .zero ∧ half < id.toNat then
    return .inl
      ("Signature ID out of range (" ++ toString id.toNat ++ " > " ++ toString half ++ ")")
  else
    match e.pattern with
    | none => return .inl "Signature is not a static string"
    | some s =>
      let messages ← validateNDB (lowered s)
      return .inr (id.toNat, lowered s, messages)

/-- The loop over the entries: the table and the verdict on the last pattern, unless it returns
false. -/
def collect (half : Nat) : List Entry → List (List Char) → Bool → List String →
    Except Fault (Option (List (List Char) × Bool) × List String)
  | [], table, valid, log => .ok (some (table, valid), log)
  | e :: rest, table, _, log =>
    match e.read half with
    | .error f => .error f
    | .ok (.inl message) => .ok (none, log ++ [message])
    | .ok (.inr (id, str, messages)) =>
      if id < table.length then
        collect half rest (table.set id str) messages.isEmpty (log ++ messages)
      else .error .outOfBounds

/-! ## The signature -/

def funcLevel096Dev : Nat := 52
def funcLevel0962 : Nat := 54
def funcLevel0962Dev : Nat := 55
def funcLevel0964 : Nat := 56
def funcLevel0985 : Nat := 79
def funcLevel0987 : Nat := 80

def bcPdf : Int := 258
def bcPeAll : Int := 259
def bcPreclass : Int := 260

structure Request where
  target : Nat
  min : Nat
  max : Nat
  icon1 : String
  icon2 : String
  container : String
  kind : Int
  virusnames : String

/-- What is read of the module. The initializer of `Signatures` is a structure with some entries,
and possibly one field more. -/
structure Source where
  initialized : Bool
  isStruct : Bool
  entries : List Entry
  oddField : Bool
  matchCounts : Option GlobalId
  rawattrs : Option (List Char)
  usesJson : Bool
  trigger : Function

inductive Outcome where
  | rejected (log : List String)
  | accepted (signature : String) (log : List String)

/-- With what was printed before. -/
def Outcome.after (log : List String) : Outcome → Outcome
  | .rejected more => .rejected (log ++ more)
  | .accepted signature more => .accepted signature (log ++ more)

/-- The level that is required, with the reason; a later reason replaces an earlier one. -/
def minRequired (m : Source) (signature : List Char) (kind : Int) : Option (Nat × String) :=
  if bcPreclass ≤ kind then
    some (funcLevel0987, "Using 0.98.7 hook requires FUNC_LEVEL_098_7 at least")
  else if m.usesJson then
    some (funcLevel0985,
      "JSON reading API requires minimum functionality level of FUNC_LEVEL_098_5")
  else if bcPeAll ≤ kind then
    some (funcLevel0962Dev, "Using 0.96.3 hook requires FUNC_LEVEL_096_2_dev at least")
  else if bcPdf ≤ kind then
    some (funcLevel0962, "Using 0.96.2+ hook requires FUNC_LEVEL_096_2 at least")
  else if '$' ∈ signature ∨ "VI".toList <:+: signature then
    some (funcLevel096Dev,
      "Logical signature use of VI/macros requires minimum functionality level of FUNC_LEVEL_096_dev")
  else none

/-- The level that is recommended is 0.96.4 in any case, and only warned about. -/
def checkMinimum (m : Source) (signature : List Char) (min : Nat) (kind : Int) :
    Bool × List String :=
  let required :=
    match minRequired m signature kind with
    | none => []
    | some (level, reason) => if min < level then [reason] else []
  let recommended :=
    if min < funcLevel0964 then
      ["FUNC_LEVEL_096_4 is minimum recommended engine version. Older versions have quadratic load time"]
    else []
  (required.isEmpty, required ++ recommended)

/-- The levels in the text; they are left out if nothing asks for them. -/
def engineLevels (r : Request) : Option (Nat × Nat) :=
  if r.min ≠ 0 ∨ r.max ≠ 0 ∨ r.icon1 ≠ "" ∨ r.icon2 ≠ "" then
    some (if r.min = 0 then funcLevel0964 else r.min, if r.max = 0 then 255 else r.max)
  else none

def namedAttribute (name value : String) : String :=
  if value = "" then "" else name ++ ":" ++ value ++ ","

/-- The text up to the expression. -/
def signatureHead (r : Request) : String :=
  r.virusnames ++
    (match engineLevels r with
    | some (min, max) => ";Engine:" ++ toString min ++ "-" ++ toString max ++ ","
    | none => ";") ++
    namedAttribute "IconGroup1" r.icon1 ++ namedAttribute "IconGroup2" r.icon2 ++
      namedAttribute "Container" r.container ++
    "Target:" ++ toString r.target

/-- The patterns at the end of the text. -/
def appended : List (List Char) → String
  | [] => ""
  | s :: table => ";" ++ String.ofList s ++ appended table

def isAttributeChar (c : Char) : Bool := c.isAlphanum || ":-,_".toList.contains c

/-- The attributes up to the first character that is not allowed. -/
def badAttribute (rawattrs : List Char) : Option (List Char) :=
  match rawattrs.dropWhile isAttributeChar with
  | [] => none
  | c :: _ => some (rawattrs.takeWhile isAttributeChar ++ [c])

/-- The text of the signature, or the reason why there is none. -/
def emit (r : Request) (m : Source) (node : Node) (table : List (List Char)) :
    Except Fault Outcome :=
  match node2String node 0 with
  | .error f => .error (.compiler f)
  | .ok (ndbsigs, groups) =>
    match m.rawattrs.bind badAttribute with
    | some bad => .ok (.rejected ["Invalid character in ldb attribute: " ++ String.ofList bad])
    | none =>
      if 64 < groups then
        .ok (.rejected ["Logical signature: a maximum of 64 subexpressions are supported, but logical signature has " ++
          toString groups.toNat ++ " groups"])
      else
        let attributes := (m.rawattrs.map fun s => "," ++ String.ofList s).getD ""
        let signature := signatureHead r ++ attributes ++ ";" ++ ndbsigs ++ appended table
        let level := ((engineLevels r).map Prod.fst).getD r.min
        match checkMinimum m signature.toList level r.kind with
        | (false, log) => .ok (.rejected log)
        | (true, log) => .ok (.accepted signature log)

def isConst : Node → Option Bool
  | .const b => some b
  | _ => none

/-- What follows the loop. The verdict on the patterns is looked at after the compilation. -/
def finish (o : PtrOrder) (r : Request) (m : Source) (table : List (List Char)) (valid : Bool) :
    Except Fault Outcome :=
  match compile o m.matchCounts m.trigger with
  | .error f => .error (.compiler f)
  | .ok (s, none) => .ok (.rejected (s.diagnostics.map fun d => d.1.text))
  | .ok (s, some node) =>
    let printed := s.diagnostics.map fun d => d.1.text
    match isConst node with
    | some true => .ok (.rejected (printed ++ ["Logical signature: expression is always true"]))
    | some false => .ok (.rejected (printed ++ ["Logical signature: expression is always false"]))
    | none => if valid then (emit r m node table).map (Outcome.after printed) else
        .ok (.rejected printed)

def compileLogicalSignature (o : PtrOrder) (r : Request) (m : Source) : Except Fault Outcome :=
  if ¬ m.initialized then .ok (.rejected ["Signatures declared but not initialized"])
  else if ¬ m.isStruct then .error .badCast
  else if m.oddField then .ok (.rejected ["Signatures initializer contains odd # of fields"])
  else if m.entries = [] then .error .noElement
  else
    match collect m.entries.length m.entries (List.replicate m.entries.length []) true [] with
    | .error f => .error f
    | .ok (none, log) => .ok (.rejected log)
    | .ok (some (table, valid), log) => (finish o r m table valid).map (Outcome.after log)

/-! ## What the loop leaves behind -/

/-- What is read of an entry that the loop goes on with. -/
structure Record where
  index : Nat
  pattern : List Char
  messages : List String

/-- The records of entries that are all stored inside the table. -/
inductive Stored (half : Nat) : List Entry → List Record → Prop
  | nil : Stored half [] []
  | cons {e : Entry} {es : List Entry} {x : Record} {xs : List Record} :
      e.read half = .ok (.inr (x.index, x.pattern, x.messages)) → x.index < half →
        Stored half es xs →
      Stored half (e :: es) (x :: xs)

def write (table : List (List Char)) : List Record → List (List Char)
  | [] => table
  | x :: xs => write (table.set x.index x.pattern) xs

def verdict (valid : Bool) : List Record → Bool
  | [] => valid
  | x :: xs => verdict x.messages.isEmpty xs

theorem collect_stored {half : Nat} {es : List Entry} {xs : List Record}
    (stored : Stored half es xs) {table : List (List Char)} (size : table.length = half)
    (valid : Bool) (log : List String) :
    collect half es table valid log =
      .ok (some (write table xs, verdict valid xs), log ++ xs.flatMap Record.messages) := by
  induction stored generalizing table valid log with
  | nil => simp [collect, write, verdict]
  | cons read inside _ ih =>
    simp only [collect, read, size, inside, if_true]
    rw [ih (by rw [List.length_set, size])]
    simp [write, verdict, List.append_assoc]

/-- The loop goes on to the end exactly if all entries are stored. -/
theorem collect_done {half : Nat} {es : List Entry} {table table' : List (List Char)}
    (size : table.length = half) {valid valid' : Bool} {log log' : List String}
    (done : collect half es table valid log = .ok (some (table', valid'), log')) :
    ∃ xs, Stored half es xs ∧ table' = write table xs ∧ valid' = verdict valid xs := by
  induction es generalizing table valid log with
  | nil =>
    cases done
    exact ⟨[], .nil, rfl, rfl⟩
  | cons e es ih =>
    simp only [collect] at done
    split at done
    · cases done
    · cases done
    · next id str messages read =>
      split_ifs at done with inside
      obtain ⟨xs, stored, rfl, rfl⟩ := ih (by rw [List.length_set, size]) done
      exact ⟨⟨id, str, messages⟩ :: xs, .cons read (size ▸ inside) stored, rfl, rfl⟩

/-- An entry fails with another fault, or returns, or has an index up to the length of the table. -/
theorem read_inr {half : Nat} {e : Entry} {id : Nat} {str : List Char} {messages : List String}
    (read : e.read half = .ok (.inr (id, str, messages))) :
    (∃ w : Word, e.id = .ok w ∧ w.toNat = id) ∧ (e.idField = .zero → id = 0) ∧
      (e.idField ≠ .zero → id ≤ half) ∧
      ∃ s, e.pattern = some s ∧ lowered s = str ∧ validateNDB str = .ok messages := by
  obtain ⟨w, number, read⟩ := Fallible.bind_eq_ok.mp read
  split_ifs at read with outside
  · cases read
  split at read
  · cases read
  · next s pattern =>
    obtain ⟨messages', validated, read⟩ := Fallible.bind_eq_ok.mp read
    cases read
    refine ⟨⟨w, number, rfl⟩, fun zero => ?_, fun notZero => ?_, s, pattern, rfl, validated⟩
    · rw [Entry.id, zero] at number
      cases number
      rfl
    · by_contra large
      exact outside ⟨notZero, by omega⟩

/-- The only assertion of the validation is about the anchor. -/
abbrev AnchorOnly (x : Except Fault (List String)) : Prop :=
  Meets (fun f => f = .emptyAnchor) (fun _ => True) x

theorem anchoredOffset_fails (pattern offset : List Char) :
    AnchorOnly (anchoredOffset pattern offset) := by
  unfold anchoredOffset
  split
  · trivial
  · next anchor delta _ =>
    by_cases known : "EOF-".toList <+: offset ∨ anchor = "EP".toList ∨ anchor = "SL".toList
    · simp only [known, if_true]
      trivial
    · simp only [known, if_false]
      split
      · exact rfl
      · next digits _ => by_cases number : getAsInteger digits = none <;>
          simp only [number, if_true, if_false] <;> trivial
      · trivial

theorem validateOffset_fails (pattern offset : List Char) :
    AnchorOnly (validateOffset pattern offset) := by
  unfold validateOffset
  generalize floatingOffset offset = parts
  obtain ⟨floating, offset⟩ := parts
  simp only
  split
  · trivial
  · split
    · split_ifs <;> trivial
    · split_ifs
      · trivial
      · trivial
      · trivial
      · exact (anchoredOffset_fails pattern offset).map fun _ _ => trivial

theorem validateNDB_fails (pattern : List Char) : AnchorOnly (validateNDB pattern) := by
  unfold validateNDB
  split
  · trivial
  · exact (validateOffset_fails _ _).map fun _ _ => trivial

theorem read_in_bounds {half : Nat} {e : Entry} : e.read half ≠ .error .outOfBounds := by
  have checked : Meets (fun f => f ≠ .outOfBounds) (fun _ => True) (e.read half) := by
    have number : Meets (fun f : Fault => f ≠ .outOfBounds) (fun _ => True) e.id := by
      unfold Entry.id
      split
      · trivial
      · split_ifs
        · trivial
        · exact nofun
      · exact nofun
    refine number.bind fun w _ _ => ?_
    split_ifs
    · trivial
    · split
      · trivial
      · next s _ =>
        have validated :
            Meets (fun f => f ≠ .outOfBounds) (fun _ => True) (validateNDB (lowered s)) := by
          have fails := validateNDB_fails (lowered s)
          cases ran : validateNDB (lowered s) with
          | ok messages => trivial
          | error f =>
            rw [fails.of_error ran]
            exact nofun
        exact validated.bind fun _ _ _ => trivial
  intro failed
  exact checked.of_error failed rfl

/-- A write behind the table: the entries before it are stored, and its index is the length. -/
theorem collect_outOfBounds {half : Nat} {es : List Entry} {table : List (List Char)}
    (size : table.length = half) {valid : Bool} {log : List String} :
    collect half es table valid log = .error .outOfBounds ↔
      ∃ (pre : List Entry) (e : Entry) (post : List Entry) (xs : List Record) (x : Record),
        es = pre ++ e :: post ∧ Stored half pre xs ∧
        e.read half = .ok (.inr (x.index, x.pattern, x.messages)) ∧ half ≤ x.index := by
  induction es generalizing table valid log with
  | nil =>
    refine iff_of_false nofun ?_
    rintro ⟨pre, e, post, xs, x, split, -⟩
    exact absurd split (by simp)
  | cons e es ih =>
    constructor
    · intro failed
      simp only [collect] at failed
      split at failed
      · next f read =>
        cases failed
        exact absurd read read_in_bounds
      · cases failed
      · next id str messages read =>
        split_ifs at failed with inside
        · obtain ⟨pre, d, post, xs, x, rfl, stored, last⟩ :=
            (ih (by rw [List.length_set, size])).mp failed
          exact ⟨e :: pre, d, post, ⟨id, str, messages⟩ :: xs, x, rfl,
            .cons read (size ▸ inside) stored, last⟩
        · exact ⟨[], e, es, [], ⟨id, str, messages⟩, rfl, .nil, read, by simp only; omega⟩
    · rintro ⟨pre, d, post, xs, x, split, stored, read, outside⟩
      cases stored with
      | nil =>
        cases split
        simp only [collect, read]
        rw [if_neg (by omega)]
      | cons read' inside stored =>
        cases split
        simp only [collect, read', size, inside, if_true]
        exact (ih (by rw [List.length_set, size])).mpr ⟨_, d, post, _, x, rfl, stored,
          read, outside⟩

theorem length_write (table : List (List Char)) (xs : List Record) :
    (write table xs).length = table.length := by
  induction xs generalizing table with
  | nil => rfl
  | cons x xs ih => rw [write, ih, List.length_set]

theorem write_other {table : List (List Char)} {xs : List Record} {i : Nat}
    (absent : i ∉ xs.map Record.index) :
    (write table xs)[i]? = table[i]? := by
  induction xs generalizing table with
  | nil => rfl
  | cons x xs ih =>
    simp only [List.map_cons, List.mem_cons, not_or] at absent
    rw [write, ih absent.2, List.getElem?_set_ne (Ne.symm absent.1)]

/-- With different indices every pattern stays where it was written. -/
theorem write_get {table : List (List Char)} {xs : List Record}
    (distinct : (xs.map Record.index).Nodup) (inside : ∀ x ∈ xs, x.index < table.length)
    {x : Record} (hx : x ∈ xs) :
    (write table xs)[x.index]? = some x.pattern := by
  induction xs generalizing table with
  | nil => cases hx
  | cons y ys ih =>
    rw [List.map_cons, List.nodup_cons] at distinct
    rw [write]
    rcases List.mem_cons.mp hx with rfl | hx
    · rw [write_other distinct.1]
      simp [inside x List.mem_cons_self]
    · exact ih distinct.2
        (fun z hz => by rw [List.length_set]; exact inside z (List.mem_cons_of_mem y hz)) hx

theorem Stored.inside {half : Nat} {es : List Entry} {xs : List Record}
    (stored : Stored half es xs) :
    xs.length = es.length ∧ ∀ x ∈ xs, x.index < half := by
  induction stored with
  | nil => simp
  | cons _ inside _ ih => exact ⟨by simp [ih.1], List.forall_mem_cons.mpr ⟨inside, ih.2⟩⟩

/-- Different indices below the length of the table are all of them. -/
theorem perm_range_of_nodup {is : List Nat} (nodup : is.Nodup) (below : ∀ i ∈ is, i < is.length) :
    is.Perm (List.range is.length) := by
  have subset : is ⊆ List.range is.length := fun i hi => List.mem_range.mpr (below i hi)
  exact (nodup.subperm subset).perm_of_length_le (by simp)

/-! ## What is accepted -/

/-- `validateNDB` accepts the pattern of the entry. -/
def Entry.Valid (e : Entry) : Prop := ∃ s, e.pattern = some s ∧ validateNDB (lowered s) = .ok []

def Accepts (o : PtrOrder) (r : Request) (m : Source) : Prop :=
  ∃ signature log, compileLogicalSignature o r m = .ok (.accepted signature log)

/-- The loop is reached. -/
structure Started (m : Source) : Prop where
  initialized : m.initialized = true
  isStruct : m.isStruct = true
  even : m.oddField = false
  nonempty : m.entries ≠ []

def signatureText (r : Request) (m : Source) (ndbsigs : String) (table : List (List Char)) :
    String :=
  signatureHead r ++ (m.rawattrs.map fun s => "," ++ String.ofList s).getD "" ++ ";" ++ ndbsigs ++
    appended table

/-- The checks on the text: the raw attributes, the number of groups, and the level. -/
structure TextPasses (r : Request) (m : Source) (ndbsigs : String) (groups : Word)
    (table : List (List Char)) : Prop where
  attributes : m.rawattrs.bind badAttribute = none
  few : ¬ 64 < groups
  level : ∀ level reason,
    minRequired m (signatureText r m ndbsigs table).toList r.kind = some (level, reason) →
      level ≤ ((engineLevels r).map Prod.fst).getD r.min

/-- Nothing but an invalid pattern stands in the way of the signature: all entries are stored, the
trigger is compiled to an expression that is no constant and can be printed, and the text passes the
checks on it. -/
structure Passes (o : PtrOrder) (r : Request) (m : Source) (xs : List Record) :
    Prop extends Started m where
  stored : Stored m.entries.length m.entries xs
  text : ∃ s node ndbsigs groups, compile o m.matchCounts m.trigger = .ok (s, Option.some node) ∧
    isConst node = none ∧ node2String node 0 = .ok (ndbsigs, groups) ∧
      TextPasses r m ndbsigs groups (write (List.replicate m.entries.length []) xs)

def LastValid (m : Source) : Prop := ∀ e ∈ m.entries.getLast?, e.Valid

theorem valid_iff_messages {half : Nat} {e : Entry} {id : Nat} {str : List Char}
    {messages : List String} (read : e.read half = .ok (.inr (id, str, messages))) :
    e.Valid ↔ messages.isEmpty = true := by
  obtain ⟨-, -, -, s, pattern, rfl, validated⟩ := read_inr read
  rw [List.isEmpty_iff]
  constructor
  · rintro ⟨s', pattern', accepted⟩
    cases pattern.symm.trans pattern'
    cases validated.symm.trans accepted
    rfl
  · rintro rfl
    exact ⟨s, pattern, validated⟩

/-- Only the last pattern counts. -/
theorem verdict_iff {half : Nat} {es : List Entry} {xs : List Record} (stored : Stored half es xs)
    (some : es ≠ []) (valid : Bool) : verdict valid xs = true ↔ ∀ e ∈ es.getLast?, e.Valid := by
  induction stored generalizing valid with
  | nil => exact absurd rfl some
  | @cons e es x xs read _ stored ih =>
    cases stored with
    | nil => simpa [verdict] using (valid_iff_messages read).symm
    | @cons e' es' x' xs' read' inside' stored' =>
      rw [verdict, ih (List.cons_ne_nil _ _), List.getLast?_cons_cons]

theorem after_accepted {x : Except Fault Outcome} {printed : List String} {signature : String} :
    (∃ log, x.map (Outcome.after printed) = .ok (.accepted signature log)) ↔
      ∃ log, x = .ok (.accepted signature log) := by
  rcases x with f | ⟨more⟩ | ⟨text, more⟩
  · exact iff_of_false nofun nofun
  · exact iff_of_false (by rintro ⟨log, h⟩; cases h) nofun
  · constructor
    · rintro ⟨log, h⟩
      cases h
      exact ⟨more, rfl⟩
    · rintro ⟨log, h⟩
      cases h
      exact ⟨_, rfl⟩

theorem checkMinimum_iff {m : Source} {signature : List Char} {min : Nat}
    {kind : Int} :
    (checkMinimum m signature min kind).1 = true ↔
      ∀ level reason, minRequired m signature kind = some (level, reason) → level ≤ min := by
  unfold checkMinimum
  cases minRequired m signature kind with
  | none => exact iff_of_true rfl fun level reason required => by cases required
  | some required =>
    by_cases low : min < required.1
    · simp only [if_pos low]
      refine iff_of_false (by simp) fun met => ?_
      have enough := met required.1 required.2 rfl
      omega
    · simp only [if_neg low]
      refine iff_of_true rfl ?_
      rintro level reason ⟨⟩
      exact not_lt.mp low

theorem emit_accepted_iff {r : Request} {m : Source} {node : Node} {table : List (List Char)}
    {signature : String} : (∃ log, emit r m node table = .ok (.accepted signature log)) ↔
      ∃ ndbsigs groups, node2String node 0 = .ok (ndbsigs, groups) ∧
        TextPasses r m ndbsigs groups table ∧ signature = signatureText r m ndbsigs table := by
  constructor
  · rintro ⟨log, emitted⟩
    unfold emit at emitted
    split at emitted
    · cases emitted
    · next ndbsigs groups printed =>
      split at emitted
      · cases emitted
      · next allowed =>
        split_ifs at emitted with many
        · cases emitted
        · dsimp only at emitted
          split at emitted
          · cases emitted
          · next log' checked =>
            cases emitted
            exact ⟨ndbsigs, groups, printed,
              ⟨allowed, many, checkMinimum_iff.mp (congrArg Prod.fst checked)⟩, rfl⟩
  · rintro ⟨ndbsigs, groups, printed, ⟨allowed, few, level⟩, rfl⟩
    have checked := checkMinimum_iff.mpr level
    unfold emit
    rw [printed]
    simp only [allowed, few, if_false]
    split
    · next log refused =>
      have refused := congrArg Prod.fst refused
      exact absurd (refused.symm.trans checked) Bool.false_ne_true
    · exact ⟨_, rfl⟩

theorem finish_accepted {o : PtrOrder} {r : Request} {m : Source} {table : List (List Char)}
    {valid : Bool} {signature : String} :
    (∃ log, finish o r m table valid = .ok (.accepted signature log)) ↔
      valid = true ∧ ∃ s node log, compile o m.matchCounts m.trigger = .ok (s, some node) ∧
        isConst node = none ∧
        emit r m node table = .ok (.accepted signature log) := by
  unfold finish
  constructor
  · rintro ⟨log, accepted⟩
    split at accepted
    · cases accepted
    · cases accepted
    · next s node compiled =>
      dsimp only at accepted
      split at accepted
      · cases accepted
      · cases accepted
      · next notConst =>
        split_ifs at accepted with isValid
        · obtain ⟨log, emitted⟩ := after_accepted.mp ⟨log, accepted⟩
          exact ⟨isValid, s, node, log, compiled, notConst, emitted⟩
        · cases accepted
  · rintro ⟨rfl, s, node, log, compiled, notConst, emitted⟩
    simp only [compiled, notConst, if_true]
    exact after_accepted.mpr ⟨log, emitted⟩

/-- What the function returns where the loop is reached. -/
theorem Started.run {m : Source} (started : Started m) (o : PtrOrder) (r : Request) :
    compileLogicalSignature o r m =
    match collect m.entries.length m.entries (List.replicate m.entries.length []) true [] with
    | .error f => .error f
    | .ok (none, log) => .ok (.rejected log)
    | .ok (some (table, valid), log) => (finish o r m table valid).map (Outcome.after log) := by
  simp [compileLogicalSignature, started.initialized, started.isStruct, started.even,
    started.nonempty]

/-- Before the loop there is no write and no signature. -/
theorem not_started {o : PtrOrder} {r : Request} {m : Source} (not : ¬ Started m) :
    Meets (fun f => f ≠ .outOfBounds) (fun outcome => ∃ log, outcome = .rejected log)
      (compileLogicalSignature o r m) := by
  unfold compileLogicalSignature
  cases initialized : m.initialized with
  | false => exact ⟨_, rfl⟩
  | true =>
    cases isStruct : m.isStruct with
    | false => exact nofun
    | true =>
      cases even : m.oddField with
      | true => exact ⟨_, rfl⟩
      | false =>
        by_cases empty : m.entries = []
        · simp only [empty]
          exact nofun
        · exact absurd ⟨initialized, isStruct, even, empty⟩ not

theorem started_of_accepts {o : PtrOrder} {r : Request} {m : Source} (accepts : Accepts o r m) :
    Started m := by
  obtain ⟨signature, log, accepted⟩ := accepts
  by_contra not
  obtain ⟨log', rejected⟩ := (not_started not).of_ok accepted
  cases rejected

theorem accepted_iff {o : PtrOrder} {r : Request} {m : Source} {signature : String}
    (started : Started m) :
    (∃ log, compileLogicalSignature o r m = .ok (.accepted signature log)) ↔
      ∃ xs, Stored m.entries.length m.entries xs ∧ LastValid m ∧
        ∃ s node log, compile o m.matchCounts m.trigger = .ok (s, some node) ∧ isConst node = none ∧
          emit r m node (write (List.replicate m.entries.length []) xs) =
            .ok (.accepted signature log) := by
  have size : (List.replicate m.entries.length ([] : List Char)).length = m.entries.length :=
    List.length_replicate
  rw [started.run o r]
  constructor
  · rintro ⟨log, accepted⟩
    split at accepted
    · cases accepted
    · cases accepted
    · next table valid printed ran =>
      obtain ⟨xs, stored, rfl, rfl⟩ := collect_done size ran
      obtain ⟨valid, rest⟩ := finish_accepted.mp (after_accepted.mp ⟨log, accepted⟩)
      exact ⟨xs, stored, (verdict_iff stored started.nonempty true).mp valid, rest⟩
  · rintro ⟨xs, stored, last, rest⟩
    rw [collect_stored stored size]
    exact after_accepted.mpr
      (finish_accepted.mpr ⟨(verdict_iff stored started.nonempty true).mpr last, rest⟩)

theorem accepts_iff {o : PtrOrder} {r : Request} {m : Source} :
    Accepts o r m ↔ (∃ xs, Passes o r m xs) ∧ LastValid m := by
  constructor
  · intro accepts
    have started := started_of_accepts accepts
    obtain ⟨signature, accepted⟩ := accepts
    obtain ⟨xs, stored, last, s, node, log, compiled, notConst, emitted⟩ :=
      (accepted_iff started).mp accepted
    obtain ⟨ndbsigs, groups, printed, passes, -⟩ := emit_accepted_iff.mp ⟨log, emitted⟩
    exact ⟨⟨xs, started, stored, s, node, ndbsigs, groups, compiled, notConst, printed, passes⟩,
      last⟩
  · rintro ⟨⟨xs, started, stored, s, node, ndbsigs, groups, compiled, notConst, printed, passes⟩,
      last⟩
    obtain ⟨log, emitted⟩ := emit_accepted_iff.mpr ⟨ndbsigs, groups, printed, passes, rfl⟩
    exact ⟨_,
      (accepted_iff started).mpr ⟨xs, stored, last, s, node, log, compiled, notConst, emitted⟩⟩

/-- Every accepted signature has valid patterns only, exactly if all are valid, or the last one is
not, or something else is wrong. -/
theorem accepts_only_valid_iff (o : PtrOrder) (r : Request) (m : Source) :
    (Accepts o r m → ∀ e ∈ m.entries, e.Valid) ↔
      (∀ e ∈ m.entries, e.Valid) ∨ ¬ LastValid m ∨ ¬ ∃ xs, Passes o r m xs := by
  rw [accepts_iff]
  constructor
  · intro valid
    by_cases last : LastValid m
    · by_cases passes : ∃ xs, Passes o r m xs
      · exact Or.inl (valid ⟨passes, last⟩)
      · exact Or.inr (Or.inr passes)
    · exact Or.inr (Or.inl last)
  · rintro (valid | notLast | notPasses) ⟨passes, last⟩
    · exact valid
    · exact absurd last notLast
    · exact absurd passes notPasses

/-- The trigger `matches(s0)`. -/
def firstMatched : Function where
  args := []
  nextId := 3
  blocks := [⟨0, [],
    [⟨0, .int 32, .load false (.const (.getElementPtrExpr (.global 0) [.int 64 0, .int 64 0]))⟩,
    ⟨1, .int 1, .icmp .ne (.inst 0) (.const (.int 32 0))⟩], 2, .ret (some (.inst 1))⟩]

def plainRequest : Request := ⟨0, funcLevel0987, 0, "", "", "", 256, "Test"⟩

/-- The module with the trigger and these entries. -/
def withEntries (entries : List Entry) : Source :=
  ⟨true, true, entries, false, some 0, none, false, firstMatched⟩

/-- The newest level is enough for everything. -/
theorem minRequired_le {m : Source} {signature : List Char} {kind : Int} {level : Nat}
    {reason : String} (required : minRequired m signature kind = some (level, reason)) :
    level ≤ funcLevel0987 := by
  unfold minRequired at required
  split_ifs at required <;> cases required <;> decide

/-- With the newest level, what is printed becomes the signature. -/
theorem emit_plain {m : Source} {node : Node} {text : String} {groups : Word}
    (printed : node2String node 0 = .ok (text, groups)) (noAttributes : m.rawattrs = none)
    (few : ¬ 64 < groups) (table : List (List Char)) :
    ∃ log, emit plainRequest m node table =
      .ok (.accepted (signatureText plainRequest m text table) log) := by
  refine emit_accepted_iff.mpr ⟨text, groups, printed, ⟨?_, few, ?_⟩, rfl⟩
  · rw [noAttributes]
    rfl
  · exact fun _ _ required => minRequired_le required

/-- With the trigger and the level as they are, all that matters is what the loop does. -/
theorem passes_withEntries {entries : List Entry}
    (some : entries ≠ []) {xs : List Record} (stored : Stored entries.length entries xs) :
    Passes .inOrder plainRequest (withEntries entries) xs where
  initialized := rfl
  isStruct := rfl
  even := rfl
  nonempty := some
  stored := stored
  text := by
    have printed : node2String (.subsig 0) 0 = .ok (String.ofList (Nat.toDigits 10 0), 0) := rfl
    exact ⟨_, .subsig 0, _, _, rfl, rfl, printed, rfl, by decide,
      fun _ _ required => minRequired_le required⟩

/-- A forbidden character in the first of two patterns. -/
def badThenGood : List Entry := [⟨some ['z'], .id 0⟩, ⟨some ['a', 'b'], .id 1⟩]

theorem badThenGood_accepted : Accepts .inOrder plainRequest (withEntries badThenGood) ∧
    ¬ ∀ e ∈ (withEntries badThenGood).entries, e.Valid := by
  have stored : Stored 2 badThenGood [⟨0, ['z'], validateCharacters ['z']⟩, ⟨1, ['a', 'b'], []⟩] :=
    .cons rfl (by decide) (.cons rfl (by decide) .nil)
  constructor
  · refine accepts_iff.mpr ⟨⟨_, passes_withEntries (List.cons_ne_nil _ _) stored⟩, ?_⟩
    rintro e ⟨⟩
    exact ⟨['a', 'b'], rfl, rfl⟩
  · intro valid
    obtain ⟨s, pattern, accepted⟩ := valid _ List.mem_cons_self
    cases pattern
    cases accepted

/-! ## The ids -/

def Entry.index (e : Entry) : Option Nat :=
  match e.id with
  | .ok w => some w.toNat
  | .error _ => none

/-- No write is outside the table, and the patterns of an accepted signature stand at their ids,
which are all the indices of the table. -/
structure TableSafe (o : PtrOrder) (r : Request) (m : Source) : Prop where
  inBounds : compileLogicalSignature o r m ≠ .error .outOfBounds
  complete : ∀ signature log, compileLogicalSignature o r m = .ok (.accepted signature log) →
    (m.entries.map Entry.index).Perm ((List.range m.entries.length).map some) ∧
    ∃ head table, signature = head ++ appended table ∧ table.length = m.entries.length ∧
      ∀ e ∈ m.entries, ∀ i s, e.index = some i → e.pattern = some s → table[i]? = some (lowered s)

/-- No entry that the loop reaches and could store has the number of entries for its id. -/
def NoIdAtEnd (m : Source) : Prop :=
  Started m → ∀ pre e post xs, m.entries = pre ++ e :: post → Stored m.entries.length pre xs →
    ∀ str messages, e.read m.entries.length ≠ .ok (.inr (m.entries.length, str, messages))

theorem Stored.indices {half : Nat} {es : List Entry} {xs : List Record}
    (stored : Stored half es xs) :
    es.map Entry.index = (xs.map Record.index).map some := by
  induction stored with
  | nil => rfl
  | @cons e es x xs read _ _ ih =>
    obtain ⟨⟨w, number, same⟩, -⟩ := read_inr read
    have first : e.index = some x.index := by rw [Entry.index, number, ← same]
    rw [List.map_cons, List.map_cons, List.map_cons, first, ih]

theorem Stored.record {half : Nat} {es : List Entry} {xs : List Record} (stored : Stored half es xs)
    {e : Entry} (he : e ∈ es) :
    ∃ x ∈ xs, e.index = some x.index ∧ ∀ s, e.pattern = some s → lowered s = x.pattern := by
  induction stored with
  | nil => cases he
  | @cons d es x xs read _ _ ih =>
    rcases List.mem_cons.mp he with rfl | he
    · obtain ⟨⟨w, number, same⟩, -, -, s, pattern, low, -⟩ := read_inr read
      refine ⟨x, List.mem_cons_self, by rw [Entry.index, number, ← same], fun s' pattern' => ?_⟩
      cases pattern.symm.trans pattern'
      exact low
    · obtain ⟨y, hy, found⟩ := ih he
      exact ⟨y, List.mem_cons_of_mem x hy, found⟩

theorem finish_in_bounds {o : PtrOrder} {r : Request} {m : Source} {table : List (List Char)}
    {valid : Bool} :
    finish o r m table valid ≠ .error .outOfBounds := by
  have emitted :
      ∀ node, Meets (fun f => f ≠ .outOfBounds) (fun _ => True) (emit r m node table) := by
    intro node
    unfold emit
    split
    · exact nofun
    · split
      · trivial
      · split_ifs
        · trivial
        · dsimp only
          split <;> trivial
  have checked : Meets (fun f => f ≠ .outOfBounds) (fun _ => True) (finish o r m table valid) := by
    unfold finish
    split
    · exact nofun
    · trivial
    · dsimp only
      split
      · trivial
      · trivial
      · split_ifs
        · exact (emitted _).map fun _ _ => trivial
        · trivial
  exact fun failed => checked.of_error failed rfl

theorem outOfBounds_iff (o : PtrOrder) (r : Request) {m : Source} :
    compileLogicalSignature o r m = .error .outOfBounds ↔ ¬ NoIdAtEnd m := by
  have size : (List.replicate m.entries.length ([] : List Char)).length = m.entries.length :=
    List.length_replicate
  unfold NoIdAtEnd
  push Not
  constructor
  · intro failed
    have started : Started m := by
      by_contra not
      exact (not_started not).of_error failed rfl
    rw [started.run o r] at failed
    split at failed
    · next f ran =>
      cases failed
      obtain ⟨pre, e, post, xs, x, parts, stored, read, outside⟩ :=
        (collect_outOfBounds size).mp ran
      obtain ⟨-, zero, bounded, -⟩ := read_inr read
      have positive := List.length_pos_iff.mpr started.nonempty
      have last : x.index = m.entries.length := by
        by_cases isZero : e.idField = .zero
        · have first := zero isZero
          omega
        · have inside := bounded isZero
          omega
      rw [last] at read
      exact ⟨started, pre, e, post, xs, parts, stored, _, _, read⟩
    · cases failed
    · next table valid log ran =>
      cases inner : finish o r m table valid with
      | ok outcome =>
        rw [inner] at failed
        cases failed
      | error f =>
        rw [inner] at failed
        cases failed
        exact absurd inner finish_in_bounds
  · rintro ⟨started, pre, e, post, xs, parts, stored, str, messages, read⟩
    have failed := (@collect_outOfBounds m.entries.length m.entries _ size true []).mpr
      ⟨pre, e, post, xs, ⟨m.entries.length, str, messages⟩, parts, stored, read, Nat.le_refl _⟩
    rw [started.run o r, failed]

/-- The text of an accepted signature ends with the table. -/
theorem emit_appended {r : Request} {m : Source}
    {node : Node} {table : List (List Char)} {signature : String} {log : List String}
    (emitted : emit r m node table = .ok (.accepted signature log)) :
    ∃ head, signature = head ++ appended table := by
  obtain ⟨ndbsigs, groups, -, -, rfl⟩ := emit_accepted_iff.mp ⟨log, emitted⟩
  exact ⟨_, rfl⟩

/-- The table is indexed safely and completely exactly if no id is the number of entries, and the
ids of a signature that passes all checks are different. -/
theorem tableSafe_iff (o : PtrOrder) (r : Request) (m : Source) :
    TableSafe o r m ↔ NoIdAtEnd m ∧
      ((m.entries.map Entry.index).Nodup ∨ ¬ LastValid m ∨ ¬ ∃ xs, Passes o r m xs) := by
  constructor
  · intro safe
    refine ⟨?_, ?_⟩
    · by_contra atEnd
      exact safe.inBounds ((outOfBounds_iff o r).mpr atEnd)
    · by_cases accepts : Accepts o r m
      · obtain ⟨signature, log, accepted⟩ := accepts
        have range : ((List.range m.entries.length).map some).Nodup :=
          List.nodup_range.map (Option.some_injective Nat)
        exact Or.inl ((safe.complete signature log accepted).1.nodup_iff.mpr range)
      · rw [accepts_iff, and_comm, not_and_or] at accepts
        exact Or.inr accepts
  · rintro ⟨noneAtEnd, distinct⟩
    refine ⟨fun failed => (outOfBounds_iff o r).mp failed noneAtEnd,
      fun signature log accepted => ?_⟩
    have accepts : Accepts o r m := ⟨signature, log, accepted⟩
    obtain ⟨passes, last⟩ := accepts_iff.mp accepts
    have nodup : (m.entries.map Entry.index).Nodup := by
      rcases distinct with nodup | notLast | notPasses
      · exact nodup
      · exact absurd last notLast
      · exact absurd passes notPasses
    obtain ⟨xs, stored, -, s, node, log', -, -, emitted⟩ :=
      (accepted_iff (started_of_accepts accepts)).mp ⟨log, accepted⟩
    obtain ⟨length, inside⟩ := stored.inside
    rw [stored.indices] at nodup ⊢
    have different : (xs.map Record.index).Nodup := nodup.of_map
    have perm := perm_range_of_nodup different (by simpa [length] using inside)
    rw [List.length_map, length] at perm
    refine ⟨perm.map some, ?_⟩
    obtain ⟨head, text⟩ := emit_appended emitted
    refine ⟨head, _, text, by rw [length_write, List.length_replicate],
      fun e he i s index pattern => ?_⟩
    obtain ⟨x, hx, index', pattern'⟩ := stored.record he
    cases index.symm.trans index'
    rw [pattern' s pattern]
    exact write_get different (by simpa using inside) hx

/-- One entry with the id 1, and two entries with the id 0. -/
theorem ids_not_checked :
    compileLogicalSignature .inOrder plainRequest (withEntries [⟨some ['a', 'b'], .id 1⟩]) =
      .error .outOfBounds ∧
    Accepts .inOrder plainRequest
      (withEntries [⟨some ['a', 'b'], .id 0⟩, ⟨some ['c', 'd'], .zero⟩]) ∧
    ¬ TableSafe .inOrder plainRequest (withEntries [⟨some ['a', 'b'], .id 1⟩]) ∧
    ¬ TableSafe .inOrder plainRequest
      (withEntries [⟨some ['a', 'b'], .id 0⟩, ⟨some ['c', 'd'], .zero⟩]) := by
  have outside :
      compileLogicalSignature .inOrder plainRequest (withEntries [⟨some ['a', 'b'], .id 1⟩]) =
      .error .outOfBounds := rfl
  have stored : Stored 2 [⟨some ['a', 'b'], .id 0⟩, ⟨some ['c', 'd'], .zero⟩] [⟨0, ['a', 'b'], []⟩,
      ⟨0, ['c', 'd'], []⟩] :=
    .cons rfl (by decide) (.cons rfl (by decide) .nil)
  have accepts : Accepts .inOrder plainRequest
      (withEntries [⟨some ['a', 'b'], .id 0⟩, ⟨some ['c', 'd'], .zero⟩]) := by
    refine accepts_iff.mpr ⟨⟨_, passes_withEntries (List.cons_ne_nil _ _) stored⟩, ?_⟩
    rintro e ⟨⟩
    exact ⟨['c', 'd'], rfl, rfl⟩
  refine ⟨outside, accepts, fun safe => safe.inBounds outside, fun safe => ?_⟩
  obtain ⟨signature, log, accepted⟩ := accepts
  obtain ⟨perm, -⟩ := safe.complete signature log accepted
  exact absurd perm (by decide)

end SubSignatures
