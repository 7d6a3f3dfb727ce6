import ClamBC.RecordLayout

/-!
# Reading from a PE file

`readRVA` and `readPESectionName` move to an offset of the file, read there and move back to the
position that the first `seek` returned. `seek` returns the new position, so that is the offset
again, and after a short read they do not move back at all.

The file is known through the functions of the API. `seek` to an absolute position moves there and
returns it, or returns -1 and does not move; `read` returns the amount read and moves by it. Which
positions can be set and how much can be read are parameters.
-/

namespace PeReading

/-! ## The API -/

structure Api where
  peRawaddr : UInt32 → UInt32
  isBigEndian : Bool
  seekable : Int → Bool
  amount : Int → Int32 → Option Nat
  seekable_nonneg : ∀ pos, seekable pos = true → 0 ≤ pos
  amount_le : ∀ pos size k, amount pos size = some k → (k : Int) ≤ size.toInt

/-- The position in the file, and where something was read so far and how much was asked for. -/
structure State where
  position : Int
  reads : List (Int × Int32)

section
variable (api : Api)

/-- `seek(pos, SEEK_SET)` -/
def seek (pos : Int32) (s : State) : Int32 × State :=
  if api.seekable pos.toInt then (pos, { s with position := pos.toInt }) else (-1, s)

def read (size : Int32) (s : State) : Int32 × State :=
  let reads := s.reads ++ [(s.position, size)]
  match api.amount s.position size with
  | some k => (Int32.ofNat k, ⟨s.position + k, reads⟩)
  | none => (-1, { s with reads := reads })

/-- How a helper ends. -/
inductive Outcome where
  | seekFailed | short | done
  deriving DecidableEq

/-- Both helpers: the position that the first `seek` returns is taken for the old one. -/
def readAt (pos : Int32) (size : UInt32) (s : State) : Outcome × State :=
  let (oldpos, s) := seek api pos s
  if oldpos = -1 then (.seekFailed, s)
  else
    let (got, s) := read api size.toInt32 s
    if got.toUInt32 ≠ size then (.short, s)
    else (.done, (seek api oldpos s).2)

def invalidRva : UInt32 := 0xFFFFFFFF

def readRVA (rva bufsize : UInt32) (s : State) : Bool × State :=
  let off := api.peRawaddr rva
  if off = invalidRva then (false, s)
  else
    let (outcome, s) := readAt api off.toInt32 bufsize s
    (outcome = .done, s)

/-! ## Headers -/

/-- `sizeof` a structure, from the widths of its fields. -/
def sizeOf (widths : List Nat) : Nat := RecordLayout.recordSize false (widths.map fun w => (w, w))

def fileHdr : List Nat := [4, 2, 2, 4, 4, 4, 2, 2]

def optionalHdr32 : List Nat :=
  [2, 1, 1, 4, 4, 4, 4, 4, 4, 4, 4, 4, 2, 2, 2, 2, 2, 2, 4, 4, 4, 4, 2, 2, 4, 4, 4, 4, 4, 4]

def optionalHdr64 : List Nat :=
  [2, 1, 1, 4, 4, 4, 4, 4, 8, 4, 4, 2, 2, 2, 2, 2, 2, 4, 4, 4, 4, 2, 2, 8, 8, 8, 8, 4, 4]

/-- The name is eight bytes. -/
def sectionHdr : List Nat := List.replicate 8 1 ++ [4, 4, 4, 4, 4, 4, 2, 2, 4]

theorem sizeOf_fileHdr : sizeOf fileHdr = 24 := by decide +kernel

theorem sizeOf_optionalHdr32 : sizeOf optionalHdr32 = 96 := by decide +kernel

theorem sizeOf_optionalHdr64 : sizeOf optionalHdr64 = 112 := by decide +kernel

theorem sizeOf_sectionHdr : sizeOf sectionHdr = 40 := by decide +kernel

/-- The fields of `__clambc_pedata` that are read. All but the number of sections are as in the
file. -/
structure PeData where
  nsections : UInt16
  magic : UInt16
  sizeOfOptionalHeader : UInt16
  eLfanew : UInt32

def le16ToHost (v : UInt16) : UInt16 :=
  let swapped := ((v &&& 0xff) <<< 8) ||| ((v >>> 8) &&& 0xff)
  if api.isBigEndian then swapped else v

def bswap32 (v : UInt32) : UInt32 :=
  (v <<< 24) ||| ((v &&& (0xff00 : UInt32)) <<< 8) |||
    ((v >>> 8) &&& (0xff00 : UInt32)) ||| (v >>> 24)

def le32ToHost (v : UInt32) : UInt32 := if api.isBigEndian then bswap32 v else v

variable (pe : PeData)

def isPE64 : Bool := le16ToHost api pe.magic = 0x020b

def getPESizeOfOptionalHeader : UInt16 := le16ToHost api pe.sizeOfOptionalHeader

def getPELFANew : UInt32 := le32ToHost api pe.eLfanew

/-- `at` -/
def sectionOffset (n : UInt32) : UInt32 :=
  let start :=
    getPELFANew api pe + UInt32.ofNat (sizeOf fileHdr) + UInt32.ofNat (sizeOf optionalHdr32)
  let header :=
    if !isPE64 api pe then
      start + ((getPESizeOfOptionalHeader api pe).toUInt32 - UInt32.ofNat (sizeOf optionalHdr32))
    else start + (UInt32.ofNat (sizeOf optionalHdr64) - UInt32.ofNat (sizeOf optionalHdr32))
  header + n * UInt32.ofNat (sizeOf sectionHdr)

def readPESectionName (n : UInt32) (s : State) : Int × State :=
  if n ≥ pe.nsections.toUInt32 then (-1, s)
  else
    let (outcome, s) := readAt api (sectionOffset api pe n).toInt32 8 s
    match outcome with
    | .seekFailed => (-2, s)
    | .short => (-3, s)
    | .done => (0, s)

end

/-! ## The position afterwards -/

section
variable {api : Api}

/-- Where the position is after a read at a place that can be reached. -/
def stop (api : Api) (pos : Int32) (size : UInt32) : Int :=
  match api.amount pos.toInt size.toInt32 with
  | some k => if (Int32.ofNat k).toUInt32 = size then pos.toInt else pos.toInt + k
  | none => pos.toInt

theorem seekable_ne {pos : Int32} (ok : api.seekable pos.toInt = true) : pos ≠ -1 := by
  rintro rfl
  have := api.seekable_nonneg _ ok
  exact absurd this (by decide)

theorem seek_ok {pos : Int32} (ok : api.seekable pos.toInt = true) (s : State) :
    seek api pos s = (pos, { s with position := pos.toInt }) := if_pos ok

theorem seek_fails {pos : Int32} (fails : ¬ api.seekable pos.toInt = true) (s : State) :
    seek api pos s = (-1, s) := if_neg fails

theorem readAt_fails {pos : Int32} (fails : ¬ api.seekable pos.toInt = true)
    (size : UInt32) (s : State) :
    readAt api pos size s = (.seekFailed, s) := by
  unfold readAt
  rw [seek_fails fails]
  rfl

theorem readAt_ok {pos : Int32} (ok : api.seekable pos.toInt = true) (size : UInt32) (s : State) :
    (readAt api pos size s).2 = ⟨stop api pos size, s.reads ++ [(pos.toInt, size.toInt32)]⟩ := by
  unfold readAt
  rw [seek_ok ok]
  cases got : api.amount pos.toInt size.toInt32 with
  | none =>
    simp only [if_neg (seekable_ne ok), read, stop, got]
    split_ifs
    · rfl
    · rw [seek_ok ok]
  | some k =>
    simp only [if_neg (seekable_ne ok), read, stop, got]
    by_cases full : (Int32.ofNat k).toUInt32 = size
    · rw [if_pos full, if_neg (not_not.mpr full), seek_ok ok]
    · rw [if_neg full, if_pos full]

/-- A call of one of the helpers. -/
inductive Call where
  | readRVA (rva bufsize : UInt32)
  | readPESectionName (n : UInt32)

/-- The state after the call. -/
def Call.run (api : Api) (pe : PeData) (s : State) : Call → State
  | .readRVA rva bufsize => (PeReading.readRVA api rva bufsize s).2
  | .readPESectionName n => (PeReading.readPESectionName api pe n s).2

/-- Where the call wants to read and how much, if it gets that far. -/
def Call.target (api : Api) (pe : PeData) : Call → Option (Int32 × UInt32)
  | .readRVA rva bufsize => if api.peRawaddr rva = invalidRva then none else
      some ((api.peRawaddr rva).toInt32, bufsize)
  | .readPESectionName n => if n ≥ pe.nsections.toUInt32 then none else
      some ((sectionOffset api pe n).toInt32, 8)

/-- Nothing is read, or the position was the one before where the call leaves it. -/
def Call.StaysAt (api : Api) (pe : PeData) (position : Int) (call : Call) : Prop :=
  ∀ pos size, call.target api pe = some (pos, size) → api.seekable pos.toInt = true →
    position = stop api pos size

theorem Call.run_of_none {pe : PeData} {s : State} {call : Call}
    (nothing : call.target api pe = none) : call.run api pe s = s := by
  cases call with
  | readRVA rva bufsize =>
    have invalid : api.peRawaddr rva = invalidRva := by
      by_contra valid
      rw [target, if_neg valid] at nothing
      cases nothing
    rw [run, PeReading.readRVA, if_pos invalid]
  | readPESectionName n =>
    have missing : n ≥ pe.nsections.toUInt32 := by
      by_contra present
      rw [target, if_neg present] at nothing
      cases nothing
    rw [run, PeReading.readPESectionName, if_pos missing]

theorem Call.run_of_some {pe : PeData} {s : State}
    {call : Call} {pos : Int32} {size : UInt32} (wants : call.target api pe = some (pos, size)) :
    call.run api pe s = (readAt api pos size s).2 := by
  cases call with
  | readRVA rva bufsize =>
    have valid : ¬ api.peRawaddr rva = invalidRva := by
      intro invalid
      rw [target, if_pos invalid] at wants
      cases wants
    rw [target, if_neg valid] at wants
    cases wants
    rw [run, PeReading.readRVA, if_neg valid]
  | readPESectionName n =>
    have present : ¬ n ≥ pe.nsections.toUInt32 := by
      intro missing
      rw [target, if_pos missing] at wants
      cases wants
    rw [target, if_neg present] at wants
    cases wants
    rw [run, PeReading.readPESectionName, if_neg present]
    cases readAt api (sectionOffset api pe n).toInt32 8 s with
    | mk outcome after => cases outcome <;> rfl

theorem position_kept_iff (api : Api) (pe : PeData) (s : State) (call : Call) :
    (call.run api pe s).position = s.position ↔ call.StaysAt api pe s.position := by
  cases wants : call.target api pe with
  | none =>
    rw [Call.run_of_none wants]
    refine ⟨fun _ pos size eq => ?_, fun _ => rfl⟩
    rw [wants] at eq
    cases eq
  | some goal =>
    obtain ⟨pos, size⟩ := goal
    rw [Call.run_of_some wants]
    by_cases ok : api.seekable pos.toInt = true
    · rw [readAt_ok ok]
      constructor
      · intro same pos' size' eq _
        cases wants.symm.trans eq
        exact same.symm
      · exact fun stays => (stays pos size wants ok).symm
    · rw [readAt_fails ok]
      refine ⟨fun _ pos' size' eq ok' => ?_, fun _ => rfl⟩
      cases wants.symm.trans eq
      exact absurd ok' ok

/-! ## Where a section name is read -/

/-- The start of a section header: behind the file header and an optional header of the size that
the file gives. -/
def headerStart (api : Api) (pe : PeData) (n : UInt32) : Nat :=
  (getPELFANew api pe).toNat + 24 + (getPESizeOfOptionalHeader api pe).toNat + 40 * n.toNat

theorem toInt_toInt32 (x : UInt32) :
    x.toInt32.toInt = if x.toNat < 2 ^ 31 then (x.toNat : Int) else x.toNat - 4294967296 := by
  have cond := BitVec.toInt_eq_toNat_cond x.toBitVec
  have same : x.toInt32.toInt = x.toBitVec.toInt := rfl
  have value : x.toBitVec.toNat = x.toNat := rfl
  rw [same, cond, value]
  split_ifs <;> omega

theorem toInt_toInt32_eq_iff {x : UInt32} {k : Nat} (small : k < 2 ^ 31) :
    x.toInt32.toInt = k ↔ x.toNat = k := by
  have bound := x.toNat_lt
  rw [toInt_toInt32]
  split_ifs <;> omega

section
variable {pe : PeData} {n : UInt32} (fits : headerStart api pe n < 2 ^ 31)
include fits

theorem sectionOffset_eq_iff :
    (sectionOffset api pe n).toNat = headerStart api pe n ↔
      isPE64 api pe = false ∨ (getPESizeOfOptionalHeader api pe).toNat = sizeOf optionalHdr64 := by
  have size : (getPESizeOfOptionalHeader api pe).toUInt32.toNat =
    (getPESizeOfOptionalHeader api pe).toNat := rfl
  have small := (getPESizeOfOptionalHeader api pe).toNat_lt
  unfold headerStart at fits ⊢
  have constants : (UInt32.ofNat 24).toNat = 24 ∧ (UInt32.ofNat 96).toNat = 96 ∧
      (UInt32.ofNat 112).toNat = 112 ∧
      (UInt32.ofNat 40).toNat = 40 := ⟨rfl, rfl, rfl, rfl⟩
  simp only [sectionOffset, sizeOf_fileHdr, sizeOf_optionalHdr32, sizeOf_optionalHdr64,
    sizeOf_sectionHdr]
  cases isPE64 api pe with
  | false =>
    refine ⟨fun _ => .inl rfl, fun _ => ?_⟩
    simp only [Bool.not_false, if_true, UInt32.toNat_add, UInt32.toNat_sub, UInt32.toNat_mul,
      constants, size]
    omega
  | true =>
    simp only [Bool.not_true, Bool.false_eq_true, if_false, UInt32.toNat_add, UInt32.toNat_sub,
      UInt32.toNat_mul, constants,
      reduceCtorEq, false_or]
    omega

/-- Eight bytes are read there, or nothing is read. -/
theorem reads_iff (present : n < pe.nsections.toUInt32)
    (inFile : api.seekable (headerStart api pe n) = true) (s : State) :
    (readPESectionName api pe n s).2.reads = s.reads ++ [((headerStart api pe n : Int), 8)] ↔
      (sectionOffset api pe n).toNat = headerStart api pe n := by
  have wants : (Call.readPESectionName n).target api pe =
    some ((sectionOffset api pe n).toInt32, 8) := if_neg (UInt32.not_le.mpr present)
  have after := Call.run_of_some (s := s) wants
  show (Call.run api pe s (.readPESectionName n)).reads = _ ↔ _
  rw [after, ← toInt_toInt32_eq_iff fits]
  by_cases ok : api.seekable (sectionOffset api pe n).toInt32.toInt = true
  · rw [readAt_ok ok]
    constructor
    · intro same
      have last := List.append_cancel_left same
      exact congrArg Prod.fst (List.cons.inj last).1
    · intro same
      rw [same]
      rfl
  · rw [readAt_fails ok]
    constructor
    · intro same
      have length := congrArg List.length same
      simp at length
    · intro same
      rw [same] at ok
      exact absurd inFile ok

theorem readPESectionName_offset_iff (present : n < pe.nsections.toUInt32)
    (inFile : api.seekable (headerStart api pe n) = true) (s : State) :
    (readPESectionName api pe n s).2.reads = s.reads ++ [((headerStart api pe n : Int), 8)] ↔
      isPE64 api pe = false ∨ (getPESizeOfOptionalHeader api pe).toNat = sizeOf optionalHdr64 :=
  (reads_iff fits present inFile s).trans (sectionOffset_eq_iff fits)

end

end

/-! ## A file of 4096 bytes

Its addresses are its offsets. The first header is at 128, and the optional header has 16 data
directories. -/

def smallFile : Api where
  peRawaddr := fun rva => if rva < 4096 then rva else invalidRva
  isBigEndian := false
  seekable := fun pos => 0 ≤ pos && pos ≤ 4096
  amount := fun pos size => if 0 ≤ size.toInt then
    some (min size.toInt.toNat (4096 - pos).toNat) else none
  seekable_nonneg := fun pos ok => by simp at ok; exact ok.1
  amount_le := fun pos size k eq => by
    split_ifs at eq with positive
    cases eq
    omega

def pe32 : PeData := ⟨3, 0x010b, 224, 128⟩

def pe64 : PeData := ⟨3, 0x020b, 240, 128⟩

/-- Both helpers move the position, also when they are successful. -/
theorem position_moved :
    ((Call.readRVA 100 4).run smallFile pe32 ⟨5, []⟩).position ≠ 5 ∧
      ((Call.readPESectionName 0).run smallFile pe32 ⟨5, []⟩).position ≠ 5 := by decide +kernel

theorem readPESectionName_pe32 :
    (readPESectionName smallFile pe32 1 ⟨0, []⟩).2.reads =
      [((headerStart smallFile pe32 1 : Int), 8)] :=
  (readPESectionName_offset_iff (by decide +kernel) (by decide +kernel) (by decide +kernel) _).mpr
    (.inl (by decide +kernel))

/-- The name is looked for among the data directories. -/
theorem readPESectionName_pe64 :
    0 < pe64.nsections.toUInt32 ∧ headerStart smallFile pe64 0 < 2 ^ 31 ∧
      smallFile.seekable (headerStart smallFile pe64 0) = true ∧
      (readPESectionName smallFile pe64 0 ⟨0, []⟩).2.reads ≠
        [((headerStart smallFile pe64 0 : Int), 8)] := by decide +kernel

end PeReading
