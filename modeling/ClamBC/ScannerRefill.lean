import Mathlib.Algebra.Order.Ring.Int
import Mathlib.Data.List.Basic
import Mathlib.Logic.Relation
import Mathlib.Tactic.Common

/-!
# Refilling the scanner

`RE2C_FILLBUFFER` moves the token to the start of the buffer, reads more of the file behind what is
left, and moves the other pointers along. `REGEX_SCANNER` does this for the first time
before `re2c_stok` has a value.

Pointers are offsets from `&re2c_sbuffer[0]`.
-/

namespace ScannerRefill

open Relation

/-- `RE2C_BSIZE`. -/
def bsize : Nat := 1024

/-- The variables of `REGEX_SCANNER`, and the position of the file. -/
structure Scanner where
  scur : Int
  stok : Int
  smrk : Int
  sctx : Int
  slim : Int
  sres : Int
  stokstart : BitVec 32
  sbuffer : Nat → UInt8
  pos : Nat
  /-- Where the first byte of the buffer is in the file. Nothing reads it. -/
  base : Nat

/-- `fill_buffer`: from the buffer, `len`, `filled`, `cursor`, `fill` and the position of the file
to the result, the buffer and the position. -/
abbrev FillBuffer :=
  (Nat → UInt8) → BitVec 32 → BitVec 32 → BitVec 32 → BitVec 32 → Nat → Int × (Nat → UInt8) × Nat

/-- The character at the cursor is moved to position 0, and `read` bytes of the file follow. -/
structure Fills (file : List UInt8) (buffer : Nat → UInt8) (filled cursor : BitVec 32) (pos : Nat)
    (limit : Int) (buffer' : Nat → UInt8) (pos' read : Nat) : Prop where
  inside : cursor.toNat ≤ filled.toNat
  available : limit = filled.toNat - cursor.toNat + read
  fits : limit ≤ bsize
  advances : pos' = pos + read
  moved : ∀ i, cursor.toNat + i < filled.toNat → buffer' i = buffer (cursor.toNat + i)
  follows : ∀ i < read, file[pos + i]? = some (buffer' (filled.toNat - cursor.toNat + i))

/-- What is documented about a result that is neither an error nor the end of the file. -/
def Documented (file : List UInt8) (fillBuffer : FillBuffer) : Prop :=
  ∀ buffer filled cursor fill pos limit buffer' pos',
    fillBuffer buffer bsize filled cursor fill pos = (limit, buffer', pos') →
    0 < limit → ∃ read, Fills file buffer filled cursor pos limit buffer' pos' read

section Macros
variable (fillBuffer : FillBuffer)

/-- `RE2C_FILLBUFFER`. -/
def fillbuffer (need : Int) (s : Scanner) : Scanner :=
  let cursor := BitVec.ofInt 32 s.stok
  let filled := BitVec.ofInt 32 s.slim
  let result := fillBuffer s.sbuffer bsize filled cursor (BitVec.ofInt 32 need) s.pos
  let limit := result.1
  let s := { s with sbuffer := result.2.1, pos := result.2.2 }
  if limit = 0 then { s with sres := 0 }
  else if limit ≤ need then { s with sres := -1 }
  else
    let curoff := BitVec.ofInt 32 (s.scur - s.stok)
    let mrkoff := BitVec.ofInt 32 (s.smrk - s.stok)
    let ctxoff := BitVec.ofInt 32 (s.sctx - s.stok)
    { s with
      slim := limit, stok := 0, scur := curoff.toNat, smrk := mrkoff.toNat, sctx := ctxoff.toNat,
      sres := limit, base := s.base + cursor.toNat }

/-- What `REGEX_SCANNER` declares without a value. -/
structure Uninitialized where
  stok : Int
  stokstart : BitVec 32
  sbuffer : Nat → UInt8

/-- `REGEX_SCANNER` at this position of the file, in front of its `RE2C_FILLBUFFER(0)`. -/
def declared (u : Uninitialized) (pos : Nat) : Scanner where
  scur := 0
  stok := u.stok
  smrk := 0
  sctx := 0
  slim := 0
  sres := 0
  stokstart := u.stokstart
  sbuffer := u.sbuffer
  pos := pos
  base := pos

/-- `seek(0, SEEK_CUR)`, an `int32_t`. -/
def seekCur (pos : Nat) : Int := (BitVec.ofNat 32 pos).toInt

/-- `REGEX_POS`. -/
def regexPos (s : Scanner) : Int := -(s.slim - s.scur) + seekCur s.pos

def loopBegin (s : Scanner) : Scanner :=
  { s with stok := s.scur, stokstart := BitVec.ofInt 32 (regexPos s) }

/-- What a scanner does: it starts a token, moves on in the buffer, remembers the cursor and goes
back to where it was in this token, and refills the buffer. -/
inductive Step : Scanner → Scanner → Prop
  | token (s : Scanner) : Step s (loopBegin s)
  | advance (s : Scanner) (n : Nat) (inside : s.scur + n ≤ bsize) :
      Step s { s with scur := s.scur + n }
  | mark (s : Scanner) : Step s { s with smrk := s.scur }
  | context (s : Scanner) : Step s { s with sctx := s.scur }
  | restoreMarker (s : Scanner) (inToken : s.stok ≤ s.smrk) (inside : s.smrk ≤ bsize) :
      Step s { s with scur := s.smrk }
  | restoreContext (s : Scanner) (inToken : s.stok ≤ s.sctx) (inside : s.sctx ≤ bsize) :
      Step s { s with scur := s.sctx }
  | refill (s : Scanner) (need : Int) (succeeds : 0 < (fillbuffer fillBuffer need s).sres) :
      Step s (fillbuffer fillBuffer need s)

/-- The scanner was declared as `d` and filled its buffer, and came to `s`. -/
def Reached (d s : Scanner) : Prop :=
  ReflTransGen (Step fillBuffer) (fillbuffer fillBuffer 0 d) s

end Macros

/-- The absolute file offset of a pointer. -/
def offset (s : Scanner) (p : Int) : Int := s.base + p

/-- The pointers that are not before the token start are still at the same bytes of the file. -/
structure Keeps (s s' : Scanner) : Prop where
  token : offset s' s'.stok = offset s s.stok
  cursor : s.stok ≤ s.scur → offset s' s'.scur = offset s s.scur
  marker : s.stok ≤ s.smrk → offset s' s'.smrk = offset s s.smrk
  context : s.stok ≤ s.sctx → offset s' s'.sctx = offset s s.sctx

/-- Refills keep the positions, and `REGEX_POS` is right, in the whole run. -/
structure KeepsPositions (file : List UInt8) (fillBuffer : FillBuffer) (d : Scanner) : Prop where
  first : Keeps d (fillbuffer fillBuffer 0 d)
  refill : ∀ s need, Reached fillBuffer d s → 0 < (fillbuffer fillBuffer need s).sres →
    Keeps s (fillbuffer fillBuffer need s)
  pos : ∀ s, Reached fillBuffer d s → regexPos s = offset s s.scur
  bytes : ∀ s, Reached fillBuffer d s → ∀ i : Nat, i < s.slim →
    file[s.base + i]? = some (s.sbuffer i)

variable {file : List UInt8} {fillBuffer : FillBuffer}

/-! ## One refill -/

/-- The pointers are in order, and the buffer holds the file from `base` on. -/
structure Valid (file : List UInt8) (s : Scanner) : Prop where
  token : 0 ≤ s.stok
  cursor : s.stok ≤ s.scur
  inside : s.scur ≤ bsize
  limit : 0 ≤ s.slim ∧ s.slim ≤ bsize
  marker : 0 ≤ s.smrk ∧ s.smrk < 2 ^ 32
  context : 0 ≤ s.sctx ∧ s.sctx < 2 ^ 32
  pos : (s.pos : Int) = s.base + s.slim
  bytes : ∀ i : Nat, i < s.slim → file[s.base + i]? = some (s.sbuffer i)

theorem toNat_ofInt {x : Int} (nonneg : 0 ≤ x) (small : x < 2 ^ 32) :
    ((BitVec.ofInt 32 x).toNat : Int) = x := by
  rw [BitVec.toNat_ofInt, Int.toNat_of_nonneg (Int.emod_nonneg _ (by decide))]
  exact Int.emod_eq_of_lt nonneg small

theorem ofInt_toNat_lt (x : Int) : ((BitVec.ofInt 32 x).toNat : Int) < 2 ^ 32 := by
  have := (BitVec.ofInt 32 x).isLt
  omega

/-- What a refill that succeeds has done. -/
theorem fillbuffer_succeeds (documented : Documented file fillBuffer) {need : Int} {s : Scanner}
    (h : 0 < (fillbuffer fillBuffer need s).sres) :
    ∃ limit buffer' pos' read,
      Fills file s.sbuffer (BitVec.ofInt 32 s.slim) (BitVec.ofInt 32 s.stok) s.pos limit buffer'
        pos' read ∧
      fillbuffer fillBuffer need s =
        { s with
          slim := limit, stok := 0, scur := (BitVec.ofInt 32 (s.scur - s.stok)).toNat,
          smrk := (BitVec.ofInt 32 (s.smrk - s.stok)).toNat,
          sctx := (BitVec.ofInt 32 (s.sctx - s.stok)).toNat, sres := limit, sbuffer := buffer',
          pos := pos', base := s.base + (BitVec.ofInt 32 s.stok).toNat } := by
  rcases result : fillBuffer s.sbuffer bsize (BitVec.ofInt 32 s.slim) (BitVec.ofInt 32 s.stok)
    (BitVec.ofInt 32 need) s.pos with ⟨limit, buffer', pos'⟩
  simp only [fillbuffer, result] at h ⊢
  split at h
  · simp at h
  · split at h
    · simp at h
    · next nonzero enough =>
      obtain ⟨read, fills⟩ := documented _ _ _ _ _ _ _ _ result h
      exact ⟨limit, buffer', pos', read, fills, by rw [if_neg nonzero, if_neg enough]⟩

/-- The bytes that were moved, and those that follow them. -/
theorem Fills.bytes {s : Scanner} {filled cursor : BitVec 32} {limit : Int} {buffer' : Nat → UInt8}
    {pos' read : Nat} (fills : Fills file s.sbuffer filled cursor s.pos limit buffer' pos' read)
    (whole : (filled.toNat : Int) = s.slim) (valid : Valid file s) (i : Nat) (h : i < limit) :
    file[s.base + cursor.toNat + i]? = some (buffer' i) := by
  have inside := fills.inside
  have available := fills.available
  have pos := valid.pos
  by_cases old : cursor.toNat + i < filled.toNat
  · rw [fills.moved i old, Nat.add_assoc]
    exact valid.bytes (cursor.toNat + i) (by omega)
  · obtain ⟨j, rfl⟩ := Nat.exists_eq_add_of_le (show filled.toNat - cursor.toNat ≤ i by omega)
    rw [show s.base + cursor.toNat + (filled.toNat - cursor.toNat + j) = s.pos + j by omega]
    exact fills.follows j (by omega)

theorem Valid.fillbuffer (documented : Documented file fillBuffer) {need : Int} {s : Scanner}
    (valid : Valid file s) (h : 0 < (fillbuffer fillBuffer need s).sres) :
    Valid file (fillbuffer fillBuffer need s) ∧ Keeps s (fillbuffer fillBuffer need s) := by
  obtain ⟨limit, buffer', pos', read, fills, refilled⟩ := fillbuffer_succeeds documented h
  have positive : 0 < limit := by
    rw [refilled] at h
    exact h
  rw [refilled]
  have inside : s.scur ≤ 1024 := valid.inside
  have limitInside : s.slim ≤ 1024 := valid.limit.2
  have inToken := valid.cursor
  have token := toNat_ofInt valid.token (show s.stok < 2 ^ 32 by omega)
  have filled := toNat_ofInt valid.limit.1 (show s.slim < 2 ^ 32 by omega)
  have cursor := toNat_ofInt (show 0 ≤ s.scur - s.stok by omega)
    (show s.scur - s.stok < 2 ^ 32 by have := valid.token; omega)
  constructor
  · refine ⟨Int.le_refl 0, Int.natCast_nonneg _, ?_, ⟨Int.le_of_lt positive, fills.fits⟩,
      ⟨Int.natCast_nonneg _, ofInt_toNat_lt _⟩, ⟨Int.natCast_nonneg _, ofInt_toNat_lt _⟩, ?_,
      fills.bytes filled valid⟩
    · have := valid.token
      have shorter : s.scur - s.stok ≤ bsize := Int.le_trans (by omega) valid.inside
      dsimp only
      rwa [cursor]
    · have := fills.available
      have := fills.advances
      have := fills.inside
      have := valid.pos
      dsimp only
      omega
  · have rebased {p : Int} (before : s.stok ≤ p) (small : p < 2 ^ 32) :
        ((s.base + (BitVec.ofInt 32 s.stok).toNat : Nat) : Int) +
          (BitVec.ofInt 32 (p - s.stok)).toNat = s.base + p := by
      rw [toNat_ofInt (show 0 ≤ p - s.stok by omega)
        (show p - s.stok < 2 ^ 32 by have := valid.token; omega)]
      omega
    refine ⟨?_, fun before => rebased before (by omega), fun before =>
      rebased before valid.marker.2, fun before => rebased before valid.context.2⟩
    dsimp only [offset]
    omega

/-! ## Runs -/

theorem Valid.step (documented : Documented file fillBuffer) {s s' : Scanner}
    (valid : Valid file s) (step : Step fillBuffer s s') : Valid file s' := by
  have token := valid.token
  have cursor := valid.cursor
  have small : s.scur < 2 ^ 32 := by
    have : s.scur ≤ 1024 := valid.inside
    omega
  cases step with
  | token => exact { valid with token := Int.le_trans token cursor, cursor := Int.le_refl _ }
  | advance n inside => exact { valid with cursor := by dsimp only; omega, inside := inside }
  | mark => exact { valid with marker := ⟨Int.le_trans token cursor, small⟩ }
  | context => exact { valid with context := ⟨Int.le_trans token cursor, small⟩ }
  | restoreMarker inToken inside => exact { valid with cursor := inToken, inside := inside }
  | restoreContext inToken inside => exact { valid with cursor := inToken, inside := inside }
  | refill need succeeds => exact (valid.fillbuffer documented succeeds).1

theorem Valid.reached (documented : Documented file fillBuffer) {d s : Scanner}
    (valid : Valid file d) (succeeds : 0 < (ScannerRefill.fillbuffer fillBuffer 0 d).sres)
    (run : Reached fillBuffer d s) : Valid file s := by
  induction run with
  | refl => exact (valid.fillbuffer documented succeeds).1
  | tail _ step ih => exact ih.step documented step

theorem declared_valid {u : Uninitialized} (pos : Nat) (h : u.stok = 0) :
    Valid file (declared u pos) where
  token := Int.le_of_eq h.symm
  cursor := Int.le_of_eq h
  inside := Int.natCast_nonneg _
  limit := ⟨Int.le_refl 0, Int.natCast_nonneg _⟩
  marker := ⟨Int.le_refl 0, by simp [declared]⟩
  context := ⟨Int.le_refl 0, by simp [declared]⟩
  pos := (Int.add_zero _).symm
  bytes i h := absurd h (by simp [declared])

theorem seekCur_eq_iff (pos : Nat) : seekCur pos = pos ↔ pos < 2 ^ 31 := by
  unfold seekCur
  rw [BitVec.toInt_ofNat']
  constructor
  · intro same
    have bound : ((pos : Int).bmod (2 ^ 32)) < 2 ^ 31 := Int.bmod_lt (by decide)
    omega
  · intro small
    exact Int.bmod_eq_of_le (by omega) (by omega)

/-- `REGEX_POS` is right where `seek` can tell the position. -/
theorem regexPos_eq_iff {s : Scanner} (valid : Valid file s) :
    regexPos s = offset s s.scur ↔ s.pos < 2 ^ 31 := by
  rw [← seekCur_eq_iff, regexPos, offset]
  have := valid.pos
  constructor
  · intro right
    omega
  · intro right
    omega

/-- A scanner has read something, and only steps that refill change how much. -/
theorem slim_pos (documented : Documented file fillBuffer) {d s : Scanner}
    (succeeds : 0 < (fillbuffer fillBuffer 0 d).sres) (run : Reached fillBuffer d s) :
    0 < s.slim := by
  have filled : ∀ {need : Int} {s : Scanner}, 0 < (fillbuffer fillBuffer need s).sres →
      0 < (fillbuffer fillBuffer need s).slim := by
    intro need s positive
    obtain ⟨limit, buffer', pos', read, -, refilled⟩ := fillbuffer_succeeds documented positive
    rw [refilled] at positive ⊢
    exact positive
  induction run with
  | refl => exact filled succeeds
  | tail _ step ih =>
    cases step with
    | refill need succeeds => exact filled succeeds
    | _ => exact ih

/-- The position of the file is not behind its end. -/
theorem pos_le (documented : Documented file fillBuffer) {d s : Scanner} (valid : Valid file d)
    (succeeds : 0 < (fillbuffer fillBuffer 0 d).sres) (run : Reached fillBuffer d s) :
    s.pos ≤ file.length := by
  have positive := slim_pos documented succeeds run
  have valid := valid.reached documented succeeds run
  have last := valid.bytes (s.slim.toNat - 1) (by omega)
  have inside := (List.getElem?_eq_some_iff.mp last).1
  have := valid.pos
  omega

/-- Exactly when `re2c_stok` was the start of the buffer when the first refill read it, and the
position of the file stays below 2^31. -/
theorem keepsPositions_iff (documented : Documented file fillBuffer) (u : Uninitialized) (pos : Nat)
    (succeeds : 0 < (fillbuffer fillBuffer 0 (declared u pos)).sres) :
    KeepsPositions file fillBuffer (declared u pos) ↔
      u.stok = 0 ∧ ∀ s, Reached fillBuffer (declared u pos) s → s.pos < 2 ^ 31 := by
  constructor
  · intro keeps
    obtain ⟨limit, buffer', pos', read, fills, refilled⟩ := fillbuffer_succeeds documented succeeds
    have token := keeps.first.token
    have empty : (BitVec.ofInt 32 u.stok).toNat = 0 := Nat.le_zero.mp fills.inside
    rw [refilled] at token
    simp only [offset, declared, empty] at token
    have start : u.stok = 0 := by omega
    refine ⟨start, fun s run => ?_⟩
    have valid : Valid file (declared u pos) := declared_valid pos start
    exact (regexPos_eq_iff (valid.reached documented succeeds run)).mp (keeps.pos s run)
  · rintro ⟨h, small⟩
    have valid : Valid file (declared u pos) := declared_valid pos h
    refine ⟨(valid.fillbuffer documented succeeds).2, fun s need run succeeds' => ?_,
      fun s run => ?_, fun s run => ?_⟩
    · exact ((valid.reached documented succeeds run).fillbuffer documented succeeds').2
    · exact (regexPos_eq_iff (valid.reached documented succeeds run)).mpr (small s run)
    · exact (valid.reached documented succeeds run).bytes

/-! ## A file of three bytes -/

/-- Reads as much as there is room for. -/
def readAhead (file : List UInt8) : FillBuffer := fun buffer len filled cursor _ pos =>
  let remaining := filled.toNat - cursor.toNat
  let read := min (len.toNat - remaining) (file.length - pos)
  if len < filled ∨ filled < cursor then (-1, buffer, pos)
  else if file.length ≤ pos then (0, buffer, pos)
  else if read = 0 then (-1, buffer, pos)
  else
    (remaining + read,
      fun i => if i < remaining then buffer (cursor.toNat + i)
        else file.getD (pos + (i - remaining)) 0,
      pos + read)

theorem readAhead_documented (file : List UInt8) : Documented file (readAhead file) := by
  intro buffer filled cursor fill pos limit buffer' pos' h positive
  rw [readAhead] at h
  split_ifs at h with outside atEnd full
  · obtain ⟨rfl, -⟩ := Prod.mk.inj h
    simp at positive
  · obtain ⟨rfl, -⟩ := Prod.mk.inj h
    simp at positive
  · obtain ⟨rfl, -⟩ := Prod.mk.inj h
    simp at positive
  · simp only [Prod.mk.injEq] at h
    obtain ⟨rfl, rfl, rfl⟩ := h
    simp only [BitVec.lt_def, not_or, Nat.not_lt] at outside
    have size : (bsize : BitVec 32).toNat = bsize := by decide
    have inside := outside.2
    have fits := outside.1
    rw [size] at fits ⊢
    refine ⟨_, ⟨inside, by omega, by omega, rfl, fun i hi => if_pos (by omega), fun i hi => ?_⟩⟩
    have inFile : pos + i < file.length := by omega
    rw [if_neg (by omega), Nat.add_sub_cancel_left]
    simp [List.getD_eq_getElem?_getD, inFile]

def abc : List UInt8 := [0x61, 0x62, 0x63]

theorem abc_keepsPositions :
    KeepsPositions abc (readAhead abc) (declared ⟨0, 0, fun _ => 0⟩ 0) := by
  have documented := readAhead_documented abc
  have succeeds : 0 < (fillbuffer (readAhead abc) 0 (declared ⟨0, 0, fun _ => 0⟩ 0)).sres := by
    decide
  refine (keepsPositions_iff documented ⟨0, 0, fun _ => 0⟩ 0 succeeds).mpr ⟨rfl, fun s run => ?_⟩
  have inside := pos_le documented (declared_valid 0 rfl) succeeds run
  exact inside.trans_lt (by decide)

/-- A pointer that was not initialized, to a place 2^32 bytes from the buffer. -/
theorem abc_tokenMoves :
    Documented abc (readAhead abc) ∧
      0 < (fillbuffer (readAhead abc) 0 (declared ⟨2 ^ 32, 0, fun _ => 0⟩ 0)).sres ∧
      ¬ KeepsPositions abc (readAhead abc) (declared ⟨2 ^ 32, 0, fun _ => 0⟩ 0) :=
  ⟨readAhead_documented abc, by decide, fun keeps => absurd keeps.first.token (by decide)⟩

end ScannerRefill
