import ClamBC.TextLines
import Mathlib.Algebra.Order.Ring.Int

/-!
# The announced line length

The writer keeps the body in a buffer and measures every text between two calls of `printEOL`,
and the header announces one more than the greatest length. The measure is an `int`, so of a
text of 2^32 bytes and more only the remainder is seen.
-/

namespace LineLengths

open TextLines

def newline : UInt8 := 0x0a

structure Writer where
  lineBuffer : List UInt8
  maxLineLength : BitVec 32
  lastLinePos : BitVec 32

/-- What the writer does between its construction and `finished`. -/
inductive Op where
  | print (bytes : List UInt8)
  | printEOL

def start : Writer := ⟨[], 0, 0⟩

/-- A `size_t` and an `int` are subtracted, and the difference is an `int` again. It stops
at the assertion when that is not positive. -/
def printEOL (w : Writer) : Option Writer :=
  let lineBuffer := w.lineBuffer ++ [newline]
  let size := BitVec.ofNat 64 lineBuffer.length
  let diff := (size - w.lastLinePos.signExtend 64).setWidth 32
  if BitVec.slt 0 diff then
    some ⟨lineBuffer, if w.maxLineLength.slt diff then diff else w.maxLineLength,
      size.setWidth 32⟩
  else none

def step (w : Writer) : Op → Option Writer
  | .print bytes => some { w with lineBuffer := w.lineBuffer ++ bytes }
  | .printEOL => printEOL w

def run (w : Writer) (ops : List Op) : Option Writer := ops.foldlM step w

/-- The last part of the header. -/
def printModuleHeader (maxLine : BitVec 32) : BitVec 32 := if maxLine < 4096 then 4096 else maxLine

/-- The end of the header, and the body in front of the source section. -/
structure Output where
  maxLine : BitVec 32
  body : List UInt8

def finished (w : Writer) : Output := ⟨printModuleHeader (w.maxLineLength + 1), w.lineBuffer⟩

/-- From the construction of the writer on. -/
def doFinalization (ops : List Op) : Option Output :=
  (run start (ops ++ [.printEOL])).map finished

/-- The line length that is announced is enough for every line. -/
def Sufficient (out : Output) : Prop :=
  ∀ line ∈ lines newline out.body, line.length + 1 ≤ out.maxLine.toNat

/-- What was printed between the calls of `printEOL`, each text with its newline. -/
def texts (text : List UInt8) : List Op → List (List UInt8)
  | [] => []
  | .print bytes :: ops => texts (text ++ bytes) ops
  | .printEOL :: ops => (text ++ [newline]) :: texts [] ops

/-- The length of a text as it is measured, if it is not negative. -/
def measured (text : List UInt8) : Nat := text.length % 2 ^ 32

/-- Every line that is longer than the least number that is announced is not longer than some
text is measured. -/
def Measured (ops : List Op) : Prop :=
  ∀ text ∈ texts [] (ops ++ [.printEOL]), ∀ line ∈ lines newline text,
    line.length < 4096 ∨ ∃ other ∈ texts [] (ops ++ [.printEOL]), line.length ≤ measured other

/-! ## What is measured -/

theorem texts_ended (cur : List UInt8) (ops : List Op) :
    ∀ t ∈ texts cur ops, ∃ text, t = text ++ [newline] := by
  induction ops generalizing cur with
  | nil => nofun
  | cons op ops ih =>
    cases op with
    | print bytes => exact ih (cur ++ bytes)
    | printEOL =>
      intro t ht
      rcases List.mem_cons.mp ht with rfl | ht
      · exact ⟨cur, rfl⟩
      · exact ih [] t ht

/-- What is printed behind the last call of `printEOL`. -/
def unfinished (text : List UInt8) : List Op → List UInt8
  | [] => text
  | .print bytes :: ops => unfinished (text ++ bytes) ops
  | .printEOL :: ops => unfinished [] ops

/-- The writer has measured the texts `ts` and then printed `cur`. -/
structure After (ts : List (List UInt8)) (cur : List UInt8) (w : Writer) : Prop where
  buffer : w.lineBuffer = ts.flatten ++ cur
  pos : w.lastLinePos = BitVec.ofNat 32 ts.flatten.length
  nonneg : w.maxLineLength.toNat < 2 ^ 31
  greatest : ∀ t ∈ ts, measured t ≤ w.maxLineLength.toNat
  attained : w.maxLineLength = 0 ∨ ∃ t ∈ ts, measured t = w.maxLineLength.toNat

theorem start_after : After [] [] start :=
  ⟨rfl, rfl, by decide, nofun, .inl rfl⟩

theorem setWidth_signExtend (x : BitVec 32) : (x.signExtend 64).setWidth 32 = x := by
  ext i hi
  have inside : i < 64 := by omega
  simp [BitVec.getElem_signExtend, hi, inside]

/-- The conversions of the difference lose what is lost by the conversion of the length. -/
theorem diff_eq (pos length : Nat) :
    (BitVec.ofNat 64 (pos + length) - (BitVec.ofNat 32 pos).signExtend 64).setWidth 32 =
      BitVec.ofNat 32 length := by
  rw [BitVec.sub_eq_add_neg, BitVec.setWidth_add _ _ (by decide),
    BitVec.setWidth_neg_of_le (by decide), setWidth_signExtend,
    BitVec.setWidth_ofNat_of_le (by decide), BitVec.ofNat_add, ← BitVec.sub_eq_add_neg,
    BitVec.add_comm, BitVec.add_sub_cancel]

theorem slt_iff {x y : BitVec 32} (hx : x.toNat < 2 ^ 31) :
    x.slt y = true ↔ x.toNat < y.toNat ∧ y.toNat < 2 ^ 31 := by
  rw [BitVec.slt_iff_toInt_lt, BitVec.toInt_eq_toNat_cond, BitVec.toInt_eq_toNat_cond]
  have := y.isLt
  split <;> split <;> omega

theorem printEOL_after {ts : List (List UInt8)} {cur : List UInt8} {w w' : Writer}
    (after : After ts cur w) (h : printEOL w = some w') :
    After (ts ++ [cur ++ [newline]]) [] w' := by
  obtain ⟨lineBuffer, maxLineLength, lastLinePos⟩ := w
  obtain ⟨rfl, rfl, nonneg, greatest, attained⟩ := after
  dsimp only at nonneg greatest attained
  have length : (ts.flatten ++ cur ++ [newline]).length =
      ts.flatten.length + (cur ++ [newline]).length := by
    simp
  have measures : (BitVec.ofNat 32 (cur ++ [newline]).length).toNat = measured (cur ++ [newline]) :=
    BitVec.toNat_ofNat _ _
  simp only [printEOL, length, diff_eq] at h
  split at h
  · next positive =>
    obtain ⟨-, small⟩ := (slt_iff (by decide)).mp positive
    obtain rfl := Option.some.inj h
    have buffer : ts.flatten ++ cur ++ [newline] = (ts ++ [cur ++ [newline]]).flatten ++ [] := by
      simp
    have pos : (BitVec.ofNat 64 (ts.flatten.length + (cur ++ [newline]).length)).setWidth 32 =
        BitVec.ofNat 32 (ts ++ [cur ++ [newline]]).flatten.length := by
      rw [BitVec.setWidth_ofNat_of_le (by decide), ← length, buffer, List.append_nil]
    split
    · next longer =>
      have more := ((slt_iff nonneg).mp longer).1
      rw [measures] at more small
      refine ⟨buffer, pos, by rwa [measures], fun t ht => ?_, .inr ⟨_, List.mem_append_right _
        (List.mem_singleton.mpr rfl), measures.symm⟩⟩
      rw [measures]
      rcases List.mem_append.mp ht with ht | ht
      · exact Nat.le_trans (greatest t ht) (Nat.le_of_lt more)
      · exact Nat.le_of_eq (congrArg measured (List.mem_singleton.mp ht))
    · next shorter =>
      have most : measured (cur ++ [newline]) ≤ maxLineLength.toNat := by
        rw [slt_iff nonneg, measures] at shorter
        rw [measures] at small
        omega
      refine ⟨buffer, pos, nonneg, fun t ht => ?_, attained.imp_right fun ⟨t, ht, same⟩ =>
        ⟨t, List.mem_append_left _ ht, same⟩⟩
      rcases List.mem_append.mp ht with ht | ht
      · exact greatest t ht
      · exact List.mem_singleton.mp ht ▸ most
  · cases h

theorem run_after {ts : List (List UInt8)} {cur : List UInt8} {w w' : Writer} {ops : List Op}
    (after : After ts cur w) (h : run w ops = some w') :
    After (ts ++ texts cur ops) (unfinished cur ops) w' := by
  induction ops generalizing ts cur w with
  | nil =>
    obtain rfl := Option.some.inj h
    rw [texts, unfinished, List.append_nil]
    exact after
  | cons op ops ih =>
    rw [run, List.foldlM_cons] at h
    obtain ⟨mid, first, rest⟩ := Option.bind_eq_some_iff.mp h
    cases op with
    | print bytes =>
      obtain rfl := Option.some.inj first
      have printed : After ts (cur ++ bytes) { w with lineBuffer := w.lineBuffer ++ bytes } :=
        { after with buffer := by rw [after.buffer, List.append_assoc] }
      exact ih printed rest
    | printEOL =>
      have ended := ih (printEOL_after after first) rest
      rw [List.append_assoc] at ended
      exact ended

theorem unfinished_printEOL (cur : List UInt8) (ops : List Op) :
    unfinished cur (ops ++ [.printEOL]) = [] := by
  induction ops generalizing cur with
  | nil => rfl
  | cons op ops ih => cases op <;> exact ih _

/-- The number in the header, for texts of which the greatest measure is known. -/
theorem announced {ts : List (List UInt8)} {cur : List UInt8} {w : Writer} (after : After ts cur w)
    (n : Nat) : n + 1 ≤ (finished w).maxLine.toNat ↔ n < 4096 ∨ ∃ t ∈ ts, n ≤ measured t := by
  have nonneg := after.nonneg
  have next : (w.maxLineLength + 1).toNat = w.maxLineLength.toNat + 1 := by
    rw [BitVec.toNat_add]
    exact Nat.mod_eq_of_lt (by simp; omega)
  have header : (finished w).maxLine.toNat = max 4096 (w.maxLineLength.toNat + 1) := by
    rw [finished, printModuleHeader]
    split
    · next less =>
      rw [BitVec.lt_def, next] at less
      simp at less ⊢
      omega
    · next notLess =>
      rw [BitVec.lt_def, next] at notLess
      simp at notLess ⊢
      omega
  rw [header]
  constructor
  · intro fits
    by_cases small : n < 4096
    · exact .inl small
    · rcases after.attained with zero | ⟨t, ht, same⟩
      · rw [zero] at fits
        simp at fits
        omega
      · exact .inr ⟨t, ht, by omega⟩
  · rintro (small | ⟨t, ht, fits⟩)
    · omega
    · have := after.greatest t ht
      omega

/-- Exactly when every long line is not longer than some text is measured. -/
theorem sufficient_iff (ops : List Op) (out : Output) (h : doFinalization ops = some out) :
    Sufficient out ↔ Measured ops := by
  obtain ⟨w, written, rfl⟩ := Option.map_eq_some_iff.mp h
  have after := run_after start_after written
  rw [unfinished_printEOL, List.nil_append] at after
  have body : (finished w).body = (texts [] (ops ++ [.printEOL])).flatten := by
    rw [finished, after.buffer, List.append_nil]
  rw [Sufficient, body, lines_flatten (texts_ended [] _)]
  simp only [List.forall_mem_flatMap, announced after, Measured]

theorem type_line_sufficient :
    doFinalization [.print [0x54], .printEOL, .print [0x45, 0x60]] =
        some ⟨4096, [0x54, 0x0a, 0x45, 0x60, 0x0a]⟩ ∧
      (Sufficient ⟨4096, [0x54, 0x0a, 0x45, 0x60, 0x0a]⟩ ↔
        Measured [.print [0x54], .printEOL, .print [0x45, 0x60]]) :=
  ⟨rfl, sufficient_iff _ _ rfl⟩

/-- A whole multiple of what an `int` counts is not seen. -/
theorem doFinalization_wrapped {text : List UInt8} (length : text.length = 2 ^ 32) :
    doFinalization [.print text] = some ⟨4096, text ++ [newline]⟩ := by
  have size : (text ++ [newline]).length = 2 ^ 32 + 1 := by
    rw [List.length_append, length, List.length_singleton]
  have ended : printEOL ⟨text, 0, 0⟩ = some ⟨text ++ [newline], 1, 1⟩ := by
    simp only [printEOL, size]
    rfl
  have written : run start [.print text, .printEOL] = some ⟨text ++ [newline], 1, 1⟩ := by
    simp only [run, step, start, List.foldlM_cons, List.foldlM_nil, Option.bind_eq_bind,
      Option.bind_some, List.nil_append, ended]
    rfl
  exact congrArg (Option.map finished) written

/-- A global variable of 2^31 bytes is a line of more than 2^32 characters. -/
theorem wrapped_insufficient :
    ∃ out, doFinalization [.print (List.replicate (2 ^ 32) 0x60)] = some out ∧
      ¬ Sufficient out := by
  have length : (List.replicate (2 ^ 32) (0x60 : UInt8)).length = 2 ^ 32 := List.length_replicate
  have noNewline : newline ∉ List.replicate (2 ^ 32) (0x60 : UInt8) := fun h =>
    absurd (List.eq_of_mem_replicate h) (by decide)
  generalize List.replicate (2 ^ 32) (0x60 : UInt8) = text at length noNewline
  refine ⟨_, doFinalization_wrapped length, fun sufficient => ?_⟩
  have fits := sufficient (text ++ [newline]) (by simp [lines_of_not_mem noNewline])
  rw [List.length_append, length] at fits
  have announced : 2 ^ 32 + 1 + 1 ≤ 4096 := fits
  omega

/-- It is enough that no text between two line ends has 2^32 bytes. -/
theorem measured_of_short {ops : List Op}
    (short : ∀ text ∈ texts [] (ops ++ [.printEOL]), text.length < 2 ^ 32) : Measured ops := by
  intro text ht line hl
  refine .inr ⟨text, ht, ?_⟩
  rw [measured, Nat.mod_eq_of_lt (short text ht)]
  exact line_length_le hl

end LineLengths
