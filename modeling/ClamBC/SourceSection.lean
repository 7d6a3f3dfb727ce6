import ClamBC.BytecodeStream

/-!
# The source in the bytecode file

`finished` ends the file with the source of the signature, or with its copyright text. The section
starts with `S`, every character is two nibbles, and blanks at the start of a line are skipped. A
line ends with `S`, or with a newline when at least 80 characters have been printed since the last
one.

A decoder that reads both as line breaks gets the lines back. The end of the text can print one
newline more.
-/

namespace SourceSection

open BytecodeStream

def isBlank (c : UInt8) : Bool := c = 0x20 || c = 0x09

/-- Which of the two inner loops reads the next character: the one that skips blanks at the
beginning of a line, or the one that prints the line. -/
inductive Loop where
  | blanks | line
  deriving DecidableEq

/-- Behind the inner loops. The text is over if the character is 0. -/
def endLine (c : UInt8) (linelength : UInt32) : List Nat × UInt32 :=
  if c ≠ 0 ∧ linelength < 80 then ([0x53], linelength)
  else if 0 < linelength then ([0x0a], 0)
  else ([], linelength)

/-- What is printed from a place in the loops on. The terminator is behind the list. -/
def printText : Loop → UInt32 → List UInt8 → List Nat
  | _, linelength, [] => (endLine 0 linelength).1
  | loop, linelength, c :: start =>
    if loop = .blanks ∧ isBlank c = true then printText .blanks linelength start
    else if c = 0 then (endLine c linelength).1
    else if c = 0x0a then
      (endLine c linelength).1 ++ printText .blanks (endLine c linelength).2 start
    else printByte c ++ printText .line (linelength + 1) start

def printSource (text : List UInt8) : List Nat := 0x53 :: printText .blanks 0 text

/-- The text that is printed, or the message of the stop. -/
def sourceText (copyright : List UInt8) (inputSourceFile sourceFileName : String)
    (getFile : String → Option (List UInt8)) :
    Except String (List UInt8) :=
  if copyright ≠ [] then .ok copyright
  else
    let srcFile := if inputSourceFile = "" then sourceFileName else inputSourceFile
    if srcFile = "" then
      .error "Bytecode should either have source code or include copyright statement\n"
    else
      match getFile srcFile with
      | none => .error ("Unable to (re)open input file: " ++ srcFile)
      | some text => .ok text

/-- The part of `finished` behind the code. -/
def finished (copyright : List UInt8) (inputSourceFile sourceFileName : String)
    (getFile : String → Option (List UInt8)) :
    Except String (List Nat) :=
  (sourceText copyright inputSourceFile sourceFileName getFile).map printSource

/-! ## Reading it back -/

def isBreak (c : Nat) : Bool := c = 0x53 || c = 0x0a

def isNibble (c : Nat) : Bool := 0x60 ≤ c && c ≤ 0x6f

/-- Nibble pairs, the low nibble first. -/
def decodeLine : List Nat → Option (List UInt8)
  | [] => some []
  | [_] => none
  | low :: high :: rest =>
    if isNibble low && isNibble high then
      (decodeLine rest).map (UInt8.ofNat (low - 0x60 + 16 * (high - 0x60)) :: ·)
    else none

def decodeBody (body : List Nat) : Option (List (List UInt8)) :=
  (body.splitOnP isBreak).mapM decodeLine

/-- The leading `S` is dropped. -/
def decode : List Nat → Option (List (List UInt8))
  | [] => none
  | c :: body => if c = 0x53 then decodeBody body else none

def strip (line : List UInt8) : List UInt8 := line.dropWhile isBlank

/-- The lines of a text, without the blanks and tabs in front. The text ends at the first 0. -/
def sourceLines (text : List UInt8) : List (List UInt8) :=
  ((text.takeWhile (· ≠ 0)).splitOn 0x0a).map strip

/-! The decoder on what is printed. -/

theorem decodeBody_break {c : Nat} (isBrk : isBreak c = true) (rest : List Nat) :
    decodeBody (c :: rest) = (decodeBody rest).map ([] :: ·) := by
  unfold decodeBody
  rw [List.splitOnP_cons_eq_if_modifyHead, if_pos isBrk, List.mapM_cons]
  cases (rest.splitOnP isBreak).mapM decodeLine <;> rfl

theorem isNibble_code (n : Nat) :
    isNibble (0x60 ||| (n &&& 0xf)) = true ∧ isBreak (0x60 ||| (n &&& 0xf)) = false := by
  have low : n % 16 < 16 := Nat.mod_lt n (by decide)
  rw [nibble_code]
  simp only [isNibble, isBreak, Bool.and_eq_true, Bool.or_eq_false_iff, decide_eq_true_eq,
    decide_eq_false_iff_not]
  omega

theorem decodeLine_byte (c : UInt8) (rest : List Nat) :
    decodeLine (printByte c ++ rest) = (decodeLine rest).map (c :: ·) := by
  have value : UInt8.ofNat ((0x60 ||| (c.toNat &&& 0xf)) - 0x60 + 16 *
      ((0x60 ||| ((c.toNat >>> 4) &&& 0xf)) - 0x60)) = c := by
    rw [nibble_code, nibble_code, shiftRight_nibble, Nat.add_sub_cancel_left,
      Nat.add_sub_cancel_left]
    have small := c.toNat_lt
    rw [Nat.mod_eq_of_lt (by omega : c.toNat / 16 < 16), Nat.mod_add_div]
    exact UInt8.ofNat_toNat
  show (if _ then _ else _) = _
  rw [(isNibble_code _).1, (isNibble_code _).1]
  show (decodeLine rest).map _ = _
  rw [value]

theorem decodeBody_byte (c : UInt8) (rest : List Nat) :
    decodeBody (printByte c ++ rest) = (decodeBody rest).map (List.modifyHead (c :: ·)) := by
  obtain ⟨line, lines, split⟩ := List.exists_cons_of_ne_nil (List.splitOnP_ne_nil isBreak rest)
  have more : (printByte c ++ rest).splitOnP isBreak = (printByte c ++ line) :: lines := by
    show (_ :: _ :: rest).splitOnP isBreak = _
    rw [List.splitOnP_cons_eq_if_modifyHead, (isNibble_code _).2,
      List.splitOnP_cons_eq_if_modifyHead, (isNibble_code _).2, split]
    rfl
  unfold decodeBody
  rw [more, split, List.mapM_cons, List.mapM_cons, decodeLine_byte]
  cases decodeLine line with
  | none => rfl
  | some bytes => cases lines.mapM decodeLine <;> rfl

/-! The lines from a place in the loops on. -/

/-- A line that has been begun is not stripped. -/
def linesFrom (loop : Loop) (text : List UInt8) : List (List UInt8) :=
  match loop, (text.takeWhile (· ≠ 0)).splitOn 0x0a with
  | .blanks, lines => lines.map strip
  | .line, lines => lines.take 1 ++ (lines.drop 1).map strip

theorem linesFrom_nil (loop : Loop) : linesFrom loop [] = [[]] := by cases loop <;> rfl

theorem linesFrom_ne_nil (loop : Loop) (text : List UInt8) : linesFrom loop text ≠ [] := by
  cases loop <;> simp [linesFrom]

theorem linesFrom_zero (loop : Loop) (text : List UInt8) : linesFrom loop (0 :: text) = [[]] := by
  cases loop <;> rfl

theorem linesFrom_newline (loop : Loop) (text : List UInt8) :
    linesFrom loop (0x0a :: text) = [] :: linesFrom .blanks text := by
  have split : ((0x0a :: text).takeWhile (· ≠ 0)).splitOn (0x0a : UInt8) =
      [] :: (text.takeWhile (· ≠ 0)).splitOn 0x0a := by
    rw [List.takeWhile_cons_of_pos (by decide), List.splitOn_cons_eq_if_modifyHead,
      if_pos (by decide)]
  cases loop
  · simp only [linesFrom, split]
    rfl
  · simp only [linesFrom, split]
    rfl

theorem takeWhile_split {c : UInt8} (notZero : c ≠ 0) (notNewline : c ≠ 0x0a) (text : List UInt8) :
    ((c :: text).takeWhile (· ≠ 0)).splitOn 0x0a =
      ((text.takeWhile (· ≠ 0)).splitOn 0x0a).modifyHead (c :: ·) := by
  rw [List.takeWhile_cons_of_pos (by simpa using notZero), List.splitOn_cons_eq_if_modifyHead,
    if_neg (by simpa using notNewline)]

theorem linesFrom_blank {c : UInt8} (blank : isBlank c = true) (text : List UInt8) :
    linesFrom .blanks (c :: text) = linesFrom .blanks text := by
  have notZero : c ≠ 0 := by rintro rfl; cases blank
  have notNewline : c ≠ 0x0a := by rintro rfl; cases blank
  obtain ⟨line, lines, split⟩ :=
    List.exists_cons_of_ne_nil (List.splitOn_ne_nil (0x0a : UInt8) (text.takeWhile (· ≠ 0)))
  simp only [linesFrom, takeWhile_split notZero notNewline, split]
  show strip (c :: line) :: _ = strip line :: _
  rw [strip, List.dropWhile_cons_of_pos blank, strip]

theorem linesFrom_char {loop : Loop} {c : UInt8}
    (notSkipped : ¬ (loop = .blanks ∧ isBlank c = true)) (notZero : c ≠ 0)
    (notNewline : c ≠ 0x0a) (text : List UInt8) :
    linesFrom loop (c :: text) = (linesFrom .line text).modifyHead (c :: ·) := by
  obtain ⟨line, lines, split⟩ :=
    List.exists_cons_of_ne_nil (List.splitOn_ne_nil (0x0a : UInt8) (text.takeWhile (· ≠ 0)))
  cases loop with
  | blanks =>
    have notBlank : ¬ isBlank c = true := fun blank => notSkipped ⟨rfl, blank⟩
    simp only [linesFrom, takeWhile_split notZero notNewline, split]
    show strip (c :: line) :: _ = (c :: line) :: _
    rw [strip, List.dropWhile_cons_of_neg notBlank]
    rfl
  | line =>
    simp only [linesFrom, takeWhile_split notZero notNewline, split]
    rfl

/-- The end of the text prints nothing or one newline. -/
theorem decodeBody_end (linelength : UInt32) :
    ∃ trailing, decodeBody (endLine 0 linelength).1 = some ([[]] ++ trailing) ∧
      (trailing = [] ∨ trailing = [[]]) := by
  have noMore : ¬ ((0 : UInt8) ≠ 0 ∧ linelength < 80) := fun both => both.1 rfl
  rw [endLine, if_neg noMore]
  split_ifs
  · exact ⟨[[]], rfl, .inr rfl⟩
  · exact ⟨[], rfl, .inl rfl⟩

/-- A newline always prints one line break: where it does not print `S` the length is at least 80.
-/
theorem endLine_newline (linelength : UInt32) :
    ∃ c, (endLine 0x0a linelength).1 = [c] ∧ isBreak c = true := by
  unfold endLine
  split_ifs with short positive
  · exact ⟨0x53, rfl, rfl⟩
  · exact ⟨0x0a, rfl, rfl⟩
  · refine absurd ⟨by decide, ?_⟩ short
    have zero : linelength.toNat = 0 := by simpa [UInt32.lt_iff_toNat_lt] using positive
    rw [UInt32.lt_iff_toNat_lt, zero]
    decide

/-- By induction on the text, for any place in the loops and any length. -/
theorem decodeBody_printText (loop : Loop) (linelength : UInt32) (text : List UInt8) :
    ∃ trailing, decodeBody (printText loop linelength text) =
      some (linesFrom loop text ++ trailing) ∧
      (trailing = [] ∨ trailing = [[]]) := by
  induction text generalizing loop linelength with
  | nil =>
    rw [linesFrom_nil]
    exact decodeBody_end linelength
  | cons c text ih =>
    rw [printText]
    split_ifs with skipped isZero isNewline
    · obtain ⟨rfl, blank⟩ := skipped
      rw [linesFrom_blank blank]
      exact ih .blanks linelength
    · subst isZero
      rw [linesFrom_zero]
      exact decodeBody_end linelength
    · subst isNewline
      obtain ⟨brk, printed, isBrk⟩ := endLine_newline linelength
      obtain ⟨trailing, decoded, short⟩ := ih .blanks (endLine 0x0a linelength).2
      refine ⟨trailing, ?_, short⟩
      rw [printed, List.singleton_append, decodeBody_break isBrk, decoded, linesFrom_newline]
      rfl
    · obtain ⟨trailing, decoded, short⟩ := ih .line (linelength + 1)
      refine ⟨trailing, ?_, short⟩
      obtain ⟨line, lines, begun⟩ := List.exists_cons_of_ne_nil (linesFrom_ne_nil .line text)
      rw [decodeBody_byte, decoded, linesFrom_char skipped isZero isNewline, begun]
      rfl

/-- The lines of the source can be read back. -/
theorem decode_printSource (text : List UInt8) :
    ∃ lines, decode (printSource text) = some lines ∧
      (lines = sourceLines text ∨ lines = sourceLines text ++ [[]]) := by
  obtain ⟨trailing, decoded, short⟩ := decodeBody_printText .blanks 0 text
  refine ⟨_, decoded, ?_⟩
  rcases short with rfl | rfl
  · exact .inl (List.append_nil _)
  · exact .inr rfl

example : decode (printSource [0x20, 0x61, 0x0a, 0x0a, 0x09, 0x62]) =
    some [[0x61], [], [0x62], []] := by decide

end SourceSection
