import ClamBC.PrefixReader

/-!
# The nibble format of the bytecode writer

Every field of a bytecode file is printed by one of the routines below as
characters of three alphabets: a number starts with a length character in
`0x60..0x70`, a constant with one in `0x40..0x50`, byte data with `|`, and
digits are nibbles in `0x60..0x6f`, lowest first. Characters are given by
their codes. A reader that knows the sequence of field kinds recovers the
printed fields from any concatenation.

`printFixedNumber` narrows its argument to 32 bits and fills a buffer of 32
characters with a terminator; both limits are part of the model.
-/

namespace BytecodeStream

open PrefixReader

/-- `number[++i] = 0x60 | (n & 0xf); n >>= 4`, while `n > 0`. A 64-bit number
is exhausted after at most 16 rounds. -/
def numberLoop : Nat → Nat → List Nat
  | 0, _ => []
  | rounds + 1, n => if 0 < n then (0x60 ||| (n &&& 0xf)) :: numberLoop rounds (n >>> 4) else []

def printNumber (n : UInt64) (constant : Bool) : List Nat :=
  let digits := numberLoop 16 n.toNat
  ((if constant then 0x40 else 0x60) ||| digits.length) :: digits

/-- `number[i++] = 0x60 | (n & 0xf); n >>= 4; fixed--`, while `fixed > 0`. -/
def fixedLoop : Nat → Nat → List Nat
  | 0, _ => []
  | fixed + 1, n => (0x60 ||| (n &&& 0xf)) :: fixedLoop fixed (n >>> 4)

/-- The routine that prints: `n` is an `unsigned`, and `number` has room for 31
digits and the terminator. `none` stands for the failed assertion on the left-over
digits and for the overflow of the buffer. -/
def printFixedNumber32 (n : UInt32) (fixed : Nat) : Option (List Nat) :=
  if fixed < 32 ∧ n.toNat >>> (4 * fixed) = 0 then some (fixedLoop fixed n.toNat) else none

/-- The public routine takes a `uint64_t` and passes it on as an `unsigned`. -/
def printFixedNumber (n : UInt64) (fixed : Nat) : Option (List Nat) :=
  printFixedNumber32 n.toUInt32 fixed

/-- Bytes in memory: their number is a `size_t`. -/
structure ConstData where
  bytes : List UInt8
  length_lt : bytes.length < 2 ^ 64

def printByte (b : UInt8) : List Nat :=
  [0x60 ||| (b.toNat &&& 0xf), 0x60 ||| ((b.toNat >>> 4) &&& 0xf)]

def printConstData (s : ConstData) : List Nat :=
  0x7c :: (printNumber (UInt64.ofNat s.bytes.length) false ++ s.bytes.flatMap printByte)

/-- What `printOperand` has to print once the value has been classified: an integer
constant of a supported width, the id of a global, or the id of a numbered value. -/
inductive Operand where
  | constant (value : UInt64) (bits : Nat) (supported : 0 < bits ∧ bits ≤ 64)
  | globalId (id : UInt32)
  | valueId (id : UInt32)

/-- A constant of byte width 0 is a global. -/
def printOperand : Operand → Option (List Nat)
  | .constant value bits _ =>
    (printFixedNumber (UInt64.ofNat ((bits + 7) / 8)) 1).map (printNumber value true ++ ·)
  | .globalId id => (printFixedNumber 0 1).map (printNumber id.toUInt64 true ++ ·)
  | .valueId id => some (printNumber id.toUInt64 false)

inductive Field where
  | number (n : UInt64)
  | constant (n : UInt64)
  | fixed (n : UInt64) (width : Nat)
  | data (s : ConstData)
  | operand (o : Operand)

def Field.print : Field → Option (List Nat)
  | .number n => some (printNumber n false)
  | .constant n => some (printNumber n true)
  | .fixed n width => printFixedNumber n width
  | .data s => some (printConstData s)
  | .operand o => printOperand o

def printFields (fields : List Field) : Option (List Nat) :=
  (fields.mapM Field.print).map List.flatten

/-- All that the reader is told in advance about a field. -/
inductive Schema where
  | number
  | constant
  | fixed (width : Nat)
  | data
  | operand

def Field.schema : Field → Schema
  | .number _ => .number
  | .constant _ => .constant
  | .fixed _ width => .fixed width
  | .data _ => .data
  | .operand _ => .operand

inductive Datum where
  | number (n : Nat)
  | bytes (s : List UInt8)
  | constantOperand (value byteWidth : Nat)
  | globalOperand (id : Nat)
  | valueOperand (id : Nat)
  deriving DecidableEq

def Operand.datum : Operand → Datum
  | .constant value bits _ => .constantOperand value.toNat ((bits + 7) / 8)
  | .globalId id => .globalOperand id.toNat
  | .valueId id => .valueOperand id.toNat

/-- What was handed to the printing routine. -/
def Field.datum : Field → Datum
  | .number n => .number n.toNat
  | .constant n => .number n.toNat
  | .fixed n _ => .number n.toNat
  | .data s => .bytes s.bytes
  | .operand o => o.datum

/-! The reader. -/

def readNibble : Reader Nat Nat :=
  bind item fun c => if 0x60 ≤ c ∧ c < 0x70 then pure (c - 0x60) else fail

/-- `count` nibbles, lowest first. -/
def readDigits : Nat → Reader Nat Nat
  | 0 => pure 0
  | count + 1 => bind readNibble fun d => bind (readDigits count) fun n => pure (d + 16 * n)

def readNumber (tag : Nat) : Reader Nat Nat :=
  bind item fun c => if tag ≤ c ∧ c ≤ tag + 16 then readDigits (c - tag) else fail

def readByte : Reader Nat UInt8 := bind (readDigits 2) fun n => pure (UInt8.ofNat n)

def readData : Reader Nat (List UInt8) :=
  bind item fun c =>
    if c = 0x7c then bind (readNumber 0x60) fun len => each (fun _ => readByte) (List.range len)
    else fail

/-- The first character decides between a constant or global and a value id. -/
def readOperand : Reader Nat Datum := fun s =>
  match s with
  | [] => none
  | c :: _ =>
    if c < 0x60 then
      bind (readNumber 0x40) (fun v => bind (readDigits 1) fun width =>
        pure (if width = 0 then .globalOperand v else .constantOperand v width)) s
    else bind (readNumber 0x60) (fun id => pure (.valueOperand id)) s

def Schema.read : Schema → Reader Nat Datum
  | .number => bind (readNumber 0x60) fun n => pure (.number n)
  | .constant => bind (readNumber 0x40) fun n => pure (.number n)
  | .fixed width => bind (readDigits width) fun n => pure (.number n)
  | .data => bind readData fun s => pure (.bytes s)
  | .operand => readOperand

def readFields (schema : List Schema) : Reader Nat (List Datum) := each Schema.read schema

/-! Digits and length characters. -/

theorem nibble_code (n : Nat) : 0x60 ||| (n &&& 0xf) = 0x60 + n % 16 := by
  have small : ∀ d : Fin 16, 0x60 ||| d.val = 0x60 + d.val := by decide
  have mask : n &&& 0xf = n % 16 := Nat.and_two_pow_sub_one_eq_mod n 4
  rw [mask]
  exact small ⟨n % 16, Nat.mod_lt n (by decide)⟩

theorem shiftRight_nibble (n : Nat) : n >>> 4 = n / 16 := Nat.shiftRight_eq_div_pow n 4

theorem length_code (constant : Bool) {i : Nat} (h : i ≤ 16) :
    (if constant then 0x40 else 0x60) ||| i = (if constant then 0x40 else 0x60) + i := by
  have small : ∀ i : Fin 17, (0x40 ||| i.val = 0x40 + i.val) ∧ (0x60 ||| i.val = 0x60 + i.val) := by
    decide
  have at_i := small ⟨i, by omega⟩
  cases constant with
  | true => exact at_i.1
  | false => exact at_i.2

theorem reads_nibble (n : Nat) : Reads readNibble [0x60 ||| (n &&& 0xf)] (n % 16) := by
  have low : n % 16 < 16 := Nat.mod_lt n (by decide)
  rw [nibble_code]
  apply Reads.cons
  rw [if_pos (by omega), Nat.add_sub_cancel_left]
  exact Reads.pure _

/-- One more digit in front of a number that is already read. -/
theorem reads_digit_cons {n count : Nat} {digits : List Nat}
    (tail : Reads (readDigits count) digits (n >>> 4)) :
    Reads (readDigits (count + 1)) ((0x60 ||| (n &&& 0xf)) :: digits) n := by
  have whole : n % 16 + 16 * (n >>> 4) = n := by
    rw [shiftRight_nibble]
    exact Nat.mod_add_div n 16
  have h := Reads.bind (k := fun d => bind (readDigits count) fun m => pure (d + 16 * m))
    (reads_nibble n) (tail.bind_pure (fun m => n % 16 + 16 * m))
  rwa [whole] at h

theorem numberLoop_length_le (rounds n : Nat) : (numberLoop rounds n).length ≤ rounds := by
  induction rounds generalizing n with
  | zero => simp [numberLoop]
  | succ rounds ih =>
    simp only [numberLoop]
    split_ifs
    · exact Nat.succ_le_succ (ih _)
    · exact Nat.zero_le _

theorem reads_numberLoop (rounds n : Nat) (h : n < 16 ^ rounds) :
    Reads (readDigits (numberLoop rounds n).length) (numberLoop rounds n) n := by
  induction rounds generalizing n with
  | zero =>
    have zero : n = 0 := by omega
    subst zero
    exact Reads.pure 0
  | succ rounds ih =>
    by_cases positive : 0 < n
    · have rest : n >>> 4 < 16 ^ rounds := by
        rw [shiftRight_nibble]
        exact Nat.div_lt_of_lt_mul (by rwa [pow_succ, Nat.mul_comm] at h)
      simp only [numberLoop, if_pos positive, List.length_cons]
      exact reads_digit_cons (ih _ rest)
    · have zero : n = 0 := by omega
      subst zero
      exact Reads.pure 0

theorem reads_printNumber (n : UInt64) (constant : Bool) :
    Reads (readNumber (if constant then 0x40 else 0x60)) (printNumber n constant) n.toNat := by
  have short := numberLoop_length_le 16 n.toNat
  have digits := reads_numberLoop 16 n.toNat (by have := n.toNat_lt; omega)
  simp only [printNumber, length_code constant short]
  apply Reads.cons
  rw [if_pos (by omega), Nat.add_sub_cancel_left]
  exact digits

theorem reads_fixedLoop (fixed n : Nat) :
    Reads (readDigits fixed) (fixedLoop fixed n) (n % 16 ^ fixed) := by
  induction fixed generalizing n with
  | zero =>
    rw [pow_zero, Nat.mod_one]
    exact Reads.pure 0
  | succ fixed ih =>
    have same : 0x60 ||| (n &&& 0xf) = 0x60 ||| ((n % 16 ^ (fixed + 1)) &&& 0xf) := by
      rw [nibble_code, nibble_code, Nat.mod_mod_of_dvd n (dvd_pow_self 16 (Nat.succ_ne_zero fixed))]
    have shifted : (n >>> 4) % 16 ^ fixed = (n % 16 ^ (fixed + 1)) >>> 4 := by
      rw [shiftRight_nibble, shiftRight_nibble, pow_succ', Nat.mod_mul_right_div_self]
    have tail := ih (n >>> 4)
    rw [shifted] at tail
    rw [fixedLoop, same]
    exact reads_digit_cons tail

theorem reads_printByte (b : UInt8) : Reads readByte (printByte b) b := by
  have low : (b.toNat >>> 4) >>> 4 = 0 := by
    rw [shiftRight_nibble, shiftRight_nibble]
    have := b.toNat_lt
    omega
  have none_left : Reads (readDigits 0) [] ((b.toNat >>> 4) >>> 4) := by
    rw [low]
    exact Reads.pure 0
  have digits := reads_digit_cons (reads_digit_cons none_left)
  have byte := digits.bind_pure UInt8.ofNat
  rwa [UInt8.ofNat_toNat] at byte

theorem reads_bytes (s : List UInt8) (start : Nat) :
    Reads (each (fun _ => readByte) (List.range' start s.length)) (s.flatMap printByte) s := by
  induction s generalizing start with
  | nil => exact Reads.pure []
  | cons b s ih =>
    rw [List.flatMap_cons, List.length_cons, List.range'_succ]
    exact Reads.bind (k := fun a => bind (each (fun _ => readByte) _) fun as => pure (a :: as))
      (reads_printByte b) ((ih (start + 1)).bind_pure (fun as => b :: as))

theorem reads_printConstData (s : ConstData) : Reads readData (printConstData s) s.bytes := by
  have len := reads_printNumber (UInt64.ofNat s.bytes.length) false
  rw [UInt64.toNat_ofNat_of_lt' s.length_lt] at len
  have bytes := reads_bytes s.bytes 0
  rw [← List.range_eq_range'] at bytes
  apply Reads.cons
  rw [if_pos rfl]
  exact Reads.bind (k := fun len => each (fun _ => readByte) (List.range len)) len bytes

/-- The asserted bound on the left-over digits is the bound on the number. -/
theorem printFixedNumber32_isSome_iff (n : UInt32) (fixed : Nat) :
    (printFixedNumber32 n fixed).isSome ↔ fixed < 32 ∧ n.toNat < 16 ^ fixed := by
  have exhausted : n.toNat >>> (4 * fixed) = 0 ↔ n.toNat < 16 ^ fixed := by
    rw [Nat.shiftRight_eq_div_pow, pow_mul]
    exact Nat.div_eq_zero_iff_lt (pow_pos (by decide) fixed)
  rw [← exhausted, printFixedNumber32]
  split_ifs with h
  · simp [h]
  · simp [h]

theorem reads_printFixedNumber32 {n : UInt32} {fixed : Nat} {text : List Nat}
    (printed : printFixedNumber32 n fixed = some text) :
    Reads (readDigits fixed) text n.toNat := by
  have bound := (printFixedNumber32_isSome_iff n fixed).mp (by rw [printed]; rfl)
  have loop := reads_fixedLoop fixed n.toNat
  rw [Nat.mod_eq_of_lt bound.2] at loop
  unfold printFixedNumber32 at printed
  split_ifs at printed
  exact Option.some.inj printed ▸ loop

/-! Operands are told apart by their first character. -/

theorem printNumber_head (n : UInt64) (constant : Bool) :
    ∃ i ≤ 16, (printNumber n constant).head? = some ((if constant then 0x40 else 0x60) + i) := by
  have short := numberLoop_length_le 16 n.toNat
  refine ⟨(numberLoop 16 n.toNat).length, short, ?_⟩
  simp only [printNumber, length_code constant short, List.head?_cons]

def Operand.IsValueId : Operand → Prop
  | .valueId _ => True
  | _ => False

theorem reads_constantOperand {v w : List Nat} {value width : Nat} {c : Nat}
    (head : v.head? = some c) (low : c < 0x60) (number : Reads (readNumber 0x40) v value)
    (nibble : Reads (readDigits 1) w width) :
    Reads readOperand (v ++ w)
      (if width = 0 then .globalOperand value else .constantOperand value width) := by
  cases v with
  | nil => cases head
  | cons d v =>
    have same : d = c := Option.some.inj head
    have both := Reads.bind (k := fun v => bind (readDigits 1) fun width =>
        pure (if width = 0 then Datum.globalOperand v else Datum.constantOperand v width))
      number (nibble.bind_pure fun width =>
        if width = 0 then Datum.globalOperand value else Datum.constantOperand value width)
    intro rest
    change (if d < 0x60 then _ else _) = _
    rw [same, if_pos low, ← same]
    exact both rest

theorem reads_valueOperand {v : List Nat} {id c : Nat} (head : v.head? = some c)
    (high : 0x60 ≤ c) (number : Reads (readNumber 0x60) v id) :
    Reads readOperand v (.valueOperand id) := by
  cases v with
  | nil => cases head
  | cons d v =>
    have same : d = c := Option.some.inj head
    have read := number.bind_pure Datum.valueOperand
    intro rest
    change (if d < 0x60 then _ else _) = _
    rw [same, if_neg (by omega), ← same]
    exact read rest

theorem reads_printOperand {o : Operand} {text : List Nat} (printed : printOperand o = some text) :
    Reads readOperand text o.datum := by
  cases o with
  | constant value bits supported =>
    obtain ⟨nibble, hn, rfl⟩ := Option.map_eq_some_iff.mp printed
    obtain ⟨i, hi, head⟩ := printNumber_head value true
    have width := reads_printFixedNumber32 hn
    have exact_width : (UInt64.ofNat ((bits + 7) / 8)).toUInt32.toNat = (bits + 7) / 8 := by
      rw [UInt64.toNat_toUInt32, UInt64.toNat_ofNat_of_lt' (by change _ < 2 ^ 64; omega)]
      exact Nat.mod_eq_of_lt (by omega)
    rw [exact_width] at width
    have read := reads_constantOperand head (by simp only [if_true]; omega)
      (reads_printNumber value true) width
    rwa [if_neg (by omega)] at read
  | globalId id =>
    rw [printOperand] at printed
    obtain ⟨nibble, hn, rfl⟩ := Option.map_eq_some_iff.mp printed
    obtain ⟨i, hi, head⟩ := printNumber_head id.toUInt64 true
    have read := reads_constantOperand head (by simp only [if_true]; omega)
      (reads_printNumber id.toUInt64 true) (reads_printFixedNumber32 hn)
    rwa [UInt32.toNat_toUInt64] at read
  | valueId id =>
    have same : printNumber id.toUInt64 false = text := Option.some.inj printed
    obtain ⟨i, hi, head⟩ := printNumber_head id.toUInt64 false
    have read :=
      reads_valueOperand head (Nat.le_add_right _ _) (reads_printNumber id.toUInt64 false)
    rwa [same, UInt32.toNat_toUInt64] at read

/-- Constants and globals start below `0x60`, value ids at or above it. -/
theorem printOperand_head {o : Operand} {text : List Nat} (printed : printOperand o = some text) :
    ∃ c, text.head? = some c ∧ (0x60 ≤ c ↔ o.IsValueId) := by
  cases o with
  | constant value bits supported =>
    obtain ⟨nibble, hn, rfl⟩ := Option.map_eq_some_iff.mp printed
    obtain ⟨i, hi, head⟩ := printNumber_head value true
    refine ⟨0x40 + i, by rw [List.head?_append, head]; rfl, ?_⟩
    simp only [Operand.IsValueId, iff_false]
    omega
  | globalId id =>
    rw [printOperand] at printed
    obtain ⟨nibble, hn, rfl⟩ := Option.map_eq_some_iff.mp printed
    obtain ⟨i, hi, head⟩ := printNumber_head id.toUInt64 true
    refine ⟨0x40 + i, by rw [List.head?_append, head]; rfl, ?_⟩
    simp only [Operand.IsValueId, iff_false]
    omega
  | valueId id =>
    have same : printNumber id.toUInt64 false = text := Option.some.inj printed
    obtain ⟨i, hi, head⟩ := printNumber_head id.toUInt64 false
    refine ⟨0x60 + i, by rw [← same]; exact head, ?_⟩
    simp [Operand.IsValueId]

/-! Whole sequences of fields. -/

/-- What stands in the text: a fixed-width number has lost its upper 32 bits. -/
def Field.printed : Field → Datum
  | .fixed n _ => .number n.toUInt32.toNat
  | f => f.datum

theorem reads_field {f : Field} {text : List Nat} (printed : f.print = some text) :
    Reads f.schema.read text f.printed := by
  cases f with
  | number n =>
    have same : printNumber n false = text := Option.some.inj printed
    exact same ▸ (reads_printNumber n false).bind_pure Datum.number
  | constant n =>
    have same : printNumber n true = text := Option.some.inj printed
    exact same ▸ (reads_printNumber n true).bind_pure Datum.number
  | fixed n width => exact (reads_printFixedNumber32 printed).bind_pure Datum.number
  | data s =>
    have same : printConstData s = text := Option.some.inj printed
    exact same ▸ (reads_printConstData s).bind_pure Datum.bytes
  | operand o => exact reads_printOperand printed

theorem reads_fields {fields : List Field} {text : List Nat}
    (printed : printFields fields = some text) :
    Reads (readFields (fields.map Field.schema)) text (fields.map Field.printed) := by
  induction fields generalizing text with
  | nil =>
    have same : [] = text := by simpa [printFields] using printed
    exact same ▸ Reads.pure []
  | cons f fields ih =>
    obtain ⟨texts, all, rfl⟩ := Option.map_eq_some_iff.mp printed
    rw [List.mapM_cons] at all
    obtain ⟨first, hf, rest⟩ := Option.bind_eq_some_iff.mp all
    obtain ⟨others, ho, htexts⟩ := Option.bind_eq_some_iff.mp rest
    have shape : first :: others = texts := Option.some.inj htexts
    have tail : Reads (readFields (fields.map Field.schema)) others.flatten
        (fields.map Field.printed) := ih (by rw [printFields, ho]; rfl)
    rw [← shape]
    exact Reads.bind (k := fun a => bind (readFields (fields.map Field.schema)) fun as =>
      pure (a :: as))
      (reads_field hf) (tail.bind_pure (fun as => f.printed :: as))

theorem printFields_isSome_iff (fields : List Field) :
    (printFields fields).isSome ↔ ∀ f ∈ fields, f.print.isSome := by
  induction fields with
  | nil => simp [printFields]
  | cons f fields ih =>
    rw [List.forall_mem_cons, ← ih]
    simp only [printFields, List.mapM_cons, Option.isSome_map]
    cases f.print with
    | none => simp
    | some t => cases fields.mapM Field.print <;> simp

theorem printOperand_isSome (o : Operand) : (printOperand o).isSome := by
  have nibble : ∀ n : UInt64, n.toNat < 16 → (printFixedNumber n 1).isSome := by
    intro n small
    refine (printFixedNumber32_isSome_iff n.toUInt32 1).mpr ⟨by decide, ?_⟩
    rw [UInt64.toNat_toUInt32]
    omega
  cases o with
  | constant value bits supported =>
    rw [printOperand, Option.isSome_map]
    apply nibble
    rw [UInt64.toNat_ofNat_of_lt' (by change _ < 2 ^ 64; omega)]
    omega
  | globalId id =>
    rw [printOperand, Option.isSome_map]
    exact nibble 0 (by decide)
  | valueId id => rfl

/-- A fixed-width field is given a number that fits its digits. -/
def Field.InRange : Field → Prop
  | .fixed n width => n.toNat < 16 ^ width
  | _ => True

theorem print_isSome_iff {f : Field} (inRange : f.InRange) :
    f.print.isSome ↔ ∀ n width, f = .fixed n width → width < 32 := by
  cases f with
  | number n => simp [Field.print]
  | constant n => simp [Field.print]
  | fixed n width =>
    have narrowed : n.toUInt32.toNat < 16 ^ width := by
      rw [UInt64.toNat_toUInt32]
      exact lt_of_le_of_lt (Nat.mod_le _ _) inRange
    simp only [Field.print, printFixedNumber, printFixedNumber32_isSome_iff, narrowed, and_true]
    constructor
    · intro h n' width' same
      cases same
      exact h
    · intro h
      exact h n width rfl
  | data s => simp [Field.print]
  | operand o => simp [Field.print, printOperand_isSome]

theorem printed_eq_datum_iff (f : Field) :
    f.printed = f.datum ↔ ∀ n width, f = .fixed n width → n.toNat < 2 ^ 32 := by
  cases f with
  | fixed n width =>
    simp only [Field.printed, Field.datum, Datum.number.injEq, UInt64.toNat_toUInt32]
    constructor
    · intro h n' width' same
      cases same
      have := Nat.mod_lt n.toNat (show 2 ^ 32 > 0 by decide)
      omega
    · intro h
      exact Nat.mod_eq_of_lt (h n width rfl)
  | number n => simp [Field.printed]
  | constant n => simp [Field.printed]
  | data s => simp [Field.printed]
  | operand o => simp [Field.printed]

/-- The characters of a sequence of fields are printed, are read back as that
sequence and nothing more, and the first character of each operand tells whether
it is a value id. -/
def Decodes (fields : List Field) : Prop :=
  ∃ text, printFields fields = some text ∧
    Reads (readFields (fields.map Field.schema)) text (fields.map Field.datum) ∧
    ∀ o, Field.operand o ∈ fields →
      ∃ t c, printOperand o = some t ∧ t.head? = some c ∧ (0x60 ≤ c ↔ o.IsValueId)

/-- A stream decodes exactly when every fixed-width number fits into 32 bits and
every fixed width into the digit buffer. -/
theorem decodes_iff_fixed_narrow (fields : List Field) (inRange : ∀ f ∈ fields, f.InRange) :
    Decodes fields ↔
      ∀ n width, Field.fixed n width ∈ fields → n.toNat < 2 ^ 32 ∧ width < 32 := by
  constructor
  · rintro ⟨text, printed, reads, -⟩ n width member
    have same := reads.unique (reads_fields printed)
    have narrow :=
      (printed_eq_datum_iff (.fixed n width)).mp (List.map_inj_left.mp same _ member).symm
    have all := (printFields_isSome_iff fields).mp (by rw [printed]; rfl)
    have buffer := (print_isSome_iff (inRange _ member)).mp (all _ member)
    exact ⟨narrow n width rfl, buffer n width rfl⟩
  · intro narrow
    have prints : (printFields fields).isSome := by
      apply (printFields_isSome_iff fields).mpr
      intro f member
      exact (print_isSome_iff (inRange f member)).mpr
        (fun n width same => (narrow n width (same ▸ member)).2)
    obtain ⟨text, printed⟩ := Option.isSome_iff_exists.mp prints
    have same : fields.map Field.printed = fields.map Field.datum := by
      apply List.map_inj_left.mpr
      intro f member
      exact (printed_eq_datum_iff f).mpr (fun n width h => (narrow n width (h ▸ member)).1)
    refine ⟨text, printed, same ▸ reads_fields printed, ?_⟩
    intro o _
    obtain ⟨t, ht⟩ := Option.isSome_iff_exists.mp (printOperand_isSome o)
    obtain ⟨c, head, tag⟩ := printOperand_head ht
    exact ⟨t, c, ht, head, tag⟩

/-- The longest number: 16 digits, so that the length character is `0x70`. -/
theorem decodes_longest_number :
    (∀ f ∈ [Field.number 0xffffffffffffffff, .fixed 42 2], f.InRange) ∧
      Decodes [Field.number 0xffffffffffffffff, .fixed 42 2] := by
  have inRange : ∀ f ∈ [Field.number 0xffffffffffffffff, .fixed 42 2], f.InRange := by
    intro f member
    simp only [List.mem_cons, List.not_mem_nil, or_false] at member
    rcases member with rfl | rfl
    · exact trivial
    · change (42 : UInt64).toNat < 16 ^ 2
      decide
  refine ⟨inRange, (decodes_iff_fixed_narrow _ inRange).mpr ?_⟩
  intro n width member
  simp only [List.mem_cons, List.not_mem_nil, or_false, reduceCtorEq, false_or,
    Field.fixed.injEq] at member
  obtain ⟨rfl, rfl⟩ := member
  decide

/-- `printFixedNumber(2^32, 9)` prints nine zero digits. -/
theorem fixed_2_32_lost :
    Field.InRange (.fixed 0x100000000 9) ∧ ¬ Decodes [.fixed 0x100000000 9] := by
  refine ⟨by change (0x100000000 : UInt64).toNat < 16 ^ 9; decide, ?_⟩
  rintro ⟨text, printed, reads, -⟩
  have same := reads.unique (reads_fields printed)
  have zero : (0x100000000 : UInt64).toNat = (0x100000000 : UInt64).toUInt32.toNat := by
    simpa only [List.map_cons, List.map_nil, List.cons.injEq, and_true, Field.datum, Field.printed,
      Datum.number.injEq] using same
  exact absurd zero (by decide)

end BytecodeStream
