import ClamBC.InstructionFormat

/-!
# Functions as the loader finds them

A function is a line with its arguments and the types of its values, and a line for each block. The
instructions of a block follow each other up to the `T` in front of the terminator. How many
values and blocks there are stands in front of them.

`Listing` is the sequence of what the writer prints, with the fields before or after printing.
-/

namespace FunctionFormat

open PrefixReader BytecodeStream InstructionFormat

structure InstListing (α : Type) where
  type : Nat
  dest : Nat
  command : Command α
  deriving DecidableEq

structure BlockListing (α : Type) where
  insts : List (InstListing α)
  term : Command α
  deriving DecidableEq

/-- An entry is the type of a value, and whether it is an `alloca`. -/
structure Listing (α : Type) where
  args : Nat
  returnType : Nat
  values : Nat
  entries : List (Nat × Bool)
  instructions : Nat
  blocks : Nat
  lines : List (BlockListing α)
  deriving DecidableEq

/-! Printing. -/

def printNat (n : Nat) : List Nat := printNumber (UInt64.ofNat n) false

def printEntry (e : Nat × Bool) : Option (List Nat) :=
  (printFixedNumber (if e.2 then 1 else 0) 1).map (printNat e.1 ++ ·)

def InstListing.print (i : InstListing Field) : Option (List Nat) :=
  (printFields i.command.all).map ((printNat i.type ++ printNat i.dest) ++ ·)

def BlockListing.print (b : BlockListing Field) : Option (List Nat) := do
  let insts ← b.insts.mapM InstListing.print
  let term ← printFields b.term.all
  return '\n'.toNat :: 'B'.toNat :: (insts.flatten ++ ['T'.toNat] ++ term)

def Listing.print (l : Listing Field) : Option (List Nat) := do
  let args ← printFixedNumber (UInt64.ofNat l.args) 1
  let entries ← l.entries.mapM printEntry
  let lines ← l.lines.mapM BlockListing.print
  let types := args ++
    (printNat l.returnType ++ 'L'.toNat :: (printNat l.values ++ entries.flatten))
  let code := 'F'.toNat :: (printNat l.instructions ++ (printNat l.blocks ++ lines.flatten))
  return '\n'.toNat :: 'A'.toNat :: (types ++ (code ++ ['E'.toNat]))

/-! Reading. -/

def readNat : Reader Nat Nat := readNumber 0x60

def readEntry : Reader Nat (Nat × Bool) :=
  bind readNat fun type => bind (readDigits 1) fun flag => pure (type, flag = 1)

def readInst : Reader Nat (InstListing Datum) :=
  bind readNat fun type => bind readNat fun dest => bind readCommand fun command =>
    pure ⟨type, dest, command⟩

def isT (c : Nat) : Bool := c = 'T'.toNat

def readBlock : Reader Nat (BlockListing Datum) :=
  bind (symbol '\n'.toNat) fun _ => bind (symbol 'B'.toNat) fun _ =>
    bind (upTo isT readInst) fun insts => bind readCommand fun term => pure ⟨insts, term⟩

/-- The part of a function in front of its blocks: its arguments, and what it returns and
computes. -/
def readTypes : Reader Nat (Nat × Nat × Nat × List (Nat × Bool)) :=
  bind (readDigits 1) fun args => bind readNat fun returnType =>
    bind (symbol 'L'.toNat) fun _ => bind readNat fun values =>
      bind (times readEntry (values + args)) fun entries =>
        pure (args, returnType, values, entries)

def readBlocks : Reader Nat (Nat × Nat × List (BlockListing Datum)) :=
  bind (symbol 'F'.toNat) fun _ => bind readNat fun instructions => bind readNat fun blocks =>
    bind (times readBlock blocks) fun lines => pure (instructions, blocks, lines)

def readFunction : Reader Nat (Listing Datum) :=
  bind (symbol '\n'.toNat) fun _ => bind (symbol 'A'.toNat) fun _ =>
    bind readTypes fun (args, returnType, values, entries) =>
      bind readBlocks fun (instructions, blocks, lines) => bind (symbol 'E'.toNat) fun _ =>
        pure ⟨args, returnType, values, entries, instructions, blocks, lines⟩

/-! What the loader relies on. -/

def valueIds : Datum → List Nat
  | .valueOperand id => [id]
  | _ => []

def blockIds : Datum → List Nat
  | .number n => [n]
  | _ => []

/-- The blocks that a terminator branches to. -/
def targets (c : Command Datum) : List Nat :=
  match c.opcode with
  | .jmp | .branch => c.fields.flatMap blockIds
  | _ => []

/-- The counts count what follows them, registers have a type, and a branch leads to a block that
is not the first one. A destination that is not used is printed as 0. -/
structure Listing.Sound (l : Listing Datum) : Prop where
  values : l.entries.length = l.values + l.args
  blocks : l.lines.length = l.blocks
  instructions : l.instructions = (l.lines.map fun b => b.insts.length + 1).sum
  dests : ∀ b ∈ l.lines, ∀ i ∈ b.insts, i.dest = 0 ∨ i.dest < l.entries.length
  operands : ∀ b ∈ l.lines, ∀ c ∈ b.insts.map InstListing.command ++ [b.term],
    ∀ n ∈ c.fields.flatMap valueIds, n < l.entries.length
  targets : ∀ b ∈ l.lines, ∀ t ∈ targets b.term, 1 ≤ t ∧ t < l.blocks

/-! What is read back. -/

def InstListing.datum (i : InstListing Field) : InstListing Datum :=
  ⟨i.type, i.dest, i.command.datum⟩

def BlockListing.datum (b : BlockListing Field) : BlockListing Datum :=
  ⟨b.insts.map InstListing.datum, b.term.datum⟩

def Listing.datum (l : Listing Field) : Listing Datum :=
  { l with lines := l.lines.map BlockListing.datum }

def InstListing.Readable (i : InstListing Field) : Prop :=
  i.type < 2 ^ 32 ∧ i.dest < 2 ^ 32 ∧ i.command.Shaped

def BlockListing.Readable (b : BlockListing Field) : Prop :=
  (∀ i ∈ b.insts, i.Readable) ∧ b.term.Shaped

/-- Numbers of 32 bits, counts that count what follows, and commands of the right shape. -/
structure Listing.Readable (l : Listing Field) : Prop where
  args : l.args < 2 ^ 32
  returnType : l.returnType < 2 ^ 32
  values : l.entries.length = l.values + l.args
  valuesFit : l.values < 2 ^ 32
  entries : ∀ e ∈ l.entries, e.1 < 2 ^ 32
  instructions : l.instructions < 2 ^ 32
  blocks : l.lines.length = l.blocks
  blocksFit : l.blocks < 2 ^ 32
  lines : ∀ b ∈ l.lines, b.Readable

theorem reads_word {n : Nat} (small : n < 2 ^ 64) : Reads readNat (printNat n) n := by
  have read := reads_printNumber (UInt64.ofNat n) false
  rwa [UInt64.toNat_ofNat_of_lt' small] at read

theorem reads_nat {n : Nat} (small : n < 2 ^ 32) : Reads readNat (printNat n) n :=
  reads_word (by omega)

theorem printNat_head (n : Nat) : ∃ c, (printNat n).head? = some c ∧ 0x60 ≤ c := by
  obtain ⟨i, -, head⟩ := printNumber_head (UInt64.ofNat n) false
  exact ⟨_, head, Nat.le_add_right _ _⟩

theorem reads_entry {e : Nat × Bool} (small : e.1 < 2 ^ 32) {text : List Nat}
    (printed : printEntry e = some text) : Reads readEntry text e := by
  obtain ⟨flag, hflag, rfl⟩ := Option.map_eq_some_iff.mp printed
  obtain ⟨type, isAlloca⟩ := e
  have read := reads_printFixedNumber32 hflag
  have known : (if isAlloca then 1 else 0 : UInt64).toUInt32.toNat = if isAlloca then 1 else 0 := by
    cases isAlloca <;> rfl
  rw [known] at read
  have same : decide ((if isAlloca then 1 else 0) = 1) = isAlloca := by cases isAlloca <;> rfl
  have pair := read.bind_pure fun n => (type, decide (n = 1))
  rw [same] at pair
  exact Reads.bind (reads_nat small) pair

theorem reads_inst {i : InstListing Field} (readable : i.Readable) {text : List Nat}
    (printed : i.print = some text) : ReadsItem isT readInst text i.datum := by
  obtain ⟨type, dest, shaped⟩ := readable
  obtain ⟨command, hcommand, rfl⟩ := Option.map_eq_some_iff.mp printed
  constructor
  · rw [List.append_assoc]
    refine Reads.bind (reads_nat type) (Reads.bind (reads_nat dest) ?_)
    exact (reads_command shaped hcommand).bind_pure (InstListing.mk i.type i.dest)
  · obtain ⟨c, head, high⟩ := printNat_head i.type
    refine ⟨c, by rw [List.append_assoc, List.head?_append, head]; rfl, ?_⟩
    refine decide_eq_false fun same => ?_
    rw [same] at high
    exact absurd high (by decide)

/-- Pieces of text that are all printed, and what is read from each of them. -/
theorem forall₂_of_printed {α β : Type} {print : α → Option (List Nat)} {read : List Nat → β → Prop}
    {v : α → β} {xs : List α} {texts : List (List Nat)} (printed : xs.mapM print = some texts)
    (each : ∀ x ∈ xs, ∀ text, print x = some text → read text (v x)) :
    List.Forall₂ read texts (xs.map v) := by
  induction xs generalizing texts with
  | nil =>
    have same : [] = texts := by simpa using printed
    exact same ▸ .nil
  | cons x xs ih =>
    rw [List.mapM_cons] at printed
    obtain ⟨first, hx, tail⟩ := Option.bind_eq_some_iff.mp printed
    obtain ⟨others, hxs, shape⟩ := Option.bind_eq_some_iff.mp tail
    have same : first :: others = texts := Option.some.inj shape
    exact same ▸ .cons (each x List.mem_cons_self first hx)
      (ih hxs fun y hy => each y (List.mem_cons_of_mem x hy))

theorem reads_block {b : BlockListing Field} (readable : b.Readable) {text : List Nat}
    (printed : b.print = some text) : Reads readBlock text b.datum := by
  obtain ⟨insts, hinsts, printed⟩ := Option.bind_eq_some_iff.mp printed
  obtain ⟨term, hterm, printed⟩ := Option.bind_eq_some_iff.mp printed
  cases printed
  have body := Reads.upTo (c := 'T'.toNat) rfl
    (forall₂_of_printed hinsts fun i hi text => reads_inst (readable.1 i hi))
  refine Reads.after (Reads.after (Reads.bind body ?_))
  exact (reads_command readable.2 hterm).bind_pure (BlockListing.mk _)

/-- A function is read back from its text as it was listed, whatever follows. -/
theorem reads_function {l : Listing Field} (readable : l.Readable) {text : List Nat}
    (printed : l.print = some text) : Reads readFunction text l.datum := by
  obtain ⟨args, hargs, printed⟩ := Option.bind_eq_some_iff.mp printed
  obtain ⟨entries, hentries, printed⟩ := Option.bind_eq_some_iff.mp printed
  obtain ⟨lines, hlines, printed⟩ := Option.bind_eq_some_iff.mp printed
  cases printed
  have types := Reads.times (forall₂_of_printed (v := id) hentries
    fun e he text => reads_entry (readable.entries e he))
  rw [List.map_id, readable.values] at types
  have blocks := Reads.times (forall₂_of_printed hlines
    fun b hb text => reads_block (readable.lines b hb))
  rw [List.length_map, readable.blocks] at blocks
  have front : Reads readTypes (args ++ (printNat l.returnType ++ 'L'.toNat ::
      (printNat l.values ++ entries.flatten))) (l.args, l.returnType, l.values, l.entries) := by
    refine Reads.bind (reads_fixed readable.args hargs) ?_
    refine Reads.bind (reads_nat readable.returnType) (Reads.after ?_)
    exact Reads.bind (reads_nat readable.valuesFit) (types.bind_pure _)
  have code : Reads readBlocks ('F'.toNat :: (printNat l.instructions ++ (printNat l.blocks ++
      lines.flatten))) (l.instructions, l.blocks, l.lines.map BlockListing.datum) := by
    refine Reads.after (Reads.bind (reads_nat readable.instructions) ?_)
    exact Reads.bind (reads_nat readable.blocksFit) (blocks.bind_pure _)
  refine Reads.after (Reads.after (Reads.bind front (Reads.bind code ?_)))
  exact Reads.after (Reads.pure _)

/-! Everything that is readable can be printed. -/

theorem mapM_isSome {α β : Type} {k : α → Option β} {l : List α} (h : ∀ x ∈ l, (k x).isSome) :
    (l.mapM k).isSome := by
  induction l with
  | nil => rfl
  | cons x xs ih =>
    obtain ⟨y, hy⟩ := Option.isSome_iff_exists.mp (h x List.mem_cons_self)
    obtain ⟨ys, hys⟩ := Option.isSome_iff_exists.mp
      (ih fun z hz => h z (List.mem_cons_of_mem x hz))
    simp [List.mapM_cons, hy, hys]

theorem fixed_isSome {n w : Nat} (narrow : w < 32) (small : n < 16 ^ w) :
    (Field.fixed (UInt64.ofNat n) w).print.isSome := by
  refine (print_isSome_iff ?_).mpr ?_
  · change (UInt64.ofNat n).toNat < 16 ^ w
    rw [UInt64.toNat_ofNat']
    exact lt_of_le_of_lt (Nat.mod_le _ _) small
  · rintro m w same
    cases same
    exact narrow

theorem command_isSome {c : Command Field} (shaped : c.Shaped) : (printFields c.all).isSome := by
  refine (printFields_isSome_iff _).mpr (List.forall_mem_cons.mpr ⟨?_, ?_⟩)
  · have := code_lt c.opcode
    exact fixed_isSome (by decide) (by omega)
  intro x hx
  unfold Command.Shaped at shaped
  split_ifs at shaped
  · obtain ⟨id, args, few, same⟩ := shaped
    rw [same] at hx
    rcases List.mem_cons.mp hx with rfl | hx
    · exact fixed_isSome (by decide) (by omega)
    rcases List.mem_cons.mp hx with rfl | hx
    · rfl
    · obtain ⟨o, -, rfl⟩ := List.mem_map.mp hx
      exact printOperand_isSome o
  · have known : x.schema ∈ c.opcode.schema := shaped ▸ List.mem_map_of_mem hx
    cases x with
    | fixed n width => exact absurd known (schema_not_fixed c.opcode width)
    | operand o => exact printOperand_isSome o
    | _ => rfl

theorem block_isSome {b : BlockListing Field} (readable : b.Readable) : b.print.isSome := by
  obtain ⟨insts, hinsts⟩ := Option.isSome_iff_exists.mp
    (mapM_isSome (k := InstListing.print) (l := b.insts) fun i hi => by
      rw [InstListing.print, Option.isSome_map]
      exact command_isSome (readable.1 i hi).2.2)
  obtain ⟨term, hterm⟩ := Option.isSome_iff_exists.mp (command_isSome readable.2)
  simp [BlockListing.print, hinsts, hterm]

theorem print_isSome {l : Listing Field} (readable : l.Readable) (args : l.args < 16) :
    l.print.isSome := by
  obtain ⟨first, hfirst⟩ := Option.isSome_iff_exists.mp
    (fixed_isSome (n := l.args) (w := 1) (by decide) (by omega))
  obtain ⟨entries, hentries⟩ := Option.isSome_iff_exists.mp
    (mapM_isSome (k := printEntry) (l := l.entries) fun e _ => by
      rw [printEntry, Option.isSome_map]
      cases e.2 <;> rfl)
  obtain ⟨lines, hlines⟩ := Option.isSome_iff_exists.mp
    (mapM_isSome (k := BlockListing.print) (l := l.lines) fun b hb =>
      block_isSome (readable.lines b hb))
  have digit : printFixedNumber (UInt64.ofNat l.args) 1 = some first := hfirst
  simp [Listing.print, digit, hentries, hlines]

end FunctionFormat
