import ClamBC.BytecodeStream

/-!
# Instructions as the loader finds them

A loader knows of an instruction its opcode, and from the opcode how many operands follow: the
table `operand_counts` says so for all but the calls, which bring their own number. A type id
in front and the ids of blocks are among the operands for some opcodes and not for others.
-/

namespace InstructionFormat

open PrefixReader BytecodeStream

/-- `bc_opcode`. -/
inductive Opcode where
  | add | sub | mul | udiv | sdiv | urem | srem | shl | lshr | ashr | and | or | xor
  | trunc | sext | zext
  | branch | jmp | ret | retVoid
  | icmpEq | icmpNe | icmpUgt | icmpUge | icmpUlt | icmpUle | icmpSgt | icmpSge | icmpSle | icmpSlt
  | select | callDirect | callApi | copy
  | gep1 | gepz | gepn | store | load
  | memset | memcpy | memmove | memcmp
  | isBigEndian | abort | bswap16 | bswap32 | bswap64 | ptrDiff32 | ptrToInt64
  deriving DecidableEq

def opcodes : List Opcode :=
  [.add, .sub, .mul, .udiv, .sdiv, .urem, .srem, .shl, .lshr, .ashr, .and, .or, .xor, .trunc, .sext,
   .zext, .branch, .jmp, .ret, .retVoid, .icmpEq, .icmpNe, .icmpUgt, .icmpUge, .icmpUlt, .icmpUle,
   .icmpSgt, .icmpSge, .icmpSle, .icmpSlt, .select, .callDirect, .callApi, .copy, .gep1, .gepz,
   .gepn, .store, .load, .memset, .memcpy, .memmove, .memcmp, .isBigEndian, .abort, .bswap16,
   .bswap32, .bswap64, .ptrDiff32, .ptrToInt64]

/-- `OP_BC_ADD` is 1, and the others follow. -/
def Opcode.code (op : Opcode) : Nat := opcodes.idxOf op + 1

def ofCode : Nat → Option Opcode
  | 0 => none
  | n + 1 => opcodes[n]?

def operandCounts : List Nat :=
  [0,
   -- ADD to XOR
   2, 2, 2, 2, 2, 2, 2, 2, 2, 2, 2, 2, 2,
   -- TRUNC to ZEXT
   1, 1, 1,
   -- BRANCH, JMP, RET, RET_VOID
   3, 1, 1, 0,
   -- ICMP
   2, 2, 2, 2, 2, 2, 2, 2, 2, 2,
   -- SELECT
   3,
   -- the calls
   0, 0,
   -- COPY
   2,
   -- GEP1, GEPZ, GEPN, STORE, LOAD
   3, 3, 0, 2, 1,
   -- MEMSET to MEMCMP
   3, 3, 3, 3,
   -- ISBIGENDIAN
   0,
   -- ABORT, BSWAP, PTRDIFF32, PTRTOINT64
   0, 1, 1, 1, 2, 1]

def Opcode.operandCount (op : Opcode) : Nat := operandCounts.getD op.code 0

/-- What follows the opcode. A comparison and a return have a type id in addition to the operands
that are counted; in an element address it is one of those that are counted. -/
def Opcode.schema (op : Opcode) : List Schema :=
  match op with
  | .ret | .icmpEq | .icmpNe | .icmpUgt | .icmpUge | .icmpUlt | .icmpUle | .icmpSgt | .icmpSge
  | .icmpSle | .icmpSlt => .number :: List.replicate op.operandCount .operand
  | .gep1 | .gepz => .number :: List.replicate (op.operandCount - 1) .operand
  | .branch => .operand :: List.replicate (op.operandCount - 1) .number
  | .jmp => List.replicate op.operandCount .number
  | _ => List.replicate op.operandCount .operand

def Opcode.isCall : Opcode → Bool
  | .callDirect | .callApi => true
  | _ => false

/-- An instruction without its type and its destination. -/
structure Command (α : Type) where
  opcode : Opcode
  fields : List α
  deriving DecidableEq

/-- The number of the arguments, the id of the function, and the arguments. -/
def readCall : Reader Nat (List Datum) :=
  bind (readDigits 1) fun argc => bind (readNumber 0x60) fun id =>
    bind (readFields (List.replicate argc .operand)) fun args =>
      pure (.number argc :: .number id :: args)

def readCommand : Reader Nat (Command Datum) :=
  bind (readDigits 2) fun code =>
    match ofCode code with
    | none => fail
    | some op =>
      bind (if op.isCall then readCall else readFields op.schema) fun fields => pure ⟨op, fields⟩

/-- The opcode and the fields behind it. -/
def Command.all (c : Command Field) : List Field :=
  .fixed (UInt64.ofNat c.opcode.code) 2 :: c.fields

/-- What the fields of a command have to be for the loader to find them. -/
def Command.Shaped (c : Command Field) : Prop :=
  if c.opcode.isCall then
    ∃ (id : UInt32) (args : List Operand), args.length < 16 ∧
      c.fields = .fixed (UInt64.ofNat args.length) 1 :: .number id.toUInt64 :: args.map .operand
  else c.fields.map Field.schema = c.opcode.schema

def Command.datum (c : Command Field) : Command Datum := ⟨c.opcode, c.fields.map Field.datum⟩

theorem ofCode_code (op : Opcode) : ofCode op.code = some op := by cases op <;> rfl

theorem code_lt (op : Opcode) : op.code < 51 := by cases op <;> decide

theorem printFields_cons {f : Field} {fields : List Field} {text : List Nat} :
    printFields (f :: fields) = some text ↔
      ∃ first others, f.print = some first ∧ printFields fields = some others ∧
        text = first ++ others := by
  simp only [printFields, List.mapM_cons, Option.map_eq_some_iff, Option.bind_eq_bind,
    Option.bind_eq_some_iff, Option.pure_def, Option.some.injEq]
  constructor
  · rintro ⟨texts, ⟨first, hf, rest, hr, rfl⟩, rfl⟩
    exact ⟨first, rest.flatten, hf, ⟨rest, hr, rfl⟩, rfl⟩
  · rintro ⟨first, others, hf, ⟨rest, hr, rfl⟩, rfl⟩
    exact ⟨first :: rest, ⟨first, hf, rest, hr, rfl⟩, rfl⟩

/-- A fixed-width field that fits into 32 bits is read as the number that was printed. -/
theorem reads_fixed {n width : Nat} (small : n < 2 ^ 32) {text : List Nat}
    (printed : (Field.fixed (UInt64.ofNat n) width).print = some text) :
    Reads (readDigits width) text n := by
  have read := reads_printFixedNumber32 printed
  rwa [UInt64.toNat_toUInt32, UInt64.toNat_ofNat_of_lt' (by change n < 2 ^ 64; omega),
    Nat.mod_eq_of_lt small] at read

theorem printed_of_schema {fields : List Field}
    (noFixed : ∀ width, Schema.fixed width ∉ fields.map Field.schema) :
    fields.map Field.printed = fields.map Field.datum := by
  apply List.map_inj_left.mpr
  intro f member
  apply (printed_eq_datum_iff f).mpr
  rintro n width rfl
  exact absurd (List.mem_map.mpr ⟨_, member, rfl⟩) (noFixed width)

theorem schema_not_fixed (op : Opcode) (width : Nat) : Schema.fixed width ∉ op.schema := by
  cases op <;> exact nofun

theorem reads_call {id : UInt32} {args : List Operand} (few : args.length < 16) {text : List Nat}
    (printed : printFields (.fixed (UInt64.ofNat args.length) 1 :: .number id.toUInt64 ::
      args.map .operand) = some text) :
    Reads readCall text (.number args.length :: .number id.toNat :: args.map Operand.datum) := by
  obtain ⟨argc, others, hargc, tail, rfl⟩ := printFields_cons.mp printed
  obtain ⟨number, rest, hid, last, rfl⟩ := printFields_cons.mp tail
  have function : Reads (readNumber 0x60) number id.toNat := by
    have read := reads_printNumber id.toUInt64 false
    rwa [Option.some.inj hid, UInt32.toNat_toUInt64] at read
  have operands := reads_fields last
  have schema : (args.map Field.operand).map Field.schema =
      List.replicate args.length Schema.operand := by
    rw [List.map_map]
    exact List.map_const'
  have datum : (args.map Field.operand).map Field.printed = args.map Operand.datum := by
    rw [List.map_map]
    rfl
  rw [schema, datum] at operands
  refine Reads.bind (reads_fixed (by omega) hargc) (Reads.bind function ?_)
  exact operands.bind_pure fun read => .number args.length :: .number id.toNat :: read

/-- The opcode tells the loader where the instruction ends. -/
theorem reads_command {c : Command Field} (shaped : c.Shaped) {text : List Nat}
    (printed : printFields c.all = some text) : Reads readCommand text c.datum := by
  obtain ⟨code, others, hcode, fields, rfl⟩ := printFields_cons.mp printed
  have small := code_lt c.opcode
  refine Reads.bind (reads_fixed (by omega) hcode) ?_
  rw [ofCode_code]
  refine Reads.bind_pure ?_ (Command.mk c.opcode)
  unfold Command.Shaped at shaped
  split_ifs at shaped ⊢
  · obtain ⟨id, args, few, same⟩ := shaped
    have read := reads_call few (same ▸ fields)
    have datum : c.fields.map Field.datum =
        .number args.length :: .number id.toNat :: args.map Operand.datum := by
      rw [same, List.map_cons, List.map_cons, List.map_map, Field.datum, Field.datum,
        UInt32.toNat_toUInt64, UInt64.toNat_ofNat_of_lt' (by change _ < 2 ^ 64; omega)]
      rfl
    exact datum ▸ read
  · have read := reads_fields fields
    rwa [shaped, printed_of_schema (fun width => shaped ▸ schema_not_fixed c.opcode width)] at read

end InstructionFormat
