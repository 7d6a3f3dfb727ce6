import ClamBC.FunctionFormat

/-!
# Files as the loader finds them

The header is a line that says how many types and functions there are and how long the longest
line is. Then come the signature, the types, the functions of the API that are called, the
globals, and the functions, each on lines of its own. Behind the newline that ends the last
function stands the source, which the loader leaves alone.
-/

namespace ModuleFormat

open PrefixReader BytecodeStream InstructionFormat FunctionFormat

structure Header where
  formatLevel : Nat
  timestamp : Nat
  sigmaker : List UInt8
  kind : Nat
  minfunc : Nat
  maxfunc : Nat
  compiler : List UInt8
  types : Nat
  functions : Nat
  maxLine : Nat
  deriving DecidableEq

/-- The types that a type is made of are given by their ids, the return type of a function first. -/
inductive TypeListing where
  | function (ids : List Nat)
  | struct (packed : Bool) (elements : List Nat)
  | array (count element : Nat)
  | pointer (element : Nat)
  deriving DecidableEq

structure ApiListing where
  id : Nat
  type : Nat
  name : List UInt8
  deriving DecidableEq

structure GlobalListing where
  type : Nat
  constants : List Nat
  deriving DecidableEq

structure FileListing (α : Type) where
  header : Header
  signature : List Nat
  startTID : Nat
  types : List TypeListing
  maxApi : Nat
  apis : List ApiListing
  maxGlobal : Nat
  globals : List GlobalListing
  functions : List (Listing α)
  deriving DecidableEq

/-! Printing. -/

def printBytes (bytes : List UInt8) : Option (List Nat) :=
  if h : bytes.length < 2 ^ 64 then some (printConstData ⟨bytes, h⟩) else none

def magic : Nat := 0x53e5493e9f3d1c30

def decimal (n : Nat) : List Nat := (Nat.toDigits 10 n).map Char.toNat

def clamBC : List Nat := "ClamBC".toList.map Char.toNat

def Header.print (h : Header) : Option (List Nat) := do
  let sigmaker ← printBytes h.sigmaker
  let compiler ← printBytes h.compiler
  let fortyTwo ← printFixedNumber 42 2
  let front := clamBC ++
    (printNat h.formatLevel ++ (printNat h.timestamp ++ (sigmaker ++ printNat 0)))
  let middle := printNat h.kind ++ (printNat h.minfunc ++ (printNat h.maxfunc ++ printNat 0))
  let counts := compiler ++ (printNat h.types ++ printNat h.functions)
  let back := printNat magic ++ (fortyTwo ++ ':'.toNat :: (decimal h.maxLine ++ ['\n'.toNat]))
  return front ++ (middle ++ (counts ++ back))

def printList (ns : List Nat) : List Nat := printNat ns.length ++ (ns.map printNat).flatten

def TypeListing.kind : TypeListing → Nat
  | .function _ => 1
  | .struct packed _ => if packed then 2 else 3
  | .array _ _ => 4
  | .pointer _ => 5

def TypeListing.parts : TypeListing → List Nat
  | .function ids | .struct _ ids => printList ids
  | .array count element => printNat count ++ printNat element
  | .pointer element => printNat element

def TypeListing.print (t : TypeListing) : Option (List Nat) :=
  (printFixedNumber (UInt64.ofNat t.kind) 1).map (· ++ t.parts)

def ApiListing.print (a : ApiListing) : Option (List Nat) :=
  (printBytes a.name).map ((printNat a.id ++ printNat a.type) ++ ·)

def printConstantNumber (n : Nat) : List Nat := printNumber (UInt64.ofNat n) true

/-- The constants end where a number that is none begins. -/
def GlobalListing.print (g : GlobalListing) : List Nat :=
  printNat g.type ++ ((g.constants.map printConstantNumber).flatten ++ printNat 0)

def FileListing.print (l : FileListing Field) : Option (List Nat) := do
  let header ← l.header.print
  let startTID ← printFixedNumber (UInt64.ofNat l.startTID) 2
  let types ← l.types.mapM TypeListing.print
  let apis ← l.apis.mapM ApiListing.print
  let functions ← l.functions.mapM Listing.print
  let typeLine := 'T'.toNat :: (startTID ++ types.flatten)
  let apiLine := 'E'.toNat :: (printNat l.maxApi ++ (printNat l.apis.length ++ apis.flatten))
  let globalLine := 'G'.toNat :: (printNat l.maxGlobal ++ (printNat l.globals.length ++
    (l.globals.map GlobalListing.print).flatten))
  let front := header ++ (l.signature ++ ['\n'.toNat])
  return front ++ (typeLine ++ '\n'.toNat :: (apiLine ++ '\n'.toNat :: (globalLine ++
    (functions.flatten ++ ['\n'.toNat]))))

/-! Reading. -/

def isNewline (c : Nat) : Bool := c = '\n'.toNat

def expect [DecidableEq β] (r : Reader Nat β) (b : β) : Reader Nat Unit :=
  bind r fun a => if a = b then pure () else fail

def readFront : Reader Nat (Nat × Nat × List UInt8) :=
  bind (literal clamBC) fun _ => bind readNat fun formatLevel => bind readNat fun timestamp =>
    bind readData fun sigmaker => bind (expect readNat 0) fun _ =>
      pure (formatLevel, timestamp, sigmaker)

def readMiddle : Reader Nat (Nat × Nat × Nat) :=
  bind readNat fun kind => bind readNat fun minfunc => bind readNat fun maxfunc =>
    bind (expect readNat 0) fun _ => pure (kind, minfunc, maxfunc)

def readCounts : Reader Nat (List UInt8 × Nat × Nat) :=
  bind readData fun compiler => bind readNat fun types => bind readNat fun functions =>
    pure (compiler, types, functions)

def readDecimal : Reader Nat Nat :=
  bind (upTo isNewline item) fun digits => pure (Nat.ofDigitChars 10 (digits.map Char.ofNat) 0)

/-- The two numbers of which the loader knows what they are. -/
def readBack : Reader Nat Nat :=
  bind (expect readNat magic) fun _ => bind (expect (readDigits 2) 42) fun _ =>
    bind (symbol ':'.toNat) fun _ => readDecimal

def readHeader : Reader Nat Header :=
  bind readFront fun (formatLevel, timestamp, sigmaker) =>
    bind readMiddle fun (kind, minfunc, maxfunc) =>
      bind readCounts fun (compiler, types, functions) => bind readBack fun maxLine =>
        pure ⟨formatLevel, timestamp, sigmaker, kind, minfunc, maxfunc, compiler, types, functions,
          maxLine⟩

def readList : Reader Nat (List Nat) := bind readNat fun count => times readNat count

def readType : Reader Nat TypeListing :=
  bind (readDigits 1) fun kind =>
    match kind with
    | 1 => bind readList fun ids => pure (.function ids)
    | 2 => bind readList fun elements => pure (.struct true elements)
    | 3 => bind readList fun elements => pure (.struct false elements)
    | 4 => bind readNat fun count => bind readNat fun element => pure (.array count element)
    | 5 => bind readNat fun element => pure (.pointer element)
    | _ => fail

def readApi : Reader Nat ApiListing :=
  bind readNat fun id => bind readNat fun type => bind readData fun name => pure ⟨id, type, name⟩

/-- The one character of a number 0. -/
def isZero (c : Nat) : Bool := c = 0x60

def readGlobal : Reader Nat GlobalListing :=
  bind readNat fun type => bind (upTo isZero (readNumber 0x40)) fun constants =>
    pure ⟨type, constants⟩

/-- The header counts the types from 64 on, of which those below the first id of the file are
known to the loader. -/
def readTypeLine (types : Nat) : Reader Nat (Nat × List TypeListing) :=
  bind (symbol 'T'.toNat) fun _ => bind (readDigits 2) fun startTID =>
    bind (times readType (types + 64 - startTID)) fun listed => bind (symbol '\n'.toNat) fun _ =>
      pure (startTID, listed)

def readApiLine : Reader Nat (Nat × List ApiListing) :=
  bind (symbol 'E'.toNat) fun _ => bind readNat fun maxApi => bind readNat fun count =>
    bind (times readApi count) fun apis => bind (symbol '\n'.toNat) fun _ => pure (maxApi, apis)

def readGlobalLine : Reader Nat (Nat × List GlobalListing) :=
  bind (symbol 'G'.toNat) fun _ => bind readNat fun maxGlobal => bind readNat fun count =>
    bind (times readGlobal count) fun globals => pure (maxGlobal, globals)

def readFile : Reader Nat (FileListing Datum) :=
  bind readHeader fun header => bind (upTo isNewline item) fun signature =>
    bind (readTypeLine header.types) fun (startTID, types) =>
      bind readApiLine fun (maxApi, apis) => bind readGlobalLine fun (maxGlobal, globals) =>
        bind (times readFunction header.functions) fun functions =>
          bind (symbol '\n'.toNat) fun _ =>
            pure ⟨header, signature, startTID, types, maxApi, apis, maxGlobal, globals, functions⟩

/-! What is read back. -/

def FileListing.datum (l : FileListing Field) : FileListing Datum :=
  { l with functions := l.functions.map Listing.datum }

structure Header.Readable (h : Header) : Prop where
  formatLevel : h.formatLevel < 2 ^ 32
  timestamp : h.timestamp < 2 ^ 64
  kind : h.kind < 2 ^ 32
  minfunc : h.minfunc < 2 ^ 32
  maxfunc : h.maxfunc < 2 ^ 32
  types : h.types < 2 ^ 32
  functions : h.functions < 2 ^ 32

def TypeListing.Readable : TypeListing → Prop
  | .function ids | .struct _ ids => ids.length < 2 ^ 32 ∧ ∀ id ∈ ids, id < 2 ^ 32
  | .array count element => count < 2 ^ 64 ∧ element < 2 ^ 32
  | .pointer element => element < 2 ^ 32

def ApiListing.Readable (a : ApiListing) : Prop := a.id < 2 ^ 32 ∧ a.type < 2 ^ 32

def GlobalListing.Readable (g : GlobalListing) : Prop :=
  g.type < 2 ^ 32 ∧ ∀ n ∈ g.constants, n < 2 ^ 64

/-- The signature is one line, and the header counts the types that follow. -/
structure FileListing.Readable (l : FileListing Field) : Prop where
  header : l.header.Readable
  signature : ∀ c ∈ l.signature, isNewline c = false
  startTID : l.startTID < 2 ^ 32
  typeCount : l.header.types + 64 = l.startTID + l.types.length
  types : ∀ t ∈ l.types, t.Readable
  maxApi : l.maxApi < 2 ^ 32
  apiCount : l.apis.length < 2 ^ 32
  apis : ∀ a ∈ l.apis, a.Readable
  maxGlobal : l.maxGlobal < 2 ^ 32
  globalCount : l.globals.length < 2 ^ 32
  globals : ∀ g ∈ l.globals, g.Readable
  functions : ∀ F ∈ l.functions, F.Readable

theorem reads_bytes {bytes : List UInt8} {text : List Nat}
    (printed : printBytes bytes = some text) : Reads readData text bytes := by
  unfold printBytes at printed
  split_ifs at printed with short
  exact Option.some.inj printed ▸ reads_printConstData ⟨bytes, short⟩

theorem reads_expect {β : Type} [DecidableEq β] {r : Reader Nat β} {b : β} {text : List Nat}
    (read : Reads r text b) : Reads (expect r b) text () := by
  have both := Reads.bind (k := fun a => if a = b then PrefixReader.pure () else fail) read
    (w := []) (b := ()) (by rw [if_pos rfl]; exact Reads.pure ())
  rwa [List.append_nil] at both

/-- A line is read up to its end. -/
theorem reads_line {line : List Nat} (one : ∀ c ∈ line, isNewline c = false) :
    Reads (upTo isNewline item) (line ++ ['\n'.toNat]) line := by
  have items : List.Forall₂ (ReadsItem isNewline item) (line.map fun c => [c]) line := by
    induction line with
    | nil => exact .nil
    | cons c line ih =>
      obtain ⟨first, rest⟩ := List.forall_mem_cons.mp one
      exact .cons ⟨Reads.item c, c, rfl, first⟩ (ih rest)
  have read := Reads.upTo (c := '\n'.toNat) rfl items
  have flat : (line.map fun c => [c]).flatten = line := by
    rw [← List.flatMap_def]
    exact List.flatMap_singleton' line
  rwa [flat] at read

theorem reads_decimal (n : Nat) : Reads readDecimal (decimal n ++ ['\n'.toNat]) n := by
  have digits : ∀ c ∈ decimal n, isNewline c = false := by
    intro c member
    obtain ⟨d, hd, rfl⟩ := List.mem_map.mp member
    have digit := Nat.isDigit_of_mem_toDigits (by decide) (by decide) hd
    refine decide_eq_false fun same => ?_
    have newline : d = '\n' := Char.toNat_inj.mp same
    rw [newline] at digit
    exact absurd digit (by decide)
  have read := (reads_line digits).bind_pure
    fun digits => Nat.ofDigitChars 10 (digits.map Char.ofNat) 0
  have back : (decimal n).map Char.ofNat = Nat.toDigits 10 n := by
    rw [decimal, List.map_map]
    exact (List.map_congr_left fun c _ => Char.ofNat_toNat c).trans (List.map_id _)
  rw [back, Nat.ofDigitChars_ten_toDigits] at read
  exact read

theorem reads_header {h : Header} (readable : h.Readable) {text : List Nat}
    (printed : h.print = some text) : Reads readHeader text h := by
  obtain ⟨sigmaker, hsigmaker, printed⟩ := Option.bind_eq_some_iff.mp printed
  obtain ⟨compiler, hcompiler, printed⟩ := Option.bind_eq_some_iff.mp printed
  obtain ⟨fortyTwo, hfortyTwo, printed⟩ := Option.bind_eq_some_iff.mp printed
  cases printed
  have zero : Reads (expect readNat 0) (printNat 0) () := reads_expect (reads_nat (by decide))
  have front : Reads readFront (clamBC ++ (printNat h.formatLevel ++ (printNat h.timestamp ++
      (sigmaker ++ printNat 0)))) (h.formatLevel, h.timestamp, h.sigmaker) := by
    refine Reads.bind (Reads.literal clamBC) (Reads.bind (reads_nat readable.formatLevel) ?_)
    refine Reads.bind (reads_word readable.timestamp) (Reads.bind (reads_bytes hsigmaker) ?_)
    exact zero.bind_pure _
  have middle : Reads readMiddle (printNat h.kind ++ (printNat h.minfunc ++ (printNat h.maxfunc ++
      printNat 0))) (h.kind, h.minfunc, h.maxfunc) := by
    refine Reads.bind (reads_nat readable.kind) (Reads.bind (reads_nat readable.minfunc) ?_)
    exact Reads.bind (reads_nat readable.maxfunc) (zero.bind_pure _)
  have counts : Reads readCounts (compiler ++ (printNat h.types ++ printNat h.functions))
      (h.compiler, h.types, h.functions) := by
    refine Reads.bind (reads_bytes hcompiler) (Reads.bind (reads_nat readable.types) ?_)
    exact (reads_nat readable.functions).bind_pure _
  have back : Reads readBack (printNat magic ++ (fortyTwo ++ ':'.toNat :: (decimal h.maxLine ++
      ['\n'.toNat]))) h.maxLine := by
    refine Reads.bind (reads_expect (reads_word (by decide))) ?_
    refine Reads.bind (reads_expect (reads_printFixedNumber32 hfortyTwo)) ?_
    exact Reads.after (reads_decimal h.maxLine)
  exact Reads.bind front (Reads.bind middle (Reads.bind counts (back.bind_pure _)))

theorem reads_list {ns : List Nat} (short : ns.length < 2 ^ 32) (small : ∀ n ∈ ns, n < 2 ^ 32) :
    Reads readList (printList ns) ns := by
  have items : List.Forall₂ (Reads readNat) (ns.map printNat) ns := by
    refine List.forall₂_map_left_iff.mpr (List.forall₂_same.mpr ?_)
    exact fun n hn => reads_nat (small n hn)
  exact Reads.bind (reads_nat short) (Reads.times items)

theorem TypeListing.kind_lt (t : TypeListing) : t.kind < 16 := by
  cases t with
  | struct packed elements => cases packed <;> simp [kind]
  | _ => simp [kind]

theorem reads_type {t : TypeListing} (readable : t.Readable) {text : List Nat}
    (printed : t.print = some text) : Reads readType text t := by
  obtain ⟨kind, hkind, rfl⟩ := Option.map_eq_some_iff.mp printed
  have small := t.kind_lt
  refine Reads.bind (reads_fixed (by omega) hkind) ?_
  cases t with
  | function ids => exact (reads_list readable.1 readable.2).bind_pure _
  | struct packed elements =>
    have list := reads_list readable.1 readable.2
    cases packed with
    | true => exact list.bind_pure _
    | false => exact list.bind_pure _
  | array count element =>
    exact Reads.bind (reads_word readable.1) ((reads_nat readable.2).bind_pure _)
  | pointer element => exact (reads_nat readable).bind_pure _

theorem reads_api {a : ApiListing} (readable : a.Readable) {text : List Nat}
    (printed : a.print = some text) : Reads readApi text a := by
  obtain ⟨name, hname, rfl⟩ := Option.map_eq_some_iff.mp printed
  rw [List.append_assoc]
  refine Reads.bind (reads_nat readable.1) (Reads.bind (reads_nat readable.2) ?_)
  exact (reads_bytes hname).bind_pure _

theorem reads_constant {n : Nat} (small : n < 2 ^ 64) :
    ReadsItem isZero (readNumber 0x40) (printConstantNumber n) n := by
  constructor
  · have read := reads_printNumber (UInt64.ofNat n) true
    rwa [UInt64.toNat_ofNat_of_lt' small] at read
  · obtain ⟨i, hi, head⟩ := printNumber_head (UInt64.ofNat n) true
    refine ⟨0x40 + i, head, decide_eq_false ?_⟩
    omega

theorem reads_global {g : GlobalListing} (readable : g.Readable) :
    Reads readGlobal g.print g := by
  have items : List.Forall₂ (ReadsItem isZero (readNumber 0x40))
      (g.constants.map printConstantNumber) g.constants := by
    refine List.forall₂_map_left_iff.mpr (List.forall₂_same.mpr ?_)
    exact fun n hn => reads_constant (readable.2 n hn)
  have constants := Reads.upTo (c := 0x60) rfl items
  exact Reads.bind (reads_nat readable.1) (constants.bind_pure _)

/-- The text in front of the functions is read as what it lists, and the functions one by one. -/
theorem reads_lines {l : FileListing Field} (readable : l.Readable) {text : List Nat}
    (printed : l.print = some text) :
    ∃ header types apis globals functions, text = header ++ ((l.signature ++ ['\n'.toNat]) ++
        (types ++ (apis ++ (globals ++ (List.flatten functions ++ ['\n'.toNat]))))) ∧
      Reads readHeader header l.header ∧ Reads (readTypeLine l.header.types) types
        (l.startTID, l.types) ∧ Reads readApiLine apis (l.maxApi, l.apis) ∧
      Reads readGlobalLine globals (l.maxGlobal, l.globals) ∧
      List.Forall₂ (Reads readFunction) functions (l.functions.map Listing.datum) := by
  obtain ⟨header, hheader, printed⟩ := Option.bind_eq_some_iff.mp printed
  obtain ⟨startTID, hstartTID, printed⟩ := Option.bind_eq_some_iff.mp printed
  obtain ⟨types, htypes, printed⟩ := Option.bind_eq_some_iff.mp printed
  obtain ⟨apis, hapis, printed⟩ := Option.bind_eq_some_iff.mp printed
  obtain ⟨functions, hfunctions, printed⟩ := Option.bind_eq_some_iff.mp printed
  cases printed
  have newline : Reads (symbol '\n'.toNat) ['\n'.toNat] () := Reads.symbol _
  have typeItems := Reads.times (forall₂_of_printed (v := id) htypes
    fun t ht text => reads_type (readable.types t ht))
  rw [List.map_id, ← Nat.add_sub_cancel_left (n := l.startTID) (m := l.types.length),
    ← readable.typeCount] at typeItems
  have apiItems := Reads.times (forall₂_of_printed (v := id) hapis
    fun a ha text => reads_api (readable.apis a ha))
  rw [List.map_id] at apiItems
  have globalItems :
      List.Forall₂ (Reads readGlobal) (l.globals.map GlobalListing.print) l.globals :=
    List.forall₂_map_left_iff.mpr
      (List.forall₂_same.mpr fun g hg => reads_global (readable.globals g hg))
  refine ⟨header, 'T'.toNat :: (startTID ++ types.flatten) ++ ['\n'.toNat],
    'E'.toNat :: (printNat l.maxApi ++ (printNat l.apis.length ++ apis.flatten)) ++ ['\n'.toNat],
    'G'.toNat :: (printNat l.maxGlobal ++ (printNat l.globals.length ++
      (l.globals.map GlobalListing.print).flatten)), functions, by simp,
    reads_header readable.header hheader, ?_, ?_, ?_, ?_⟩
  · rw [List.cons_append, List.append_assoc]
    refine Reads.after (Reads.bind (reads_fixed readable.startTID hstartTID) ?_)
    exact Reads.bind typeItems (newline.bind_pure _)
  · rw [List.cons_append, List.append_assoc, List.append_assoc]
    refine Reads.after (Reads.bind (reads_nat readable.maxApi) ?_)
    exact Reads.bind (reads_nat readable.apiCount) (Reads.bind apiItems (newline.bind_pure _))
  · refine Reads.after (Reads.bind (reads_nat readable.maxGlobal) ?_)
    exact Reads.bind (reads_nat readable.globalCount) ((Reads.times globalItems).bind_pure _)
  · exact forall₂_of_printed hfunctions fun F hF text => reads_function (readable.functions F hF)

/-- A file is read back as it was listed exactly when the header does not announce more functions
than there are. What follows its last line is left over. -/
theorem reads_file_iff {l : FileListing Field} (readable : l.Readable)
    (announced : l.functions.length ≤ l.header.functions) {text : List Nat}
    (printed : l.print = some text) :
    Reads readFile text l.datum ↔ l.header.functions = l.functions.length := by
  obtain ⟨header, types, apis, globals, functions, rfl, first, typeLine, apiLine, globalLine,
      items⟩ :=
    reads_lines readable printed
  have line := reads_line readable.signature
  constructor
  · intro reads
    by_contra other
    have more : (l.functions.map Listing.datum).length < l.header.functions := by
      rw [List.length_map]
      omega
    have fails : times readFunction l.header.functions (functions.flatten ++ ['\n'.toNat]) = none :=
      times_none items rfl more
    have nothing : readFile _ = none :=
      (first.bind_eq _).trans ((line.bind_eq _).trans ((typeLine.bind_eq _).trans
        ((apiLine.bind_eq _).trans ((globalLine.bind_eq _).trans (bind_none fails)))))
    have whole := reads []
    rw [List.append_nil, nothing] at whole
    cases whole
  · intro all
    have functionItems := Reads.times items
    rw [List.length_map, ← all] at functionItems
    refine Reads.bind first (Reads.bind line (Reads.bind typeLine (Reads.bind apiLine
      (Reads.bind globalLine (Reads.bind functionItems ?_)))))
    exact (Reads.symbol _).bind_pure fun _ => l.datum

/-! What can be printed, and how long the header gets. -/

theorem printBytes_eq {bytes : List UInt8} (short : bytes.length < 2 ^ 64) :
    printBytes bytes = some (printConstData ⟨bytes, short⟩) := dif_pos short

theorem file_isSome {l : FileListing Field} (startTID : l.startTID < 16 ^ 2)
    (header : l.header.print.isSome) (names : ∀ a ∈ l.apis, a.name.length < 2 ^ 64)
    (functions : ∀ F ∈ l.functions, F.Readable ∧ F.args < 16) : l.print.isSome := by
  obtain ⟨first, hfirst⟩ := Option.isSome_iff_exists.mp header
  obtain ⟨tid, htid⟩ := Option.isSome_iff_exists.mp
    (fixed_isSome (n := l.startTID) (w := 2) (by decide) startTID)
  obtain ⟨types, htypes⟩ := Option.isSome_iff_exists.mp
    (mapM_isSome (k := TypeListing.print) (l := l.types) fun t _ => by
      rw [TypeListing.print, Option.isSome_map]
      exact fixed_isSome (by decide) (by have := t.kind_lt; omega))
  obtain ⟨apis, hapis⟩ := Option.isSome_iff_exists.mp
    (mapM_isSome (k := ApiListing.print) (l := l.apis) fun a ha => by
      rw [ApiListing.print, Option.isSome_map, printBytes_eq (names a ha)]
      rfl)
  obtain ⟨bodies, hbodies⟩ := Option.isSome_iff_exists.mp
    (mapM_isSome (k := Listing.print) (l := l.functions) fun F hF =>
      print_isSome (functions F hF).1 (functions F hF).2)
  have digits : printFixedNumber (UInt64.ofNat l.startTID) 2 = some tid := htid
  simp [FileListing.print, hfirst, digits, htypes, hapis, hbodies]

theorem printNat_length (n : Nat) : (printNat n).length ≤ 17 := by
  have := numberLoop_length_le 16 (UInt64.ofNat n).toNat
  simp only [printNat, printNumber, List.length_cons]
  omega

theorem printConstData_length (s : ConstData) :
    (printConstData s).length ≤ 18 + 2 * s.bytes.length := by
  have count := printNat_length s.bytes.length
  have digits : (s.bytes.flatMap printByte).length = 2 * s.bytes.length := by
    rw [List.length_flatMap]
    induction s.bytes with
    | nil => rfl
    | cons b bytes ih =>
      rw [List.map_cons, List.sum_cons, ih, List.length_cons]
      change 2 + 2 * bytes.length = _
      omega
  simp only [printConstData, List.length_cons, List.length_append, digits]
  change (printNat s.bytes.length).length + _ + 1 ≤ _
  omega

/-- A header with two strings of at most 65 bytes. -/
theorem header_length {h : Header} (sigmaker : h.sigmaker.length ≤ 65)
    (compiler : h.compiler.length ≤ 65) (maxLine : h.maxLine < 2 ^ 32) :
    ∃ text, h.print = some text ∧ text.length < 8192 := by
  have digits : (decimal h.maxLine).length ≤ 10 := by
    rw [decimal, List.length_map]
    exact (Nat.length_toDigits_le_iff (by decide) (by decide)).mpr (by omega)
  have strings : ∀ {bytes : List UInt8}, bytes.length ≤ 65 →
      ∃ text, printBytes bytes = some text ∧ text.length ≤ 148 := by
    intro bytes short
    have fits : bytes.length < 2 ^ 64 := by omega
    have length := printConstData_length ⟨bytes, fits⟩
    refine ⟨_, printBytes_eq fits, length.trans ?_⟩
    change 18 + 2 * bytes.length ≤ 148
    omega
  obtain ⟨first, hfirst, firstLength⟩ := strings sigmaker
  obtain ⟨second, hsecond, secondLength⟩ := strings compiler
  have fortyTwo : printFixedNumber 42 2 = some [0x6a, 0x62] := by decide
  have name : clamBC.length = 6 := rfl
  refine ⟨_, by simp only [Header.print, hfirst, hsecond, fortyTwo]; rfl, ?_⟩
  simp only [List.length_append, List.length_cons, List.length_nil, name]
  have zero := printNat_length 0
  have one := printNat_length h.formatLevel
  have two := printNat_length h.timestamp
  have three := printNat_length h.kind
  have four := printNat_length h.minfunc
  have five := printNat_length h.maxfunc
  have six := printNat_length h.types
  have seven := printNat_length h.functions
  have eight := printNat_length magic
  omega

end ModuleFormat
