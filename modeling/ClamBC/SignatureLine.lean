import ClamBC.NdbPatterns
import ClamBC.TextFields
import Mathlib.Data.List.TakeWhile

/-!
# The line of a logical signature

The names, the attributes, the expression and the patterns stand in one line, with semicolons
between them and commas between the attributes. Nothing in the line is quoted, so it is read back
only if none of the texts in it has such a character, and of the texts that come from the module
not all are looked at before.
-/

namespace SignatureLine

open TextFields LdbText SubSignatures

structure Line where
  name : List Char
  attributes : List (List Char)
  expression : List Char
  patterns : List (List Char)

namespace Line

def fields (l : Line) : List (List Char) :=
  l.name :: joined ',' l.attributes :: l.expression :: l.patterns

def print (l : Line) : List Char := joined ';' l.fields

end Line

/-- Nothing in the text ends a field or the line. -/
structure Inert (s : List Char) : Prop where
  noSemicolon : ';' ∉ s
  noNewline : '\n' ∉ s

structure InertAttribute (s : List Char) : Prop extends Inert s where
  noComma : ',' ∉ s

structure Line.Clean (l : Line) : Prop where
  name : Inert l.name
  attributes : ∀ s ∈ l.attributes, InertAttribute s
  expression : Inert l.expression
  patterns : ∀ s ∈ l.patterns, Inert s

def readFields (text : List Char) : Option Line :=
  match text.splitOn ';' with
  | name :: attributes :: expression :: patterns =>
    some ⟨name, attributes.splitOn ',', expression, patterns⟩
  | _ => none

/-- The first line of a text, and what follows it. -/
def readLine (text : List Char) : Option (Line × List Char) :=
  match text.dropWhile (· != '\n') with
  | [] => none
  | _ :: rest => (readFields (text.takeWhile (· != '\n'))).map (·, rest)

theorem readLine_append {text : List Char} (oneLine : '\n' ∉ text) (rest : List Char) :
    readLine (text ++ '\n' :: rest) = (readFields text).map (·, rest) := by
  have other : ∀ c ∈ text, (c != '\n') = true := fun c hc =>
    bne_iff_ne.mpr fun same => oneLine (same ▸ hc)
  have dropped : (text ++ '\n' :: rest).dropWhile (· != '\n') = '\n' :: rest := by
    rw [List.dropWhile_append_of_pos other]
    rfl
  have taken : (text ++ '\n' :: rest).takeWhile (· != '\n') = text := by
    rw [List.takeWhile_append_of_pos other]
    exact List.append_nil text
  unfold readLine
  rw [dropped, taken]

/-- A text with a newline in it ends too early. -/
theorem oneLine_of_readLine {text rest : List Char} {l : Line}
    (read : readLine (text ++ '\n' :: rest) = some (l, rest)) : '\n' ∉ text := by
  intro inside
  obtain ⟨front, back, rfl, first⟩ := List.eq_append_cons_of_mem inside
  rw [List.append_assoc, List.cons_append, readLine_append first] at read
  obtain ⟨l', -, same⟩ := Option.map_eq_some_iff.mp read
  have length := congrArg (fun r => r.2.length) same
  simp only [List.length_append, List.length_cons] at length
  omega

theorem readFields_print_iff {l : Line} (some : l.attributes ≠ []) :
    readFields l.print = Option.some l ↔
      (∀ field ∈ l.fields, ';' ∉ field) ∧ ∀ s ∈ l.attributes, ',' ∉ s := by
  have fieldsSome : l.fields ≠ [] := List.cons_ne_nil _ _
  constructor
  · intro read
    unfold readFields at read
    split at read
    · next name attributes expression patterns split =>
      have same := Option.some.inj read
      have counted : (l.print.splitOn ';').length = l.fields.length := by
        rw [split, ← same]
        rfl
      have clean := (length_splitOn_joined_iff fieldsSome).mp counted
      have fields : l.print.splitOn ';' = l.fields := (splitOn_joined_iff fieldsSome).mpr clean
      have second : attributes = joined ',' l.attributes :=
        (List.cons.inj (List.cons.inj (split.symm.trans fields)).2).1
      have parts : attributes.splitOn ',' = l.attributes := congrArg Line.attributes same
      rw [second] at parts
      exact ⟨clean, (splitOn_joined_iff some).mp parts⟩
    · cases read
  · rintro ⟨clean, attributes⟩
    have fields : l.print.splitOn ';' = l.fields := (splitOn_joined_iff fieldsSome).mpr clean
    unfold readFields
    rw [fields]
    simp only [Line.fields]
    rw [(splitOn_joined_iff some).mpr attributes]

theorem forall_fields {l : Line} {c : Char} (other : c ≠ ',') :
    (∀ field ∈ l.fields, c ∉ field) ↔
      c ∉ l.name ∧ (∀ s ∈ l.attributes, c ∉ s) ∧ c ∉ l.expression ∧ ∀ s ∈ l.patterns, c ∉ s := by
  simp only [Line.fields, List.forall_mem_cons, not_mem_joined other]

/-- A line is read back exactly if it is clean. -/
theorem readLine_print_iff {l : Line} (some : l.attributes ≠ []) (rest : List Char) :
    readLine (l.print ++ '\n' :: rest) = Option.some (l, rest) ↔ l.Clean := by
  have other : '\n' ≠ ';' := by decide
  constructor
  · intro read
    have oneLine := oneLine_of_readLine read
    rw [readLine_append oneLine] at read
    obtain ⟨l', read, same⟩ := Option.map_eq_some_iff.mp read
    cases same
    obtain ⟨semicolons, commas⟩ := (readFields_print_iff some).mp read
    obtain ⟨name, attributes, expression, patterns⟩ := (forall_fields (by decide)).mp semicolons
    obtain ⟨name', attributes', expression', patterns'⟩ :=
      (forall_fields (by decide)).mp ((not_mem_joined other).mp oneLine)
    exact ⟨⟨name, name'⟩, fun s hs => ⟨⟨attributes s hs, attributes' s hs⟩, commas s hs⟩,
      ⟨expression, expression'⟩, fun s hs => ⟨patterns s hs, patterns' s hs⟩⟩
  · intro clean
    have semicolons : ∀ field ∈ l.fields, ';' ∉ field :=
      (forall_fields (by decide)).mpr ⟨clean.name.noSemicolon,
        fun s hs => (clean.attributes s hs).noSemicolon, clean.expression.noSemicolon,
        fun s hs => (clean.patterns s hs).noSemicolon⟩
    have newlines : ∀ field ∈ l.fields, '\n' ∉ field :=
      (forall_fields (by decide)).mpr ⟨clean.name.noNewline,
        fun s hs => (clean.attributes s hs).noNewline, clean.expression.noNewline,
        fun s hs => (clean.patterns s hs).noNewline⟩
    have oneLine : '\n' ∉ l.print := (not_mem_joined other).mpr newlines
    rw [readLine_append oneLine,
      (readFields_print_iff some).mpr ⟨semicolons, fun s hs => (clean.attributes s hs).noComma⟩]
    rfl

/-! ## What the compiler writes -/

def engine (r : Request) : List (List Char) :=
  match engineLevels r with
  | some (min, max) => [("Engine:" ++ toString min ++ "-" ++ toString max).toList]
  | none => []

def named (name value : String) : List (List Char) :=
  if value = "" then [] else [(name ++ ":" ++ value).toList]

def target (r : Request) : List Char := ("Target:" ++ toString r.target).toList

/-- The attributes that are left out if they are not set, before the target. -/
def optionalAttributes (r : Request) : List (List Char) :=
  engine r ++ (named "IconGroup1" r.icon1 ++ (named "IconGroup2" r.icon2 ++
    named "Container" r.container))

def raw (m : Source) : List (List Char) := (m.rawattrs.map (List.splitOn ',')).getD []

def line (r : Request) (m : Source) (expression : List Char) (table : List (List Char)) : Line where
  name := r.virusnames.toList
  attributes := optionalAttributes r ++ target r :: raw m
  expression := expression
  patterns := table

theorem namedAttribute_toList (name value : String) :
    (namedAttribute name value).toList = (named name value).flatMap (· ++ [',']) := by
  unfold namedAttribute named
  split
  · rfl
  · simp

theorem appended_toList (first : List Char) (table : List (List Char)) :
    joined ';' (first :: table) = first ++ (appended table).toList := by
  induction table generalizing first with
  | nil => simp [joined, appended]
  | cons s table ih =>
    rw [joined_cons first (List.cons_ne_nil s table), ih s]
    simp [appended]

theorem attributes_joined (r : Request) (m : Source) :
    joined ',' (optionalAttributes r ++ target r :: raw m) =
      (optionalAttributes r).flatMap (· ++ [',']) ++
      (target r ++ ((m.rawattrs.map fun s => "," ++ String.ofList s).getD "").toList) := by
  rw [joined_append (List.cons_ne_nil _ _), raw]
  cases m.rawattrs with
  | none => simp [joined]
  | some s =>
    have more : s.splitOn ',' ≠ [] := List.splitOn_ne_nil _ _
    simp only [Option.map_some, Option.getD_some]
    rw [joined_cons _ more, joined_splitOn]
    simp

/-- The text that the compiler puts together is a line. -/
theorem signature_print (r : Request) (m : Source) (ndbsigs : String) (table : List (List Char)) :
    (signatureHead r ++ (m.rawattrs.map fun s => "," ++ String.ofList s).getD "" ++ ";" ++
      ndbsigs ++ appended table).toList = (line r m ndbsigs.toList table).print := by
  have front : (signatureHead r).toList =
      r.virusnames.toList ++ ';' :: ((optionalAttributes r).flatMap (· ++ [',']) ++ target r) := by
    have semicolon : ";".toList = [';'] := rfl
    unfold signatureHead optionalAttributes engine target
    simp only [String.toList_append, namedAttribute_toList, List.flatMap_append]
    cases engineLevels r with
    | none => simp [semicolon]
    | some levels => simp
  have fields : (line r m ndbsigs.toList table).print = r.virusnames.toList ++ ';' ::
      (joined ',' (optionalAttributes r ++ target r :: raw m) ++ ';' ::
        (ndbsigs.toList ++ (appended table).toList)) := by
    unfold Line.print Line.fields
    rw [joined_cons _ (List.cons_ne_nil _ _), joined_cons _ (List.cons_ne_nil _ _), appended_toList]
    rfl
  rw [fields, attributes_joined]
  simp only [String.toList_append, front]
  simp

/-- What has been looked at before a signature is accepted. -/
theorem emit_accepted {r : Request} {m : Source} {node : LogicalNode.Node}
    {table : List (List Char)} {signature : String} {log : List String}
    (emitted : emit r m node table = .ok (.accepted signature log)) :
    ∃ ndbsigs groups, LogicalText.node2String node 0 = .ok (ndbsigs, groups) ∧
      m.rawattrs.bind badAttribute = none ∧
      signature.toList = (line r m ndbsigs.toList table).print ∧
      (checkMinimum m signature.toList (((engineLevels r).map Prod.fst).getD r.min) r.kind).1 =
        true := by
  obtain ⟨ndbsigs, groups, printed, passes, rfl⟩ := emit_accepted_iff.mp ⟨log, emitted⟩
  exact ⟨ndbsigs, groups, printed, passes.attributes, signature_print r m ndbsigs table,
    checkMinimum_iff.mpr passes.level⟩

/-! ## What is in the texts -/

theorem inert_of_all {p : Char → Bool} {s : List Char} (all : ∀ c ∈ s, p c = true)
    (semicolon : p ';' = false) (newline : p '\n' = false) : Inert s where
  noSemicolon inside := Bool.false_ne_true (semicolon.symm.trans (all _ inside))
  noNewline inside := Bool.false_ne_true (newline.symm.trans (all _ inside))

theorem Inert.append_iff {s t : List Char} : Inert (s ++ t) ↔ Inert s ∧ Inert t := by
  constructor
  · rintro ⟨semicolon, newline⟩
    rw [List.mem_append, not_or] at semicolon newline
    exact ⟨⟨semicolon.1, newline.1⟩, ⟨semicolon.2, newline.2⟩⟩
  · rintro ⟨⟨semicolon, newline⟩, ⟨semicolon', newline'⟩⟩
    exact ⟨by simp [semicolon, semicolon'], by simp [newline, newline']⟩

theorem InertAttribute.append_iff {s t : List Char} :
    InertAttribute (s ++ t) ↔ InertAttribute s ∧ InertAttribute t := by
  constructor
  · rintro ⟨inert, comma⟩
    obtain ⟨first, second⟩ := Inert.append_iff.mp inert
    rw [List.mem_append, not_or] at comma
    exact ⟨⟨first, comma.1⟩, ⟨second, comma.2⟩⟩
  · rintro ⟨⟨first, comma⟩, ⟨second, comma'⟩⟩
    exact ⟨Inert.append_iff.mpr ⟨first, second⟩, by simp [comma, comma']⟩

theorem inertAttribute_nat (n : Nat) : InertAttribute (toString n).toList := by
  have digits : ∀ c ∈ (toString n).toList, c.isDigit = true := by
    intro c hc
    rw [Nat.toString_eq_repr, Nat.toList_repr] at hc
    exact Nat.isDigit_of_mem_toDigits (by decide) (by decide) hc
  exact ⟨inert_of_all digits rfl rfl, fun comma => absurd (digits _ comma) (by decide)⟩

theorem inertAttribute_engine {r : Request} {s : List Char} (hs : s ∈ engine r) :
    InertAttribute s := by
  unfold engine at hs
  split at hs
  · next min max _ =>
    cases List.mem_singleton.mp hs
    have name : InertAttribute "Engine:".toList := ⟨⟨by decide, by decide⟩, by decide⟩
    have dash : InertAttribute "-".toList := ⟨⟨by decide, by decide⟩, by decide⟩
    simp only [String.toList_append, InertAttribute.append_iff]
    exact ⟨⟨⟨name, inertAttribute_nat min⟩, dash⟩, inertAttribute_nat max⟩
  · cases hs

theorem inertAttribute_target (r : Request) : InertAttribute (target r) := by
  have name : InertAttribute "Target:".toList := ⟨⟨by decide, by decide⟩, by decide⟩
  unfold target
  rw [String.toList_append]
  exact InertAttribute.append_iff.mpr ⟨name, inertAttribute_nat _⟩

theorem inertAttribute_named {name value : String} (inert : InertAttribute (name ++ ":").toList) :
    (∀ s ∈ named name value, InertAttribute s) ↔ InertAttribute value.toList := by
  unfold named
  split
  · next empty =>
    rw [empty]
    exact iff_of_true (fun s hs => by cases hs) ⟨⟨by decide, by decide⟩, by decide⟩
  · rw [List.forall_mem_singleton, String.toList_append, InertAttribute.append_iff]
    exact and_iff_right inert

theorem inertAttribute_raw {m : Source} (allowed : m.rawattrs.bind badAttribute = none)
    {s : List Char} (hs : s ∈ raw m) : InertAttribute s := by
  unfold raw at hs
  cases attributes : m.rawattrs with
  | none =>
    rw [attributes] at hs
    cases hs
  | some text =>
    rw [attributes] at allowed hs
    have more : text.splitOn ',' ≠ [] := List.splitOn_ne_nil _ _
    have whole : joined ',' (text.splitOn ',') = text := joined_splitOn text
    have commas : ∀ field ∈ text.splitOn ',', ',' ∉ field :=
      (splitOn_joined_iff more).mp (congrArg (List.splitOn ',') whole)
    have all : ∀ c ∈ text, isAttributeChar c = true := by
      have nothing : text.dropWhile isAttributeChar = [] := by
        unfold badAttribute at allowed
        simp only [Option.bind_some] at allowed
        split at allowed
        · next nothing => exact nothing
        · cases allowed
      exact List.dropWhile_eq_nil_iff.mp nothing
    have inert := inert_of_all all (by decide) (by decide)
    have inside : ∀ c : Char, c ≠ ',' → c ∉ text → c ∉ s := by
      intro c other outside
      rw [← whole, not_mem_joined other] at outside
      exact outside s hs
    exact ⟨⟨inside _ (by decide) inert.noSemicolon, inside _ (by decide) inert.noNewline⟩,
      commas s hs⟩

/-- The texts of the request that nothing has looked at, together with the names and the table. -/
structure InertTexts (r : Request) (table : List (List Char)) : Prop where
  icon1 : InertAttribute r.icon1.toList
  icon2 : InertAttribute r.icon2.toList
  container : InertAttribute r.container.toList
  patterns : ∀ s ∈ table, Inert s

/-- The numbers and the raw attributes are always clean. -/
theorem line_clean_iff {r : Request} {m : Source} {expression : List Char}
    {table : List (List Char)} (names : Inert r.virusnames.toList) (inert : Inert expression)
    (allowed : m.rawattrs.bind badAttribute = none) :
    (line r m expression table).Clean ↔ InertTexts r table := by
  have icon1 : InertAttribute ("IconGroup1" ++ ":").toList := ⟨⟨by decide, by decide⟩, by decide⟩
  have icon2 : InertAttribute ("IconGroup2" ++ ":").toList := ⟨⟨by decide, by decide⟩, by decide⟩
  have container : InertAttribute ("Container" ++ ":").toList := ⟨⟨by decide, by decide⟩, by decide⟩
  constructor
  · rintro ⟨-, attributes, -, patterns⟩
    simp only [line, optionalAttributes, List.forall_mem_append, inertAttribute_named icon1,
      inertAttribute_named icon2, inertAttribute_named container] at attributes
    obtain ⟨⟨-, first, second, third⟩, -⟩ := attributes
    exact ⟨first, second, third, patterns⟩
  · rintro ⟨first, second, third, patterns⟩
    refine ⟨names, ?_, inert, patterns⟩
    simp only [line, optionalAttributes, List.forall_mem_append, List.forall_mem_cons,
      inertAttribute_named icon1, inertAttribute_named icon2, inertAttribute_named container]
    exact ⟨⟨fun s hs => inertAttribute_engine hs, first, second, third⟩, inertAttribute_target r,
      fun s hs => inertAttribute_raw allowed hs⟩

def isExpressionChar (c : Char) : Bool := c.isDigit || "()&|=<>,".toList.contains c

theorem number_characters {n : Nat} {ds : List Char} (digits : IsNumber n ds) :
    ∀ c ∈ ds, isExpressionChar c = true := by
  intro c hc
  rw [isExpressionChar, digits.2.1 c hc, Bool.true_or]

theorem derives_characters {p : Phrase} {es : List Ldb} {s : List Char} (derived : Derives p es s)
    (op : ∀ c, p = .operands c → isExpressionChar c = true) :
    ∀ c ∈ s, isExpressionChar c = true := by
  induction derived with
  | id digits => exact number_characters digits
  | brackets _ ih =>
    simp only [List.forall_mem_append, List.forall_mem_cons]
    exact ⟨⟨by decide, ih nofun⟩, by decide, nofun⟩
  | plain _ ih => exact ih nofun
  | compare c _ digits ih =>
    simp only [List.forall_mem_append, List.forall_mem_cons]
    exact ⟨ih nofun, by cases c <;> decide, number_characters digits⟩
  | both _ first second ih =>
    simp only [List.forall_mem_append, List.forall_mem_cons]
    exact ⟨ih nofun, by decide, number_characters first, by decide, number_characters second⟩
  | last _ ih => exact ih nofun
  | more _ _ first later =>
    simp only [List.forall_mem_append, List.forall_mem_cons]
    exact ⟨first nofun, op _ rfl, later op⟩
  | single _ ih => exact ih nofun
  | all _ _ first later =>
    simp only [List.forall_mem_append, List.forall_mem_cons]
    exact ⟨first nofun, by decide, later (by rintro _ ⟨⟩; decide)⟩
  | any _ _ first later =>
    simp only [List.forall_mem_append, List.forall_mem_cons]
    exact ⟨first nofun, by decide, later (by rintro _ ⟨⟩; decide)⟩

/-- What is written for an expression ends nothing. -/
theorem inert_print {e : Ldb} (wide : e.Wide) : Inert e.print :=
  inert_of_all (derives_characters wide.derives nofun) rfl rfl

/-! ## Valid patterns -/

theorem isPattern_of_valid {s : List Char} (valid : validateNDB s = .ok []) :
    NdbPatterns.IsPattern s := by
  by_cases colon : ':' ∈ s
  · obtain ⟨offset, body, rfl, noColon⟩ := List.eq_append_cons_of_mem colon
    rw [NdbPatterns.validateNDB_placed noColon] at valid
    have notSign : ¬ NdbPatterns.SignFirst offset := by
      intro sign
      rw [NdbPatterns.validateOffset_sign sign] at valid
      cases valid
    obtain ⟨messages, checked, exact⟩ := NdbPatterns.validateOffset_exact body noColon notSign
    rw [checked] at valid
    obtain ⟨none, characters⟩ := List.append_eq_nil_iff.mp (Except.ok.inj valid)
    exact .placed noColon (exact.mp none) (NdbPatterns.validateCharacters_nil.mp characters)
  · rw [NdbPatterns.validateNDB_bare colon] at valid
    exact .bare colon (NdbPatterns.validateCharacters_nil.mp (Except.ok.inj valid))

theorem inert_digits {n : List Char} (number : NdbPatterns.IsNumber n) : Inert n :=
  inert_of_all number.2.1 rfl rfl

theorem inert_anchor {a : List Char} (anchor : NdbPatterns.IsAnchor a) : Inert a := by
  cases anchor with
  | entryPoint => exact ⟨by decide, by decide⟩
  | lastSection => exact ⟨by decide, by decide⟩
  | @numbered k number =>
    have letter : Inert ['S'] := ⟨by decide, by decide⟩
    exact Inert.append_iff.mpr ⟨letter, inert_digits number⟩

theorem inert_position {o : List Char} (position : NdbPatterns.IsPosition o) : Inert o := by
  cases position with
  | absolute number => exact inert_digits number
  | versionInfo => exact ⟨by decide, by decide⟩
  | @anchored anchor n sign isAnchor isSign number =>
    have one : Inert [sign] := by
      rcases isSign with rfl | rfl
      · exact ⟨by decide, by decide⟩
      · exact ⟨by decide, by decide⟩
    have distance : Inert (sign :: n) := Inert.append_iff.mpr ⟨one, inert_digits number⟩
    exact Inert.append_iff.mpr ⟨inert_anchor isAnchor, distance⟩
  | beforeEnd number =>
    have ending : Inert ['E', 'O', 'F'] := ⟨by decide, by decide⟩
    have dash : Inert ['-'] := ⟨by decide, by decide⟩
    have distance := Inert.append_iff.mpr ⟨dash, inert_digits number⟩
    exact Inert.append_iff.mpr ⟨ending, distance⟩

theorem inert_offset {o : List Char} (offset : NdbPatterns.IsOffset o) : Inert o := by
  cases offset with
  | any => exact ⟨by decide, by decide⟩
  | fixed position => exact inert_position position
  | @floating o n position number =>
    have comma : Inert [','] := ⟨by decide, by decide⟩
    have distance : Inert (',' :: n) := Inert.append_iff.mpr ⟨comma, inert_digits number⟩
    exact Inert.append_iff.mpr ⟨inert_position position, distance⟩

theorem inert_body {s : List Char} (body : NdbPatterns.IsBody s) : Inert s where
  noSemicolon inside := absurd (body _ inside) (by decide)
  noNewline inside := absurd (body _ inside) (by decide)

theorem inert_of_valid {s : List Char} (valid : validateNDB s = .ok []) : Inert s := by
  cases isPattern_of_valid valid with
  | bare _ body => exact inert_body body
  | @placed offset body _ isOffset isBody =>
    have colon : Inert [':'] := ⟨by decide, by decide⟩
    have rest : Inert (':' :: body) := Inert.append_iff.mpr ⟨colon, inert_body isBody⟩
    exact Inert.append_iff.mpr ⟨inert_offset isOffset, rest⟩

/-- What was in the table, or the pattern of an entry. -/
theorem mem_write {table : List (List Char)} {xs : List Record} {s : List Char}
    (hs : s ∈ write table xs) : s ∈ table ∨ ∃ x ∈ xs, x.pattern = s := by
  induction xs generalizing table with
  | nil => exact Or.inl hs
  | cons x xs ih =>
    rcases ih hs with inside | ⟨y, hy, same⟩
    · rcases List.mem_or_eq_of_mem_set inside with old | rfl
      · exact Or.inl old
      · exact Or.inr ⟨x, List.mem_cons_self, rfl⟩
    · exact Or.inr ⟨y, List.mem_cons_of_mem x hy, same⟩

theorem entry_of_record {half : Nat} {es : List Entry} {xs : List Record}
    (stored : Stored half es xs) {x : Record} (hx : x ∈ xs) :
    ∃ e ∈ es, ∃ s, e.pattern = some s ∧ lowered s = x.pattern := by
  induction stored with
  | nil => cases hx
  | @cons e es x' xs read _ _ ih =>
    rcases List.mem_cons.mp hx with rfl | hx
    · obtain ⟨-, -, -, s, pattern, low, -⟩ := read_inr read
      exact ⟨e, List.mem_cons_self, s, pattern, low⟩
    · obtain ⟨d, hd, found⟩ := ih hx
      exact ⟨d, List.mem_cons_of_mem e hd, found⟩

/-- A table of valid patterns is clean. -/
theorem inert_table {half : Nat} {es : List Entry} {xs : List Record} (stored : Stored half es xs)
    (valid : ∀ e ∈ es, e.Valid) {s : List Char} (hs : s ∈ write (List.replicate half []) xs) :
    Inert s := by
  rcases mem_write hs with old | ⟨x, hx, rfl⟩
  · rw [List.eq_of_mem_replicate old]
    exact ⟨List.not_mem_nil, List.not_mem_nil⟩
  · obtain ⟨e, he, s, pattern, low⟩ := entry_of_record stored hx
    obtain ⟨s', pattern', accepted⟩ := valid e he
    cases pattern.symm.trans pattern'
    rw [← low]
    exact inert_of_valid accepted

end SignatureLine
