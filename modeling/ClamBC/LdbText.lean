import Mathlib.Data.List.Basic
import Mathlib.Algebra.BigOperators.Group.List.Basic
import Mathlib.Algebra.GroupWithZero.Nat

/-!
# Logical expressions of `.ldb` signatures

The text of a logical expression, how it is read, and what it says about the match counts. An id
is true when its subsignature matched; a comparison is about the total count of a group, and an
`=X,Y` also about how many different ids of the group matched. The grammar is deterministic: the
reader accepts every text that it derives, so a text has at most one expression.
-/

namespace LdbText

inductive Comparison where
  | eq | gt | lt
  deriving DecidableEq

inductive Ldb where
  | id (n : Nat)
  | all (es : List Ldb)
  | any (es : List Ldb)
  | compare (c : Comparison) (group : Ldb) (x : Nat)
  | both (group : Ldb) (x y : Nat)

namespace Ldb

mutual

def ids : Ldb → List Nat
  | .id n => [n]
  | .all es => idsOf es
  | .any es => idsOf es
  | .compare _ g _ => ids g
  | .both g _ _ => ids g

def idsOf : List Ldb → List Nat
  | [] => []
  | e :: es => ids e ++ idsOf es

end

def total (counts : Nat → Nat) (e : Ldb) : Nat := ((ids e).map counts).sum

def distinct (counts : Nat → Nat) (e : Ldb) : Nat :=
  ((ids e).dedup.filter fun n => 0 < counts n).length

mutual

def holds (counts : Nat → Nat) : Ldb → Bool
  | .id n => 0 < counts n
  | .all es => allHold counts es
  | .any es => someHold counts es
  | .compare .eq g x => total counts g = x
  | .compare .gt g x => x < total counts g
  | .compare .lt g x => total counts g < x
  | .both g x y => total counts g = x && distinct counts g = y

def allHold (counts : Nat → Nat) : List Ldb → Bool
  | [] => true
  | e :: es => holds counts e && allHold counts es

def someHold (counts : Nat → Nat) : List Ldb → Bool
  | [] => false
  | e :: es => holds counts e || someHold counts es

end

theorem allHold_iff {counts : Nat → Nat} {es : List Ldb} :
    allHold counts es = true ↔ ∀ e ∈ es, holds counts e = true := by
  induction es with
  | nil => simp [allHold]
  | cons e es ih => simp [allHold, ih]

theorem someHold_iff {counts : Nat → Nat} {es : List Ldb} :
    someHold counts es = true ↔ ∃ e ∈ es, holds counts e = true := by
  induction es with
  | nil => simp [someHold]
  | cons e es ih => simp [someHold, ih]

end Ldb

/-! ## Reading -/

def number (cs : List Char) : Option (Nat × List Char) :=
  if cs.takeWhile Char.isDigit = [] then none
  else some (Nat.ofDigitChars 10 (cs.takeWhile Char.isDigit) 0, cs.dropWhile Char.isDigit)

/-- What may follow an expression: a comparison, or nothing that belongs to it. -/
def modified (e : Ldb) : List Char → Option (Ldb × List Char)
  | '=' :: rest =>
    match number rest with
    | some (x, ',' :: rest) => (number rest).map fun r => (.both e x r.1, r.2)
    | some (x, rest) => some (.compare .eq e x, rest)
    | none => none
  | '>' :: rest => (number rest).map fun r => (.compare .gt e r.1, r.2)
  | '<' :: rest => (number rest).map fun r => (.compare .lt e r.1, r.2)
  | rest => some (e, rest)

mutual

def primary : Nat → List Char → Option (Ldb × List Char)
  | 0, _ => none
  | fuel + 1, '(' :: rest =>
    match expr fuel rest with
    | some (e, ')' :: rest) => some (e, rest)
    | _ => none
  | _ + 1, cs => (number cs).map fun r => (.id r.1, r.2)

def expr : Nat → List Char → Option (Ldb × List Char)
  | 0, _ => none
  | fuel + 1, cs =>
    match (primary fuel cs).bind fun r => modified r.1 r.2 with
    | some (e, '&' :: rest) => (operands fuel '&' rest).map fun r => (.all (e :: r.1), r.2)
    | some (e, '|' :: rest) => (operands fuel '|' rest).map fun r => (.any (e :: r.1), r.2)
    | other => other

/-- The operands behind an operator, up to the first other character. -/
def operands : Nat → Char → List Char → Option (List Ldb × List Char)
  | 0, _, _ => none
  | fuel + 1, op, cs =>
    match (primary fuel cs).bind fun r => modified r.1 r.2 with
    | some (e, c :: rest) =>
      if c = op then (operands fuel op rest).map fun r => (e :: r.1, r.2) else some ([e], c :: rest)
    | some (e, []) => some ([e], [])
    | none => none

end

/-- The whole text is one expression. The recursion is at most twice as deep as the text is long. -/
def read (cs : List Char) : Option Ldb :=
  match expr (2 * cs.length + 1) cs with
  | some (e, []) => some e
  | _ => none

def Comparison.char : Comparison → Char
  | .eq => '='
  | .gt => '>'
  | .lt => '<'

/-! ## The grammar -/

def IsNumber (n : Nat) (ds : List Char) : Prop :=
  ds ≠ [] ∧ (∀ c ∈ ds, c.isDigit = true) ∧ Nat.ofDigitChars 10 ds 0 = n

inductive Phrase where
  | primary | term | operands (op : Char) | expr

/-- The texts of a phrase, with the expressions that they stand for. Only operands are several. -/
inductive Derives : Phrase → List Ldb → List Char → Prop
  | id {n : Nat} {ds : List Char} : IsNumber n ds → Derives .primary [.id n] ds
  | brackets {e : Ldb} {s : List Char} : Derives .expr [e] s →
      Derives .primary [e] ('(' :: s ++ [')'])
  | plain {e : Ldb} {s : List Char} : Derives .primary [e] s → Derives .term [e] s
  | compare {e : Ldb} {s ds : List Char} {x : Nat} (c : Comparison) : Derives .primary [e] s →
      IsNumber x ds →
      Derives .term [.compare c e x] (s ++ c.char :: ds)
  | both {e : Ldb} {s ds ds' : List Char} {x y : Nat} : Derives .primary [e] s → IsNumber x ds →
      IsNumber y ds' →
      Derives .term [.both e x y] (s ++ '=' :: (ds ++ ',' :: ds'))
  | last {e : Ldb} {s : List Char} {op : Char} : Derives .term [e] s → Derives (.operands op) [e] s
  | more {e : Ldb} {es : List Ldb} {s s' : List Char} {op : Char} : Derives .term [e] s →
      Derives (.operands op) es s' →
      Derives (.operands op) (e :: es) (s ++ op :: s')
  | single {e : Ldb} {s : List Char} : Derives .term [e] s → Derives .expr [e] s
  | all {e : Ldb} {es : List Ldb} {s s' : List Char} : Derives .term [e] s →
      Derives (.operands '&') es s' →
      Derives .expr [.all (e :: es)] (s ++ '&' :: s')
  | any {e : Ldb} {es : List Ldb} {s s' : List Char} : Derives .term [e] s →
      Derives (.operands '|') es s' →
      Derives .expr [.any (e :: es)] (s ++ '|' :: s')

/-- The text goes on with something that is not part of a number. -/
def Ends (rest : List Char) : Prop := ∀ c ∈ rest.head?, c.isDigit = false

theorem number_complete {n : Nat} {ds rest : List Char} (digits : IsNumber n ds)
    (ends : Ends rest) :
    number (ds ++ rest) = some (n, rest) := by
  obtain ⟨some, digits, rfl⟩ := digits
  have none : rest.takeWhile Char.isDigit = [] ∧ rest.dropWhile Char.isDigit = rest := by
    cases rest with
    | nil => exact ⟨rfl, rfl⟩
    | cons c rest =>
      have first : c.isDigit = false := ends c rfl
      simp [first]
  have taken : (ds ++ rest).takeWhile Char.isDigit = ds := by
    rw [List.takeWhile_append_of_pos digits, none.1, List.append_nil]
  have dropped : (ds ++ rest).dropWhile Char.isDigit = rest := by
    rw [List.dropWhile_append_of_pos digits, none.2]
  unfold number
  rw [taken, dropped, if_neg some]

/-- What follows does not belong to the term before it. -/
def Apart (rest : List Char) : Prop :=
  ∀ c ∈ rest.head?, c.isDigit = false ∧ c ≠ '=' ∧ c ≠ '>' ∧ c ≠ '<' ∧ c ≠ ','

theorem Apart.ends {rest : List Char} (apart : Apart rest) : Ends rest := fun c hc => (apart c hc).1

/-- What follows is neither part of the last term nor a further operand. -/
def Closed (rest : List Char) : Prop := Apart rest ∧ ∀ c ∈ rest.head?, c ≠ '&' ∧ c ≠ '|'

theorem forall_head {P : Char → Prop} {c : Char} (h : P c) (rest : List Char) :
    ∀ d ∈ (c :: rest).head?, P d := by
  intro d hd
  cases hd
  exact h

theorem closed_bracket (rest : List Char) : Closed (')' :: rest) :=
  ⟨forall_head (by decide) rest, forall_head (by decide) rest⟩

theorem modified_apart {e : Ldb} {rest : List Char} (apart : Apart rest) :
    modified e rest = some (e, rest) := by
  unfold modified
  split
  · exact absurd rfl (apart '=' rfl).2.1
  · exact absurd rfl (apart '>' rfl).2.2.1
  · exact absurd rfl (apart '<' rfl).2.2.2.1
  · rfl

theorem modified_compare {e : Ldb}
    {c : Comparison} {x : Nat} {ds rest : List Char} (digits : IsNumber x ds) (apart : Apart rest) :
    modified e (c.char :: (ds ++ rest)) = some (.compare c e x, rest) := by
  have read := number_complete digits apart.ends
  cases c with
  | eq =>
    simp only [Comparison.char, modified, read]
    split
    · next same =>
      cases same
      exact absurd rfl (apart ',' rfl).2.2.2.2
    · next same =>
      cases same
      rfl
    · next same => cases same
  | gt => simp [Comparison.char, modified, read]
  | lt => simp [Comparison.char, modified, read]

theorem modified_both {e : Ldb} {x y : Nat} {ds ds' rest : List Char}
    (first : IsNumber x ds) (second : IsNumber y ds') (apart : Apart rest) :
    modified e ('=' :: (ds ++ ',' :: (ds' ++ rest))) = some (.both e x y, rest) := by
  have comma : Ends (',' :: (ds' ++ rest)) := forall_head (by decide) _
  simp only [modified, number_complete first comma, number_complete second apart.ends,
    Option.map_some]

/-- How a phrase is read: with enough fuel, and whatever follows it. -/
def Read : Phrase → List Ldb → List Char → Prop
  | .primary, es, s => ∀ e, es = [e] → ∀ fuel rest, 2 * s.length ≤ fuel → Ends rest →
      primary fuel (s ++ rest) = some (e, rest)
  | .term, es, s => ∀ e, es = [e] → ∀ fuel rest, 2 * s.length ≤ fuel → Apart rest →
      ((primary fuel (s ++ rest)).bind fun r => modified r.1 r.2) = some (e, rest)
  | .operands op, es, s =>
      op = '&' ∨ op = '|' → ∀ fuel rest, 2 * s.length + 1 ≤ fuel → Closed rest →
      operands fuel op (s ++ rest) = some (es, rest)
  | .expr, es, s => ∀ e, es = [e] → ∀ fuel rest, 2 * s.length + 1 ≤ fuel → Closed rest →
      expr fuel (s ++ rest) = some (e, rest)

theorem read_id {n : Nat} {ds : List Char} (digits : IsNumber n ds) : Read .primary [.id n] ds := by
  rintro _ ⟨⟩ fuel rest enough ends
  have read := number_complete digits ends
  obtain ⟨some, digits, -⟩ := digits
  obtain ⟨c, ds, rfl⟩ := List.exists_cons_of_ne_nil some
  have isDigit : c.isDigit = true := digits c List.mem_cons_self
  cases fuel with
  | zero => simp at enough
  | succ fuel =>
    unfold primary
    split
    · next none => cases none
    · next same =>
      cases (List.cons.inj same).1
      cases isDigit
    · rw [read]
      rfl

theorem read_brackets {e : Ldb} {s : List Char} (inner : Read .expr [e] s) :
    Read .primary [e] ('(' :: s ++ [')']) := by
  rintro _ ⟨⟩ fuel rest enough -
  simp only [List.length_append, List.length_cons, List.length_nil] at enough
  obtain ⟨fuel, rfl⟩ : ∃ k, fuel = k + 1 := ⟨fuel - 1, by omega⟩
  have read := inner e rfl fuel (')' :: rest) (by omega) (closed_bracket rest)
  simp only [List.cons_append, List.append_assoc, List.nil_append, primary]
  rw [read]
  rfl

theorem read_compare {e : Ldb} {s ds : List Char}
    {x : Nat} (c : Comparison) (inner : Read .primary [e] s) (digits : IsNumber x ds) :
    Read .term [.compare c e x] (s ++ c.char :: ds) := by
  rintro _ ⟨⟩ fuel rest enough apart
  rw [List.length_append, List.length_cons] at enough
  have ends : Ends (c.char :: (ds ++ rest)) := forall_head (by cases c <;> rfl) _
  rw [List.append_assoc, List.cons_append, inner e rfl fuel _ (by omega) ends]
  exact modified_compare digits apart

theorem read_both {e : Ldb} {s ds ds' : List Char}
    {x y : Nat} (inner : Read .primary [e] s) (first : IsNumber x ds) (second : IsNumber y ds') :
    Read .term [.both e x y] (s ++ '=' :: (ds ++ ',' :: ds')) := by
  rintro _ ⟨⟩ fuel rest enough apart
  rw [List.length_append] at enough
  have ends : Ends ('=' :: (ds ++ ',' :: (ds' ++ rest))) := forall_head (by decide) _
  simp only [List.append_assoc, List.cons_append]
  rw [inner e rfl fuel _ (by omega) ends]
  exact modified_both first second apart

/-- The first operand of several. -/
theorem read_first {e : Ldb} {s : List Char} {op : Char} (isOp : op = '&' ∨ op = '|')
    (first : Read .term [e] s) {fuel : Nat} (enough : 2 * s.length ≤ fuel) (rest : List Char) :
    ((primary fuel (s ++ op :: rest)).bind fun r => modified r.1 r.2) = some (e, op :: rest) := by
  refine first e rfl fuel (op :: rest) enough (forall_head ?_ rest)
  rcases isOp with rfl | rfl <;> decide

theorem read_last {e : Ldb} {s : List Char} {op : Char} (first : Read .term [e] s) :
    Read (.operands op) [e] s := by
  intro isOp fuel rest enough closed
  obtain ⟨fuel, rfl⟩ : ∃ k, fuel = k + 1 := ⟨fuel - 1, by omega⟩
  unfold operands
  rw [first e rfl fuel rest (by omega) closed.1]
  cases rest with
  | nil => rfl
  | cons c rest =>
    have other : c ≠ op := by
      obtain ⟨notAll, notAny⟩ := closed.2 c rfl
      rcases isOp with rfl | rfl
      · exact notAll
      · exact notAny
    exact if_neg other

theorem read_more {e : Ldb} {es : List Ldb}
    {s s' : List Char} {op : Char} (first : Read .term [e] s) (later : Read (.operands op) es s') :
    Read (.operands op) (e :: es) (s ++ op :: s') := by
  intro isOp fuel rest enough closed
  rw [List.length_append, List.length_cons] at enough
  obtain ⟨fuel, rfl⟩ : ∃ k, fuel = k + 1 := ⟨fuel - 1, by omega⟩
  unfold operands
  rw [List.append_assoc, List.cons_append, read_first isOp first (by omega)]
  simp only [if_true]
  rw [later isOp fuel rest (by omega) closed]
  rfl

theorem read_single {e : Ldb} {s : List Char} (first : Read .term [e] s) : Read .expr [e] s := by
  rintro _ ⟨⟩ fuel rest enough closed
  obtain ⟨fuel, rfl⟩ : ∃ k, fuel = k + 1 := ⟨fuel - 1, by omega⟩
  unfold expr
  rw [first e rfl fuel rest (by omega) closed.1]
  split
  · next same =>
    cases same
    exact absurd rfl (closed.2 '&' rfl).1
  · next same =>
    cases same
    exact absurd rfl (closed.2 '|' rfl).2
  · rfl

theorem read_all {e : Ldb} {es : List Ldb} {s s' : List Char} (first : Read .term [e] s)
    (later : Read (.operands '&') es s') :
    Read .expr [.all (e :: es)] (s ++ '&' :: s') := by
  rintro _ ⟨⟩ fuel rest enough closed
  rw [List.length_append, List.length_cons] at enough
  obtain ⟨fuel, rfl⟩ : ∃ k, fuel = k + 1 := ⟨fuel - 1, by omega⟩
  unfold expr
  rw [List.append_assoc, List.cons_append, read_first (.inl rfl) first (by omega)]
  show (operands fuel '&' _).map _ = _
  rw [later (.inl rfl) fuel rest (by omega) closed]
  rfl

theorem read_any {e : Ldb} {es : List Ldb} {s s' : List Char} (first : Read .term [e] s)
    (later : Read (.operands '|') es s') :
    Read .expr [.any (e :: es)] (s ++ '|' :: s') := by
  rintro _ ⟨⟩ fuel rest enough closed
  rw [List.length_append, List.length_cons] at enough
  obtain ⟨fuel, rfl⟩ : ∃ k, fuel = k + 1 := ⟨fuel - 1, by omega⟩
  unfold expr
  rw [List.append_assoc, List.cons_append, read_first (.inr rfl) first (by omega)]
  show (operands fuel '|' _).map _ = _
  rw [later (.inr rfl) fuel rest (by omega) closed]
  rfl

/-- Whatever the grammar derives is read. -/
theorem Derives.read {p : Phrase} {es : List Ldb} {s : List Char} (derived : Derives p es s) :
    Read p es s := by
  induction derived with
  | id digits => exact read_id digits
  | brackets _ ih => exact read_brackets ih
  | plain _ ih =>
    rintro e ⟨⟩ fuel rest enough apart
    rw [ih _ rfl fuel rest enough apart.ends]
    exact modified_apart apart
  | compare c _ digits ih => exact read_compare c ih digits
  | both _ first second ih => exact read_both ih first second
  | last _ ih => exact read_last ih
  | more _ _ first later => exact read_more first later
  | single _ ih => exact read_single ih
  | all _ _ first later => exact read_all first later
  | any _ _ first later => exact read_any first later

theorem read_complete {e : Ldb} {s : List Char} (derived : Derives .expr [e] s) :
    read s = some e := by
  have none : Closed [] := by
    constructor
    · exact fun c hc => by cases hc
    · exact fun c hc => by cases hc
  have whole := derived.read e rfl (2 * s.length + 1) [] (Nat.le_refl _) none
  rw [List.append_nil] at whole
  unfold LdbText.read
  rw [whole]

/-- A text has at most one expression. -/
theorem Derives.unique {e e' : Ldb} {s : List Char} (derived : Derives .expr [e] s)
    (other : Derives .expr [e'] s) :
    e = e' := Option.some.inj ((read_complete derived).symm.trans (read_complete other))

/-! ## Brackets -/

/-- How many brackets are open after a text, unless one is closed that is not open. -/
def depth : Nat → List Char → Option Nat
  | d, [] => some d
  | d, '(' :: s => depth (d + 1) s
  | 0, ')' :: _ => none
  | d + 1, ')' :: s => depth d s
  | d, _ :: s => depth d s

def Balanced (s : List Char) : Prop := depth 0 s = some 0

theorem depth_other {c : Char} (notOpen : c ≠ '(') (notClose : c ≠ ')') (d : Nat) (s : List Char) :
    depth d (c :: s) = depth d s := by
  rw [depth]
  · exact notOpen
  · exact fun _ h => notClose h
  · exact fun _ _ h => notClose h

theorem depth_append (d : Nat) (s t : List Char) :
    depth d (s ++ t) = (depth d s).bind fun d => depth d t := by
  fun_induction depth d s with
  | case1 d => rfl
  | case2 d s ih => exact ih
  | case3 s => rfl
  | case4 d s ih => exact ih
  | case5 d c s notOpen notClose notClose' ih =>
    rw [List.cons_append, depth_other notOpen]
    · exact ih
    · rintro rfl
      cases d with
      | zero => exact notClose rfl rfl
      | succ d => exact notClose' d rfl rfl

/-- A text that leaves the open brackets as they are, wherever it stands. -/
def Level (s : List Char) : Prop := ∀ d, depth d s = some d

theorem Level.append {s t : List Char} (first : Level s) (second : Level t) : Level (s ++ t) := by
  intro d
  rw [depth_append, first d]
  exact second d

theorem Level.cons {c : Char} {s : List Char} (other : c ≠ '(' ∧ c ≠ ')') (rest : Level s) :
    Level (c :: s) := by
  intro d
  rw [depth_other other.1 other.2]
  exact rest d

theorem level_number {n : Nat} {ds : List Char} (digits : IsNumber n ds) : Level ds := by
  have each : ∀ c ∈ ds, c.isDigit = true := digits.2.1
  clear digits
  induction ds with
  | nil => exact fun d => rfl
  | cons c ds ih =>
    refine .cons ⟨?_, ?_⟩ (ih fun x hx => each x (List.mem_cons_of_mem c hx))
    · rintro rfl
      cases each _ List.mem_cons_self
    · rintro rfl
      cases each _ List.mem_cons_self

theorem Derives.level {p : Phrase} {es : List Ldb} {s : List Char} (derived : Derives p es s)
    (op : ∀ c, p = .operands c → c ≠ '(' ∧ c ≠ ')') : Level s := by
  induction derived with
  | id digits => exact level_number digits
  | brackets _ ih =>
    intro d
    rw [List.cons_append, depth, depth_append, ih nofun]
    rfl
  | plain _ ih => exact ih nofun
  | compare c _ digits ih =>
      exact (ih nofun).append (.cons (by cases c <;> decide) (level_number digits))
  | both _ first second ih =>
    exact (ih nofun).append
      (.cons (by decide) ((level_number first).append (.cons (by decide) (level_number second))))
  | last _ ih => exact ih nofun
  | more _ _ first later => exact (first nofun).append (.cons (op _ rfl) (later op))
  | single _ ih => exact ih nofun
  | all _ _ first later =>
    refine (first nofun).append (.cons (by decide) (later ?_))
    rintro _ ⟨⟩
    decide
  | any _ _ first later =>
    refine (first nofun).append (.cons (by decide) (later ?_))
    rintro _ ⟨⟩
    decide

theorem Derives.balanced {e : Ldb} {s : List Char} (derived : Derives .expr [e] s) : Balanced s :=
  derived.level nofun 0

/-! ## Writing -/

namespace Ldb

mutual

def print : Ldb → List Char
  | .id n => Nat.toDigits 10 n
  | .all es => '(' :: printList '&' es ++ [')']
  | .any es => '(' :: printList '|' es ++ [')']
  | .compare c g x => '(' :: print g ++ c.char :: Nat.toDigits 10 x ++ [')']
  | .both g x y => '(' :: print g ++ '=' :: Nat.toDigits 10 x ++ ',' :: Nat.toDigits 10 y ++ [')']

def printList (op : Char) : List Ldb → List Char
  | [] => []
  | [e] => print e
  | e :: e' :: es => print e ++ op :: printList op (e' :: es)

end

/-- Connectives have at least two operands. -/
inductive Wide : Ldb → Prop
  | id (n : Nat) : Wide (.id n)
  | all {es : List Ldb} : 2 ≤ es.length → (∀ e ∈ es, Wide e) → Wide (.all es)
  | any {es : List Ldb} : 2 ≤ es.length → (∀ e ∈ es, Wide e) → Wide (.any es)
  | compare {c : Comparison} {g : Ldb} {x : Nat} : Wide g → Wide (.compare c g x)
  | both {g : Ldb} {x y : Nat} : Wide g → Wide (.both g x y)

end Ldb

theorem isNumber_toDigits (n : Nat) : IsNumber n (Nat.toDigits 10 n) :=
  ⟨Nat.toDigits_ne_nil, fun _ hc => Nat.isDigit_of_mem_toDigits (by decide) (by decide) hc,
    Nat.ofDigitChars_ten_toDigits⟩

theorem operands_printList {op : Char} {es : List Ldb} (some : es ≠ [])
    (each : ∀ e ∈ es, Derives .primary [e] e.print) :
    Derives (.operands op) es (Ldb.printList op es) := by
  induction es with
  | nil => exact absurd rfl some
  | cons e es ih =>
    have first : Derives .term [e] e.print := .plain (each e List.mem_cons_self)
    cases es with
    | nil => exact .last first
    | cons e' es =>
      exact .more first (ih (List.cons_ne_nil _ _) fun x hx => each x (List.mem_cons_of_mem _ hx))

/-- What is written for an expression stands for it. -/
theorem Ldb.Wide.derives {e : Ldb} (wide : e.Wide) : Derives .primary [e] e.print := by
  induction wide with
  | id n => exact .id (isNumber_toDigits n)
  | @all es wide _ ih =>
    match es, wide, ih with
    | e :: e' :: es, _, ih =>
      refine .brackets (.all (.plain (ih e List.mem_cons_self)) ?_)
      exact operands_printList (List.cons_ne_nil _ _) fun x hx => ih x (List.mem_cons_of_mem _ hx)
  | @any es wide _ ih =>
    match es, wide, ih with
    | e :: e' :: es, _, ih =>
      refine .brackets (.any (.plain (ih e List.mem_cons_self)) ?_)
      exact operands_printList (List.cons_ne_nil _ _) fun x hx => ih x (List.mem_cons_of_mem _ hx)
  | @compare c g x _ ih => exact .brackets (.single (.compare c ih (isNumber_toDigits x)))
  | @both g x y _ ih =>
    have derived :=
      Derives.brackets (.single (.both ih (isNumber_toDigits x) (isNumber_toDigits y)))
    simpa [Ldb.print] using derived

/-- What is written is read back. -/
theorem read_print {e : Ldb} (wide : e.Wide) : read e.print = some e :=
  read_complete (.single (.plain wide.derives))

end LdbText
