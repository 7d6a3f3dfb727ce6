import ClamBC.SubSignatures
import Mathlib.Data.List.TakeWhile

/-!
# The patterns that are accepted

`validateNDB` checks a pattern in two parts, an offset up to the first colon and the
characters behind it. Below, the patterns are described once more by a grammar, and the
validator is compared with it. The case of letters is changed before the validation, which
the markers `(B)` and `(L)` do not survive.
-/

namespace NdbPatterns

open SubSignatures

/-! ## The grammar -/

def IsNumber (n : List Char) : Prop :=
  n ≠ [] ∧ (∀ c ∈ n, c.isDigit = true) ∧ Nat.ofDigitChars 10 n 0 < 2 ^ 32

def IsSign (c : Char) : Prop := c = '+' ∨ c = '-'

/-- The entry point, the last section or the section with a number. -/
inductive IsAnchor : List Char → Prop
  | entryPoint : IsAnchor ['E', 'P']
  | lastSection : IsAnchor ['S', 'L']
  | numbered {k : List Char} : IsNumber k → IsAnchor ('S' :: k)

inductive IsPosition : List Char → Prop
  | absolute {n : List Char} : IsNumber n → IsPosition n
  | versionInfo : IsPosition ['V', 'I']
  | anchored {anchor n : List Char} {sign : Char} :
      IsAnchor anchor → IsSign sign → IsNumber n → IsPosition (anchor ++ sign :: n)
  | beforeEnd {n : List Char} : IsNumber n → IsPosition (['E', 'O', 'F'] ++ '-' :: n)

inductive IsOffset : List Char → Prop
  | any : IsOffset ['*']
  | fixed {o : List Char} : IsPosition o → IsOffset o
  | floating {o n : List Char} : IsPosition o → IsNumber n → IsOffset (o ++ ',' :: n)

def bodyAlphabet : List Char := "0123456789abcdef?*\x7b\x7d-()|![]BL".toList

def IsBody (s : List Char) : Prop := ∀ c ∈ s, c ∈ bodyAlphabet

inductive IsPattern : List Char → Prop
  | bare {body : List Char} : ':' ∉ body → IsBody body → IsPattern body
  | placed {offset body : List Char} : ':' ∉ offset → IsOffset offset → IsBody body →
      IsPattern (offset ++ ':' :: body)

/-- A property of all characters of a text is checked one by one. -/
theorem forall_of_all {l : List Char} {p : Char → Prop} [DecidablePred p]
    (all : l.all (fun c => decide (p c)) = true) :
    ∀ c ∈ l, p c := fun c hc => of_decide_eq_true (List.all_eq_true.mp all c hc)

/-! ## Splitting -/

theorem splitAtFirst_none {p : Char → Bool} {s : List Char} :
    splitAtFirst p s = none ↔ ∀ c ∈ s, p c = false := by
  unfold splitAtFirst
  split
  · next rest =>
    rw [List.dropWhile_eq_nil_iff] at rest
    simpa using rest
  · next c rest found =>
    refine iff_of_false nofun fun none => ?_
    have all : s.dropWhile (fun c => !p c) = [] :=
      List.dropWhile_eq_nil_iff.mpr fun d hd => by simp [none d hd]
    rw [all] at found
    cases found

theorem splitAtFirst_some {p : Char → Bool} {s before behind : List Char} :
    splitAtFirst p s = some (before, behind) ↔ ∃ c, p c = true ∧ s = before ++ c :: behind ∧
      ∀ d ∈ before, p d = false := by
  constructor
  · intro split
    unfold splitAtFirst at split
    cases found : s.dropWhile (fun c => !p c) with
    | nil => simp [found] at split
    | cons c rest =>
      simp only [found, Option.some.injEq, Prod.mk.injEq] at split
      obtain ⟨rfl, rfl⟩ := split
      have parts := List.takeWhile_append_dropWhile (p := fun c => !p c) (l := s)
      rw [found] at parts
      refine ⟨c, ?_, parts.symm, fun d hd => by simpa using List.mem_takeWhile_imp hd⟩
      have head := List.head?_dropWhile_not (fun c => !p c) s
      rw [found] at head
      simpa using head
  · rintro ⟨c, hc, rfl, none⟩
    have first : ∀ d ∈ before, (!p d) = true := fun d hd => by simp [none d hd]
    simp [splitAtFirst, List.dropWhile_append_of_pos first, List.takeWhile_append_of_pos first, hc]

/-! ## Numbers, signs and anchors -/

theorem getAsInteger_none {s : List Char} : getAsInteger s = none ↔ ¬ IsNumber s := by
  simp [getAsInteger, IsNumber]

theorem isDigit_ne {c : Char} (digit : c.isDigit = true) :
    c ≠ '*' ∧ c ≠ ',' ∧ c ≠ ':' ∧ c ≠ '+' ∧ c ≠ '-' ∧ c ≠ 'E' ∧ c ≠ 'S' ∧ c ≠ 'V' ∧ c ≠ 'L' := by
  refine ⟨?_, ?_, ?_, ?_, ?_, ?_, ?_, ?_, ?_⟩ <;> (rintro rfl; revert digit; decide)

theorem IsNumber.digit {n : List Char} (number : IsNumber n) {c : Char} (hc : c ∈ n) :
    c.isDigit = true := number.2.1 c hc

theorem IsAnchor.letters {a : List Char} (anchor : IsAnchor a) {c : Char} (hc : c ∈ a) :
    c ≠ '+' ∧ c ≠ '-' ∧ c ≠ ',' := by
  cases anchor with
  | entryPoint =>
    simp only [List.mem_cons, List.not_mem_nil, or_false] at hc
    rcases hc with rfl | rfl <;> decide
  | lastSection =>
    simp only [List.mem_cons, List.not_mem_nil, or_false] at hc
    rcases hc with rfl | rfl <;> decide
  | numbered number =>
    rcases List.mem_cons.mp hc with rfl | hc
    · decide
    · have apart := isDigit_ne (number.digit hc)
      exact ⟨apart.2.2.2.1, apart.2.2.2.2.1, apart.2.1⟩

/-- No position has a comma. -/
theorem IsPosition.noComma {o : List Char} (position : IsPosition o) : ',' ∉ o := by
  have none {n : List Char} (number : IsNumber n) : ',' ∉ n := fun comma =>
    (isDigit_ne (number.digit comma)).2.1 rfl
  cases position with
  | absolute number => exact none number
  | versionInfo => decide
  | anchored anchor sign number =>
    intro comma
    rcases List.mem_append.mp comma with comma | comma
    · exact (anchor.letters comma).2.2 rfl
    · rcases List.mem_cons.mp comma with rfl | comma
      · rcases sign with sign | sign <;> cases sign
      · exact none number comma
  | beforeEnd number =>
    intro comma
    simp only [List.cons_append, List.nil_append, List.mem_cons] at comma
    rcases comma with comma | comma | comma | comma | comma
    · cases comma
    · cases comma
    · cases comma
    · cases comma
    · exact none number comma

theorem IsPosition.head {o : List Char} (position : IsPosition o) :
    o ≠ [] ∧ ∀ c ∈ o.head?, c ≠ '*' ∧ ¬ IsSign c := by
  cases position with
  | @absolute n number =>
    refine ⟨number.1, fun c hc => ?_⟩
    have apart := isDigit_ne (number.digit (List.mem_of_mem_head? hc))
    exact ⟨apart.1, fun sign => sign.elim apart.2.2.2.1 apart.2.2.2.2.1⟩
  | versionInfo => simp [IsSign]
  | anchored anchor sign number =>
    cases anchor <;> simp [IsSign]
  | beforeEnd number => simp [IsSign]

def isSign (c : Char) : Bool := c == '+' || c == '-'

theorem isSign_iff {c : Char} : isSign c = true ↔ IsSign c := by simp [isSign, IsSign]

theorem not_isSign {c : Char} (plus : c ≠ '+') (minus : c ≠ '-') : isSign c = false := by
  simp [isSign, plus, minus]

/-- A text is split at its first sign in one way. -/
theorem split_unique {p : Char → Bool} {a b x y : List Char}
    {c d : Char} (same : a ++ c :: x = b ++ d :: y) (hc : p c = true) (ha : ∀ e ∈ a, p e = false)
    (hd : p d = true) (hb : ∀ e ∈ b, p e = false) : a = b ∧ c = d ∧ x = y := by
  have first : splitAtFirst p (a ++ c :: x) = some (a, x) := splitAtFirst_some.mpr ⟨c, hc, rfl, ha⟩
  have second : splitAtFirst p (a ++ c :: x) = some (b, y) :=
    splitAtFirst_some.mpr ⟨d, hd, same, hb⟩
  cases first.symm.trans second
  have tails := List.append_cancel_left same
  exact ⟨rfl, (List.cons.inj tails).1, rfl⟩

/-- What a position with a sign is made of. -/
theorem position_signed_iff {anchor delta : List Char} {sign : Char} (signed : isSign sign = true)
    (unsigned : ∀ c ∈ anchor, isSign c = false) :
    IsPosition (anchor ++ sign :: delta) ↔
      IsNumber delta ∧ (IsAnchor anchor ∨ (anchor = ['E', 'O', 'F'] ∧ sign = '-')) := by
  constructor
  · intro position
    generalize same : anchor ++ sign :: delta = o at position
    have here : sign ∈ o := same ▸ by simp
    cases position with
    | absolute number =>
      have apart := isDigit_ne (number.digit here)
      exact ((isSign_iff.mp signed).elim apart.2.2.2.1 apart.2.2.2.2.1).elim
    | versionInfo =>
      rcases isSign_iff.mp signed with rfl | rfl
      · exact absurd here (by decide)
      · exact absurd here (by decide)
    | anchored anchor' sign' number =>
      obtain ⟨rfl, rfl, rfl⟩ := split_unique same signed unsigned (isSign_iff.mpr sign')
        fun c hc => not_isSign (anchor'.letters hc).1 (anchor'.letters hc).2.1
      exact ⟨number, Or.inl anchor'⟩
    | beforeEnd number =>
      obtain ⟨rfl, rfl, rfl⟩ := split_unique same signed unsigned rfl (forall_of_all (by decide))
      exact ⟨number, Or.inr ⟨rfl, rfl⟩⟩
  · rintro ⟨number, anchor | ⟨rfl, rfl⟩⟩
    · exact .anchored anchor (isSign_iff.mp signed) number
    · exact .beforeEnd number

/-! ## The offset -/

/-- The first character is a sign. -/
def SignFirst (o : List Char) : Prop := ∃ c ∈ o.head?, IsSign c

theorem anchoredOffset_exact (pattern : List Char)
    {o : List Char} (notNumber : ∀ c ∈ o.head?, c.isDigit = false) (notVersion : o ≠ ['V', 'I'])
    (notSign : ¬ SignFirst o) :
    ∃ messages, anchoredOffset pattern o = .ok messages ∧ (messages = [] ↔ IsPosition o) := by
  unfold anchoredOffset
  have signs : (fun c => c == '+' || c == '-') = isSign := rfl
  rw [signs]
  cases split : splitAtFirst isSign o with
  | none =>
    refine ⟨_, rfl, iff_of_false nofun fun position => ?_⟩
    have unsigned := splitAtFirst_none.mp split
    cases position with
    | absolute number =>
      obtain ⟨c, rest, rfl⟩ := List.exists_cons_of_ne_nil number.1
      have digit := number.digit List.mem_cons_self
      rw [notNumber c rfl] at digit
      cases digit
    | versionInfo => exact notVersion rfl
    | anchored _ sign _ =>
      have plain := unsigned _ (List.mem_append_right _ List.mem_cons_self)
      rw [isSign_iff.mpr sign] at plain
      cases plain
    | beforeEnd _ => exact absurd (unsigned '-' (by simp)) (by decide)
  | some parts =>
    obtain ⟨anchor, delta⟩ := parts
    obtain ⟨sign, signed, rfl, unsigned⟩ := splitAtFirst_some.mp split
    rw [position_signed_iff signed unsigned]
    have atEnd : "EOF-".toList <+: anchor ++ sign :: delta ↔ anchor = ['E', 'O', 'F'] ∧
        sign = '-' := by
      constructor
      · rintro ⟨rest, same⟩
        have text : ['E', 'O', 'F'] ++ '-' :: rest = anchor ++ sign :: delta := same
        obtain ⟨rfl, rfl, rfl⟩ := split_unique text rfl (forall_of_all (by decide)) signed unsigned
        exact ⟨rfl, rfl⟩
      · rintro ⟨rfl, rfl⟩
        exact ⟨delta, rfl⟩
    have distance : (if getAsInteger delta = none then
        [quoted "Anchored offset is not an integer: " (anchor ++ sign :: delta)]
        else []) = [] ↔ IsNumber delta := by simp [getAsInteger_none]
    dsimp only
    generalize (if getAsInteger delta = none then
        [quoted "Anchored offset is not an integer: " (anchor ++ sign :: delta)]
        else []) = messages at distance ⊢
    by_cases known : "EOF-".toList <+: anchor ++ sign :: delta ∨ anchor = "EP".toList ∨
      anchor = "SL".toList
    · rw [if_pos known]
      refine ⟨_, rfl, distance.trans (and_iff_left ?_).symm⟩
      rcases known with known | rfl | rfl
      · exact Or.inr (atEnd.mp known)
      · exact Or.inl .entryPoint
      · exact Or.inl .lastSection
    · rw [if_neg known]
      obtain ⟨notEnd, notEntry, notLast⟩ := (not_or.mp known).imp_right not_or.mp
      rw [or_iff_left (mt atEnd.mpr notEnd)]
      split
      · exact absurd ⟨sign, rfl, isSign_iff.mp signed⟩ notSign
      · next digits =>
        have anchors : IsAnchor ('S' :: digits) ↔ IsNumber digits := by
          constructor
          · intro isAnchor
            cases isAnchor with
            | lastSection => exact absurd rfl notLast
            | numbered number => exact number
          · exact .numbered
        rw [anchors]
        split_ifs with integer
        · exact ⟨_, rfl, iff_of_false (by simp) fun both => getAsInteger_none.mp integer both.2⟩
        · exact ⟨_, rfl,
            distance.trans (and_iff_left (not_not.mp (mt getAsInteger_none.mpr integer))).symm⟩
      · next unknown =>
        refine ⟨_, rfl, iff_of_false (by simp) fun both => ?_⟩
        cases both.2 with
        | entryPoint => exact notEntry rfl
        | lastSection => exact notLast rfl
        | numbered number => exact unknown _ rfl

theorem floatingOffset_plain {o : List Char} (noComma : ',' ∉ o) : floatingOffset o = ([], o) := by
  have none : splitAtFirst (· == ',') o = none := by
    refine splitAtFirst_none.mpr fun c hc => ?_
    simpa using fun same : c = ',' => noComma (same ▸ hc)
  rw [floatingOffset, none]

theorem floatingOffset_comma {before behind : List Char} (noComma : ',' ∉ before) :
    floatingOffset (before ++ ',' :: behind) =
    if getAsInteger behind = none then
      ([quoted "Floating offset is not an integer in" (before ++ ',' :: behind)],
        before ++ ',' :: behind)
    else ([], before) := by
  have some : splitAtFirst (· == ',') (before ++ ',' :: behind) = some (before, behind) := by
    refine splitAtFirst_some.mpr ⟨',', rfl, rfl, fun c hc => ?_⟩
    simpa using fun same : c = ',' => noComma (same ▸ hc)
  rw [floatingOffset, some]
  cases integer : getAsInteger behind <;> simp [integer]

theorem position_of_digit {o : List Char} (digit : o.head?.any Char.isDigit = true) :
    IsPosition o ↔ IsNumber o := by
  constructor
  · intro position
    cases position with
    | absolute number => exact number
    | versionInfo => cases digit
    | anchored anchor _ _ => cases anchor <;> cases digit
    | beforeEnd _ => cases digit
  · exact .absolute

section
variable (pattern : List Char) {offset o : List Char} {floating : List String}
  (stripped : floatingOffset offset = (floating, o)) (some : o ≠ [])
include stripped some

theorem validateOffset_any :
    ∃ messages, validateOffset ('*' :: pattern) offset = .ok (floating ++ messages) ∧
    (messages = [] ↔ pattern.head? = Option.some ':') := by
  unfold validateOffset
  simp only [stripped, if_neg some]
  split_ifs with colon
  · exact ⟨[], by rw [List.append_nil], iff_of_true rfl colon⟩
  · exact ⟨_, rfl, iff_of_false nofun colon⟩

theorem validateOffset_position (head : o.head? = pattern.head?)
    (notAny : pattern.head? ≠ Option.some '*') (notSign : ¬ SignFirst o) :
    ∃ messages, validateOffset pattern offset = .ok (floating ++ messages) ∧
      (messages = [] ↔ IsPosition o) := by
  unfold validateOffset
  simp only [stripped, if_neg some]
  split
  · exact absurd rfl notAny
  · split_ifs with digit integer version
    · rw [position_of_digit (head ▸ digit)]
      exact ⟨_, rfl, iff_of_false nofun (getAsInteger_none.mp integer)⟩
    · rw [position_of_digit (head ▸ digit)]
      exact ⟨[], by rw [List.append_nil],
        iff_of_true rfl (not_not.mp (mt getAsInteger_none.mpr integer))⟩
    · subst version
      exact ⟨[], by rw [List.append_nil], iff_of_true rfl .versionInfo⟩
    · have notNumber : ∀ c ∈ o.head?, c.isDigit = false := by
        intro c hc
        rw [head] at hc
        simpa [Option.mem_def.mp hc] using digit
      obtain ⟨messages, checked, exact⟩ := anchoredOffset_exact pattern notNumber version notSign
      rw [checked]
      exact ⟨messages, rfl, exact⟩

end

/-- An offset has a comma where the floating part begins, and `*` has none. -/
theorem offset_comma_iff {before behind : List Char} (noComma : ',' ∉ before) :
    IsOffset (before ++ ',' :: behind) ↔ IsPosition before ∧ IsNumber behind := by
  constructor
  · intro offset
    generalize same : before ++ ',' :: behind = o at offset
    have comma : ',' ∈ o := same ▸ by simp
    have other {s : List Char} (none : ',' ∉ s) : ∀ c ∈ s, (c == ',') = false := by
      intro c hc
      simpa using fun eq : c = ',' => none (eq ▸ hc)
    cases offset with
    | any => exact absurd comma (by decide)
    | fixed position => exact absurd comma position.noComma
    | floating position number =>
      obtain ⟨rfl, -, rfl⟩ :=
        split_unique (p := (· == ',')) same rfl (other noComma) rfl (other position.noComma)
      exact ⟨position, number⟩
  · rintro ⟨position, number⟩
    exact .floating position number

theorem offset_plain_iff {o : List Char} (noComma : ',' ∉ o) :
    IsOffset o ↔ o = ['*'] ∨ IsPosition o := by
  constructor
  · intro offset
    cases offset with
    | any => exact Or.inl rfl
    | fixed position => exact Or.inr position
    | floating _ _ => exact absurd (List.mem_append_right _ List.mem_cons_self) noComma
  · rintro (rfl | position)
    · exact .any
    · exact .fixed position

/-- The offset of a pattern is judged as the grammar says, unless it begins with a sign. -/
theorem validateOffset_exact (body : List Char) {offset : List Char} (noColon : ':' ∉ offset)
    (notSign : ¬ SignFirst offset) :
    ∃ messages, validateOffset (offset ++ ':' :: body) offset = .ok messages ∧
      (messages = [] ↔ IsOffset offset) := by
  cases offset with
  | nil =>
    refine ⟨_, rfl, iff_of_false nofun fun offset => ?_⟩
    rcases (offset_plain_iff List.not_mem_nil).mp offset with none | position
    · cases none
    · exact position.head.1 rfl
  | cons c rest =>
    have rest_head : (rest ++ ':' :: body).head? = some ':' ↔ rest = [] := by
      cases rest with
      | nil => simp
      | cons d rest => simpa using fun same : d = ':' => noColon (by simp [same])
    by_cases comma : ',' ∈ c :: rest
    · obtain ⟨before, behind, same, noComma⟩ := List.eq_append_cons_of_mem comma
      rw [same, offset_comma_iff noComma, ← same]
      have stripped : floatingOffset (c :: rest) = _ := same ▸ floatingOffset_comma noComma
      by_cases integer : getAsInteger behind = none
      · rw [if_pos integer] at stripped
        have notOffset : ¬ (IsPosition before ∧ IsNumber behind) :=
          fun both => getAsInteger_none.mp integer both.2
        by_cases any : c = '*'
        · subst any
          obtain ⟨messages, checked, -⟩ :=
            validateOffset_any (rest ++ ':' :: body) stripped (by simp)
          exact ⟨_, checked, iff_of_false nofun notOffset⟩
        · obtain ⟨messages, checked, -⟩ :=
            validateOffset_position (c :: rest ++ ':' :: body) stripped (by simp) rfl
            (by simpa using any) notSign
          exact ⟨_, checked, iff_of_false nofun notOffset⟩
      · rw [if_neg integer] at stripped
        rw [and_iff_left (not_not.mp (mt getAsInteger_none.mpr integer))]
        cases before with
        | nil =>
          refine ⟨[quoted "Offset is empty in pattern: "
            (c :: rest ++ ':' :: body)], by simp [validateOffset, stripped], ?_⟩
          exact iff_of_false nofun fun position => position.head.1 rfl
        | cons d before =>
          obtain ⟨rfl, tail⟩ := List.cons.inj same
          by_cases any : c = '*'
          · subst any
            obtain ⟨messages, checked, exact⟩ :=
              validateOffset_any (rest ++ ':' :: body) stripped (List.cons_ne_nil _ _)
            refine ⟨messages, checked,
              exact.trans (rest_head.trans (iff_of_false ?_ fun position => ?_))⟩
            · rw [tail]
              simp
            · exact (position.head.2 '*' rfl).1 rfl
          · exact validateOffset_position (c :: rest ++ ':' :: body) stripped (List.cons_ne_nil _ _)
              rfl (by simpa using any) notSign
    · have stripped := floatingOffset_plain comma
      rw [offset_plain_iff comma]
      by_cases any : c = '*'
      · subst any
        obtain ⟨messages, checked, exact⟩ :=
          validateOffset_any (rest ++ ':' :: body) stripped (List.cons_ne_nil _ _)
        refine ⟨messages, checked, exact.trans (rest_head.trans ?_)⟩
        have notPosition : ¬ IsPosition ('*' :: rest) :=
          fun position => (position.head.2 '*' rfl).1 rfl
        simp [notPosition]
      · obtain ⟨messages, checked, exact⟩ :=
          validateOffset_position (c :: rest ++ ':' :: body) stripped (List.cons_ne_nil _ _) rfl
          (by simpa using any) notSign
        refine ⟨messages, checked, exact.trans ?_⟩
        simp [any]

theorem anchoredOffset_sign {c : Char} (sign : IsSign c) (pattern rest : List Char) :
    anchoredOffset pattern (c :: rest) = .error .emptyAnchor := by
  have split : splitAtFirst (fun c => c == '+' || c == '-') (c :: rest) = some ([], rest) :=
    splitAtFirst_some.mpr ⟨c, isSign_iff.mpr sign, rfl, nofun⟩
  unfold anchoredOffset
  rw [split]
  have notEnd : ¬ "EOF-".toList <+: c :: rest := by
    rintro ⟨t, same⟩
    have first : 'E' = c := (List.cons.inj same).1
    rcases sign with sign | sign <;> cases first.trans sign
  have unknown : ¬ ("EOF-".toList <+: c :: rest ∨ [] = "EP".toList ∨ [] = "SL".toList) :=
    not_or.mpr ⟨notEnd, not_or.mpr ⟨nofun, nofun⟩⟩
  dsimp only
  rw [if_neg unknown]

/-- The offset still begins with its first character when the part behind a comma is taken off. -/
theorem floatingOffset_cons {c : Char} (notComma : c ≠ ',') (rest : List Char) :
    ∃ floating o, floatingOffset (c :: rest) = (floating, c :: o) := by
  by_cases comma : ',' ∈ c :: rest
  · obtain ⟨before, behind, same, noComma⟩ := List.eq_append_cons_of_mem comma
    rw [same, floatingOffset_comma noComma]
    cases before with
    | nil => exact absurd (List.cons.inj same).1 notComma
    | cons d before =>
      obtain ⟨rfl, -⟩ := List.cons.inj same
      split_ifs
      · exact ⟨_, _, rfl⟩
      · exact ⟨_, _, rfl⟩
  · exact ⟨_, _, floatingOffset_plain comma⟩

theorem validateOffset_sign {offset body : List Char} (signFirst : SignFirst offset) :
    validateOffset (offset ++ ':' :: body) offset = .error .emptyAnchor := by
  obtain ⟨c, first, sign⟩ := signFirst
  cases offset with
  | nil => cases first
  | cons d rest =>
    cases first
    have other : c ≠ ',' ∧ c ≠ '*' ∧ c ≠ 'V' ∧ c.isDigit = false := by
      rcases sign with rfl | rfl <;> decide
    obtain ⟨floating, o, stripped⟩ := floatingOffset_cons other.1 rest
    unfold validateOffset
    simp only [stripped, List.cons_append, anchoredOffset_sign sign, if_neg (List.cons_ne_nil c o)]
    split
    · next same => exact absurd (List.cons.inj same).1 other.2.1
    · simp only [List.head?_cons, Option.any_some, other.2.2.2, Bool.false_eq_true, if_false]
      split_ifs with version
      · exact absurd (List.cons.inj version).1 other.2.2.1
      · rfl

/-! ## The validator -/

theorem mem_of_range {c : Char} {a b : Nat} (low : a ≤ c.toNat) (high : c.toNat ≤ b) :
    c ∈ (List.range' a (b + 1 - a)).map Char.ofNat :=
  List.mem_map.mpr ⟨c.toNat, List.mem_range'_1.mpr ⟨low, by omega⟩, Char.ofNat_toNat c⟩

theorem isAllowed_iff {c : Char} : isAllowed c = true ↔ c ∈ bodyAlphabet := by
  constructor
  · intro allowed
    simp only [isAllowed, Bool.or_eq_true, Bool.and_eq_true, decide_eq_true_eq] at allowed
    rcases allowed with (digit | ⟨low, high⟩) | other
    · obtain ⟨low, high⟩ := Char.isDigit_iff_toNat.mp digit
      have all : ∀ d ∈ (List.range' 48 10).map Char.ofNat, d ∈ bodyAlphabet :=
        forall_of_all (by decide)
      exact all c (mem_of_range low high)
    · have all : ∀ d ∈ (List.range' 97 6).map Char.ofNat, d ∈ bodyAlphabet :=
        forall_of_all (by decide)
      exact all c (mem_of_range low high)
    · have all : ∀ d ∈ "?*\x7b\x7d-()|![]BL".toList, d ∈ bodyAlphabet := forall_of_all (by decide)
      exact all c (by simpa using other)
  · have all : ∀ d ∈ bodyAlphabet, isAllowed d = true := forall_of_all (by decide)
    exact all c

theorem validateCharacters_nil {s : List Char} : validateCharacters s = [] ↔ IsBody s := by
  unfold validateCharacters
  cases found : s.find? fun c => !isAllowed c with
  | none =>
    have all := List.find?_eq_none.mp found
    exact iff_of_true rfl fun c hc => isAllowed_iff.mp (by simpa using all c hc)
  | some c =>
    have bad : isAllowed c = false := by simpa using List.find?_some found
    refine iff_of_false nofun fun body => ?_
    rw [isAllowed_iff.mpr (body c (List.mem_of_find?_eq_some found))] at bad
    cases bad

def Accepted (s : List Char) : Prop := validateNDB s = .ok []

/-- The validator ends without a read behind the end of a part, and finds nothing to object to
exactly in the patterns of the grammar. -/
def Exact (s : List Char) : Prop :=
  ∃ messages, validateNDB s = .ok messages ∧ (messages = [] ↔ IsPattern s)

theorem splitAtColon {offset body : List Char} (noColon : ':' ∉ offset) :
    splitAtFirst (· == ':') (offset ++ ':' :: body) = some (offset, body) := by
  refine splitAtFirst_some.mpr ⟨':', rfl, rfl, fun c hc => ?_⟩
  simpa using fun same : c = ':' => noColon (same ▸ hc)

theorem splitAtColon_none {s : List Char} (noColon : ':' ∉ s) :
    splitAtFirst (· == ':') s = none := by
  refine splitAtFirst_none.mpr fun c hc => ?_
  simpa using fun same : c = ':' => noColon (same ▸ hc)

theorem validateNDB_bare {s : List Char} (noColon : ':' ∉ s) :
    validateNDB s = .ok (validateCharacters s) := by
  rw [validateNDB, splitAtColon_none noColon]

theorem validateNDB_placed {offset body : List Char} (noColon : ':' ∉ offset) :
    validateNDB (offset ++ ':' :: body) =
    (validateOffset (offset ++ ':' :: body) offset).map (· ++ validateCharacters body) := by
  rw [validateNDB, splitAtColon noColon]

theorem isPattern_bare {s : List Char} (noColon : ':' ∉ s) : IsPattern s ↔ IsBody s := by
  constructor
  · intro pattern
    cases pattern with
    | bare _ body => exact body
    | placed _ _ _ => exact absurd (List.mem_append_right _ List.mem_cons_self) noColon
  · exact .bare noColon

theorem isPattern_placed {offset body : List Char} (noColon : ':' ∉ offset) :
    IsPattern (offset ++ ':' :: body) ↔ IsOffset offset ∧ IsBody body := by
  constructor
  · intro pattern
    generalize same : offset ++ ':' :: body = s at pattern
    have other {s : List Char} (none : ':' ∉ s) : ∀ c ∈ s, (c == ':') = false := by
      intro c hc
      simpa using fun eq : c = ':' => none (eq ▸ hc)
    cases pattern with
    | bare none _ => exact absurd (same ▸ List.mem_append_right _ List.mem_cons_self) none
    | placed none isOffset isBody =>
      obtain ⟨rfl, -, rfl⟩ :=
        split_unique (p := (· == ':')) same rfl (other noColon) rfl (other none)
      exact ⟨isOffset, isBody⟩
  · rintro ⟨isOffset, isBody⟩
    exact .placed noColon isOffset isBody

/-- The validator is exact unless there is an offset that begins with a sign. -/
theorem validateNDB_exact_iff (s : List Char) : Exact s ↔ ¬ (':' ∈ s ∧ SignFirst s) := by
  by_cases colon : ':' ∈ s
  · obtain ⟨offset, body, rfl, noColon⟩ := List.eq_append_cons_of_mem colon
    have first : SignFirst (offset ++ ':' :: body) ↔ SignFirst offset := by
      cases offset with
      | nil => simp [SignFirst, IsSign]
      | cons c rest => simp [SignFirst]
    rw [first, and_iff_right colon]
    constructor
    · rintro ⟨messages, checked, -⟩ sign
      rw [validateNDB_placed noColon, validateOffset_sign sign] at checked
      cases checked
    · intro notSign
      obtain ⟨messages, checked, exact⟩ := validateOffset_exact body noColon notSign
      refine ⟨messages ++ validateCharacters body, by rw [validateNDB_placed noColon, checked]; rfl,
        ?_⟩
      rw [List.append_eq_nil_iff, exact, validateCharacters_nil, isPattern_placed noColon]
  · refine iff_of_true ⟨_, validateNDB_bare colon, ?_⟩ fun both => colon both.1
    rw [validateCharacters_nil, isPattern_bare colon]

/-- `+1:61` has an empty anchor. -/
theorem emptyAnchor_not_exact : validateNDB ['+', '1', ':', '6', '1'] = .error .emptyAnchor ∧
    ¬ Exact ['+', '1', ':', '6', '1'] := by
  have failed : validateNDB ['+', '1', ':', '6', '1'] = .error .emptyAnchor := rfl
  refine ⟨failed, ?_⟩
  rintro ⟨messages, checked, -⟩
  cases failed.symm.trans checked

/-! ## The case of letters -/

/-- What a character of a pattern stands for: half a byte, a boundary of a word or a line, or
itself. -/
inductive Token where
  | nibble (value : Nat)
  | wordBoundary
  | lineBoundary
  | symbol (c : Char)
  deriving DecidableEq

def token (c : Char) : Token :=
  if c.isDigit then .nibble (c.toNat - '0'.toNat)
  else if 'a' ≤ c ∧ c ≤ 'f' then .nibble (c.toNat - 'a'.toNat + 10)
  else if 'A' ≤ c ∧ c ≤ 'F' then .nibble (c.toNat - 'A'.toNat + 10)
  else .symbol c

def tokens : List Char → List Token
  | '(' :: 'B' :: ')' :: rest => .wordBoundary :: tokens rest
  | '(' :: 'L' :: ')' :: rest => .lineBoundary :: tokens rest
  | c :: rest => token c :: tokens rest
  | [] => []

/-- The offset and the tokens behind it. -/
def denotation (s : List Char) : Option (List Char) × List Token :=
  match splitAtFirst (· == ':') s with
  | none => (none, tokens s)
  | some (offset, body) => (some offset, tokens body)

def bodyOf (s : List Char) : List Char :=
  match splitAtFirst (· == ':') s with
  | none => s
  | some (_, body) => body

def wordMarker : List Char := ['(', 'B', ')']

theorem tokens_cons {c : Char} {rest : List Char} (word : ¬ wordMarker <+: c :: rest)
    (line : ¬ ['(', 'L', ')'] <+: c :: rest) :
    tokens (c :: rest) = token c :: tokens rest := by
  rw [tokens]
  · rintro tail rfl rfl
    exact word ⟨tail, rfl⟩
  · rintro tail rfl rfl
    exact line ⟨tail, rfl⟩

theorem lower_allowed {c : Char} (allowed : c ∈ bodyAlphabet) :
    c.toLower ∈ bodyAlphabet ↔ c ≠ 'L' := by
  have all : ∀ d ∈ bodyAlphabet, (d.toLower ∈ bodyAlphabet ↔ d ≠ 'L') := forall_of_all (by decide)
  exact all c allowed

theorem lower_token {c : Char} (allowed : c ∈ bodyAlphabet) (notLine : c ≠ 'L') :
    token c.toLower = token c := by
  have all : ∀ d ∈ bodyAlphabet, d ≠ 'L' → token d.toLower = token d := forall_of_all (by decide)
  exact all c allowed notLine

theorem lower_marker {c : Char} (allowed : c ∈ bodyAlphabet) :
    c.toLower ≠ 'B' ∧ c.toLower ≠ 'L' := by
  have all : ∀ d ∈ bodyAlphabet, d.toLower ≠ 'B' ∧ d.toLower ≠ 'L' := forall_of_all (by decide)
  exact all c allowed

theorem isBody_lower {s : List Char} (body : IsBody s) : IsBody (s.map Char.toLower) ↔ 'L' ∉ s := by
  constructor
  · intro lowered line
    exact (lower_allowed (body 'L' line)).mp (lowered _ (List.mem_map_of_mem line)) rfl
  · intro noLine c hc
    obtain ⟨d, hd, rfl⟩ := List.mem_map.mp hc
    exact (lower_allowed (body d hd)).mpr fun same => noLine (same ▸ hd)

/-- Without an `L`, the tokens stay the same exactly if there is no marker `(B)`. -/
theorem tokens_lower_iff {s : List Char} (body : IsBody s) (noLine : 'L' ∉ s) :
    tokens (s.map Char.toLower) = tokens s ↔ ¬ wordMarker <:+: s := by
  induction s with
  | nil => exact iff_of_true rfl (by decide)
  | cons c rest ih =>
    have bodyRest : IsBody rest := fun d hd => body d (List.mem_cons_of_mem c hd)
    have noLineRest : 'L' ∉ rest := fun line => noLine (List.mem_cons_of_mem c line)
    have lowerWord : ¬ wordMarker <+: c.toLower :: rest.map Char.toLower := by
      rintro ⟨tail, same⟩
      have second : 'B' ∈ rest.map Char.toLower := by
        rw [← (List.cons.inj same).2]
        simp
      obtain ⟨d, hd, isB⟩ := List.mem_map.mp second
      exact (lower_marker (bodyRest d hd)).1 isB
    have lowerLine : ¬ ['(', 'L', ')'] <+: c.toLower :: rest.map Char.toLower := by
      rintro ⟨tail, same⟩
      have second : 'L' ∈ rest.map Char.toLower := by
        rw [← (List.cons.inj same).2]
        simp
      obtain ⟨d, hd, isL⟩ := List.mem_map.mp second
      exact (lower_marker (bodyRest d hd)).2 isL
    rw [List.map_cons, tokens_cons lowerWord lowerLine]
    by_cases word : wordMarker <+: c :: rest
    · refine iff_of_false (fun same => ?_) fun none => none word.isInfix
      obtain ⟨tail, same'⟩ := word
      rw [← same'] at same
      cases (List.cons.inj same').1
      cases (List.cons.inj same).1
    · have line : ¬ ['(', 'L', ')'] <+: c :: rest := by
        rintro ⟨tail, same⟩
        exact noLine (same ▸ by simp)
      rw [tokens_cons word line, List.infix_cons_iff, or_iff_right word,
        lower_token (body c List.mem_cons_self) fun same => noLine (same ▸ List.mem_cons_self),
          List.cons_inj_right]
      exact ih bodyRest noLineRest

theorem accepted_bare {s : List Char} (noColon : ':' ∉ s) : Accepted s ↔ IsBody s := by
  rw [Accepted, validateNDB_bare noColon, Except.ok.injEq, validateCharacters_nil]

/-- What is accepted behind an offset does not depend on the offset. -/
theorem accepted_placed {offset body : List Char} (noColon : ':' ∉ offset) :
    Accepted (offset ++ ':' :: body) ↔ (¬ SignFirst offset ∧ IsOffset offset) ∧ IsBody body := by
  rw [Accepted, validateNDB_placed noColon]
  by_cases sign : SignFirst offset
  · rw [validateOffset_sign sign]
    exact iff_of_false nofun fun all => all.1.1 sign
  · obtain ⟨messages, checked, exact⟩ := validateOffset_exact body noColon sign
    rw [checked, Except.map, Except.ok.injEq, List.append_eq_nil_iff, exact, validateCharacters_nil,
      and_iff_right sign]

theorem not_colon_lower {s : List Char} (body : IsBody s) : ':' ∉ s.map Char.toLower := by
  have all : ∀ d ∈ bodyAlphabet, d.toLower ≠ ':' := forall_of_all (by decide)
  intro colon
  obtain ⟨d, hd, same⟩ := List.mem_map.mp colon
  exact all d (body d hd) same

/-- A pattern that is accepted as it is written is stored unchanged in meaning exactly if it has
no `L` and no marker `(B)` behind the offset. -/
theorem lowered_kept_iff {s : List Char} (accepted : Accepted s) :
    Accepted (lowered s) ∧ denotation (lowered s) = denotation s ↔
      'L' ∉ bodyOf s ∧ ¬ wordMarker <:+: bodyOf s := by
  by_cases colon : ':' ∈ s
  · obtain ⟨offset, body, rfl, noColon⟩ := List.eq_append_cons_of_mem colon
    obtain ⟨isOffset, isBody⟩ := (accepted_placed noColon).mp accepted
    have stored : lowered (offset ++ ':' :: body) = offset ++ ':' :: body.map Char.toLower := by
      rw [lowered, splitAtColon noColon]
    rw [stored, accepted_placed noColon, and_iff_right isOffset, isBody_lower isBody, denotation,
      denotation, bodyOf,
      splitAtColon noColon, splitAtColon noColon]
    refine and_congr_right fun noLine => ?_
    rw [← tokens_lower_iff isBody noLine]
    simp
  · have isBody := (accepted_bare colon).mp accepted
    have stored : lowered s = s.map Char.toLower := by rw [lowered, splitAtColon_none colon]
    have noColon := not_colon_lower isBody
    rw [stored, accepted_bare noColon, isBody_lower isBody, denotation, denotation, bodyOf,
      splitAtColon_none noColon,
      splitAtColon_none colon]
    refine and_congr_right fun noLine => ?_
    rw [← tokens_lower_iff isBody noLine]
    simp

/-- A bracket with `B` that is not closed keeps its meaning. -/
theorem lowered_kept_iff_open : denotation (lowered ['0', ':', '6', 'a', '!', '(', 'B']) =
    denotation ['0', ':', '6', 'a', '!', '(', 'B'] := by
  have accepted : Accepted ['0', ':', '6', 'a', '!', '(', 'B'] := rfl
  exact ((lowered_kept_iff accepted).mpr (by decide)).2

/-- `(B)` becomes half a byte between brackets, and `(L)` is rejected. -/
theorem markers_lost :
    Accepted ['(', 'B', ')', '6', '1'] ∧ Accepted (lowered ['(', 'B', ')', '6', '1']) ∧
    denotation (lowered ['(', 'B', ')', '6', '1']) ≠ denotation ['(', 'B', ')', '6', '1'] ∧
    Accepted ['(', 'L', ')', '6', '1'] ∧ ¬ Accepted (lowered ['(', 'L', ')', '6', '1']) :=
  ⟨rfl, rfl, by decide, rfl, nofun⟩

end NdbPatterns
