import ClamBC.LogicalNormal
import ClamBC.LogicalText

/-!
# Printing

The text of a node has one reading, because a connective is never printed with a single
member. The counter of groups follows the brackets of the text, except for those of
equalities: these are printed and not counted.
-/

namespace LogicalPrinter

open LogicalNode LogicalShape LogicalNormal LogicalText LdbText

/-! ## The text has one reading -/

mutual

/-- No negation, constant or offset at or below the node. -/
def printableKinds : Node → Bool
  | .subsig _ => true
  | .and cs => printableKindsAll cs
  | .or cs => printableKindsAll cs
  | .eq _ _ c => printableKinds c
  | .gt _ c => printableKinds c
  | .lt _ c => printableKinds c
  | .sums _ cs => printableKindsAll cs
  | .not _ => false
  | .const _ => false
  | .add _ _ => false

def printableKindsAll : List Node → Bool
  | [] => true
  | c :: cs => printableKinds c && printableKindsAll cs

end

theorem printableKindsAll_iff {cs : List Node} :
    printableKindsAll cs = true ↔ ∀ c ∈ cs, printableKinds c = true := by
  induction cs with
  | nil => simp [printableKindsAll]
  | cons c cs ih => simp [printableKindsAll, ih]

theorem printable_of_normal {n : Node} (normal : Normal n) (kinds : printableKinds n = true) :
    Printable n := by
  induction normal with
  | subsig i => exact .subsig i
  | and flat _ ih => exact .and flat.wide fun c hc => ih c hc (printableKindsAll_iff.mp kinds c hc)
  | or flat _ ih => exact .or flat.wide fun c hc => ih c hc (printableKindsAll_iff.mp kinds c hc)
  | eq _ ih => exact .eq (ih kinds)
  | gt _ ih => exact .gt (ih kinds)
  | lt _ ih => exact .lt (ih kinds)
  | sums some _ ih => exact .sums some fun c hc => ih c hc (printableKindsAll_iff.mp kinds c hc)
  | const b => cases kinds
  | not _ _ => cases kinds
  | add _ _ => cases kinds

/-- The text of a node of the set has balanced brackets and stands for the tree of the node and for
nothing else. -/
theorem text_unambiguous {n : Node} (constructed : Constructed n) (kinds : printableKinds n = true)
    (counter : Word) :
    ∃ s groups, node2String n counter = .ok (s, groups) ∧ Balanced s.toList ∧
      read s.toList = some (tree n) ∧
      ∀ e, Derives .expr [e] s.toList ↔ e = tree n := by
  have printable := printable_of_normal constructed.normal kinds
  have derives : Derives .expr [tree n] (tree n).print :=
    .single (.plain (wide_printable printable).derives)
  refine ⟨String.ofList (tree n).print, counter + BitVec.ofNat 32 (groups n), ?_, ?_, ?_, ?_⟩
  · rw [node2String, text_printable printable]
    rfl
  · rw [String.toList_ofList]
    exact derives.balanced
  · rw [String.toList_ofList]
    exact read_complete derives
  · intro e
    rw [String.toList_ofList]
    constructor
    · exact fun other => other.unique derives
    · rintro rfl
      exact derives

theorem text_unambiguous_pair :
    ∃ s groups, node2String (.eq 2 maxWord (.sums .both [.subsig 0, .subsig 1])) 0 =
      .ok (s, groups) ∧ Balanced s.toList ∧
      read s.toList = some (.compare .eq (.any [.id 0, .id 1]) 2) ∧
      ∀ e, Derives .expr [e] s.toList ↔ e = .compare .eq (.any [.id 0, .id 1]) 2 := by
  refine @text_unambiguous (.eq 2 maxWord (.sums .both [.subsig 0, .subsig 1])) ?_ rfl 0
  have sum : Constructed (.sums .sum [.subsig 0, .subsig 1]) := by
    have added :=
      Constructed.add (.subsig 0) (.subsig 1) (rfl : getAdd (.subsig 0) (.subsig 1) = .ok (some _))
    rwa [sortChildren_pair] at added
  exact .eq 2 sum rfl

/-! ## How many brackets the text has -/

mutual

/-- How many equalities are printed. -/
def equalities : Node → Nat
  | .and cs => equalitiesOf cs
  | .or cs => equalitiesOf cs
  | .eq _ _ c => 1 + equalities c
  | .gt _ c => equalities c
  | .lt _ c => equalities c
  | .sums _ cs => equalitiesOf cs
  | _ => 0

def equalitiesOf : List Node → Nat
  | [] => 0
  | c :: cs => equalities c + equalitiesOf cs

end

/-- The parenthesised subexpressions of a text. -/
def brackets (s : String) : Nat := s.toList.count '('

theorem count_digits (n : Nat) : (Nat.toDigits 10 n).count '(' = 0 := by
  refine List.count_eq_zero.mpr fun member => ?_
  have digit := (isNumber_toDigits n).2.1 _ member
  cases digit

theorem count_texts {op : Char} (notBracket : op ≠ '(') {cs : List Node}
    (each : ∀ c ∈ cs, ∃ s, text c = .ok s ∧ s.count '(' = groups c + equalities c) :
    ∃ s, texts op cs = .ok s ∧ s.count '(' = groupsOf cs + equalitiesOf cs := by
  induction cs with
  | nil => exact ⟨[], rfl, rfl⟩
  | cons c cs ih =>
    obtain ⟨s, first, count⟩ := each c List.mem_cons_self
    obtain ⟨t, rest, counts⟩ := ih fun d hd => each d (List.mem_cons_of_mem c hd)
    cases cs with
    | nil => exact ⟨s, first, count⟩
    | cons d cs =>
      refine ⟨s ++ op :: t, by simp only [texts, first, rest]; rfl, ?_⟩
      rw [List.count_append, List.count_cons_of_ne notBracket, count, counts]
      simp only [groupsOf, equalitiesOf]
      omega

theorem count_in_brackets {s : List Char} : ('(' :: s ++ [')']).count '(' = 1 + s.count '(' := by
  simp
  omega

/-- A modifier and its brackets around a text. -/
theorem count_modifier {s rest : List Char} {op : Char} (notBracket : op ≠ '(')
    (plain : rest.count '(' = 0) :
    ('(' :: s ++ op :: rest ++ [')']).count '(' = 1 + s.count '(' := by
  rw [List.cons_append, count_in_brackets, List.count_append,
    List.count_cons_of_ne notBracket, plain]
  rfl

/-- Every bracket is a counted group or an equality. -/
theorem count_text {n : Node} (kinds : printableKinds n = true) :
    ∃ s, text n = .ok s ∧ s.count '(' = groups n + equalities n := by
  induction n using Node.induct with
  | subsig i => exact ⟨_, rfl, count_digits _⟩
  | and cs ih =>
    obtain ⟨s, ran, count⟩ :=
      count_texts (by decide : '&' ≠ '(') fun c hc => ih c hc (printableKindsAll_iff.mp kinds c hc)
    refine ⟨'(' :: s ++ [')'], by simp only [text, ran]; rfl, ?_⟩
    rw [count_in_brackets, count]
    simp only [groups, equalities]
    omega
  | or cs ih =>
    obtain ⟨s, ran, count⟩ :=
      count_texts (by decide : '|' ≠ '(') fun c hc => ih c hc (printableKindsAll_iff.mp kinds c hc)
    refine ⟨'(' :: s ++ [')'], by simp only [text, ran]; rfl, ?_⟩
    rw [count_in_brackets, count]
    simp only [groups, equalities]
    omega
  | eq x y c ih =>
    obtain ⟨s, ran, count⟩ := ih kinds
    have sum : 1 + s.count '(' = groups (.eq x y c) + equalities (.eq x y c) := by
      simp only [groups, equalities, count]
      omega
    by_cases total : y = maxWord
    · refine ⟨'(' :: s ++ '=' :: Nat.toDigits 10 x.toNat ++
        [')'], by simp only [text, total, if_true, ran]; rfl, ?_⟩
      rw [count_modifier (by decide) (count_digits _), sum]
    · refine ⟨'(' :: s ++ '=' :: (Nat.toDigits 10 x.toNat ++ ',' :: Nat.toDigits 10 y.toNat) ++
        [')'], ?_, ?_⟩
      · simp only [text, total, if_false, ran]
        simp [Except.bind, bind, pure, Except.pure]
      · rw [count_modifier (by decide), sum]
        rw [List.count_append, List.count_cons_of_ne (by decide), count_digits, count_digits]
  | gt x c ih =>
    obtain ⟨s, ran, count⟩ := ih kinds
    refine ⟨'(' :: s ++ '>' :: Nat.toDigits 10 x.toNat ++ [')'], by simp only [text, ran]; rfl, ?_⟩
    rw [count_modifier (by decide) (count_digits _), count]
    simp only [groups, equalities]
    omega
  | lt x c ih =>
    obtain ⟨s, ran, count⟩ := ih kinds
    refine ⟨'(' :: s ++ '<' :: Nat.toDigits 10 x.toNat ++ [')'], by simp only [text, ran]; rfl, ?_⟩
    rw [count_modifier (by decide) (count_digits _), count]
    simp only [groups, equalities]
    omega
  | sums k cs ih =>
    have each := fun c hc => ih c hc (printableKindsAll_iff.mp kinds c hc)
    rcases cs with _ | ⟨c, _ | ⟨d, cs⟩⟩
    · exact ⟨_, rfl, rfl⟩
    · exact each c List.mem_cons_self
    · obtain ⟨s, ran, count⟩ := count_texts (by decide : '|' ≠ '(') each
      refine ⟨'(' :: s ++ [')'], by simp only [text, ran]; rfl, ?_⟩
      rw [count_in_brackets, count]
      simp only [groups, equalities]
      omega
  | not c _ => cases kinds
  | const b => cases kinds
  | add u c _ => cases kinds

/-- The counter goes up by the number of brackets, and so the check on it limits them. -/
structure CountsBrackets (n : Node) : Prop where
  added : ∀ counter, ∃ s groups, node2String n counter = .ok (s, groups) ∧
    (groups - counter).toNat = brackets s
  limited : ∀ s groups, node2String n 0 = .ok (s, groups) → groups ≤ 64 → brackets s ≤ 64

theorem node2String_brackets {n : Node} (kinds : printableKinds n = true) (counter : Word) :
    ∃ s, node2String n counter = .ok (s, counter + BitVec.ofNat 32 (groups n)) ∧
      brackets s = groups n + equalities n := by
  obtain ⟨t, ran, count⟩ := count_text kinds
  refine ⟨String.ofList t, by rw [node2String, ran]; rfl, ?_⟩
  rw [brackets, String.toList_ofList, count]

theorem counter_difference (counter : Word) (k : Nat) :
    (counter + BitVec.ofNat 32 k - counter).toNat = k % 2 ^ 32 := by
  have same : counter + BitVec.ofNat 32 k - counter = BitVec.ofNat 32 k := by bv_omega
  rw [same, BitVec.toNat_ofNat]

/-- The brackets are counted exactly if no equality is printed, and as long as the counter does not
overflow. -/
theorem countsBrackets_iff {n : Node} (kinds : printableKinds n = true) :
    CountsBrackets n ↔ equalities n = 0 ∧ groups n < 2 ^ 32 := by
  constructor
  · intro counts
    obtain ⟨s, groups', ran, added⟩ := counts.added 0
    obtain ⟨s', ran', count⟩ := node2String_brackets kinds 0
    cases ran.symm.trans ran'
    rw [counter_difference, count] at added
    have small : groups n % 2 ^ 32 < 2 ^ 32 := Nat.mod_lt _ (by decide)
    omega
  · rintro ⟨noEqualities, small⟩
    have amount : groups n % 2 ^ 32 = groups n := Nat.mod_eq_of_lt small
    constructor
    · intro counter
      obtain ⟨s, ran, count⟩ := node2String_brackets kinds counter
      refine ⟨s, _, ran, ?_⟩
      rw [counter_difference, amount, count, noEqualities]
      rfl
    · intro s groups' ran limit
      obtain ⟨s', ran', count⟩ := node2String_brackets kinds 0
      cases ran.symm.trans ran'
      have bound : groups n ≤ 64 := by
        rw [← amount, ← counter_difference 0]
        simpa [BitVec.le_def] using limit
      rw [count, noEqualities]
      exact bound

/-- A disjunction of 65 negated subsignatures. -/
def manyAbsent : Node :=
  .or ((List.range 65).map fun i => .eq 0 maxWord (.subsig (BitVec.ofNat 32 i)))

theorem countsBrackets_pair : CountsBrackets (.gt 3 (.sums .sum [.subsig 0, .subsig 1])) :=
  (countsBrackets_iff rfl).mpr ⟨rfl, by decide⟩

/-- Its text passes the check with 66 brackets. -/
theorem manyAbsent_passes : printableKinds manyAbsent = true ∧ ¬ CountsBrackets manyAbsent ∧
    ∃ s, node2String manyAbsent 0 = .ok (s, 1) ∧ brackets s = 66 := by
  have kinds : printableKinds manyAbsent = true := by decide +kernel
  obtain ⟨s, ran, count⟩ := node2String_brackets kinds 0
  have many : brackets s = 66 := count.trans (by decide +kernel)
  refine ⟨kinds, fun counts => ?_, s, ran, many⟩
  have limit := counts.limited s _ ran (by decide +kernel)
  omega

end LogicalPrinter
