import Mathlib.Data.List.Lex
import Mathlib.Data.List.Sort
import Mathlib.Data.Set.Function

/-!
# Comparators and prefix codes

A comparator that tells all elements of a set apart has one sorted list for every collection
of them. Comparing words lexicographically is such a comparator, and where the words are
those of a prefix code, a sequence of words is compared at its first difference.
-/

namespace PrefixOrder

universe u v
variable {α : Type u} {β : Type v}

/-- Neither comes before the other. -/
def Incomparable (less : β → β → Bool) (a b : β) : Prop := less a b = false ∧ less b a = false

/-- What a sorting algorithm asks of a comparator, and that equivalent elements are identical. -/
structure TellsApart (less : β → β → Bool) (S : Set β) : Prop where
  irrefl : ∀ a ∈ S, less a a = false
  asymm : ∀ a ∈ S, ∀ b ∈ S, less a b = true → less b a = false
  trans : ∀ a ∈ S, ∀ b ∈ S, ∀ c ∈ S, less a b = true → less b c = true → less a c = true
  incomparable_trans : ∀ a ∈ S, ∀ b ∈ S, ∀ c ∈ S,
    Incomparable less a b → Incomparable less b c → Incomparable less a c
  identical : ∀ a ∈ S, ∀ b ∈ S, Incomparable less a b → a = b

/-- No element comes before an earlier one. -/
def Sorted (less : β → β → Bool) (l : List β) : Prop := l.Pairwise fun a b => less b a = false

namespace TellsApart
variable {less : β → β → Bool} {S : Set β}

/-- The comparator compares keys that are different for different elements. -/
theorem of_key [LinearOrder α] (key : β → α) (inj : Set.InjOn key S)
    (compares : ∀ a ∈ S, ∀ b ∈ S, less a b = true ↔ key a < key b) : TellsApart less S := by
  have notLess : ∀ a ∈ S, ∀ b ∈ S, less a b = false ↔ key b ≤ key a := fun a ha b hb => by
    rw [← not_lt, ← compares a ha b hb, Bool.not_eq_true]
  have identical : ∀ a ∈ S, ∀ b ∈ S, Incomparable less a b → a = b := fun a ha b hb h =>
    inj ha hb (le_antisymm ((notLess b hb a ha).mp h.2) ((notLess a ha b hb).mp h.1))
  refine ⟨fun a ha => (notLess a ha a ha).mpr le_rfl, fun a ha b hb h =>
    (notLess b hb a ha).mpr ((compares a ha b hb).mp h).le, fun a ha b hb c hc hab hbc => ?_,
    fun a ha b hb c hc hab hbc => ?_, identical⟩
  · have hac := ((compares a ha b hb).mp hab).trans ((compares b hb c hc).mp hbc)
    exact (compares a ha c hc).mpr hac
  · rw [identical a ha b hb hab]
    exact hbc

theorem sorted_unique (h : TellsApart less S) {l l' : List β} (inside : ∀ a ∈ l, a ∈ S)
    (sorted : Sorted less l) (sorted' : Sorted less l') (perm : l.Perm l') : l = l' :=
  perm.eq_of_pairwise (fun a b ha hb hab hba =>
    h.identical a (inside a ha) b (inside b (perm.mem_iff.mpr hb)) ⟨hba, hab⟩) sorted sorted'

theorem insertionSort_sorted (h : TellsApart less S) {l : List β} (inside : ∀ a ∈ l, a ∈ S) :
    Sorted less (l.insertionSort fun a b => less b a = false) := by
  let le (a b : S) : Prop := less b.1 a.1 = false
  have total : Std.Total le := ⟨fun a b => by
    cases hab : less a.1 b.1 with
    | false => exact .inr hab
    | true => exact .inl (h.asymm a.1 a.2 b.1 b.2 hab)⟩
  have trans : IsTrans S le := ⟨fun a b c hab hbc => by
    by_contra hca
    rw [Bool.not_eq_false] at hca
    -- `b` would be incomparable with `c` or with `a`, or lie between `c` and `a`.
    cases hcb : less b.1 c.1 with
    | true => exact Bool.noConfusion (hab.symm.trans (h.trans b.1 b.2 c.1 c.2 a.1 a.2 hcb hca))
    | false =>
      have same := h.identical b.1 b.2 c.1 c.2 ⟨hcb, hbc⟩
      exact Bool.noConfusion (hab.symm.trans (same ▸ hca))⟩
  have sorted : ((l.attachWith (· ∈ S) inside).insertionSort le).Pairwise le :=
    List.pairwise_insertionSort le _
  have erased := List.map_insertionSort (r := le) (s := fun a b => less b a = false)
    Subtype.val (l.attachWith (· ∈ S) inside) fun _ _ _ _ => Iff.rfl
  rw [List.attachWith_map_subtype_val] at erased
  rw [Sorted, ← erased, List.pairwise_map]
  exact sorted

end TellsApart

/-- A text starts with at most one word of the code. -/
def PrefixFree (code : β → List α) (a : β) : Prop :=
  ∀ b xs ys, code a ++ xs = code b ++ ys → a = b ∧ xs = ys

variable {code : β → List α}

theorem PrefixFree.not_prefix {a b : β} (free : PrefixFree code a) (different : a ≠ b) :
    ¬ code a <+: code b ∧ ¬ code b <+: code a := by
  constructor
  · rintro ⟨xs, h⟩
    exact different (free b xs [] (by rw [h, List.append_nil])).1
  · rintro ⟨ys, h⟩
    exact different (free b [] ys (by rw [h, List.append_nil])).1

theorem PrefixFree.flatMap {as bs : List β} (free : ∀ a ∈ as, PrefixFree code a)
    (same : as.length = bs.length) {xs ys : List α}
    (h : as.flatMap code ++ xs = bs.flatMap code ++ ys) : as = bs ∧ xs = ys := by
  induction as generalizing bs with
  | nil =>
    cases List.eq_nil_of_length_eq_zero same.symm
    exact ⟨rfl, h⟩
  | cons a as ih =>
    obtain _ | ⟨b, bs⟩ := bs
    · simp at same
    · simp only [List.flatMap_cons, List.append_assoc] at h
      obtain ⟨rfl, rest⟩ := free a List.mem_cons_self b _ _ h
      obtain ⟨rfl, tails⟩ := ih (fun c hc => free c (List.mem_cons_of_mem _ hc))
        (Nat.succ.inj same) rest
      exact ⟨rfl, tails⟩

/-- Words of one length, none of them empty, can be told apart without their number. -/
theorem flatMap_injective {width : ℕ} (pos : 0 < width) (length : ∀ a, (code a).length = width)
    (inj : Function.Injective code) : Function.Injective (List.flatMap code) := by
  intro as
  induction as with
  | nil =>
    intro bs h
    obtain _ | ⟨b, bs⟩ := bs
    · rfl
    · have := congrArg List.length h
      simp only [List.flatMap_nil, List.flatMap_cons, List.length_nil, List.length_append,
        length] at this
      omega
  | cons a as ih =>
    intro bs h
    obtain _ | ⟨b, bs⟩ := bs
    · have := congrArg List.length h
      simp only [List.flatMap_nil, List.flatMap_cons, List.length_nil, List.length_append,
        length] at this
      omega
    · rw [List.flatMap_cons, List.flatMap_cons] at h
      obtain ⟨first, rest⟩ := List.append_inj h ((length a).trans (length b).symm)
      rw [inj first, ih rest]

section Words
variable [LinearOrder α]

/-- Words of which neither continues the other differ at a place that both have. -/
theorem append_lt_append_iff {u v : List α} (huv : ¬ u <+: v) (hvu : ¬ v <+: u)
    (xs ys : List α) : u ++ xs < v ++ ys ↔ u < v := by
  induction u generalizing v with
  | nil => exact absurd (List.nil_prefix) huv
  | cons a u ih =>
    cases v with
    | nil => exact absurd (List.nil_prefix) hvu
    | cons b v =>
      rw [List.cons_append, List.cons_append, List.cons_lt_cons_iff, List.cons_lt_cons_iff]
      refine or_congr_right (and_congr_right fun same => ?_)
      subst same
      exact ih (fun h => huv ((List.prefix_cons_inj a).mpr h))
        (fun h => hvu ((List.prefix_cons_inj a).mpr h))

/-- Sequences of words are compared where they differ first. -/
theorem PrefixFree.cons_lt_cons_iff [DecidableEq β] {a : β} (free : PrefixFree code a) (b : β)
    (as bs : List β) :
    (a :: as).flatMap code < (b :: bs).flatMap code ↔
      if a = b then as.flatMap code < bs.flatMap code else code a < code b := by
  rw [List.flatMap_cons, List.flatMap_cons]
  split
  · next same =>
    subst same
    refine ⟨fun h => ?_, List.append_left_lt⟩
    by_contra later
    rcases (not_lt.mp later).lt_or_eq with before | same
    · exact lt_asymm h (List.append_left_lt before)
    · rw [same] at h
      exact lt_irrefl _ h
  · next different =>
    obtain ⟨hab, hba⟩ := free.not_prefix different
    exact append_lt_append_iff hab hba _ _

end Words

end PrefixOrder
