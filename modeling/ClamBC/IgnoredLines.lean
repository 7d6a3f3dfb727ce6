import Mathlib.Data.List.Basic
import Mathlib.Tactic.Common

/-!
# Leaving out definitions

The loop of `getOutputString` over the lines of a file. `gvs` are the line numbers of its
definitions and `ignoreLst` those of the definitions that are to be left out, both from 1
on, while `idx` counts lines from 0 on. For sorted lists it prints exactly the lines that are
not between a definition to be left out and the next one that is kept.
-/

namespace IgnoredLines

variable {α : Type}

/-- The beginning of the outer loop, which prints up to the next ignored definition; `rest`
is what it prints behind that. -/
def printUpTo (lines : List α) (idx : Nat) (ignoreIdx : Option Nat) (rest : Nat → List α) :
    List α :=
  if lines.length ≤ idx then []
  else
    match ignoreIdx with
    | none => lines.drop idx
    | some 0 => lines.drop idx
    | some (n + 1) => (lines.take n).drop idx ++ rest (n + 1)

/-- The next ignored definition behind `idx`, and the list from there on. -/
def nextIgnored (idx : Nat) : List Nat → Option Nat × List Nat
  | [] => (none, [])
  | ignoreIdx :: left =>
    if idx < ignoreIdx then (some ignoreIdx, left) else nextIgnored idx left

/-- Looks for the next definition that is kept, and goes on behind it. -/
def printBehind (lines : List α) (ignoreLst : List Nat) : List Nat → Nat → List Nat → List α
  | [], _, _ => []
  | idx :: gvs, ignoreIdx, left =>
    if ignoreIdx ≤ idx ∧ idx ∉ ignoreLst then
      let next := nextIgnored (idx - 1) left
      printUpTo lines (idx - 1) next.1 fun ignoreIdx =>
        printBehind lines ignoreLst gvs ignoreIdx next.2
    else printBehind lines ignoreLst gvs ignoreIdx left

def printLines (lines : List α) (ignoreLst gvs : List Nat) : List α :=
  printUpTo lines 0 ignoreLst.head? fun ignoreIdx =>
    printBehind lines ignoreLst gvs ignoreIdx ignoreLst

/-- The line is between a missing definition and the next one that is kept. -/
def Omitted (missing kept : List Nat) (i : Nat) : Prop :=
  ∃ s ∈ missing, s ≤ i ∧ ∀ e ∈ kept, e ≤ s ∨ i < e

instance (missing kept : List Nat) : DecidablePred (Omitted missing kept) := fun i =>
  inferInstanceAs (Decidable (∃ s ∈ missing, s ≤ i ∧ ∀ e ∈ kept, e ≤ s ∨ i < e))

/-- The lines with these numbers, where the first line has the number `i`. -/
def select (keep : Nat → Bool) (i : Nat) (lines : List α) : List α :=
  ((lines.zipIdx i).filter fun line => keep line.2).map Prod.fst

def keptLines (missing kept : List Nat) (lines : List α) : List α :=
  select (fun i => ¬ Omitted missing kept i) 1 lines

/-! ## Selected lines -/

theorem select_split (keep : Nat → Bool) (i k : Nat) (lines : List α) :
    select keep i lines = select keep i (lines.take k) ++ select keep (i + k) (lines.drop k) := by
  by_cases inside : k ≤ lines.length
  · conv_lhs => rw [← List.take_append_drop k lines]
    rw [select, List.zipIdx_append, List.filter_append, List.map_append, List.length_take,
      Nat.min_eq_left inside]
    rfl
  · rw [List.take_of_length_le (by omega), List.drop_eq_nil_of_le (by omega)]
    exact (List.append_nil _).symm

theorem select_all {keep : Nat → Bool} {i : Nat} {lines : List α}
    (all : ∀ j, i ≤ j → j < i + lines.length → keep j = true) : select keep i lines = lines := by
  rw [select, List.filter_eq_self.mpr, List.zipIdx_map_fst]
  rintro ⟨line, j⟩ h
  obtain ⟨first, last, -⟩ := List.mem_zipIdx h
  exact all j first (by omega)

theorem select_none {keep : Nat → Bool} {i : Nat} {lines : List α}
    (no : ∀ j, i ≤ j → keep j = false) : select keep i lines = [] := by
  rw [select, List.filter_eq_nil_iff.mpr, List.map_nil]
  rintro ⟨line, j⟩ h
  rw [no j (List.mem_zipIdx h).1]
  exact Bool.false_ne_true

/-! ## The loops -/

section Loops
variable {lines : List α} {missing kept : List Nat}

/-- The lines that are kept from this index on. -/
def keptFrom (missing kept : List Nat) (lines : List α) (idx : Nat) : List α :=
  select (fun i => ¬ Omitted missing kept i) (idx + 1) (lines.drop idx)

theorem keptFrom_none {idx : Nat} (all : ∀ i, idx < i → ¬ Omitted missing kept i) :
    keptFrom missing kept lines idx = lines.drop idx :=
  select_all fun i first _ => decide_eq_true (all i first)

theorem keptFrom_past {idx : Nat} (past : lines.length ≤ idx) :
    keptFrom missing kept lines idx = [] := by
  rw [keptFrom, List.drop_eq_nil_of_le past]
  rfl

theorem printUpTo_none {idx : Nat} {rest : Nat → List α}
    (all : ∀ i, idx < i → ¬ Omitted missing kept i) :
    printUpTo lines idx none rest = keptFrom missing kept lines idx := by
  rw [printUpTo, keptFrom_none all]
  split
  · next past => exact (List.drop_eq_nil_of_le past).symm
  · rfl

theorem printUpTo_some {idx n : Nat} {rest : Nat → List α} (before : idx < n)
    (between : ∀ i, idx < i → i < n → ¬ Omitted missing kept i)
    (behind : rest n = keptFrom missing kept lines (n - 1)) :
    printUpTo lines idx (some n) rest = keptFrom missing kept lines idx := by
  obtain ⟨n, rfl⟩ := Nat.exists_eq_succ_of_ne_zero (Nat.ne_of_gt (Nat.zero_lt_of_lt before))
  rw [printUpTo]
  split
  · next past => exact (keptFrom_past past).symm
  · have first : select (fun i => ¬ Omitted missing kept i) (idx + 1)
        ((lines.drop idx).take (n - idx)) = (lines.drop idx).take (n - idx) := by
      refine select_all fun i low high => decide_eq_true (between i low ?_)
      have := List.length_take_le (n - idx) (lines.drop idx)
      omega
    rw [keptFrom, select_split _ _ (n - idx), first, behind, keptFrom, List.drop_drop,
      ← List.drop_take]
    simp only [Nat.succ_sub_one]
    rw [show idx + (n - idx) = n by omega, show idx + 1 + (n - idx) = n + 1 by omega]

/-- The least definition that is ignored behind `idx`, and those behind it. -/
structure Next (idx : Nat) (left : List Nat) (n : Nat) (left' : List Nat) : Prop where
  mem : n ∈ left
  behind : idx < n
  least : ∀ s ∈ left, idx < s → n ≤ s
  rest : ∀ s ∈ left, n < s → s ∈ left'
  suffix : left'.Sublist left

theorem nextIgnored_none {idx : Nat} {left : List Nat} (h : (nextIgnored idx left).1 = none) :
    ∀ s ∈ left, s ≤ idx := by
  induction left with
  | nil => nofun
  | cons s left ih =>
    rw [nextIgnored] at h
    split at h
    · cases h
    · next passed =>
      intro t ht
      rcases List.mem_cons.mp ht with rfl | ht
      · exact Nat.not_lt.mp passed
      · exact ih h t ht

theorem nextIgnored_some {idx n : Nat} {left : List Nat} (sorted : left.Pairwise (· ≤ ·))
    (h : (nextIgnored idx left).1 = some n) : Next idx left n (nextIgnored idx left).2 := by
  induction left with
  | nil => cases h
  | cons s left ih =>
    obtain ⟨first, sorted⟩ := List.pairwise_cons.mp sorted
    rw [nextIgnored] at h ⊢
    split at h
    · next behind =>
      obtain rfl := Option.some.inj h
      rw [if_pos behind]
      refine ⟨List.mem_cons_self, behind, fun t ht _ => ?_, fun t ht later => ?_,
        List.sublist_cons_self _ _⟩
      · exact (List.mem_cons.mp ht).elim (fun h => Nat.le_of_eq h.symm) (first t)
      · exact (List.mem_cons.mp ht).resolve_left (Nat.ne_of_gt later)
    · next passed =>
      rw [if_neg passed]
      obtain ⟨mem, behind, least, rest, suffix⟩ := ih sorted h
      refine ⟨List.mem_cons_of_mem _ mem, behind, fun t ht later => ?_, fun t ht later => ?_,
        suffix.trans (List.sublist_cons_self _ _)⟩
      · rcases List.mem_cons.mp ht with rfl | ht
        · exact absurd later passed
        · exact least t ht later
      · rcases List.mem_cons.mp ht with rfl | ht
        · exact absurd (Nat.lt_trans behind later) passed
        · exact rest t ht later

/-- What the loops have not passed yet when they leave out lines from `ignoreIdx` on. -/
structure Ahead (missing kept gvs : List Nat) (ignoreIdx : Nat) (left : List Nat) : Prop where
  ignored : ignoreIdx ∈ missing
  pos : 0 < ignoreIdx
  sorted : gvs.Pairwise (· ≤ ·)
  keeps : ∀ g ∈ gvs, g ∉ missing → g ∈ kept
  ahead : ∀ e ∈ kept, ignoreIdx < e → e ∈ gvs
  leftSorted : left.Pairwise (· ≤ ·)
  leftIgnored : ∀ s ∈ left, s ∈ missing
  leftAhead : ∀ s ∈ missing, ignoreIdx < s → s ∈ left

/-- From an ignored definition on nothing is printed before the next one that is kept. -/
theorem keptFrom_omitted {n g : Nat} (hn : n ∈ missing) (pos : 0 < n) (before : n ≤ g)
    (next : ∀ e ∈ kept, n < e → g ≤ e) :
    keptFrom missing kept lines (n - 1) = keptFrom missing kept lines (g - 1) := by
  have nothing : select (fun i => ¬ Omitted missing kept i) (n - 1 + 1)
      ((lines.drop (n - 1)).take (g - n)) = [] := by
    rw [select, List.filter_eq_nil_iff.mpr, List.map_nil]
    rintro ⟨line, j⟩ h
    obtain ⟨first, last, -⟩ := List.mem_zipIdx h
    have := List.length_take_le (g - n) (lines.drop (n - 1))
    have omitted : Omitted missing kept j := by
      refine ⟨n, hn, by omega, fun e he => ?_⟩
      by_cases later : n < e
      · have := next e he later
        omega
      · omega
    simp [omitted]
  rw [keptFrom, select_split _ _ (g - n), nothing, List.nil_append, List.drop_drop, keptFrom,
    show n - 1 + (g - n) = g - 1 by omega, show n - 1 + 1 + (g - n) = g - 1 + 1 by omega]

theorem printBehind_eq (disjoint : ∀ e ∈ kept, e ∉ missing) {gvs : List Nat} {ignoreIdx : Nat}
    {left : List Nat} (h : Ahead missing kept gvs ignoreIdx left) :
    printBehind lines missing gvs ignoreIdx left = keptFrom missing kept lines (ignoreIdx - 1) := by
  induction gvs generalizing ignoreIdx left with
  | nil =>
    have omitted : ∀ i, ignoreIdx - 1 + 1 ≤ i → Omitted missing kept i := fun i hi =>
      ⟨ignoreIdx, h.ignored, by omega, fun e he =>
        .inl (Nat.not_lt.mp fun later => nomatch h.ahead e he later)⟩
    exact (select_none fun i hi => decide_eq_false (not_not.mpr (omitted i hi))).symm
  | cons g gvs ih =>
    obtain ⟨first, sorted⟩ := List.pairwise_cons.mp h.sorted
    rw [printBehind]
    split
    · next isNext =>
      obtain ⟨behind, notIgnored⟩ := isNext
      have keeps := h.keeps g List.mem_cons_self notIgnored
      have later : ignoreIdx < g :=
        Nat.lt_of_le_of_ne behind fun same => notIgnored (same ▸ h.ignored)
      have next : ∀ e ∈ kept, ignoreIdx < e → g ≤ e := fun e he hl =>
        (List.mem_cons.mp (h.ahead e he hl)).elim (fun h => Nat.le_of_eq h.symm) (first e)
      -- The definition `g` ends what is left out before it.
      have ended : ∀ s ∈ missing, ∀ i, s ≤ g - 1 → g ≤ i → ¬ ∀ e ∈ kept, e ≤ s ∨ i < e := by
        intro s _ i hs hi outside
        have := outside g keeps
        omega
      rw [keptFrom_omitted h.ignored h.pos behind next]
      dsimp only
      rcases found : (nextIgnored (g - 1) left).1 with _ | n
      · refine printUpTo_none fun i hi => ?_
        rintro ⟨s, hs, -, outside⟩
        refine ended s hs i ?_ (by omega) outside
        by_cases before : s ≤ ignoreIdx
        · omega
        · exact nextIgnored_none found s (h.leftAhead s hs (Nat.not_le.mp before))
      · have isNext := nextIgnored_some h.leftSorted found
        have nBehind := isNext.behind
        refine printUpTo_some isNext.behind (fun i hi before => ?_) (ih ?_)
        · rintro ⟨s, hs, hsi, outside⟩
          refine ended s hs i (Nat.not_lt.mp fun late => ?_) (by omega) outside
          have := isNext.least s (h.leftAhead s hs (by omega)) late
          omega
        · refine ⟨h.leftIgnored n isNext.mem, by omega, sorted,
            fun e he => h.keeps e (List.mem_cons_of_mem _ he), fun e he hl => ?_,
            h.leftSorted.sublist isNext.suffix,
            fun s hs => h.leftIgnored s (isNext.suffix.subset hs),
            fun s hs hl => isNext.rest s (h.leftAhead s hs (by omega)) hl⟩
          exact (List.mem_cons.mp (h.ahead e he (by omega))).resolve_left (by omega)
    · next passed =>
      refine ih ⟨h.ignored, h.pos, sorted, fun e he => h.keeps e (List.mem_cons_of_mem _ he),
        fun e he hl => (List.mem_cons.mp (h.ahead e he hl)).resolve_left ?_, h.leftSorted,
        h.leftIgnored, h.leftAhead⟩
      rintro rfl
      exact passed ⟨Nat.le_of_lt hl, disjoint e he⟩

/-- For sorted line numbers from 1 on the loops leave out exactly what is omitted. -/
theorem printLines_eq {ignoreLst gvs : List Nat} (nonempty : ignoreLst ≠ [])
    (pos : ∀ s ∈ ignoreLst, 0 < s) (sortedIgnore : ignoreLst.Pairwise (· ≤ ·))
    (sorted : gvs.Pairwise (· ≤ ·)) :
    printLines lines ignoreLst gvs =
      keptLines ignoreLst (gvs.filter fun e => e ∉ ignoreLst) lines := by
  obtain ⟨first, others, rfl⟩ := List.exists_cons_of_ne_nil nonempty
  have kept : ∀ e ∈ gvs.filter fun e => e ∉ first :: others, e ∈ gvs ∧ e ∉ first :: others :=
    fun e he => by simpa using he
  refine printUpTo_some (pos first List.mem_cons_self) (fun i _ before => ?_)
    (printBehind_eq (fun e he => (kept e he).2) ?_)
  · rintro ⟨s, hs, hsi, -⟩
    have least : first ≤ s :=
      (List.mem_cons.mp hs).elim (fun h => Nat.le_of_eq h.symm)
        ((List.pairwise_cons.mp sortedIgnore).1 s)
    omega
  · exact ⟨List.mem_cons_self, pos first List.mem_cons_self, sorted, fun g hg hi => by
      simpa [hg] using hi, fun e he _ => (kept e he).1, sortedIgnore, fun s hs => hs,
      fun s hs _ => hs⟩

end Loops

end IgnoredLines
