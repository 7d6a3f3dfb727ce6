import ClamBC.PrepareGeps

/-!
# Byte offsets into arrays

The version of `processGEPI` for arrays begins with the type of the elements, one step
ahead of the data layout. A variable index does not go on to the next type, and a
constant index goes on before its offset is looked up, in the struct that is reached or
in the last one there was. Below, what each index counts for is compared with the data
layout.
-/

namespace PrepareGeps

open RecordLayout WrapAround

/-! ## What the indices count for -/

/-- A constant index as it is read, or the variable. -/
def Index.atom (i : Index) : Atom :=
  match i.operand with
  | .const v => .const (wrap i.width v)
  | .var id => .var id

section
variable (dl : DataLayout)

/-- The data layout as a sum: an index of an array counts the size of the elements, the index of a
field its offset. -/
def layoutTerms : Ty → List Index → List (Int × Atom)
  | .array _ t, i :: is => (allocSize dl t, i.atom) :: layoutTerms t is
  | .struct packed fields, i :: is =>
    match i.operand with
    | .const v =>
      (fieldOffset packed (extents dl fields) (limited 32 v), .const 1) ::
        ((fields[limited 32 v]?).elim [] fun t => layoutTerms t is)
    | .var _ => []
  | _, _ => []

def Ty.inner : Ty → Nat → Option Ty
  | .struct _ fields, k => fields[k]?
  | .array _ t, _ => some t
  | _, _ => none

def offsetIn (t : Ty) (k : Nat) : Int :=
  match t with
  | .struct packed fields => fieldOffset packed (extents dl fields) k
  | _ => 0

/-- What the indices count for in the version for arrays: a variable one counts the size of the type
reached before it, a constant one the offset of this number in the struct reached behind it, or in
the last struct if that is none; on a scalar it counts nothing. -/
def arrayTerms : Ty → Option Ty → List Index → List (Int × Atom)
  | _, _, [] => []
  | reached, last, i :: is =>
    let last := if last.isNone && reached.isStruct then some reached else last
    match i.operand with
    | .var id => (allocSize dl reached, .var id) :: arrayTerms reached last is
    | .const v =>
      match reached.inner (limited i.width v) with
      | none => arrayTerms reached last is
      | some t =>
        let looked := if t.isStruct then some t else last
        (looked.elim 0 fun s => offsetIn dl s (limited i.width v), .const 1) ::
          arrayTerms t looked is

/-- Each variable index counts as much as in the data layout, and so do the constant ones together.
-/
def Matching (n : Nat) (element : Ty) (first : Index) (rest : List Index) : Prop :=
  constantPart ((↑(allocSize dl element), first.atom) :: arrayTerms dl element none rest) =
      constantPart ((↑(allocSize dl (.array n element)), first.atom) ::
        layoutTerms dl (.array n element) rest) ∧
    ∀ id, coefficient id
      ((↑(allocSize dl element), first.atom) :: arrayTerms dl element none rest) =
      coefficient id
        ((↑(allocSize dl (.array n element)), first.atom) :: layoutTerms dl (.array n element) rest)

end

/-! ## Products and sums -/

/-- Without wrapping. -/
def Expr.exact (w : Nat) (ρ : Nat → Int) : Expr → Int
  | .const v => v
  | .index operand => wrap w (operand.value ρ)
  | .mul a b => a.exact w ρ * b.exact w ρ
  | .add a b => a.exact w ρ + b.exact w ρ

/-- No product and no sum leaves the range of the type. -/
def Expr.Fits (w : Nat) (ρ : Nat → Int) : Expr → Prop
  | .mul a b => a.Fits w ρ ∧ b.Fits w ρ ∧ InRange w (a.exact w ρ * b.exact w ρ)
  | .add a b => a.Fits w ρ ∧ b.Fits w ρ ∧ InRange w (a.exact w ρ + b.exact w ρ)
  | _ => True

/-- For all values of the variables without an overflow, the offset is the one of the data layout.
-/
def KeepsAddress (dl : DataLayout) (t : Ty) (first : Index) (rest : List Index) (e : Expr) : Prop :=
  ∀ ρ, InRange first.width (layoutOffset dl ρ t first rest) → e.Fits first.width ρ →
    e.eval first.width ρ = layoutOffset dl ρ t first rest

/-- Nothing overflows where at most one variable is not zero, but one. -/
def Roomy (dl : DataLayout) (t : Ty) (first : Index) (rest : List Index) (e : Expr) : Prop :=
  0 < first.width ∧ ∀ id, ∀ u ∈ [0, 1],
    InRange first.width (layoutOffset dl (fun other => if other = id then u else 0) t first rest) ∧
      e.Fits first.width fun other => if other = id then u else 0

/-- The type occurs in the other one. -/
inductive Inside : Ty → Ty → Prop
  | refl {t : Ty} : Inside t t
  | element {s t : Ty} {n : Nat} : Inside s t → Inside s (.array n t)
  | field {s t : Ty} {packed : Bool} {fields : List Ty} : t ∈ fields → Inside s t →
      Inside s (.struct packed fields)

/-- The sizes in bits are an `int64_t`. -/
def Sized (dl : DataLayout) (t : Ty) : Prop := ∀ s, Inside s t → 8 * allocSize dl s < 2 ^ 63

section
variable {dl : DataLayout}

theorem Sized.inner {t s : Ty} (sized : Sized dl t) {k : Nat} (inner : t.inner k = some s) :
    Sized dl s := by
  cases t with
  | int _ => cases inner
  | ptr => cases inner
  | array n t =>
    cases inner
    exact fun s inside => sized s (.element inside)
  | struct packed fields =>
      exact fun r inside => sized r (.field (List.mem_of_getElem? inner) inside)

theorem Sized.bytes {t : Ty} (sized : Sized dl t) {size : Int}
    (computed : getTypeSizeInBytes dl t = .ok size) :
    size = allocSize dl t := bytes_eq computed (sized t .refl)

theorem Sized.offset {t : Ty} (sized : Sized dl t) (isStruct : t.isStruct = true)
    {k : Nat} {val : Int} (computed : computeOffsetInBytes dl t k = .ok val) :
    val = offsetIn dl t k ∧ 0 ≤ val ∧ val < 2 ^ 64 := by
  cases t with
  | int _ => cases isStruct
  | ptr => cases isStruct
  | array _ _ => cases isStruct
  | struct packed fields =>
    have small := sized _ .refl
    have inside := fieldOffset_le packed (extents_pos dl fields) k
    rw [allocSize_struct] at small
    rw [computeOffsetInBytes] at computed
    split_ifs at computed
    cases computed
    rw [offsetIn]
    omega

/-- A constant that fits into an `uint64_t`. -/
theorem const_eval_modEq {w : Nat} {v : Int} (nonneg : 0 ≤ v) (small : v < 2 ^ 64) (ρ : Nat → Int) :
    (Expr.const v).eval w ρ ≡ (Expr.const v).exact w ρ [ZMOD 2 ^ w] := by
  rw [Expr.eval, Int.emod_eq_of_lt nonneg small]
  exact wrap_modEq w v

theorem mul_eval_modEq {w : Nat} {a b : Expr} {ρ : Nat → Int}
    (left : a.eval w ρ ≡ a.exact w ρ [ZMOD 2 ^ w]) (right : b.eval w ρ ≡ b.exact w ρ [ZMOD 2 ^ w]) :
    (Expr.mul a b).eval w ρ ≡ (Expr.mul a b).exact w ρ [ZMOD 2 ^ w] :=
  (wrap_modEq w _).trans (left.mul right)

theorem add_eval_modEq {w : Nat} {a b : Expr} {ρ : Nat → Int}
    (left : a.eval w ρ ≡ a.exact w ρ [ZMOD 2 ^ w]) (right : b.eval w ρ ≡ b.exact w ρ [ZMOD 2 ^ w]) :
    (Expr.add a b).eval w ρ ≡ (Expr.add a b).exact w ρ [ZMOD 2 ^ w] :=
  (wrap_modEq w _).trans (left.add right)

/-- An index times a size. -/
theorem scaled_eval_modEq {t : Ty} (sized : Sized dl t) {size : Int}
    (computed : getTypeSizeInBytes dl t = .ok size) (w : Nat) (ρ : Nat → Int) (operand : Atom) :
    (Expr.mul (.const size) (.index operand)).eval w ρ ≡
      (Expr.mul (.const size) (.index operand)).exact w ρ [ZMOD 2 ^ w] := by
  have bits := sized t .refl
  have same := sized.bytes computed
  exact mul_eval_modEq (const_eval_modEq (by omega) (by omega) ρ) rfl

/-- The emitted addend is what the index counts for. -/
structure Adds (w : Nat) (ρ : Nat → Int) (addend : Option Expr)
    (terms : List (Int × Atom)) : Prop where
  exact : (addend.elim 0 fun a => a.exact w ρ) = total (fun id => wrap w (ρ id)) terms
  bits : ∀ a ∈ addend, a.eval w ρ ≡ a.exact w ρ [ZMOD 2 ^ w]

theorem adds_offset {s : Ty} (sized : Sized dl s) (isStruct : s.isStruct = true) {k : Nat}
    {val : Int} (computed : computeOffsetInBytes dl s k = .ok val) (w : Nat) (ρ : Nat → Int) :
    Adds w ρ (some (.const val)) [(offsetIn dl s k, .const 1)] := by
  obtain ⟨same, nonneg, small⟩ := sized.offset isStruct computed
  refine ⟨?_, ?_⟩
  · simp [Expr.exact, total, Atom.value, same]
  · rintro a ⟨⟩
    exact const_eval_modEq nonneg small ρ

theorem arrayStep_spec {w : Nat} {reached reached' : Ty} {last last' : Option Ty} {i : Index}
    {addend : Option Expr} (step : arrayStep dl reached last i = .ok (addend, reached', last'))
    (sized : Sized dl reached) (sizedLast : ∀ s ∈ last, Sized dl s ∧ s.isStruct = true)
    (ρ : Nat → Int) :
    (∃ terms, (∀ is, arrayTerms dl reached last (i :: is) =
      terms ++ arrayTerms dl reached' last' is) ∧ Adds w ρ addend terms) ∧
    (∀ id, i.operand = .var id → addend.isSome = true) ∧ Sized dl reached' ∧
      ∀ s ∈ last', Sized dl s ∧ s.isStruct = true := by
  have sizedLooked : ∀ s ∈ (if last.isNone && reached.isStruct then some reached else last),
      Sized dl s ∧ s.isStruct = true := by
    intro s hs
    split_ifs at hs with fresh
    · cases hs
      exact ⟨sized, (Bool.and_eq_true_iff.mp fresh).2⟩
    · exact sizedLast s hs
  rw [arrayStep] at step
  simp only [arrayTerms]
  generalize (if last.isNone && reached.isStruct then some reached else last) =
    looked at step sizedLooked ⊢
  obtain ⟨width, v | id⟩ := i
  · obtain ⟨pt, found, step⟩ := Fallible.bind_eq_ok.mp step
    have inner : reached.inner (limited width v) = pt := by
      cases reached with
      | int _ => exact Except.ok.inj found
      | ptr => exact Except.ok.inj found
      | array _ _ => exact Except.ok.inj found
      | struct packed fields =>
        rw [findTypeAtIndex] at found
        rw [Ty.inner]
        split at found
        · next t here => exact here.trans (Except.ok.inj found)
        · cases found
    have noVar (id : Nat) (isVar : (Atom.const v) = .var id) :
      addend.isSome = true := by cases isVar
    dsimp only
    rw [inner]
    cases pt with
    | none =>
      cases step
      have nothing : Adds w ρ none [] := ⟨rfl, fun a ha => by cases ha⟩
      exact ⟨⟨[], fun is => rfl, nothing⟩, noVar, sized, sizedLooked⟩
    | some t =>
      have sizedInner := sized.inner inner
      dsimp only at step ⊢
      split_ifs at step with isStruct
      · obtain ⟨val, computed, step⟩ := Fallible.bind_eq_ok.mp step
        cases step
        refine ⟨⟨_, fun is => by rw [if_pos isStruct]; rfl,
          adds_offset sizedInner isStruct computed w ρ⟩, noVar, sizedInner, ?_⟩
        rintro s ⟨⟩
        exact ⟨sizedInner, isStruct⟩
      · cases looked with
        | none => cases step
        | some s =>
          obtain ⟨sizedStruct, struct⟩ := sizedLooked s rfl
          obtain ⟨val, computed, step⟩ := Fallible.bind_eq_ok.mp step
          cases step
          exact ⟨⟨_, fun is => by rw [if_neg isStruct]; rfl,
            adds_offset sizedStruct struct computed w ρ⟩, noVar, sizedInner, sizedLooked⟩
  · obtain ⟨size, computed, step⟩ := Fallible.bind_eq_ok.mp step
    cases step
    refine ⟨⟨[(allocSize dl reached, .var id)], fun is => rfl, ?_, ?_⟩, fun _ _ => rfl,
      sized, sizedLooked⟩
    · rw [Option.elim_some, sized.bytes computed]
      simp [Expr.exact, total, Atom.value]
    · rintro a ⟨⟩
      exact scaled_eval_modEq sized computed w ρ (.var id)

def Expr.isOperation : Expr → Bool
  | .mul _ _ | .add _ _ => true
  | _ => false

/-- A loop adds what its indices count for. -/
structure Counts (w : Nat) (ρ : Nat → Int) (before behind : Expr)
    (terms : List (Int × Atom)) : Prop where
  exact : behind.exact w ρ = before.exact w ρ + total (fun id => wrap w (ρ id)) terms
  bits : before.eval w ρ ≡ before.exact w ρ [ZMOD 2 ^ w] →
    behind.eval w ρ ≡ behind.exact w ρ [ZMOD 2 ^ w]
  operation : before.isOperation = true → behind.isOperation = true

theorem arrayLoop_spec {w : Nat} {reached : Ty} {last : Option Ty} {is : List Index} {vCnt e : Expr}
    (ran : arrayLoop dl w reached last is vCnt = .ok e) (sized : Sized dl reached)
    (sizedLast : ∀ s ∈ last, Sized dl s ∧ s.isStruct = true) (ρ : Nat → Int) :
    Counts w ρ vCnt e (arrayTerms dl reached last is) ∧ ∀ i ∈ is, ∀ id, i.operand = .var id →
      i.width = w := by
  induction is generalizing reached last vCnt with
  | nil =>
    cases ran
    exact ⟨⟨by simp [arrayTerms, total], id, id⟩, nofun⟩
  | cons i is ih =>
    obtain ⟨⟨addend, reached', last'⟩, step, ran⟩ := Fallible.bind_eq_ok.mp ran
    obtain ⟨⟨terms, counted, adds⟩, added, sized', sizedLast'⟩ :=
      arrayStep_spec (w := w) step sized sizedLast ρ
    rw [counted]
    cases addend with
    | none =>
      obtain ⟨counts, widths⟩ := ih ran sized' sizedLast'
      have nothing : total (fun id => wrap w (ρ id)) terms = 0 := adds.exact.symm
      refine ⟨⟨?_, counts.bits, counts.operation⟩, fun j hj id isVar => ?_⟩
      · rw [counts.exact, total_append, nothing, zero_add]
      · rcases List.mem_cons.mp hj with rfl | hj
        · cases added id isVar
        · exact widths j hj id isVar
    | some addend =>
      obtain ⟨vCnt', created, ran⟩ := Fallible.bind_eq_ok.mp ran
      rw [createAdd] at created
      split_ifs at created with width
      cases created
      obtain ⟨counts, widths⟩ := ih ran sized' sizedLast'
      have here : addend.exact w ρ = total (fun id => wrap w (ρ id)) terms := adds.exact
      refine ⟨⟨?_, fun before => counts.bits (add_eval_modEq before (adds.bits addend rfl)),
        fun _ => counts.operation rfl⟩,
        fun j hj id isVar => ?_⟩
      · rw [counts.exact, total_append, ← here, Expr.exact, add_assoc]
      · rcases List.mem_cons.mp hj with rfl | hj
        · exact width
        · exact widths j hj id isVar

theorem atom_value {i : Index} {w : Nat} (width : ∀ id, i.operand = .var id → i.width = w)
    (ρ : Nat → Int) :
    i.value ρ = i.atom.value fun id => wrap w (ρ id) := by
  obtain ⟨iw, v | id⟩ := i
  · rfl
  · have same : iw = w := width id rfl
    rw [← same]
    rfl

/-- The offset in the data layout is the sum of what the indices count for. -/
theorem indexedOffset_total {t : Ty} {is : List Index} {w : Nat}
    (widths : ∀ i ∈ is, ∀ id, i.operand = .var id → i.width = w) (ρ : Nat → Int) :
    indexedOffset dl ρ t is = total (fun id => wrap w (ρ id)) (layoutTerms dl t is) := by
  induction is generalizing t with
  | nil => cases t <;> rfl
  | cons i is ih =>
    have rest : ∀ j ∈ is, ∀ id, j.operand = .var id → j.width = w :=
      fun j hj => widths j (List.mem_cons_of_mem i hj)
    cases t with
    | int _ => rfl
    | ptr => rfl
    | array n t =>
        rw [indexedOffset, layoutTerms, total, ih rest, atom_value (widths i List.mem_cons_self)]
    | struct packed fields =>
      obtain ⟨width, v | id⟩ := i
      · simp only [indexedOffset, layoutTerms, total, Atom.value, mul_one]
        cases fields[limited 32 v]? with
        | none => rfl
        | some t => rw [Option.elim_some, Option.elim_some, ih rest]
      · rfl

section
variable {underlying : Option Underlying} {n : Nat} {element : Ty} {first : Index}
  {rest : List Index} {e : Expr}

/-- Both sums, for a getelementptr that is rewritten. -/
theorem processGEPI_array_total
    (rewritten : processGEPI dl underlying (.array n element) first rest = .ok (some e))
    (sized : Sized dl element) (ρ : Nat → Int) :
    e.exact first.width ρ = total (fun id => wrap first.width (ρ id))
      ((↑(allocSize dl element), first.atom) :: arrayTerms dl element none rest) ∧
    layoutOffset dl ρ (.array n element) first rest = total (fun id => wrap first.width (ρ id))
      ((↑(allocSize dl (.array n element)), first.atom) :: layoutTerms dl (.array n element) rest) ∧
    e.eval first.width ρ ≡ e.exact first.width ρ [ZMOD 2 ^ first.width] ∧ e.isOperation = true := by
  have ran : processArray dl element first rest = .ok e := by
    unfold processGEPI at rewritten
    split at rewritten
    · cases rewritten
    · cases rewritten
    · obtain ⟨e', ran, same⟩ := Fallible.map_eq_ok.mp rewritten
      cases same
      exact ran
  obtain ⟨size, computed, ran⟩ := Fallible.bind_eq_ok.mp ran
  split_ifs at ran with zero
  obtain ⟨counts, widths⟩ := arrayLoop_spec ran sized nofun ρ
  have firstValue := atom_value (i := first) (fun _ _ => rfl) ρ
  refine ⟨?_, ?_, counts.bits (scaled_eval_modEq sized computed _ ρ _), counts.operation rfl⟩
  · rw [counts.exact, total, ← firstValue, Expr.exact, Expr.exact, Expr.exact, sized.bytes computed]
    rfl
  · rw [layoutOffset, total, ← firstValue, indexedOffset_total widths]

theorem Expr.eval_of_fits {w : Nat} {ρ : Nat → Int} (same : e.eval w ρ ≡ e.exact w ρ [ZMOD 2 ^ w])
    (operation : e.isOperation = true) (fits : e.Fits w ρ) : e.eval w ρ = e.exact w ρ := by
  rw [← Expr.eval_wrapped]
  cases e with
  | const v => cases operation
  | index operand => cases operation
  | mul a b => exact wrap_eq same fits.2.2
  | add a b => exact wrap_eq same fits.2.2

theorem wrap_one_ne_zero {w : Nat} (positive : 0 < w) : wrap w 1 ≠ 0 := by
  intro zero
  have dvd := Int.modEq_iff_dvd.mp (wrap_modEq w 1)
  rw [zero] at dvd
  have even : (2 : Int) ∣ 2 ^ w := dvd_pow_self 2 positive.ne'
  have two := even.trans dvd
  omega

/-- The version for arrays has the offset of the data layout where the indices count for the same,
and only there unless the type of the indices is too narrow to show the difference. -/
theorem processGEPI_array_exact
    (rewritten : processGEPI dl underlying (.array n element) first rest = .ok (some e))
    (sized : Sized dl element) :
    (Matching dl n element first rest → KeepsAddress dl (.array n element) first rest e) ∧
    (Roomy dl (.array n element) first rest e → KeepsAddress dl (.array n element) first rest e →
      Matching dl n element first rest) := by
  constructor
  · rintro ⟨constants, factors⟩ ρ range -
    obtain ⟨code, layout, bits, -⟩ := processGEPI_array_total rewritten sized ρ
    rw [← Expr.eval_wrapped]
    refine wrap_eq ?_ range
    rw [code, total_congr constants factors, ← layout] at bits
    exact bits
  · rintro ⟨positive, room⟩ keeps
    have same (id : Nat) (u : Int) (hu : u ∈ [0, 1]) :
        total (fun other => if other = id then wrap first.width u else
          0) ((↑(allocSize dl element), first.atom) :: arrayTerms dl element none rest) =
        total (fun other => if other = id then wrap first.width u else 0)
          ((↑(allocSize dl (.array n element)), first.atom) ::
            layoutTerms dl (.array n element) rest) := by
      obtain ⟨range, fits⟩ := room id u hu
      obtain ⟨code, layout, bits, operation⟩ :=
        processGEPI_array_total rewritten sized fun other => if other = id then u else 0
      have values : (fun other => wrap first.width (if other = id then u else 0)) = fun other =>
          if other = id then wrap first.width u else 0 := by
        funext other
        split_ifs
        · rfl
        · exact Int.zero_bmod
      rw [values] at code layout
      rw [← code, ← layout, ← Expr.eval_of_fits bits operation fits]
      exact keeps _ range fits
    have constants :
        constantPart ((↑(allocSize dl element), first.atom) :: arrayTerms dl element none rest) =
        constantPart ((↑(allocSize dl (.array n element)), first.atom) ::
          layoutTerms dl (.array n element) rest) := by
      have atZero := same 0 0 (by simp)
      rw [total_single, total_single] at atZero
      simpa [wrap] using atZero
    refine ⟨constants, fun id => ?_⟩
    have atOne := same id 1 (by simp)
    rw [total_single, total_single, constants] at atOne
    exact mul_right_cancel₀ (wrap_one_ne_zero positive) (add_left_cancel atOne)

end

end

theorem sized_word : Sized natural (.int .w32) := by
  intro s inside
  cases inside
  decide

/-- A variable element of an array that the pointer points to. -/
theorem processGEPI_array_exact_variable :
    KeepsAddress natural (.array 4 (.int .w32)) ⟨64, .const 0⟩ [⟨64, .var 0⟩]
      (.add (.mul (.const 4) (.index (.const 0))) (.mul (.const 4) (.index (.var 0)))) := by
  have rewritten :
      processGEPI natural (some .bytes) (.array 4 (.int .w32)) ⟨64, .const 0⟩ [⟨64, .var 0⟩] =
      .ok (some (.add (.mul (.const 4) (.index (.const 0))) (.mul (.const 4) (.index (.var 0))))) :=
        rfl
  exact (processGEPI_array_exact rewritten sized_word).1 ⟨rfl, fun _ => rfl⟩

/-- A constant element of an array of scalars is lost: the offset is 0 instead of 8. -/
theorem constant_element_lost :
    processGEPI natural (some .bytes) (.array 4 (.int .w32)) ⟨64, .const 0⟩ [⟨64, .const 2⟩] =
      .ok (some (.mul (.const 4) (.index (.const 0)))) ∧
    layoutOffset natural (fun _ => 0) (.array 4 (.int .w32)) ⟨64, .const 0⟩ [⟨64, .const 2⟩] = 8 ∧
    ¬ KeepsAddress natural (.array 4 (.int .w32)) ⟨64, .const 0⟩ [⟨64, .const 2⟩]
      (.mul (.const 4) (.index (.const 0))) := by
  refine ⟨rfl, by decide, fun keeps => ?_⟩
  have same := keeps (fun _ => 0) (by decide) ⟨trivial, trivial, by decide⟩
  revert same
  decide

end PrepareGeps
