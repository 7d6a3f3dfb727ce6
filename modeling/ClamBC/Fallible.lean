import Mathlib.Data.List.Forall2

/-!
# Computations that can fail

Rules for `Except`: how a successful sequence of computations is taken apart, and how
success is put together from the steps.
-/

namespace Fallible

universe u
variable {ε α β : Type u}

theorem ok_bind {a : α} {k : α → Except ε β} : (Except.ok a >>= k) = k a := rfl

@[simp] theorem bind_eq_ok {x : Except ε α} {k : α → Except ε β} {b : β} :
    (x >>= k) = .ok b ↔ ∃ a, x = .ok a ∧ k a = .ok b := by
  constructor
  · intro h
    cases x with
    | error e => cases h
    | ok a => exact ⟨a, rfl, h⟩
  · rintro ⟨a, rfl, h⟩
    exact h

@[simp] theorem pure_eq_ok {a b : α} : (pure a : Except ε α) = .ok b ↔ a = b := by
  constructor
  · intro h
    cases h
    rfl
  · rintro rfl
    rfl

@[simp] theorem map_eq_ok {g : α → β} {x : Except ε α} {b : β} :
    x.map g = .ok b ↔ ∃ a, x = .ok a ∧ g a = b := by
  cases x <;> simp [Except.map]

@[simp] theorem fmap_eq_ok {g : α → β} {x : Except ε α} {b : β} :
    g <$> x = .ok b ↔ ∃ a, x = .ok a ∧ g a = b := map_eq_ok

theorem forall₂_of_mapM {k : α → Except ε β} {xs : List α} {ys : List β} (h : xs.mapM k = .ok ys) :
    List.Forall₂ (fun a b => k a = .ok b) xs ys := by
  induction xs generalizing ys with
  | nil =>
    cases h
    exact .nil
  | cons a xs ih =>
    rw [List.mapM_cons] at h
    obtain ⟨b, first, h⟩ := bind_eq_ok.mp h
    obtain ⟨bs, rest, h⟩ := bind_eq_ok.mp h
    cases h
    exact .cons first (ih rest)

theorem mapM_ok {k : α → Except ε β} {g : α → β} {xs : List α} (h : ∀ a ∈ xs, k a = .ok (g a)) :
    xs.mapM k = .ok (xs.map g) := by
  induction xs with
  | nil => rfl
  | cons a xs ih =>
    rw [List.mapM_cons, h a List.mem_cons_self, ih fun b hb => h b (List.mem_cons_of_mem _ hb)]
    rfl

/-- A loop that changes nothing. -/
theorem foldlM_unchanged {γ : Type*} {step : α → γ → Except ε α} {a : α} {cs : List γ}
    (same : ∀ c ∈ cs, step a c = .ok a) : cs.foldlM step a = .ok a := by
  induction cs with
  | nil => rfl
  | cons c cs ih =>
    rw [List.foldlM_cons, same c List.mem_cons_self, ok_bind]
    exact ih fun d hd => same d (List.mem_cons_of_mem _ hd)

theorem exists_of_forall₂ {α β : Type*} {R : α → β → Prop} {as : List α} {bs : List β}
    (related : List.Forall₂ R as bs) {b : β} (hb : b ∈ bs) :
    ∃ a ∈ as, R a b := by
  induction related with
  | nil => cases hb
  | cons first _ ih =>
    rcases List.mem_cons.mp hb with rfl | hb
    · exact ⟨_, List.mem_cons_self, first⟩
    · obtain ⟨a, ha, found⟩ := ih hb
      exact ⟨a, List.mem_cons_of_mem _ ha, found⟩

theorem map_eq_of_forall₂ {α β γ : Type*} {R : α → β → Prop} {f : α → γ} {g : β → γ} {as : List α}
    {bs : List β} (related : List.Forall₂ R as bs) (same : ∀ a ∈ as, ∀ b, R a b → g b = f a) :
    bs.map g = as.map f := by
  induction related with
  | nil => rfl
  | cons first _ ih =>
    rw [List.map_cons, List.map_cons, same _ List.mem_cons_self _ first,
      ih fun a ha => same a (List.mem_cons_of_mem _ ha)]

theorem mem_of_mapM {k : α → Except ε β} {xs : List α} {ys : List β} (h : xs.mapM k = .ok ys)
    {b : β} (hb : b ∈ ys) :
    ∃ a ∈ xs, k a = .ok b := exists_of_forall₂ (forall₂_of_mapM h) hb

/-- The computation succeeds, and with a result that satisfies `P`. -/
def Yields (x : Except ε α) (P : α → Prop) : Prop := ∃ a, x = .ok a ∧ P a

theorem Yields.ok {P : α → Prop} {a : α} (h : P a) : Yields (.ok a : Except ε α) P := ⟨a, rfl, h⟩

theorem Yields.bind {x : Except ε α} {k : α → Except ε β} {P : α → Prop} {Q : β → Prop}
    (first : Yields x P) (second : ∀ a, P a → Yields (k a) Q) : Yields (x >>= k) Q := by
  obtain ⟨a, rfl, ha⟩ := first
  exact second a ha

theorem Yields.map {x : Except ε α} {g : α → β} {P : α → Prop} {Q : β → Prop} (h : Yields x P)
    (imp : ∀ a, P a → Q (g a)) : Yields (x.map g) Q := by
  obtain ⟨a, rfl, ha⟩ := h
  exact ⟨g a, rfl, imp a ha⟩

/-- What every step of a loop keeps holds at its end. -/
theorem Yields.foldlM {γ : Type*} {step : α → γ → Except ε α} {P : α → Prop}
    {cs : List γ} (each : ∀ c ∈ cs, ∀ a, P a → Yields (step a c) P) {a : α} (start : P a) :
    Yields (cs.foldlM step a) P := by
  induction cs generalizing a with
  | nil => exact .ok start
  | cons c cs ih =>
    rw [List.foldlM_cons]
    exact (each c List.mem_cons_self a start).bind fun b hb =>
      ih (fun d hd => each d (List.mem_cons_of_mem _ hd)) hb

theorem Yields.mono {x : Except ε α} {P Q : α → Prop} (h : Yields x P) (imp : ∀ a, P a → Q a) :
    Yields x Q := by
  obtain ⟨a, rfl, ha⟩ := h
  exact ⟨a, rfl, imp a ha⟩

/-- A result satisfies `P` and a failure `E`. -/
def Meets (E : ε → Prop) (P : α → Prop) : Except ε α → Prop
  | .ok a => P a
  | .error e => E e

namespace Meets
variable {E : ε → Prop} {P : α → Prop} {Q : β → Prop} {x : Except ε α}

theorem of_ok (h : Meets E P x) {a : α} (ran : x = .ok a) : P a := by
  rw [ran] at h
  exact h

theorem of_error (h : Meets E P x) {e : ε} (failed : x = .error e) : E e := by
  rw [failed] at h
  exact h

theorem bind {k : α → Except ε β} (first : Meets E P x)
    (second : ∀ a, x = .ok a → P a → Meets E Q (k a)) :
    Meets E Q (x >>= k) := by
  cases x with
  | error e => exact first
  | ok a => exact second a rfl first

theorem map {g : α → β} (h : Meets E P x) (imp : ∀ a, P a → Q (g a)) : Meets E Q (x.map g) := by
  cases x with
  | error e => exact h
  | ok a => exact imp a h

theorem mono {Q : α → Prop} (h : Meets E P x) (imp : ∀ a, P a → Q a) : Meets E Q x := by
  cases x with
  | error e => exact h
  | ok a => exact imp a h

theorem yields (h : Meets (fun _ => False) P x) : Yields x P := by
  cases x with
  | error e => exact h.elim
  | ok a => exact ⟨a, rfl, h⟩

end Meets

theorem Yields.meets {E : ε → Prop} {P : α → Prop} {x : Except ε α} (h : Yields x P) :
    Meets E P x := by
  obtain ⟨a, rfl, ha⟩ := h
  exact ha

end Fallible
