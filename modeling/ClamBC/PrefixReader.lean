import Mathlib.Data.Nat.Digits.Lemmas

/-!
# Readers of self-delimiting text

A reader consumes a prefix of a symbol list and returns what it read together
with the unread rest. `Reads r w a` says that the word `w` is read as `a`
whatever follows it: a format is decodable exactly when each of its fields is
read in this sense, since the rules below then read every concatenation.
-/

namespace PrefixReader

universe u v w
variable {σ : Type u} {α : Type v} {β : Type w}

abbrev Reader (σ : Type u) (α : Type v) := List σ → Option (α × List σ)

def Reads (r : Reader σ α) (word : List σ) (a : α) : Prop :=
  ∀ rest, r (word ++ rest) = some (a, rest)

def item : Reader σ σ
  | [] => none
  | c :: rest => some (c, rest)

def pure (a : α) : Reader σ α := fun s => some (a, s)

def fail : Reader σ α := fun _ => none

def bind (r : Reader σ α) (k : α → Reader σ β) : Reader σ β := fun s =>
  match r s with
  | none => none
  | some (a, rest) => k a rest

/-- Run one reader per element of a list and collect the results in order. -/
def each (r : β → Reader σ α) : List β → Reader σ (List α)
  | [] => pure []
  | b :: bs => bind (r b) fun a => bind (each r bs) fun as => pure (a :: as)

theorem Reads.pure (a : α) : Reads (σ := σ) (pure a) [] a := fun _ => rfl

theorem Reads.item (c : σ) : Reads item [c] c := fun _ => rfl

theorem Reads.bind {r : Reader σ α} {k : α → Reader σ β} {v w : List σ} {a : α} {b : β}
    (first : Reads r v a) (second : Reads (k a) w b) : Reads (bind r k) (v ++ w) b := by
  intro rest
  simp only [PrefixReader.bind, List.append_assoc, first (w ++ rest), second rest]

theorem Reads.bind_pure {r : Reader σ α} {w : List σ} {a : α} (h : Reads r w a) (f : α → β) :
    Reads (PrefixReader.bind r fun a => PrefixReader.pure (f a)) w (f a) := by
  intro rest
  simp only [PrefixReader.bind, h rest, PrefixReader.pure]

/-- A reader that inspects its first symbol reads a word that starts with it. -/
theorem Reads.cons {k : σ → Reader σ β} {c : σ} {w : List σ} {b : β}
    (h : Reads (k c) w b) : Reads (PrefixReader.bind PrefixReader.item k) (c :: w) b :=
  Reads.bind (Reads.item c) h

/-- A word is read in at most one way. -/
theorem Reads.unique {r : Reader σ α} {w : List σ} {a b : α}
    (first : Reads r w a) (second : Reads r w b) : a = b := by
  have same := (first []).symm.trans (second [])
  exact congrArg Prod.fst (Option.some.inj same)

/-! Separators, repetitions, and items up to a symbol that ends them. -/

section
variable [DecidableEq σ]

def symbol (c : σ) : Reader σ Unit := bind item fun d => if d = c then pure () else fail

theorem Reads.symbol (c : σ) : Reads (symbol c) [c] () := by
  apply Reads.cons
  rw [if_pos rfl]
  exact Reads.pure ()

def literal : List σ → Reader σ Unit
  | [] => pure ()
  | c :: w => bind (symbol c) fun _ => literal w

theorem Reads.literal (w : List σ) : Reads (literal w) w () := by
  induction w with
  | nil => exact Reads.pure ()
  | cons c w ih => exact Reads.bind (Reads.symbol c) ih

/-- A reader that expects a symbol in front. -/
theorem Reads.after {k : Reader σ β} {c : σ} {w : List σ} {b : β} (h : Reads k w b) :
    Reads (PrefixReader.bind (PrefixReader.symbol c) fun _ => k) (c :: w) b :=
  Reads.bind (Reads.symbol c) h

end

def times (r : Reader σ α) : Nat → Reader σ (List α)
  | 0 => pure []
  | n + 1 => bind r fun a => bind (times r n) fun as => pure (a :: as)

theorem Reads.times {r : Reader σ α} {words : List (List σ)} {as : List α}
    (items : List.Forall₂ (Reads r) words as) : Reads (times r as.length) words.flatten as := by
  induction items with
  | nil => exact Reads.pure []
  | @cons w a words as first _ ih =>
    exact Reads.bind (k := fun a => PrefixReader.bind (PrefixReader.times r as.length) fun as =>
      PrefixReader.pure (a :: as)) first (ih.bind_pure fun as => a :: as)

/-- What is left of a word that is read decides about what comes after it. -/
theorem Reads.bind_eq {r : Reader σ α} {k : α → Reader σ β} {w : List σ} {a : α}
    (first : Reads r w a) (rest : List σ) : PrefixReader.bind r k (w ++ rest) = k a rest := by
  simp only [PrefixReader.bind, first rest]

theorem bind_none {r : Reader σ α} {k : α → Reader σ β} {s : List σ} (fails : r s = none) :
    PrefixReader.bind r k s = none := by
  simp only [PrefixReader.bind, fails]

/-- One item more is asked for than there are. -/
theorem times_none {r : Reader σ α} {words : List (List σ)} {as : List α} {rest : List σ}
    (items : List.Forall₂ (Reads r) words as) (fails : r rest = none) {n : Nat}
    (more : as.length < n) : PrefixReader.times r n (words.flatten ++ rest) = none := by
  induction items generalizing n with
  | nil =>
    obtain ⟨n, rfl⟩ := Nat.exists_eq_succ_of_ne_zero (Nat.ne_zero_of_lt more)
    simp [PrefixReader.times, PrefixReader.bind, fails]
  | cons first _ ih =>
    obtain ⟨n, rfl⟩ := Nat.exists_eq_succ_of_ne_zero (Nat.ne_zero_of_lt more)
    have tail := ih (Nat.lt_of_succ_lt_succ more)
    rw [List.flatten_cons, List.append_assoc, PrefixReader.times, first.bind_eq]
    simp only [PrefixReader.bind, tail]

/-- At most so many items, and then a symbol that stops. -/
def rounds (stops : σ → Bool) (r : Reader σ α) : Nat → Reader σ (List α)
  | 0 => fail
  | n + 1 => fun s =>
    match s with
    | [] => none
    | c :: rest =>
      if stops c then some ([], rest)
      else bind r (fun a => bind (rounds stops r n) fun as => pure (a :: as)) s

/-- Every item takes a symbol, so that there are no more items than symbols. -/
def upTo (stops : σ → Bool) (r : Reader σ α) : Reader σ (List α) := fun s =>
  rounds stops r s.length s

/-- The word of an item: it is read as the item, and its first symbol does not stop. -/
def ReadsItem (stops : σ → Bool) (r : Reader σ α) (word : List σ) (a : α) : Prop :=
  Reads r word a ∧ ∃ c, word.head? = some c ∧ stops c = false

theorem reads_rounds {stops : σ → Bool} {r : Reader σ α} {c : σ} (stop : stops c = true)
    {words : List (List σ)} {as : List α} (items : List.Forall₂ (ReadsItem stops r) words as)
    {n : Nat} (enough : as.length < n) :
    Reads (rounds stops r n) (words.flatten ++ [c]) as := by
  induction items generalizing n with
  | nil =>
    obtain ⟨n, rfl⟩ := Nat.exists_eq_succ_of_ne_zero (Nat.ne_zero_of_lt enough)
    intro rest
    simp [rounds, stop]
  | @cons w a words as first _ ih =>
    obtain ⟨n, rfl⟩ := Nat.exists_eq_succ_of_ne_zero (Nat.ne_zero_of_lt enough)
    obtain ⟨reads, d, head, goesOn⟩ := first
    obtain ⟨w, rfl⟩ : ∃ w', w = d :: w' := by
      cases w with
      | nil => cases head
      | cons e w => exact ⟨w, by rw [Option.some.inj head]⟩
    have tail := ih (Nat.lt_of_succ_lt_succ enough)
    have both := Reads.bind (k := fun a => PrefixReader.bind (rounds stops r n) fun as =>
      PrefixReader.pure (a :: as)) reads (tail.bind_pure fun as => a :: as)
    intro rest
    have read := both rest
    rw [← List.append_assoc (d :: w), ← List.flatten_cons] at read
    simpa only [rounds, List.flatten_cons, List.cons_append, goesOn, Bool.false_eq_true,
      if_false] using read

theorem Reads.upTo {stops : σ → Bool} {r : Reader σ α} {c : σ} (stop : stops c = true)
    {words : List (List σ)} {as : List α} (items : List.Forall₂ (ReadsItem stops r) words as) :
    Reads (upTo stops r) (words.flatten ++ [c]) as := by
  have short : as.length ≤ words.flatten.length := by
    rw [List.length_flatten]
    induction items with
    | nil => exact Nat.zero_le _
    | @cons w a words as first _ ih =>
      obtain ⟨-, d, head, -⟩ := first
      cases w with
      | nil => cases head
      | cons e w =>
        simp only [List.length_cons, List.map_cons, List.sum_cons]
        omega
  intro rest
  refine reads_rounds stop items ?_ rest
  simp only [List.length_append, List.length_singleton]
  omega

end PrefixReader
