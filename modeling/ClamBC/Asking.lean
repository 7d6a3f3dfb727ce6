import Mathlib.Data.List.Basic

/-!
# Computations that ask

A computation puts questions and goes on with the answers. Its result depends on the
answers alone: two ways to answer that agree on the questions of a run lead to the same
run.
-/

namespace Asking

/-- Ends with a result or a fault, or asks and goes on. -/
inductive Ask (Q A ε α : Type) where
  | done (r : Except ε α)
  | ask (q : Q) (next : A → Ask Q A ε α)

variable {Q A ε α β : Type}

namespace Ask

def bind (x : Ask Q A ε α) (k : α → Ask Q A ε β) : Ask Q A ε β :=
  match x with
  | .done (.ok a) => k a
  | .done (.error e) => .done (.error e)
  | .ask q next => .ask q fun a => bind (next a) k

instance : Monad (Ask Q A ε) where
  pure a := .done (.ok a)
  bind := bind

/-- A computation that asks nothing. -/
instance : MonadLift (Except ε) (Ask Q A ε) := ⟨.done⟩

def run (answer : Q → A) : Ask Q A ε α → Except ε α
  | .done r => r
  | .ask q next => run answer (next (answer q))

/-- The questions of the run, in order. -/
def questions (answer : Q → A) : Ask Q A ε α → List Q
  | .done _ => []
  | .ask q next => q :: questions answer (next (answer q))

section
variable (answer : Q → A)

@[simp] theorem run_ask (q : Q) (next : A → Ask Q A ε α) :
    run answer (.ask q next) = run answer (next (answer q)) := rfl

@[simp] theorem run_pure (a : α) : run answer (pure a : Ask Q A ε α) = pure a := rfl

@[simp] theorem run_liftM (r : Except ε α) : run answer (liftM r : Ask Q A ε α) = r := rfl

@[simp] theorem run_bind (x : Ask Q A ε α) (k : α → Ask Q A ε β) :
    run answer (x >>= k) = run answer x >>= fun a => run answer (k a) := by
  change run answer (bind x k) = _
  induction x with
  | done r => cases r <;> rfl
  | ask q next ih => exact ih (answer q)

end

/-- Answers that agree on the questions of a run lead to the same run. -/
theorem run_congr {answer answer' : Q → A} (x : Ask Q A ε α)
    (agree : ∀ q ∈ x.questions answer, answer' q = answer q) :
    run answer' x = run answer x := by
  induction x with
  | done r => rfl
  | ask q next ih =>
    rw [run_ask, run_ask, agree q List.mem_cons_self]
    exact ih (answer q) fun p hp => agree p (List.mem_cons_of_mem q hp)

end Ask

end Asking
