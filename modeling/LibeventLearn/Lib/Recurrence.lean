import Mathlib.Data.Nat.Fib.Basic
import Mathlib.Tactic.Ring

/-!
# The recurrence of the Fibonacci numbers

The sequence of which each term is the sum of the two before it, from any two terms: how it
goes on from a later pair, what it is modulo a number, and how fast it grows.
-/

namespace LibeventLearn.Lib

/-- The terms from `a` and `b` on. -/
def recurrence (a b : ℕ) : ℕ → ℕ
  | 0 => a
  | 1 => b
  | k + 2 => recurrence a b (k + 1) + recurrence a b k

variable {a b i k : ℕ}

/-- The sequence goes on from any two neighbours as from the first two. -/
lemma recurrence_add (a b i k : ℕ) :
    recurrence (recurrence a b i) (recurrence a b (i + 1)) k = recurrence a b (i + k) := by
  induction k using Nat.twoStepInduction with
  | zero => rfl
  | one => rfl
  | more k ih ih' =>
    show recurrence _ _ (k + 1) + recurrence _ _ k = recurrence a b (i + k + 2)
    rw [ih', ih]
    rfl

/-- The sequence modulo `n` depends on its first terms modulo `n` only. -/
lemma recurrence_mod (n a b k : ℕ) :
    recurrence (a % n) (b % n) k % n = recurrence a b k % n := by
  induction k using Nat.twoStepInduction with
  | zero => exact Nat.mod_mod a n
  | one => exact Nat.mod_mod b n
  | more k ih ih' =>
    show (recurrence _ _ (k + 1) + recurrence _ _ k) % n =
      (recurrence a b (k + 1) + recurrence a b k) % n
    rw [Nat.add_mod, ih', ih, ← Nat.add_mod]

lemma recurrence_eq (a b k : ℕ) :
    recurrence a b (k + 1) = a * Nat.fib k + b * Nat.fib (k + 1) := by
  induction k using Nat.twoStepInduction with
  | zero =>
    show b = a * 0 + b * 1
    omega
  | one =>
    show b + a = a * 1 + b * 1
    omega
  | more k ih ih' =>
    show recurrence a b (k + 1 + 1) + recurrence a b (k + 1) = _
    rw [ih, ih', Nat.fib_add_two (n := k + 1), Nat.fib_add_two (n := k)]
    ring

lemma recurrence_fib (k : ℕ) : recurrence 0 1 k = Nat.fib k := by
  cases k with
  | zero => rfl
  | succ k => rw [recurrence_eq, Nat.zero_mul, Nat.zero_add, Nat.one_mul]

/-- Behind its first term the sequence grows at least as the Fibonacci numbers do. -/
lemma mul_fib_le_recurrence (a b j i : ℕ) :
    recurrence a b (j + 1) * Nat.fib (i + 1) ≤ recurrence a b (j + 1 + i) := by
  cases i with
  | zero => rw [Nat.fib_one, Nat.mul_one, Nat.add_zero]
  | succ i =>
    have hle : recurrence a b (j + 1) ≤ recurrence a b (j + 1 + 1) := Nat.le_add_right _ _
    calc recurrence a b (j + 1) * Nat.fib (i + 2)
        = recurrence a b (j + 1) * Nat.fib i + recurrence a b (j + 1) * Nat.fib (i + 1) := by
          rw [Nat.fib_add_two, Nat.mul_add]
      _ ≤ recurrence a b (j + 1) * Nat.fib i + recurrence a b (j + 1 + 1) * Nat.fib (i + 1) :=
          Nat.add_le_add_left (Nat.mul_le_mul_right _ hle) _
      _ = recurrence (recurrence a b (j + 1)) (recurrence a b (j + 1 + 1)) (i + 1) :=
          (recurrence_eq _ _ i).symm
      _ = recurrence a b (j + 1 + (i + 1)) := recurrence_add a b (j + 1) (i + 1)

end LibeventLearn.Lib
