import Mathlib.Algebra.BigOperators.Intervals
import Mathlib.Algebra.Order.BigOperators.Group.Finset
import Mathlib.Data.List.Basic

/-!
# Numbers as decimal text

The decimal digits of a number as a text of bytes, and the text of the first numbers of a
sequence, one behind the other without a separator.
-/

namespace LibeventLearn.Lib

open Finset

/-- The decimal digits of a number. -/
def decimal (n : ℕ) : List UInt8 := (Nat.toDigits 10 n).map Char.toUInt8

variable {x y : ℕ → ℕ} {i m n : ℕ}

lemma length_decimal_pos (n : ℕ) : 0 < (decimal n).length := by
  rw [decimal, List.length_map]
  exact Nat.length_toDigits_pos

lemma length_decimal_le_iff {k : ℕ} (hk : 0 < k) : (decimal n).length ≤ k ↔ n < 10 ^ k := by
  rw [decimal, List.length_map]
  exact Nat.length_toDigits_le_iff (by omega) hk

/-- A greater number does not have fewer digits. -/
lemma length_decimal_mono : Monotone fun n => (decimal n).length := by
  intro m n hmn
  have hpos := length_decimal_pos n
  rw [length_decimal_le_iff hpos]
  exact hmn.trans_lt ((length_decimal_le_iff hpos).1 (le_refl _))

/-- The digits of the first `m` numbers of a sequence. -/
def decimals (x : ℕ → ℕ) (m : ℕ) : List UInt8 := (List.range m).flatMap fun k => decimal (x k)

@[simp] lemma decimals_zero (x : ℕ → ℕ) : decimals x 0 = [] := rfl

/-- The numbers of a sequence in two parts. -/
lemma decimals_add (x : ℕ → ℕ) (m n : ℕ) :
    decimals x (m + n) = decimals x m ++ decimals (fun k => x (m + k)) n := by
  rw [decimals, List.range_add, List.flatMap_append, List.flatMap_map]
  rfl

lemma decimals_one (x : ℕ → ℕ) : decimals x 1 = decimal (x 0) := List.append_nil _

lemma decimals_congr (h : ∀ k < m, x k = y k) : decimals x m = decimals y m := by
  refine List.flatMap_congr fun k hk => ?_
  rw [h k (List.mem_range.1 hk)]

lemma length_decimals (x : ℕ → ℕ) (m : ℕ) :
    (decimals x m).length = ∑ k ∈ range m, (decimal (x k)).length := by
  induction m with
  | zero => rfl
  | succ m ih =>
    rw [sum_range_succ, ← ih, decimals_add, List.length_append, decimals_one]
    rfl

/-- What the first numbers are does not depend on how many follow. -/
lemma getElem?_decimals (hi : i < (decimals x n).length) (hnm : n ≤ m) :
    (decimals x m)[i]? = (decimals x n)[i]? := by
  obtain ⟨k, rfl⟩ := Nat.exists_eq_add_of_le hnm
  rw [decimals_add, List.getElem?_append_left hi]

/-- The text grows with the sequence. -/
lemma length_decimals_mono (x : ℕ → ℕ) (hmn : m ≤ n) :
    (decimals x m).length ≤ (decimals x n).length := by
  obtain ⟨k, rfl⟩ := Nat.exists_eq_add_of_le hmn
  rw [decimals_add, List.length_append]
  exact Nat.le_add_right _ _

/-- A longer text is one of more numbers. -/
lemma lt_of_length_decimals_lt (h : (decimals x m).length < (decimals x n).length) : m < n := by
  by_contra hle
  exact absurd h (not_lt.2 (length_decimals_mono x (not_lt.1 hle)))

/-- The smaller the numbers, the shorter the text. -/
lemma length_decimals_le (h : ∀ k < m, x k ≤ y k) :
    (decimals x m).length ≤ (decimals y m).length := by
  rw [length_decimals, length_decimals]
  exact sum_le_sum fun k hk => length_decimal_mono (h k (mem_range.1 hk))

/-- The order of the numbers does not matter for the length. -/
lemma length_decimals_reflect (x : ℕ → ℕ) (m : ℕ) :
    (decimals (fun k => x (m - 1 - k)) m).length = (decimals x m).length := by
  rw [length_decimals, length_decimals]
  exact sum_range_reflect (fun k => (decimal (x k)).length) m

end LibeventLearn.Lib
