import Mathlib.Tactic

/-!
# 32-bit integers

An `int` is an integer in the range of 32 bits; arithmetic that leaves the range wraps around. A number
that `%d` reads is converted to a `long` first, which stops at its bounds, and then cut to 32 bits.
-/

namespace QuorumLogFs.Basis

/-- The largest `int`. -/
def INT_MAX : ℤ := 2 ^ 31 - 1

/-- The values of an `int`. -/
def IsInt (z : ℤ) : Prop := -(2 ^ 31) ≤ z ∧ z ≤ INT_MAX

instance (z : ℤ) : Decidable (IsInt z) := inferInstanceAs (Decidable (_ ∧ _))

/-- The result of an `int` operation. -/
def wrap32 (z : ℤ) : ℤ := Int.bmod z (2 ^ 32)

/-- What `%d` stores for a number that it reads. -/
def storedInt (z : ℤ) : ℤ := wrap32 (max (-(2 ^ 63)) (min z (2 ^ 63 - 1)))

theorem wrap32_of_range {z : ℤ} (hlo : -(2 ^ 31) ≤ z) (hhi : z ≤ INT_MAX) : wrap32 z = z := by
  rw [INT_MAX] at hhi
  exact Int.bmod_eq_of_le (by omega) (by omega)

theorem wrap32_of_isInt {z : ℤ} (h : IsInt z) : wrap32 z = z := wrap32_of_range h.1 h.2

theorem isInt_wrap32 (z : ℤ) : IsInt (wrap32 z) := by
  have hlo := Int.le_bmod (x := z) (m := 2 ^ 32) (by decide)
  have hhi := Int.bmod_lt (x := z) (m := 2 ^ 32) (by decide)
  rw [IsInt, INT_MAX, wrap32]
  omega

theorem isInt_storedInt (z : ℤ) : IsInt (storedInt z) := isInt_wrap32 _

/-- An `int` is stored as it is. -/
theorem storedInt_of_isInt {z : ℤ} (h : IsInt z) : storedInt z = z := by
  have hlo := h.1
  have hhi := h.2
  rw [INT_MAX] at hhi
  rw [storedInt, min_eq_left (by omega), max_eq_right (by omega), wrap32_of_isInt h]

/-- Wrapping once at the end is enough. -/
theorem wrap32_wrap32_add (a b : ℤ) : wrap32 (wrap32 a + b) = wrap32 (a + b) := Int.bmod_add_bmod

/-- What is left of a count below `2 ^ 32` tells the count. -/
theorem wrap32_emod {n : ℕ} (h : n < 2 ^ 32) : wrap32 n % 2 ^ 32 = n := by
  rw [wrap32, Int.bmod_def]
  omega

/-- A count below `2 ^ 32` is itself or has become negative. -/
theorem wrap32_natCast {n : ℕ} (h : n < 2 ^ 32) : wrap32 n = n ∨ wrap32 n < 0 := by
  by_cases hn : n < 2 ^ 31
  · exact Or.inl (wrap32_of_range (by omega) (by rw [INT_MAX]; omega))
  · refine Or.inr ?_
    have hwrap : wrap32 n = (n : ℤ) - 2 ^ 32 := by
      have hsub : wrap32 n = wrap32 ((n : ℤ) - 2 ^ 32) := by
        unfold wrap32
        rw [Int.bmod_def, Int.bmod_def]
        omega
      rw [hsub, wrap32_of_range (by omega) (by rw [INT_MAX]; omega)]
    omega

end QuorumLogFs.Basis
