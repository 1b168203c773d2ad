import Mathlib.Algebra.Group.Int.Defs
import Mathlib.Algebra.Group.Nat.Defs
import Mathlib.Data.Int.Notation

/-! The fixed-width integers of C: conversions and sums that wrap around. -/

namespace CInt

/-- A value of `int64_t`. -/
def IsInt64 (n : Int) : Prop := -2 ^ 63 ≤ n ∧ n < 2 ^ 63

instance (n : Int) : Decidable (IsInt64 n) := inferInstanceAs (Decidable (_ ∧ _))

/-- The result of `int64_t` arithmetic. -/
def int64 (n : Int) : Int := (n + 2 ^ 63) % 2 ^ 64 - 2 ^ 63

/-- `(int32_t)n`. -/
def int32 (n : Int) : Int := (n + 2 ^ 31) % 2 ^ 32 - 2 ^ 31

/-- `(uint32_t)n`. -/
def uint32 (n : Int) : Nat := (n % 2 ^ 32).toNat

/-- `(uint64_t)n`. -/
def uint64 (n : Int) : Nat := (n % 2 ^ 64).toNat

variable {n : Int}

/-- What fits is not changed. -/
theorem int64_of_isInt64 (h : IsInt64 n) : int64 n = n := by
  unfold IsInt64 at h
  unfold int64
  omega

theorem int64_mul_emod (m n : Int) : int64 m * n % 2 ^ 64 = m * n % 2 ^ 64 := by
  have hm : int64 m % 2 ^ 64 = m % 2 ^ 64 := by
    unfold int64
    omega
  rw [Int.mul_emod, hm, ← Int.mul_emod]

theorem uint32_of_lt (h : 0 ≤ n) (h' : n < 2 ^ 32) : (uint32 n : Int) = n := by
  unfold uint32
  omega

theorem uint32_of_neg (h : n < 0) (h' : -2 ^ 32 ≤ n) : (uint32 n : Int) = n + 2 ^ 32 := by
  unfold uint32
  omega

theorem uint32_lt (n : Int) : uint32 n < 2 ^ 32 := by
  unfold uint32
  omega

end CInt
