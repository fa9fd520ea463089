import Mathlib.Data.Nat.Log
import Mathlib.Data.Nat.Prime.Basic
import Mathlib.Data.Rat.Floor
import Mathlib.Algebra.Order.Field.Power
import Mathlib.Algebra.Order.Field.Rat
import Mathlib.Tactic.Ring
import Mathlib.Tactic.Linarith
import Mathlib.Tactic.NormNum
import Mathlib.Tactic.Zify

/-!
Fixed-point bounds for `log2 5`. Two neighbouring fractions bracket it,
`9297/4004 < log2 5 < 20087/8651` with `20087 · 4004 − 9297 · 8651 = 1`, so no fraction of
denominator below 12655 lies between them: a constant on the right side of the far
fraction already rounds every multiple up to that range onto the near one.
-/
namespace Kimmy.PowerOfFive

theorem neighbours : 2 ^ 9297 ≤ 5 ^ 4004 ∧ 5 ^ 8651 ≤ 2 ^ 20087 := by decide +kernel
theorem nearBelow : 2 ^ 9297 ≤ 5 ^ 4004 := And.left neighbours
theorem nearAbove : 5 ^ 8651 ≤ 2 ^ 20087 := And.right neighbours

/- `log2 5` with 64 fractional bits, rounded down, and the next one. -/
def log2FiveLo : Nat := 42832013323943160825
def log2FiveHi : Nat := log2FiveLo + 1

def floorLog2 (n : Nat) : Nat := n * log2FiveLo / 2 ^ 64
def ceilLog2 (n : Nat) : Nat := (n * log2FiveHi + 2 ^ 64 - 1) / 2 ^ 64

/- A fraction `k / n` strictly between the two neighbours would need a denominator of at
least `4004 + 8651`. -/
theorem floorNear {n : Nat} (small : n < 12655) : floorLog2 n * 4004 ≤ n * 9297 := by
  have below : floorLog2 n * 18446744073709551616 ≤ n * 42832013323943160825 :=
    Nat.div_mul_le_self _ _
  generalize floorLog2 n = k at below ⊢
  rcases Nat.eq_zero_or_pos n with rfl | pos
  · have zero : k = 0 := by simpa using below
    rw [zero]
  · have far : k * 8651 < n * 20087 := by linarith
    by_contra above
    omega

theorem ceilNear {n : Nat} (small : n < 12655) : n * 20087 ≤ ceilLog2 n * 8651 := by
  have above : n * 42832013323943160826 ≤ ceilLog2 n * 18446744073709551616 := by
    show _ ≤ (n * 42832013323943160826 + 18446744073709551616 - 1) / 18446744073709551616 * _
    omega
  generalize ceilLog2 n = k at above ⊢
  rcases Nat.eq_zero_or_pos n with rfl | pos
  · simp
  · have far : n * 9297 < k * 4004 := by linarith
    by_contra below
    omega

theorem floorLog2Le {n : Nat} (small : n < 12655) : 2 ^ floorLog2 n ≤ 5 ^ n := by
  refine le_of_pow_le_pow_left₀ (n := 4004) (by decide) (Nat.zero_le _) ?_
  calc (2 ^ floorLog2 n) ^ 4004 = 2 ^ (floorLog2 n * 4004) := by rw [pow_mul]
    _ ≤ 2 ^ (n * 9297) := Nat.pow_le_pow_right (by decide) (floorNear small)
    _ = (2 ^ 9297) ^ n := by rw [← pow_mul, mul_comm]
    _ ≤ (5 ^ 4004) ^ n := Nat.pow_le_pow_left nearBelow n
    _ = (5 ^ n) ^ 4004 := by rw [← pow_mul, ← pow_mul, mul_comm]

theorem ceilLog2Ge {n : Nat} (small : n < 12655) : 5 ^ n ≤ 2 ^ ceilLog2 n := by
  refine le_of_pow_le_pow_left₀ (n := 8651) (by decide) (Nat.zero_le _) ?_
  calc (5 ^ n) ^ 8651 = (5 ^ 8651) ^ n := by rw [← pow_mul, ← pow_mul, mul_comm]
    _ ≤ (2 ^ 20087) ^ n := Nat.pow_le_pow_left nearAbove n
    _ = 2 ^ (n * 20087) := by rw [← pow_mul, mul_comm]
    _ ≤ 2 ^ (ceilLog2 n * 8651) := Nat.pow_le_pow_right (by decide) (ceilNear small)
    _ = (2 ^ ceilLog2 n) ^ 8651 := by rw [pow_mul]

/- The rounded-down multiple is the floor itself: the next integer is already too large. -/
theorem nextNear {n : Nat} (small : n < 12655) : n * 20087 ≤ (floorLog2 n + 1) * 8651 := by
  have above : n * 42832013323943160825 < (floorLog2 n + 1) * 18446744073709551616 := by
    rw [mul_comm (floorLog2 n + 1)]
    exact Nat.lt_mul_div_succ _ (by decide)
  generalize floorLog2 n + 1 = k at above ⊢
  rcases Nat.eq_zero_or_pos n with rfl | pos
  · simp
  · have far : n * 9297 < k * 4004 := by linarith
    by_contra below
    omega

theorem ltNextLog2 {n : Nat} (small : n < 12655) : 5 ^ n < 2 ^ (floorLog2 n + 1) := by
  refine lt_of_le_of_ne ?_ ?_
  · refine le_of_pow_le_pow_left₀ (n := 8651) (by decide) (Nat.zero_le _) ?_
    calc (5 ^ n) ^ 8651 = (5 ^ 8651) ^ n := by rw [← pow_mul, ← pow_mul, mul_comm]
      _ ≤ (2 ^ 20087) ^ n := Nat.pow_le_pow_left nearAbove n
      _ = 2 ^ (n * 20087) := by rw [← pow_mul, mul_comm]
      _ ≤ 2 ^ ((floorLog2 n + 1) * 8651) := Nat.pow_le_pow_right (by decide) (nextNear small)
      _ = (2 ^ (floorLog2 n + 1)) ^ 8651 := by rw [pow_mul]
  · intro same
    have odd : ¬ 2 ∣ 5 ^ n := fun even => by
      have := Nat.prime_two.dvd_of_dvd_pow even
      omega
    exact odd (same ▸ Dvd.intro_left (2 ^ floorLog2 n) (pow_succ _ _).symm)

end Kimmy.PowerOfFive
