import Mathlib.Algebra.Order.Field.Rat
import Mathlib.Algebra.Order.Floor.Ring
import Mathlib.Order.Compare
import Mathlib.Tactic.Linarith
import Mathlib.Tactic.FieldSimp
import Mathlib.Tactic.Ring

/-!
Rounding to the nearest integer, a tie to the even one, decided from the part that is cut
off and a bit that tells whether anything lies below it.
-/
namespace Kimmy.HalfEven

def Nearest (y : ℚ) (n : Nat) : Prop := |y - n| ≤ 1 / 2 ∧ (|y - n| = 1 / 2 → n % 2 = 0)

/- Whether the kept part is raised, from the cut part's order against half a unit. -/
def up (order : Ordering) (sticky : Bool) (kept : Nat) : Bool :=
  match order with
  | .gt => true
  | .eq => sticky || kept % 2 == 1
  | .lt => false

/- One value has one nearest integer. -/
theorem nearestUnique {y : ℚ} {m n : Nat} (first : Nearest y m) (second : Nearest y n) : m = n := by
  wlog order : m < n generalizing m n
  · rcases Nat.lt_trichotomy m n with less | same | more
    · exact absurd less order
    · exact same
    · exact (this second first more).symm
  obtain ⟨nearM,tieM⟩ := first
  obtain ⟨nearN,tieN⟩ := second
  have step : (m : ℚ) + 1 ≤ n := by exact_mod_cast order
  rw [abs_le] at nearM nearN
  have half : y = m + 1 / 2 := by linarith
  have next : (n : ℚ) = m + 1 := by linarith
  have evenM := tieM (by rw [half]; norm_num)
  have evenN := tieN (by rw [half, next]; norm_num)
  have same : n = m + 1 := by exact_mod_cast next
  omega

/- Cutting `c` at a unit of `2 * half`, where what is rounded lies in `[c, c + 1)`. -/
theorem cutNearest {c half : Nat} (pos : 0 < half) {y : ℚ} (low : (c : ℚ) ≤ y) (high : y < c + 1) {sticky : Bool}
    (exact' : sticky = false ↔ y = c) :
    Nearest (y / (2 * half : Nat))
      (c / (2 * half) + (up (compare (c % (2 * half)) half) sticky (c / (2 * half))).toNat) := by
  have split := Nat.div_add_mod c (2 * half)
  have below := Nat.mod_lt c (show 0 < 2 * half by omega)
  generalize c / (2 * half) = q at *
  generalize c % (2 * half) = t at *
  subst split
  have unit : (0 : ℚ) < (2 * half : Nat) := by exact_mod_cast (show 0 < 2 * half by omega)
  have positive : (0 : ℚ) < half := by exact_mod_cast pos
  -- what is above the kept part, in units
  obtain ⟨r,is⟩ : ∃ r, r = y / (2 * half : Nat) - q := ⟨_,rfl⟩
  have scaled : r * (2 * half : Nat) = y - ((2 * half * q : Nat) : ℚ) := by
    rw [is, sub_mul, div_mul_cancel₀ _ unit.ne']
    push_cast
    ring
  push_cast at scaled low high exact' unit
  have least : 0 ≤ r := by nlinarith
  rcases lt_trichotomy t half with less | same | more
  · have whole : (t : ℚ) + 1 ≤ half := by exact_mod_cast less
    have small : r < 1 / 2 := by nlinarith
    rw [compare_lt_iff_lt.mpr less]
    have distance : y / (2 * half : Nat) - (q : Nat) = r := is.symm
    simp only [up, Bool.toNat_false, Nat.add_zero]
    rw [Nearest, distance, abs_of_nonneg least]
    exact ⟨small.le,fun tie => absurd tie small.ne⟩
  · subst same
    rw [compare_eq_iff_eq.mpr rfl]
    cases sticky with
    | true =>
      have beyond : y ≠ 2 * t * q + t := fun is => by simp at exact'; exact exact' is
      have large : 1 / 2 < r := by
        have : 2 * t * q + t < y := lt_of_le_of_ne low beyond.symm
        nlinarith
      have less : r < 1 := by
        have : (1 : ℚ) ≤ t := by exact_mod_cast pos
        nlinarith
      have distance : y / (2 * t : Nat) - (q + 1 : Nat) = r - 1 := by
        rw [is]
        push_cast
        ring
      simp only [up, Bool.true_or, Bool.toNat_true]
      rw [Nearest, distance, abs_of_nonpos (by linarith)]
      exact ⟨by linarith,fun tie => by linarith⟩
    | false =>
      have tie : r = 1 / 2 := by
        have := exact'.mp rfl
        nlinarith
      by_cases odd : q % 2 = 1
      · have distance : y / (2 * t : Nat) - (q + 1 : Nat) = r - 1 := by
          rw [is]
          push_cast
          ring
        simp only [up, odd, BEq.rfl, Bool.or_true, Bool.toNat_true]
        rw [Nearest, distance, tie]
        exact ⟨by norm_num [abs_le],fun _ => by omega⟩
      · have distance : y / (2 * t : Nat) - (q : Nat) = r := is.symm
        have even : (q % 2 == 1) = false := by simpa using odd
        simp only [up, even, Bool.or_false, Bool.toNat_false, Nat.add_zero]
        rw [Nearest, distance, tie]
        exact ⟨by norm_num [abs_le],fun _ => by omega⟩
  · have large : 1 / 2 < r := by
      have : (half : ℚ) + 1 ≤ t := by exact_mod_cast more
      nlinarith
    have less : r < 1 := by
      have : (t : ℚ) + 1 ≤ 2 * half := by exact_mod_cast below
      nlinarith
    have distance : y / (2 * half : Nat) - (q + 1 : Nat) = r - 1 := by
      rw [is]
      push_cast
      ring
    rw [compare_gt_iff_gt.mpr more]
    simp only [up, Bool.toNat_true]
    rw [Nearest, distance, abs_of_nonpos (by linarith)]
    exact ⟨by linarith,fun tie => by linarith⟩

end Kimmy.HalfEven
