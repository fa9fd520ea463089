import Kimmy.HalfEven
import Mathlib.Tactic.Positivity

/-!
The magnitudes of a binary floating-point format in units of its least one: the field `n` is a
biased exponent over `p` bits of fraction, and the units double with every step of the
exponent. Rounding at the unit of a value is rounding to the nearest point.
-/
namespace Kimmy.FloatGrid

def unit (p n : Nat) : Nat := 2 ^ (n / 2 ^ p - 1)

def point (p n : Nat) : Nat := if n / 2 ^ p = 0 then n else (2 ^ p + n % 2 ^ p) * unit p n

theorem unitPos (p n : Nat) : 0 < unit p n := by
  unfold unit
  positivity

/- The field of a coefficient of `p + 1` bits at a unit; the carry into one more bit is the next unit. -/
theorem pointField {p k kept : Nat} (least : k = 0 ∨ 2 ^ p ≤ kept) (most : kept ≤ 2 ^ (p + 1)) :
    point p (k * 2 ^ p + kept) = kept * 2 ^ k := by
  have power : 0 < 2 ^ p := by positivity
  rw [pow_succ] at most
  unfold point unit
  rw [Nat.add_comm, Nat.add_mul_div_right _ _ power, Nat.add_mul_mod_self_right]
  rcases Nat.lt_or_ge kept (2 ^ p) with short | long
  · obtain rfl : k = 0 := by omega
    rw [Nat.div_eq_of_lt short, if_pos rfl]
    simp
  · rcases Nat.lt_or_ge kept (2 ^ p * 2) with below | top
    · have one : kept / 2 ^ p = 1 := Nat.div_eq_of_lt_le (by omega) (by omega)
      have rest : kept % 2 ^ p = kept - 2 ^ p := by
        rw [Nat.mod_eq_sub_mod long, Nat.mod_eq_of_lt (by omega)]
      rw [one, rest, if_neg (by omega), Nat.add_sub_cancel' long]
      congr 2
      omega
    · obtain rfl : kept = 2 ^ p * 2 := by omega
      rw [Nat.mul_div_cancel_left _ power, Nat.mul_mod_right, if_neg (by omega), Nat.add_zero, Nat.mul_assoc, ← pow_succ']
      congr 2
      omega

theorem pointNext (p n : Nat) : point p (n + 1) = point p n + unit p n := by
  have power : 0 < 2 ^ p := by positivity
  have split := Nat.div_add_mod' n (2 ^ p)
  have small := Nat.mod_lt n power
  have whole : 2 ^ (p + 1) = 2 ^ p * 2 := pow_succ 2 p
  have field {k kept : Nat} (is : n = k * 2 ^ p + kept) (least : k = 0 ∨ 2 ^ p ≤ kept) (most : kept < 2 ^ (p + 1)) :
      point p (n + 1) = point p n + 2 ^ k := by
    rw [is, Nat.add_assoc, pointField (by omega) (by omega), pointField least most.le, Nat.add_mul, Nat.one_mul]
  unfold unit
  cases exponent : n / 2 ^ p with
  | zero =>
    rw [exponent] at split
    exact @field 0 n (by omega) (Or.inl rfl) (by omega)
  | succ k =>
    rw [exponent, Nat.add_mul, Nat.one_mul] at split
    exact @field k (2 ^ p + n % 2 ^ p) (by omega) (Or.inr (by omega)) (by omega)

theorem pointStrict (p : Nat) : StrictMono (point p) := strictMono_nat_of_lt_succ fun n => by
  rw [pointNext]
  exact Nat.lt_add_of_pos_right (unitPos p n)

/- A point is below `2 ^ (p + 1)` of its units, and the unit before it is at least half as large. -/
theorem pointUnits (p n : Nat) : point p n < 2 ^ (p + 1) * unit p n := by
  have power : 0 < 2 ^ p := by positivity
  have small := Nat.mod_lt n power
  have positive := unitPos p n
  rw [pow_succ]
  unfold point
  split_ifs with zero
  · have below : n < 2 ^ p := by
      rw [Nat.div_eq_zero_iff] at zero
      omega
    calc n < 2 ^ p * 2 := by omega
      _ ≤ 2 ^ p * 2 * unit p n := Nat.le_mul_of_pos_right _ positive
  · exact Nat.mul_lt_mul_of_pos_right (by omega) positive

theorem unitBefore (p n : Nat) : unit p (n + 1) ≤ 2 * unit p n := by
  unfold unit
  rw [← pow_succ']
  refine Nat.pow_le_pow_right (by decide) ?_
  have : (n + 1) / 2 ^ p ≤ n / 2 ^ p + 1 := by
    rw [← Nat.add_div_right _ (by positivity : 0 < 2 ^ p)]
    exact Nat.div_le_div_right (by have : 0 < 2 ^ p := by positivity
                                   omega)
  omega

/- Other points are at least half a unit away. -/
theorem pointApart {p m n : Nat} (other : m ≠ n) : (unit p n : ℚ) ≤ 2 * |(point p m : ℚ) - point p n| := by
  rcases Nat.lt_or_gt_of_ne other with less | more
  · obtain ⟨j,rfl⟩ : ∃ j, n = j + 1 := ⟨n - 1,by omega⟩
    have order : point p m ≤ point p j := (pointStrict p).monotone (by omega)
    have next := pointNext p j
    have half := unitBefore p j
    have gap : point p m + unit p j ≤ point p (j + 1) := by omega
    have gap' : (point p m : ℚ) + unit p j ≤ point p (j + 1) := by exact_mod_cast gap
    have half' : (unit p (j + 1) : ℚ) ≤ 2 * unit p j := by exact_mod_cast half
    have positive : (0 : ℚ) ≤ unit p j := Nat.cast_nonneg _
    rw [abs_of_nonpos (by linarith)]
    linarith
  · have order : point p (n + 1) ≤ point p m := (pointStrict p).monotone (by omega)
    rw [pointNext] at order
    have order' : (point p n : ℚ) + unit p n ≤ point p m := by exact_mod_cast order
    have positive : (0 : ℚ) ≤ unit p n := Nat.cast_nonneg _
    rw [abs_of_nonneg (by linarith)]
    linarith

/-! Rounding at a unit. -/

theorem nearestBest {y : ℚ} {n : Nat} (near : HalfEven.Nearest y n) (j : Nat) :
    |y - n| ≤ |y - j| ∧ (|y - n| = |y - j| → j ≠ n → n % 2 = 0) := by
  obtain ⟨half,even⟩ := near
  rcases eq_or_ne j n with rfl | other
  · exact ⟨le_rfl,fun _ differ => absurd rfl differ⟩
  · have apart : (1 : ℚ) ≤ |(j : ℚ) - n| := by
      rcases Nat.lt_or_gt_of_ne other with less | more
      · have : (j : ℚ) + 1 ≤ n := by exact_mod_cast less
        rw [abs_of_nonpos (by linarith)]
        linarith
      · have : (n : ℚ) + 1 ≤ j := by exact_mod_cast more
        rw [abs_of_nonneg (by linarith)]
        linarith
    have triangle : |(j : ℚ) - n| ≤ |y - j| + |y - n| := by
      rw [abs_sub_comm y j]
      exact abs_sub_le _ _ _
    exact ⟨by linarith,fun same _ => even (by linarith)⟩

/- Rounded at a unit no finer than its own binade asks for, a value has its nearest point. -/
theorem roundNearest {p k kept : Nat} {y : ℚ} (near : HalfEven.Nearest (y / 2 ^ k) kept)
    (large : k = 0 ∨ (2 : ℚ) ^ (p + k) ≤ y) (least : k = 0 ∨ 2 ^ p ≤ kept) (most : kept ≤ 2 ^ (p + 1)) (m : Nat) :
    |y - point p (k * 2 ^ p + kept)| ≤ |y - point p m| ∧
      (|y - point p (k * 2 ^ p + kept)| = |y - point p m| → point p m ≠ point p (k * 2 ^ p + kept) → kept % 2 = 0) := by
  have scale : (0 : ℚ) < 2 ^ k := by positivity
  have distance (j : Nat) : |y - ((j * 2 ^ k : Nat) : ℚ)| = |y / 2 ^ k - j| * 2 ^ k := by
    rw [← abs_of_pos scale, ← abs_mul, abs_of_pos scale]
    congr 1
    push_cast
    field_simp
  rw [pointField least most]
  -- points of the binade and above are whole numbers of the unit
  have whole : (∃ j, point p m = j * 2 ^ k) ∨ 0 < k ∧ point p m < 2 ^ p * 2 ^ k := by
    rcases Nat.eq_zero_or_pos k with rfl | some
    · exact Or.inl ⟨point p m,by simp⟩
    · rcases Nat.lt_or_ge m (k * 2 ^ p + 2 ^ p) with below | above
      · refine Or.inr ⟨some,?_⟩
        rw [← @pointField p k (2 ^ p) (Or.inr le_rfl) (Nat.pow_le_pow_right (by decide) (by omega))]
        exact pointStrict p below
      · have power : 0 < 2 ^ p := by positivity
        have exponent : k + 1 ≤ m / 2 ^ p := by
          rw [Nat.le_div_iff_mul_le power, Nat.add_mul, Nat.one_mul]
          exact above
        refine Or.inl ⟨(2 ^ p + m % 2 ^ p) * 2 ^ (m / 2 ^ p - 1 - k),?_⟩
        rw [point, if_neg (by omega), unit, Nat.mul_assoc, ← pow_add]
        congr 2
        omega
  rcases whole with ⟨j,is⟩ | ⟨some,below⟩
  · obtain ⟨best,tie⟩ := nearestBest near j
    rw [is, distance, distance]
    refine ⟨mul_le_mul_of_nonneg_right best scale.le,fun same differ => tie (mul_right_cancel₀ scale.ne' same) fun equal => ?_⟩
    rw [equal] at differ
    exact differ rfl
  · -- a point below the binade is further off than the binade's own first point
    obtain ⟨best,_⟩ := nearestBest near (2 ^ p)
    have first := mul_le_mul_of_nonneg_right best scale.le
    rw [← distance, ← distance] at first
    have bottom : ((2 ^ p * 2 ^ k : Nat) : ℚ) ≤ y := by
      rw [← pow_add]
      exact_mod_cast large.resolve_left some.ne'
    have less : (point p m : ℚ) < ((2 ^ p * 2 ^ k : Nat) : ℚ) := by exact_mod_cast below
    have strict : |y - ((2 ^ p * 2 ^ k : Nat) : ℚ)| < |y - point p m| := by
      rw [abs_of_nonneg (by linarith), abs_of_nonneg (by linarith)]
      linarith
    exact ⟨(lt_of_le_of_lt first strict).le,fun same => absurd same (lt_of_le_of_lt first strict).ne⟩

end Kimmy.FloatGrid
