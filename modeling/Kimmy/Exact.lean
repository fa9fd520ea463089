import Kimmy.Decimal
import Mathlib.Order.Compare

/-!
What a BSON number denotes: one exact rational, or NaN or an infinity. The readings below
are the formats' own (two's complement, binary64, the BID word) and share no code with the
comparator; `cmp` is the order the comparator and the key encoder are held to.
-/
namespace Kimmy

inductive Exact where
  | nan
  | negInfinity
  | finite (value : ℚ)
  | posInfinity

namespace Exact

def rank : Exact → Nat
  | .nan => 0
  | .negInfinity => 1
  | .finite _ => 2
  | .posInfinity => 3

def cmp : Exact → Exact → Ordering
  | .finite x, .finite y => compare x y
  | x, y => compare x.rank y.rank

def signed (negative : Bool) (x : ℚ) : ℚ := if negative then -x else x

def double (bits : UInt64) : Exact :=
  let sign := decide (bits.toNat / 2 ^ 63 = 1)
  let exponent : Nat := bits.toNat / 2 ^ 52 % 2 ^ 11
  let fraction : Nat := bits.toNat % 2 ^ 52
  if exponent = 2047 then
    if fraction ≠ 0 then .nan else if sign then .negInfinity else .posInfinity
  else if exponent = 0 then .finite (signed sign (fraction * 2 ^ (-1074 : Int)))
  else .finite (signed sign ((2 ^ 52 + fraction) * 2 ^ (exponent - 1075 : Int)))

def decimal (word : Decimal128) : Exact :=
  let sign := decide (word.toNat / 2 ^ 127 = 1)
  let combination := word.toNat / 2 ^ 122 % 2 ^ 5
  let exponent : Nat := word.toNat / 2 ^ 113 % 2 ^ 14
  let coefficient : Nat := word.toNat % 2 ^ 113
  if combination = 31 then .nan
  else if combination = 30 then if sign then .negInfinity else .posInfinity
  -- a coefficient of 10^34 or more, in either form, is a zero
  else if combination / 2 ^ 3 = 3 ∨ 10 ^ 34 ≤ coefficient then .finite 0
  else .finite (signed sign (coefficient * 10 ^ (exponent - 6176 : Int)))

def ofBson : Bson → Option Exact
  | .int32 v => some (.finite v.toInt)
  | .int64 v => some (.finite v.toInt)
  | .double bits => some (double bits)
  | .decimal128 word => some (decimal word)
  | _ => none

/-! Scaling, negating and casting do not change how two values compare. -/

theorem compareMul {k x y : ℚ} (pos : 0 < k) : compare (x * k) (y * k) = compare x y := by
  rcases lt_trichotomy x y with h | rfl | h
  · rw [compare_lt_iff_lt.mpr h, compare_lt_iff_lt]
    exact mul_lt_mul_of_pos_right h pos
  · simp
  · rw [compare_gt_iff_gt.mpr h, compare_gt_iff_gt]
    exact mul_lt_mul_of_pos_right h pos

theorem compareNeg (x y : ℚ) : compare (-x) (-y) = (compare x y).swap := by
  rcases lt_trichotomy x y with h | rfl | h
  · rw [compare_lt_iff_lt.mpr h, Ordering.swap_lt, compare_gt_iff_gt]
    exact neg_lt_neg h
  · simp
  · rw [compare_gt_iff_gt.mpr h, Ordering.swap_gt, compare_lt_iff_lt]
    exact neg_lt_neg h

theorem compareSigned (negative : Bool) (x y : ℚ) :
    compare (signed negative x) (signed negative y) =
      if negative then (compare x y).swap else compare x y := by
  cases negative
  · rfl
  · exact compareNeg x y

theorem compareCast (a b : Nat) : compare (a : ℚ) (b : ℚ) = compare a b := by
  rcases lt_trichotomy a b with h | rfl | h
  · rw [compare_lt_iff_lt.mpr h, compare_lt_iff_lt]
    exact_mod_cast h
  · simp
  · rw [compare_gt_iff_gt.mpr h, compare_gt_iff_gt]
    exact_mod_cast h

end Exact
end Kimmy
