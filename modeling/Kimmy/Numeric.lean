import Kimmy.Exact
import Kimmy.BigInt
import Kimmy.PowerOfFive
import Mathlib.Tactic.FieldSimp

/-!
Numbers as the comparator reads them (`cmp.rs`): binary types decomposed to a normalised
64-bit mantissa, decimals decoded, and the pair compared by class, by digit count, by a
`log2` interval or by exact big integers. Every route is the order of the exact values.
-/
namespace Kimmy

inductive Numeric where
  | nan
  | negInfinity
  | finite (negative : Bool) (exp : Int) (mantissa : Nat)
  | zero
  | posInfinity
  deriving DecidableEq, Repr

namespace Numeric
open BigInt Exact

def classRank : Numeric → Nat
  | .nan => 0
  | .negInfinity => 1
  | .finite true _ _ => 2
  | .zero => 3
  | .finite false _ _ => 4
  | .posInfinity => 5

def fromI64 (v : Int) : Numeric :=
  if v = 0 then .zero
  else
    let magnitude := v.natAbs
    let shift := leadingZeros 64 magnitude
    .finite (decide (v < 0)) (63 - shift) (magnitude <<< shift % 2 ^ 64)

/- `f64` tests read on the bits: `is_nan`, `== INFINITY`, `== NEG_INFINITY`, `== 0.0`. -/
def fromF64 (v : UInt64) : Numeric :=
  let bits := v.toNat
  let exponentField := bits >>> 52 &&& 0x7FF
  let fraction := bits &&& (2 ^ 52 - 1)
  if exponentField = 0x7FF ∧ fraction ≠ 0 then .nan
  else if bits = 0x7FF0000000000000 then .posInfinity
  else if bits = 0xFFF0000000000000 then .negInfinity
  else if bits = 0 ∨ bits = 0x8000000000000000 then .zero
  else
    let negative := bits >>> 63 == 1
    let (significand,power) : Nat × Int :=
      if exponentField = 0 then (fraction,-1074) else (2 ^ 52 ||| fraction,exponentField - 1075)
    let shift := leadingZeros 64 significand
    .finite negative (power - shift + 63) (significand <<< shift % 2 ^ 64)

def decompose : Bson → Option Numeric
  | .int32 v => some (fromI64 v.toInt)
  | .int64 v => some (fromI64 v.toInt)
  | .double v => some (fromF64 v)
  | _ => none

def cmpNumeric (a b : Numeric) : Ordering :=
  if a.classRank ≠ b.classRank then compare a.classRank b.classRank
  else match a, b with
    | .finite negative ea ma, .finite _ eb mb =>
        let magnitude := (compare ea eb).then (compare ma mb)
        if negative then magnitude.swap else magnitude
    | _, _ => .eq

/-! The value of the normalised form. -/

def binaryValue (exp : Int) (mantissa : Nat) : ℚ := mantissa * 2 ^ (exp - 63)

def Normal (exp : Int) (mantissa : Nat) : Prop :=
  2 ^ 63 ≤ mantissa ∧ mantissa < 2 ^ 64 ∧ -1074 ≤ exp ∧ exp ≤ 1023

def value : Numeric → Exact
  | .nan => .nan
  | .negInfinity => .negInfinity
  | .finite negative exp mantissa => .finite (signed negative (binaryValue exp mantissa))
  | .zero => .finite 0
  | .posInfinity => .posInfinity

def Proper : Numeric → Prop
  | .finite _ exp mantissa => Normal exp mantissa
  | _ => True

/- Shifting a significand up to bit 63 leaves its value when the exponent follows. -/
theorem normalise {n : Nat} (pos : 0 < n) (small : n < 2 ^ 64) (power : Int) :
    2 ^ 63 ≤ n <<< leadingZeros 64 n % 2 ^ 64 ∧ n <<< leadingZeros 64 n % 2 ^ 64 < 2 ^ 64 ∧
      binaryValue (power - leadingZeros 64 n + 63) (n <<< leadingZeros 64 n % 2 ^ 64) = n * 2 ^ power := by
  obtain ⟨present,least,most⟩ := bitLengthSpec pos
  have width : bitLength n ≤ 64 := bitLengthLe.mpr small
  have top : 2 ^ 63 = 2 ^ (bitLength n - 1) * 2 ^ leadingZeros 64 n := by
    rw [← pow_add, leadingZeros]; congr 1; omega
  have next : 2 ^ 64 = 2 ^ bitLength n * 2 ^ leadingZeros 64 n := by
    rw [← pow_add, leadingZeros]; congr 1; omega
  have low : 2 ^ 63 ≤ n * 2 ^ leadingZeros 64 n := by
    rw [top]; exact Nat.mul_le_mul_right _ least
  have high : n * 2 ^ leadingZeros 64 n < 2 ^ 64 := by
    rw [next]; exact Nat.mul_lt_mul_of_pos_right most (by positivity)
  rw [Nat.shiftLeft_eq, Nat.mod_eq_of_lt high]
  refine ⟨low,high,?_⟩
  rw [binaryValue, show power - leadingZeros 64 n + 63 - 63 = power - leadingZeros 64 n by ring,
    zpow_sub₀ (by norm_num), zpow_natCast]
  push_cast
  field_simp

theorem fromI64Spec {v : Int} (low : -2 ^ 63 ≤ v) (high : v < 2 ^ 63) :
    (fromI64 v).Proper ∧ (fromI64 v).value = .finite v := by
  unfold fromI64
  split
  · simp [*, Proper, value]
  have pos : 0 < v.natAbs := by omega
  have small : v.natAbs < 2 ^ 64 := by omega
  obtain ⟨least,most,total⟩ := normalise pos small 0
  rw [zpow_zero, mul_one, zero_sub, neg_add_eq_sub] at total
  have present := (bitLengthSpec pos).1
  refine ⟨⟨least,most,?_,?_⟩,?_⟩
  · unfold leadingZeros; omega
  · unfold leadingZeros; omega
  · simp only [value, total]
    have sign : signed (decide (v < 0)) v.natAbs = v := by
      unfold signed
      by_cases negative : v < 0
      · rw [decide_eq_true negative, if_pos rfl, Nat.cast_natAbs, abs_of_neg negative]
        push_cast
        ring
      · rw [decide_eq_false negative, if_neg (by simp), Nat.cast_natAbs, abs_of_nonneg (by omega)]
    rw [sign]

/- A double with a finite nonzero value, its significand and power named. -/
theorem doubleFields (v : UInt64) :
    let exponent := v.toNat >>> 52 &&& 0x7FF
    let fraction := v.toNat &&& (2 ^ 52 - 1)
    exponent = v.toNat / 2 ^ 52 % 2 ^ 11 ∧ fraction = v.toNat % 2 ^ 52 ∧
      (2 ^ 52 ||| fraction) = 2 ^ 52 + fraction ∧ v.toNat >>> 63 = v.toNat / 2 ^ 63 := by
  have low : v.toNat &&& (2 ^ 52 - 1) = v.toNat % 2 ^ 52 := Nat.and_two_pow_sub_one_eq_mod _ 52
  refine ⟨?_,low,?_,Nat.shiftRight_eq_div_pow _ _⟩
  · rw [Nat.shiftRight_eq_div_pow]
    exact Nat.and_two_pow_sub_one_eq_mod _ 11
  · have below : v.toNat &&& (2 ^ 52 - 1) < 2 ^ 52 := by
      rw [low]
      exact Nat.mod_lt _ (by decide)
    exact (Nat.two_pow_add_eq_or_of_lt below 1).symm

theorem fromF64Spec (v : UInt64) : (fromF64 v).Proper ∧ (fromF64 v).value = Exact.double v := by
  obtain ⟨field,low,implicit,top⟩ := doubleFields v
  have range := v.toNat_lt
  simp only [fromF64, Exact.double, field, low, top] at *
  generalize v.toNat = bits at *
  have parts : bits = bits / 2 ^ 63 * 2 ^ 63 + bits / 2 ^ 52 % 2 ^ 11 * 2 ^ 52 + bits % 2 ^ 52 := by omega
  have sign : bits / 2 ^ 63 < 2 := by omega
  have small : bits % 2 ^ 52 < 2 ^ 52 := Nat.mod_lt _ (by decide)
  have wide : bits / 2 ^ 52 % 2 ^ 11 < 2 ^ 11 := Nat.mod_lt _ (by decide)
  generalize bits / 2 ^ 63 = s at *
  generalize bits / 2 ^ 52 % 2 ^ 11 = exponent at *
  generalize bits % 2 ^ 52 = fraction at *
  split
  · simp [*, Proper, value]
  split
  · have : exponent = 2047 ∧ fraction = 0 ∧ s = 0 := by omega
    simp [this, Proper, value]
  split
  · have : exponent = 2047 ∧ fraction = 0 ∧ s = 1 := by omega
    simp [this, Proper, value]
  split
  · have : exponent = 0 ∧ fraction = 0 := by omega
    simp [this, Proper, value, signed]
  have finite : exponent ≠ 2047 := by omega
  have signs : (s == 1) = decide (s = 1) := by simp [beq_eq_decide]
  rw [if_neg finite, signs]
  split
  · have pos : 0 < fraction := by omega
    dsimp only
    obtain ⟨least,most,total⟩ := normalise pos (by omega) (-1074)
    have bounds := bitLengthSpec pos
    have width : bitLength fraction ≤ 52 := bitLengthLe.mpr small
    refine ⟨⟨least,most,?_,?_⟩,by simp only [value, total]⟩
    · unfold leadingZeros; omega
    · unfold leadingZeros; omega
  · have pos : 0 < 2 ^ 52 + fraction := by omega
    dsimp only
    rw [implicit]
    obtain ⟨least,most,total⟩ := normalise pos (by omega) (exponent - 1075)
    have width : bitLength (2 ^ 52 + fraction) = 53 := bitLengthEq (by omega) (by omega)
    refine ⟨⟨least,most,?_,?_⟩,?_⟩
    · unfold leadingZeros; omega
    · unfold leadingZeros; omega
    · simp only [value, total]
      push_cast
      rfl

end Numeric
end Kimmy
