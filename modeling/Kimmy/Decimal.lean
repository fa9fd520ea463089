import Kimmy.Bson
import Mathlib.Data.Rat.Defs
import Mathlib.Algebra.Order.Field.Rat
import Mathlib.Algebra.Order.Field.Basic
import Mathlib.Tactic.NormNum

/-!
The one `Decimal128` decoder (`decimal.rs`): BID words read into a sign, a coefficient and
an exponent. `decodeBits` collapses every zero to one class, for comparing and keying;
`decodeRawBits` keeps a zero's sign and exponent, for arithmetic.
-/
namespace Kimmy

inductive Decimal where
  | nan
  | negInfinity
  | posInfinity
  | zero
  | finite (negative : Bool) (coefficient : Nat) (exponent : Int)
  deriving DecidableEq, Repr

namespace Decimal

def maxCoefficient : Nat := 9999999999999999999999999999999999
def minExponent : Int := -6176
def maxExponent : Int := 6111
def exponentBias : Int := 6176

def decodeBits (bits : Nat) : Decimal :=
  let negative := bits >>> 127 == 1
  if (bits >>> 125) &&& 0b11 = 0b11 then
    let form := (bits >>> 122) &&& 0b11111
    if form = 0b11110 then (if negative then .negInfinity else .posInfinity)
    else if form = 0b11111 then .nan
    else .zero
  else
    let biased := (bits >>> 113) &&& 0x3FFF
    let coefficient := bits &&& (2 ^ 113 - 1)
    if coefficient = 0 ∨ maxCoefficient < coefficient then .zero
    else .finite negative coefficient (biased - exponentBias)

def decode (d : Decimal128) : Decimal := decodeBits d.toNat

inductive Raw where
  | nan
  | inf (negative : Bool)
  | finite (negative : Bool) (coefficient : Nat) (exponent : Int)
  deriving DecidableEq, Repr

def clampExponent (biased : Int) : Int :=
  max minExponent (min (biased - exponentBias) maxExponent)

def decodeRawBits (bits : Nat) : Raw :=
  let negative := bits >>> 127 == 1
  if (bits >>> 125) &&& 0b11 = 0b11 then
    let form := (bits >>> 122) &&& 0b11111
    if form = 0b11110 then .inf negative
    else if form = 0b11111 then .nan
    else .finite negative 0 (clampExponent (((bits >>> 111) &&& 0x3FFF : Nat) : Int))
  else
    let biased := (bits >>> 113) &&& 0x3FFF
    let coefficient := bits &&& (2 ^ 113 - 1)
    if coefficient = 0 ∨ maxCoefficient < coefficient then .finite negative 0 (clampExponent biased)
    else .finite negative coefficient (biased - exponentBias)

def decodeRaw (d : Decimal128) : Raw := decodeRawBits d.toNat

/- A finite pair the format can hold, a zero left out. -/
def Canonical (coefficient : Nat) (exponent : Int) : Prop :=
  0 < coefficient ∧ coefficient ≤ maxCoefficient ∧ minExponent ≤ exponent ∧ exponent ≤ maxExponent

/- The exponent field is 14 bits with its top two not both set, so it stops at `2FFF`. -/
theorem biasedBound {bits : Nat} (top : (bits >>> 125) &&& 0b11 ≠ 0b11) :
    (bits >>> 113) &&& 0x3FFF < 0x3000 := by
  have low : (bits >>> 113) &&& 0x3FFF = (bits >>> 113) % 2 ^ 14 := Nat.and_two_pow_sub_one_eq_mod _ 14
  have high : (bits >>> 125) &&& 0b11 = (bits >>> 125) % 2 ^ 2 := Nat.and_two_pow_sub_one_eq_mod _ 2
  rw [high] at top
  rw [low]
  simp only [Nat.shiftRight_eq_div_pow] at *
  have split : bits / 2 ^ 125 = bits / 2 ^ 113 / 2 ^ 12 := by rw [Nat.div_div_eq_div_mul, ← pow_add]
  omega

theorem decodeCanonical {bits negative coefficient exponent}
    (h : decodeBits bits = .finite negative coefficient exponent) : Canonical coefficient exponent := by
  simp only [decodeBits] at h
  split at h
  · split at h
    · split at h <;> exact absurd h (by simp)
    · split at h <;> exact absurd h (by simp)
  · rename_i top
    split at h
    · exact absurd h (by simp)
    · rename_i range
      have bound := biasedBound top
      simp only [Decimal.finite.injEq] at h
      obtain ⟨_,rfl,rfl⟩ := h
      unfold Canonical minExponent maxExponent exponentBias
      omega

/- The exact value of a finite pair. -/
def magnitude (coefficient : Nat) (exponent : Int) : ℚ := coefficient * (10 : ℚ) ^ exponent

theorem coefficientBound : maxCoefficient < 10 ^ 34 ∧ (10 : Nat) ^ 34 < 2 ^ 113 := by decide

theorem magnitudePos {c e} (h : Canonical c e) : 0 < magnitude c e :=
  mul_pos (by exact_mod_cast h.1) (zpow_pos (by norm_num) e)

end Decimal
end Kimmy
