import Kimmy.DocId
import Mathlib.Data.Nat.Log

/-!
Writing a `Decimal128` (`decimal.rs`): counting digits, and packing a sign, a coefficient and
an exponent into the BID word that arithmetic and parsing return.
-/
namespace Kimmy.Decimal

/- `checked_ilog10`, one more; a zero has no digits. -/
def digits (coefficient : Nat) : Nat := if coefficient = 0 then 0 else Nat.log 10 coefficient + 1

theorem digitsLe {c n : Nat} : digits c ≤ n ↔ c < 10 ^ n := by
  unfold digits
  split_ifs with zero
  · simp [zero]
  · rw [← Nat.log_lt_iff_lt_pow (by decide) zero]
    exact Iff.rfl

theorem ltDigits {c n : Nat} : n < digits c ↔ 10 ^ n ≤ c := by
  rw [← not_le, digitsLe, not_lt]

theorem digitsBound (c : Nat) : c < 10 ^ digits c := digitsLe.mp le_rfl

theorem digitsPos {c : Nat} (pos : 0 < c) : 0 < digits c := ltDigits.mpr (by rw [pow_zero]; exact pos)

theorem digitsScaled {c : Nat} (pos : 0 < c) (n : Nat) : digits (c * 10 ^ n) = digits c + n := by
  have least : 10 ^ (digits c - 1) ≤ c := by
    have := digitsPos pos
    exact ltDigits.mp (by omega)
  apply le_antisymm
  · rw [digitsLe, pow_add]
    exact Nat.mul_lt_mul_of_pos_right (digitsBound c) (by positivity)
  · have inside : digits c - 1 + n < digits (c * 10 ^ n) := by
      rw [ltDigits, pow_add]
      exact Nat.mul_le_mul_right _ least
    have := digitsPos pos
    omega

/- A finite pair the format can hold, a zero included. -/
def Fits (coefficient : Nat) (exponent : Int) : Prop :=
  coefficient ≤ maxCoefficient ∧ minExponent ≤ exponent ∧ exponent ≤ maxExponent

instance (coefficient : Nat) (exponent : Int) : Decidable (Fits coefficient exponent) :=
  inferInstanceAs (Decidable (_ ∧ _ ∧ _))

def nanBits : Nat := 0b11111 <<< 122
def infinityBits : Nat := 0b11110 <<< 122

/- `none` is the assertion that a finite value is canonical. -/
def packRaw : Raw → Option Decimal128
  | .nan => some (BitVec.ofNat 128 nanBits)
  | .inf negative => some (BitVec.ofNat 128 ((negative.toNat <<< 127) ||| infinityBits))
  | .finite negative coefficient exponent =>
      if coefficient ≤ maxCoefficient ∧ minExponent ≤ exponent ∧ exponent ≤ maxExponent then
        some (pack negative coefficient exponent)
      else none

/- What is packed reads back as it is, a zero with its sign and exponent. -/
theorem decodeRawPack (negative : Bool) {c : Nat} {e : Int} (fits : Fits c e) :
    decodeRaw (pack negative c e) = .finite negative c e := by
  obtain ⟨most,low,high⟩ := fits
  obtain ⟨top,field,coefficient,sign⟩ := packFields negative most low high
  rw [decodeRaw, decodeRawBits]
  simp only
  rw [if_neg top, coefficient, sign, field]
  split_ifs with zero
  · have none : c = 0 := by omega
    rw [none, clampExponent]
    congr 1
    omega
  · rw [add_sub_cancel_right]

/- The pair a finite word holds, and the word's value. -/
theorem finiteHolds {word : Decimal128} {x : ℚ} (finite : Exact.decimal word = .finite x) :
    ∃ negative c e, Fits c e ∧ x = Exact.signed negative (magnitude c e) := by
  rw [← Number.decodeValue] at finite
  cases read : decode word with
  | zero =>
    rw [read] at finite
    cases finite
    exact ⟨false,0,0,by decide,by simp [Exact.signed, magnitude]⟩
  | finite negative c e =>
    rw [read] at finite
    cases finite
    obtain ⟨_,fits⟩ := decodeCanonical read
    exact ⟨negative,c,e,fits,rfl⟩
  | nan | negInfinity | posInfinity =>
    rw [read] at finite
    cases finite

theorem packValue (negative : Bool) {c : Nat} {e : Int} (fits : Fits c e) :
    Exact.decimal (pack negative c e) = .finite (Exact.signed negative (magnitude c e)) := by
  rcases Nat.eq_zero_or_pos c with rfl | pos
  · obtain ⟨most,low,high⟩ := fits
    obtain ⟨top,field,coefficient,sign⟩ := packFields negative most low high
    rw [← Number.decodeValue, decode, decodeBits]
    simp only
    rw [if_neg top, coefficient, if_pos (Or.inl rfl)]
    simp [Number.decimalValue, Exact.signed, magnitude]
  · rw [← Number.decodeValue, decodePack ⟨pos,fits⟩]
    rfl

theorem magnitudeNonneg (c : Nat) (e : Int) : 0 ≤ magnitude c e :=
  mul_nonneg (Nat.cast_nonneg c) (zpow_nonneg (by norm_num) e)

/- Two signed magnitudes are equal only if the magnitudes are. -/
theorem signedMagnitude {s t : Bool} {c d : Nat} {e f : Int}
    (same : Exact.signed s (magnitude c e) = Exact.signed t (magnitude d f)) : magnitude c e = magnitude d f := by
  have first := magnitudeNonneg c e
  have second := magnitudeNonneg d f
  cases s <;> cases t <;> simp only [Exact.signed, if_true, Bool.false_eq_true, if_false] at same <;> linarith

/-! Pairs of one value. -/

theorem tenNe (e : Int) : (10 : ℚ) ^ e ≠ 0 := zpow_ne_zero _ (by norm_num)

/- Of two pairs of one value, the one of the smaller exponent has the longer coefficient. -/
theorem scaledOf {c d : Nat} {e f : Int} (same : magnitude c e = magnitude d f) (order : e ≤ f) :
    c = d * 10 ^ (f - e).toNat := by
  have shifted : magnitude (d * 10 ^ (f - e).toNat) e = magnitude d f := by
    rw [magnitudeShift]
    congr 1
    omega
  rw [← shifted, magnitude, magnitude] at same
  exact_mod_cast mul_right_cancel₀ (tenNe e) same

theorem fitsDigits {c : Nat} {e : Int} (fits : Fits c e) : c < 10 ^ 34 :=
  lt_of_le_of_lt fits.1 coefficientBound.1

/- Clamping moves an exponent to the nearest one in range. -/
theorem clampNearest (q : Int) {f : Int} (low : minExponent ≤ f) (high : f ≤ maxExponent) :
    |max minExponent (min q maxExponent) - q| ≤ |f - q| := by
  rcases abs_cases (max minExponent (min q maxExponent) - q) with first | first <;>
    rcases abs_cases (f - q) with second | second <;> omega

end Kimmy.Decimal
