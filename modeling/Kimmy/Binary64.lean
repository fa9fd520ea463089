import Kimmy.DecimalOps
import Kimmy.FloatGrid
import Kimmy.KeyNumber

/-!
Converting between `Decimal128` and binary64 (`from_binary64` and `to_binary64` of
`decimal/arith.rs`), each from the exact value and rounded once.
-/
namespace Kimmy.Decimal.Arith
open BigInt

/-! A double's 64 bits as a decimal. -/

/- The table of `5 ^ (27 j)`; past its end is an index out of bounds. -/
def powersOfFive (j : Nat) : Option Mag :=
  if j ≤ 40 then some ((fun power : Mag => power.mulSmall (5 ^ 27))^[j] (.fromU128 1)) else none

/- `value · 2 ^ left`, at most 63 bits at a time. -/
def doubled (value : Mag) (left : Nat) : Mag :=
  if left = 0 then value else doubled (value.mulSmall (2 ^ min left 63)) (left - min left 63)
termination_by left
decreasing_by omega

/- The odd significand and its power of two. -/
def oddPart (biased fraction : Nat) : Nat × Int :=
  let (m,f) : Nat × Int := if biased = 0 then (fraction,-1074) else (fraction ||| 2 ^ 52,biased - 1075)
  let shift := trailingZeros 64 m
  (m >>> shift,f + shift)

/- `m · 5 ^ k`, the small part of the power folded into the significand. -/
def timesPow5 (m k : Nat) : Option Mag :=
  let value := Mag.fromU128 (m * 5 ^ (k % 27))
  if k / 27 = 0 then some value else (powersOfFive (k / 27)).map value.mul

/- `m · 2 ^ f` as a coefficient and a power of ten. -/
def scaled (m : Nat) (f : Int) : Option (Mag × Int) :=
  if 0 ≤ f then some (doubled (.fromU128 m) f.toNat,0) else (timesPow5 m (-f).toNat).map (·,f)

/- At most 34 digits as they are; more are cut, half to even, and inexact if not all were zeros. -/
def rounded34 (negative : Bool) (value : Mag) (exponent : Int) : Option (Raw × Bool) :=
  let digits := value.digits
  if digits ≤ prec then do some (finite negative (← value.toU128) exponent,false)
  else do
    let cut := digits - prec
    let (quotient,tail) := value.splitDigits cut
    let coefficient ← quotient.toU128
    let e := exponent + cut
    let coefficient := coefficient + (HalfEven.up tail.againstHalf false coefficient).toNat
    let (coefficient,e) := if prec < Decimal.digits coefficient then (coefficient / 10,e + 1) else (coefficient,e)
    some (finite negative coefficient e,!tail.isZero)

def fromBinary64 (bits : UInt64) : Option (Raw × Bool) :=
  let negative := bits.toNat >>> 63 == 1
  let biased := bits.toNat >>> 52 &&& 0x7FF
  let fraction := bits.toNat &&& (2 ^ 52 - 1)
  if biased = 0x7FF then some (if fraction = 0 then .inf negative else .nan,false)
  else if biased = 0 ∧ fraction = 0 then some (finite negative 0 0,false)
  else do
    let (m,f) := oddPart biased fraction
    let (value,exponent) ← scaled m f
    rounded34 negative value exponent

/-! A decimal as the nearest double, from the key encoder's window. -/

def quietNan : Nat := 0x7FF8000000000000
def infinity : Nat := 0x7FF0000000000000

/- The window without its low `dropped` bits, half to even; all 128 of them leave none. -/
def roundedWindow (body : KeyNumber.Body) (dropped : Nat) : Nat :=
  let (kept,remainder,half) :=
    if dropped = 128 then (0,body.window,2 ^ 127)
    else (body.window >>> dropped,body.window &&& (2 ^ dropped - 1),2 ^ (dropped - 1))
  kept + (HalfEven.up (compare remainder half) body.inexact kept).toNat

def normalBits (exp : Int) (kept : Nat) : Nat :=
  let (mantissa,exp) := if kept = 2 ^ 53 then (kept >>> 1,exp + 1) else (kept,exp)
  if 1023 < exp then infinity else (exp + 1023).toNat <<< 52 ||| mantissa &&& (2 ^ 52 - 1)

/- A normal number keeps 53 bits, a subnormal its whole units. -/
def magnitudeBits (body : KeyNumber.Body) : Nat :=
  if 1023 < body.exp then infinity
  else if -1022 ≤ body.exp then normalBits body.exp (roundedWindow body 75)
  else
    let dropped := (127 - body.exp - 1074).toNat
    if 128 < dropped then 0 else roundedWindow body dropped

def toBinary64 (raw : Raw) : UInt64 :=
  match raw with
  | .nan => .ofNat quietNan
  | .inf negative => .ofNat (infinity ||| if negative then 2 ^ 63 else 0)
  | .finite negative coefficient exponent =>
      let sign := if negative then 2 ^ 63 else 0
      if coefficient = 0 then .ofNat sign else .ofNat (sign ||| magnitudeBits (KeyNumber.decimal coefficient exponent))

/-! The exact value on the way in. -/

theorem powersOfFiveValue {j : Nat} (small : j ≤ 40) : ∃ p, powersOfFive j = some p ∧ p.value = 5 ^ (27 * j) := by
  refine ⟨_,if_pos small,?_⟩
  clear small
  induction j with
  | zero => exact Mag.fromU128Value 1
  | succ j ih => rw [Function.iterate_succ_apply', Mag.mulSmallValue, ih, ← pow_add, Nat.mul_succ]

theorem doubledValue (value : Mag) (left : Nat) : (doubled value left).value = value.value * 2 ^ left := by
  induction left using Nat.strong_induction_on generalizing value with
  | _ left ih =>
    rw [doubled]
    split_ifs with done
    · rw [done, pow_zero, Nat.mul_one]
    · rw [ih _ (by omega), Mag.mulSmallValue, Nat.mul_assoc, ← pow_add, Nat.add_sub_cancel' (min_le_left _ _)]

/- The magnitude of a finite double, from its two fields. -/
def fieldsValue (biased fraction : Nat) : ℚ :=
  if biased = 0 then fraction * 2 ^ (-1074 : Int) else (2 ^ 52 + fraction) * 2 ^ ((biased : Int) - 1075)

theorem oddPartSpec {biased fraction : Nat} (range : biased < 2047) (small : fraction < 2 ^ 52)
    (nonzero : ¬ (biased = 0 ∧ fraction = 0)) :
    ∃ m f, oddPart biased fraction = (m,f) ∧ m < 2 ^ 53 ∧ m % 2 = 1 ∧ -1074 ≤ f ∧ f ≤ 1023 ∧
      m * (2 : ℚ) ^ f = fieldsValue biased fraction := by
  obtain ⟨m,f,is,pos,most,low,high,value⟩ : ∃ (m : Nat) (f : Int),
      (if biased = 0 then (fraction,-1074) else (fraction ||| 2 ^ 52,(biased : Int) - 1075)) = (m,f) ∧ 0 < m ∧
        m < 2 ^ 53 ∧ -1074 ≤ f ∧ f ≤ 971 ∧ m * (2 : ℚ) ^ f = fieldsValue biased fraction := by
    unfold fieldsValue
    split_ifs with zero
    · exact ⟨_,_,rfl,by omega,by omega,by omega,by omega,rfl⟩
    · have whole : fraction ||| 2 ^ 52 = 2 ^ 52 + fraction := by
        rw [Nat.or_comm]
        exact (Nat.two_pow_add_eq_or_of_lt small 1).symm
      rw [whole]
      exact ⟨_,_,rfl,by omega,by omega,by omega,by omega,by push_cast; rfl⟩
  have divides : 2 ^ trailingZeros 64 m ∣ m := trailingZerosDvd
  have stops (more : 2 ^ (trailingZeros 64 m + 1) ∣ m) : False := by
    have := (dvdTrailingZeros pos (by omega : m < 2 ^ 64)).mp more
    omega
  simp only [oddPart, is, Nat.shiftRight_eq_div_pow]
  generalize trailingZeros 64 m = z at *
  obtain ⟨core,rfl⟩ := divides
  have power : 0 < 2 ^ z := by positivity
  rw [Nat.mul_div_cancel_left _ power]
  have odd : core % 2 = 1 := by
    by_contra even
    refine stops ?_
    rw [pow_succ]
    exact Nat.mul_dvd_mul_left _ (Nat.dvd_of_mod_eq_zero (by omega))
  have shift : z < 53 := by
    by_contra long
    have : 2 ^ 53 ≤ 2 ^ z := Nat.pow_le_pow_right (by decide) (by omega)
    have : 2 ^ z ≤ 2 ^ z * core := Nat.le_mul_of_pos_right _ (by omega)
    omega
  have less : core ≤ 2 ^ z * core := Nat.le_mul_of_pos_left _ power
  refine ⟨core,f + z,rfl,by omega,odd,by omega,by omega,?_⟩
  rw [← value, zpow_add₀ (by norm_num), zpow_natCast]
  push_cast
  ring

theorem timesPow5Value (m : Nat) {k : Nat} (small : k ≤ 1074) : ∃ value, timesPow5 m k = some value ∧ value.value = m * 5 ^ k := by
  unfold timesPow5
  split_ifs with few
  · refine ⟨_,rfl,?_⟩
    rw [Mag.fromU128Value]
    congr 2
    omega
  · obtain ⟨p,is,power⟩ := @powersOfFiveValue (k / 27) (by omega)
    refine ⟨_,by rw [is]; rfl,?_⟩
    rw [Mag.mulValue, Mag.fromU128Value, power, Nat.mul_assoc, ← pow_add]
    congr 2
    omega

theorem digitsPower {m b k : Nat} (small : m < 2 ^ 53) (base : b ≤ 10) (pos : 0 < b) :
    Decimal.digits (m * b ^ k) ≤ 16 + k := by
  have wide : 2 ^ 53 ≤ 10 ^ 16 := by norm_num
  rw [digitsLe, pow_add]
  calc m * b ^ k < 10 ^ 16 * b ^ k := Nat.mul_lt_mul_of_pos_right (by omega) (by positivity)
    _ ≤ 10 ^ 16 * 10 ^ k := Nat.mul_le_mul_left _ (Nat.pow_le_pow_left base k)

/- An odd number of a negative power of two ends in a digit other than zero. -/
theorem scaledSpec {m : Nat} {f : Int} (small : m < 2 ^ 53) (odd : m % 2 = 1) (low : -1074 ≤ f) (high : f ≤ 1023) :
    ∃ value exponent, scaled m f = some (value,exponent) ∧ 0 < value.value ∧ Decimal.digits value.value ≤ 1100 ∧
      -1074 ≤ exponent ∧ (if 0 ≤ f then exponent = 0 else exponent < 0 ∧ value.value % 10 ≠ 0) ∧
      magnitude value.value exponent = m * (2 : ℚ) ^ f := by
  unfold scaled
  split_ifs with whole
  · obtain ⟨n,rfl⟩ := Int.eq_ofNat_of_zero_le whole
    have value : (doubled (.fromU128 m) (n : Int).toNat).value = m * 2 ^ n := by
      rw [doubledValue, Mag.fromU128Value, Int.toNat_natCast]
    refine ⟨_,_,rfl,?_,?_,by omega,rfl,?_⟩
    · rw [value]
      exact Nat.mul_pos (by omega) (by positivity)
    · rw [value]
      have := @digitsPower m 2 n small (by decide) (by decide)
      omega
    · rw [value, magnitude, zpow_natCast]
      simp
  · obtain ⟨k,rfl⟩ : ∃ k : Nat, f = -(k : Int) := ⟨(-f).toNat,by omega⟩
    rw [neg_neg, Int.toNat_natCast]
    obtain ⟨value,is,worth⟩ := @timesPow5Value m k (by omega)
    refine ⟨value,_,by rw [is]; rfl,?_,?_,low,⟨by omega,?_⟩,?_⟩
    · rw [worth]
      exact Nat.mul_pos (by omega) (by positivity)
    · rw [worth]
      have := @digitsPower m 5 k small (by decide) (by decide)
      omega
    · have : m * 5 ^ k % 2 = 1 := by
        rw [Nat.mul_mod, odd, Nat.pow_mod]
        simp
      rw [worth]
      omega
    · rw [worth, KeyNumber.magnitudeNeg, zpow_neg, zpow_natCast]
      push_cast
      field_simp

/-! Rounding on the way in is the rounding of arithmetic. -/

theorem stripNone {c : Mag} {e pref : Int} (pos : 0 < c.value) (core : e < pref → c.value % 10 ≠ 0) : strip c e pref = (c,e) := by
  unfold strip
  split_ifs with less
  · simp only
    rw [if_neg]
    intro some
    obtain ⟨_,divides,_⟩ := Mag.trailingZerosSpec pos (min (pref - e).toNat (2 ^ 32 - 1))
    exact core less (Nat.mod_eq_zero_of_dvd ((dvd_pow_self 10 some.ne').trans divides))
  · rfl

theorem settleFinite {n : Nat} {e : Int} (negative : Bool) (pos : 0 < n) (short : n < 10 ^ 34) (low : minExponent ≤ e)
    (high : e ≤ 6000) : settle negative n e = .finite negative n e := by
  have digits : Decimal.digits n ≤ 34 := digitsLe.mpr short
  unfold settle
  rw [if_neg pos.ne', if_neg (by unfold emax; omega), if_neg (by unfold maxExponent; omega),
    finiteInside negative n low (by unfold maxExponent; omega)]

theorem roundedFits {negative : Bool} {x : ℚ} {pref : Int} {c : Nat} {e : Int}
    (rounded : Rounded negative x pref (.finite negative c e)) : Fits c e := by
  cases rounded with
  | exact closest => exact closest.fits
  | inexact _ _ _ fits => exact fits

structure Arrives (negative : Bool) (x : ℚ) (pref : Int) (out : Raw × Bool) : Prop where
  rounded : Rounded negative x pref out.1
  finite : ∃ c e, out.1 = .finite negative c e
  inexact : out.2 = true ↔ ∀ c e, out.1 = .finite negative c e → magnitude c e ≠ x

theorem rounded34Spec (negative : Bool) {value : Mag} {exponent pref : Int} (pos : 0 < value.value)
    (size : Decimal.digits value.value ≤ 1100) (low : -1074 ≤ exponent) (order : exponent ≤ pref) (high : exponent ≤ 0)
    (near : pref - exponent < 2 ^ 32) (core : exponent < pref → value.value % 10 ≠ 0) :
    ∃ out, rounded34 negative value exponent = some out ∧ Arrives negative (magnitude value.value exponent) pref out := by
  have prec' : prec = 34 := rfl
  have stands : Stands (magnitude value.value exponent) value.value exponent false pref := by
    refine ⟨le_rfl,?_,by simp,Bool.noConfusion,Or.inl order,near⟩
    rw [magnitude, magnitude]
    exact mul_lt_mul_of_pos_right (by push_cast; linarith) (tenPos _)
  obtain ⟨raw,is,rounded⟩ := roundSpec negative stands
  have nonzero : value.isZero = false := Bool.eq_false_of_not_eq_true fun none => pos.ne' ((Mag.isZeroValue value).mp none)
  unfold round at is
  simp only [nonzero, stripNone pos core, Bool.false_and, Bool.false_eq_true, if_false, Bool.not_false, Bool.true_and,
    Mag.digitsValue] at is
  unfold rounded34
  simp only [Mag.digitsValue]
  have bound := coefficientBound.2
  by_cases short : Decimal.digits value.value ≤ prec
  · have small : value.value < 10 ^ 34 := digitsLe.mp short
    rw [if_pos short, Mag.toU128Value (by omega)]
    have inside := finiteInside negative value.value (show minExponent ≤ exponent by unfold minExponent; omega)
      (show exponent ≤ maxExponent by unfold maxExponent; omega)
    refine ⟨_,rfl,⟨?_,⟨value.value,exponent,inside⟩,?_⟩⟩
    · rw [if_pos, Mag.toU128Value (by omega)] at is
      · cases is
        exact rounded
      · simp only [Bool.and_eq_true, decide_eq_true_eq]
        unfold minExponent maxExponent
        omega
    · simp only [Bool.false_eq_true, false_iff]
      intro differ
      exact differ _ _ inside rfl
  · rw [if_neg short]
    obtain ⟨cut,length⟩ : ∃ cut, Decimal.digits value.value = 34 + cut := ⟨Decimal.digits value.value - 34,by omega⟩
    have cuts : 0 < cut := by omega
    have kept : value.value / 10 ^ cut < 10 ^ 34 := by
      refine Nat.div_lt_of_lt_mul ?_
      rw [← pow_add, ← digitsLe]
      omega
    have longest : 10 ^ 33 * 10 ^ cut ≤ value.value := by
      rw [← pow_add, ← ltDigits]
      omega
    have least : 10 ^ 33 ≤ value.value / 10 ^ cut := (Nat.le_div_iff_mul_le (by positivity)).mpr longest
    have read : (value.splitDigits cut).1.toU128 = some (value.value / 10 ^ cut) := by
      rw [Mag.toU128Value, Mag.splitDigitsValue]
      rw [Mag.splitDigitsValue]
      omega
    obtain ⟨half,zeros⟩ := value.splitDigitsCut cuts
    -- what both routes keep
    obtain ⟨n,raised⟩ : ∃ n, n = value.value / 10 ^ cut +
        (HalfEven.up (value.splitDigits cut).2.againstHalf false (value.value / 10 ^ cut)).toNat := ⟨_,rfl⟩
    have more : n ≤ 10 ^ 34 ∧ 10 ^ 33 ≤ n := by
      have := Bool.toNat_le (HalfEven.up (value.splitDigits cut).2.againstHalf false (value.value / 10 ^ cut))
      omega
    obtain ⟨m,p,pair,small,positive,top⟩ : ∃ m p, (if prec < Decimal.digits n then (n / 10,exponent + (cut : Int) + 1) else
        (n,exponent + (cut : Int))) = (m,p) ∧ m < 10 ^ 34 ∧ 0 < m ∧ p ≤ exponent + cut + 1 ∧ exponent ≤ p := by
      split_ifs with carry
      · exact ⟨_,_,rfl,by omega,by omega,by omega,by omega⟩
      · rw [prec', ltDigits] at carry
        exact ⟨_,_,rfl,by omega,by omega,by omega,by omega⟩
    have cutIs : cutOff value exponent false = some (m,p) := by
      have amount : max (max ((Decimal.digits value.value : Int) - prec) (minExponent - exponent)) 0 = (cut : Int) := by
        unfold minExponent
        omega
      unfold cutOff
      simp only [Mag.digitsValue, amount, Int.toNat_natCast]
      rw [if_pos (by omega), if_neg (by omega)]
      simp only [read, Option.bind_eq_bind, Option.bind_some, ← raised]
      rw [← pair]
      split_ifs <;> rfl
    have stored := settleFinite negative positive small (show minExponent ≤ p by unfold minExponent; omega) (by omega)
    have raws : raw = .finite negative m p := by
      rw [if_neg (by simp only [Bool.and_eq_true, decide_eq_true_eq]; omega), cutIs] at is
      cases is
      exact stored
    rw [raws] at rounded
    have length' : Decimal.digits value.value - prec = cut := by omega
    have inside : finite negative m p = .finite negative m p :=
      finiteInside negative m (by unfold minExponent; omega) (by unfold maxExponent; omega)
    refine ⟨(.finite negative m p,!(value.splitDigits cut).2.isZero),?_,⟨rounded,⟨m,p,rfl⟩,?_⟩⟩
    · simp only [length', read, Option.bind_eq_bind, Option.bind_some, ← raised, pair, inside]
    · -- only digits that are all zeros can be cut without a change
      have same : (∀ c e, Raw.finite negative m p = .finite negative c e → magnitude c e ≠ magnitude value.value exponent) ↔
          magnitude m p ≠ magnitude value.value exponent := by
        constructor
        · exact fun all => all m p rfl
        · rintro differ c e ⟨⟩
          exact differ
      rw [same, Bool.not_eq_true', ← Bool.not_eq_true, zeros, not_iff_not]
      have fit : Fits (value.value / 10 ^ cut) (exponent + cut) := by
        have nines : maxCoefficient + 1 = 10 ^ 34 := by decide
        unfold Fits minExponent maxExponent
        omega
      constructor
      · intro whole
        have worth : magnitude (value.value / 10 ^ cut) (exponent + cut) = magnitude value.value exponent := by
          rw [← magnitudeShift, Nat.div_mul_cancel (Nat.dvd_of_mod_eq_zero whole)]
        cases rounded with
        | exact closest => exact closest.worth
        | inexact held => exact absurd worth (held _ _ fit)
      · intro equal
        have held : Fits m p := roundedFits rounded
        have large : 10 ^ (exponent + cut + 33) ≤ magnitude value.value exponent := by
          have := leMagnitude exponent (show 10 ^ (33 + cut) ≤ value.value by rw [pow_add]; exact longest)
          refine le_trans (le_of_eq ?_) this
          congr 1
          push_cast
          ring
        have above := pairsAbove (Or.inr large) held equal
        have scaled := scaledOf equal.symm (by omega : exponent ≤ p)
        obtain ⟨j,is⟩ : ∃ j, (p - exponent).toNat = cut + j := ⟨(p - exponent).toNat - cut,by omega⟩
        rw [scaled, is, pow_add, Nat.mul_comm, Nat.mul_assoc]
        exact Nat.mul_mod_right _ _

/-! A finite double by its sign bit and its magnitude. -/

def signOf (bits : UInt64) : Bool := decide (bits.toNat / 2 ^ 63 = 1)
def fieldOf (bits : UInt64) : Nat := bits.toNat % 2 ^ 63

/- The magnitude of a field, in units of the least double. -/
def fieldValue (n : Nat) : ℚ := FloatGrid.point 52 n * 2 ^ (-1074 : Int)

theorem fieldValueFields (n : Nat) : fieldValue n = fieldsValue (n / 2 ^ 52) (n % 2 ^ 52) := by
  unfold fieldValue fieldsValue FloatGrid.point FloatGrid.unit
  split_ifs with zero
  · have short : n % 2 ^ 52 = n := by omega
    rw [short]
  · rw [Nat.cast_mul, Nat.cast_add, Nat.cast_pow, Nat.cast_pow, Nat.cast_ofNat, mul_assoc, ← zpow_natCast,
      ← zpow_natCast, ← zpow_add₀ (by norm_num)]
    congr 2
    omega

theorem doubleFinite (bits : UInt64) :
    (fieldOf bits < infinity → Exact.double bits = .finite (Exact.signed (signOf bits) (fieldValue (fieldOf bits)))) ∧
      (infinity ≤ fieldOf bits → ∀ y, Exact.double bits ≠ .finite y) := by
  have range := bits.toNat_lt
  unfold fieldOf signOf infinity Exact.double
  simp only
  generalize bits.toNat = n at *
  have exponent : n % 2 ^ 63 / 2 ^ 52 = n / 2 ^ 52 % 2 ^ 11 := by omega
  have fraction : n % 2 ^ 63 % 2 ^ 52 = n % 2 ^ 52 := by omega
  constructor
  · intro small
    rw [if_neg (by omega), fieldValueFields, exponent, fraction, fieldsValue]
    split_ifs with zero <;> rfl
  · intro large y
    rw [if_pos (by omega)]
    split_ifs <;> simp

theorem doubleInfinite {bits : UInt64} (top : fieldOf bits = infinity) :
    Exact.double bits = if signOf bits then .negInfinity else .posInfinity := by
  have range := bits.toNat_lt
  unfold fieldOf infinity at top
  unfold signOf Exact.double
  simp only
  rw [if_pos (by omega), if_neg (by omega)]

theorem finiteField {bits : UInt64} {y : ℚ} (finite : Exact.double bits = .finite y) :
    fieldOf bits < infinity ∧ y = Exact.signed (signOf bits) (fieldValue (fieldOf bits)) := by
  obtain ⟨inside,outside⟩ := doubleFinite bits
  have small : fieldOf bits < infinity := by
    by_contra large
    exact outside (not_lt.mp large) y finite
  rw [inside small] at finite
  exact ⟨small,(Exact.finite.inj finite).symm⟩

/- The exponent an exact conversion prefers: zero for an integer, and otherwise the largest. -/
def Prefers (x : ℚ) (pref : Int) : Prop :=
  (∃ n : Nat, x = n) ∧ pref = 0 ∨ (¬ ∃ n : Nat, x = n) ∧ pref = maxExponent

theorem oddWhole {m : Nat} (odd : m % 2 = 1) (f : Int) : (∃ n : Nat, m * (2 : ℚ) ^ f = n) ↔ 0 ≤ f := by
  constructor
  · rintro ⟨n,is⟩
    by_contra below
    obtain ⟨k,rfl⟩ : ∃ k : Nat, f = -((k + 1 : Nat) : Int) := ⟨(-f).toNat - 1,by omega⟩
    rw [zpow_neg, zpow_natCast, mul_inv_eq_iff_eq_mul₀ (by positivity)] at is
    have whole : m = n * 2 ^ (k + 1) := by exact_mod_cast is
    rw [pow_succ, ← Nat.mul_assoc] at whole
    omega
  · intro above
    obtain ⟨k,rfl⟩ := Int.eq_ofNat_of_zero_le above
    exact ⟨m * 2 ^ k,by push_cast; rfl⟩

theorem fromBinary64Arrives (bits : UInt64) (small : fieldOf bits < infinity) :
    ∃ out pref, fromBinary64 bits = some out ∧ Prefers (fieldValue (fieldOf bits)) pref ∧
      Arrives (signOf bits) (fieldValue (fieldOf bits)) pref out := by
  obtain ⟨field,low,_,top⟩ := Numeric.doubleFields bits
  have sign : (bits.toNat >>> 63 == 1) = signOf bits := by rw [top, signOf, beq_eq_decide]
  unfold fromBinary64
  simp only [field, low, sign]
  rw [fieldValueFields]
  unfold fieldOf infinity at *
  have exponent : bits.toNat % 2 ^ 63 / 2 ^ 52 = bits.toNat / 2 ^ 52 % 2 ^ 11 := by omega
  have fraction : bits.toNat % 2 ^ 63 % 2 ^ 52 = bits.toNat % 2 ^ 52 := by omega
  rw [exponent, fraction, if_neg (by omega)]
  have narrow : bits.toNat % 2 ^ 52 < 2 ^ 52 := Nat.mod_lt _ (by decide)
  have inside : bits.toNat / 2 ^ 52 % 2 ^ 11 < 2047 := by omega
  generalize bits.toNat / 2 ^ 52 % 2 ^ 11 = biased at *
  generalize bits.toNat % 2 ^ 52 = rest at *
  by_cases zero : biased = 0 ∧ rest = 0
  · rw [if_pos zero]
    have none : fieldsValue biased rest = 0 := by
      rw [fieldsValue, if_pos zero.1, zero.2]
      simp
    have inside' := finiteInside (signOf bits) 0 (show minExponent ≤ 0 by decide) (by decide)
    rw [none, inside']
    refine ⟨_,0,rfl,Or.inl ⟨⟨0,by simp⟩,rfl⟩,⟨.exact ⟨by decide,by simp [magnitude],fun _ _ _ _ => by simp⟩,⟨_,_,rfl⟩,?_⟩⟩
    simp [magnitude]
  · rw [if_neg zero]
    obtain ⟨m,f,is,short,odd,least,most,value⟩ := oddPartSpec inside narrow zero
    obtain ⟨c,e,is',pos,digits,bottom,kind,worth⟩ := scaledSpec short odd least most
    rw [is]
    simp only [is', Option.bind_eq_bind, Option.bind_some]
    have whole := oddWhole odd f
    rw [value] at whole worth
    obtain ⟨pref,prefers,order,near,core⟩ : ∃ pref, Prefers (fieldsValue biased rest) pref ∧ e ≤ pref ∧
        pref - e < 2 ^ 32 ∧ (e < pref → c.value % 10 ≠ 0) := by
      split_ifs at kind with integer
      · exact ⟨0,Or.inl ⟨whole.mpr integer,rfl⟩,by omega,by omega,fun less => by omega⟩
      · exact ⟨maxExponent,Or.inr ⟨mt whole.mp integer,rfl⟩,by unfold maxExponent; omega,by unfold maxExponent; omega,
          fun _ => kind.2⟩
    have high : e ≤ 0 := by
      split_ifs at kind <;> omega
    obtain ⟨out,given,arrives⟩ := rounded34Spec (signOf bits) pos digits bottom order high near core
    rw [worth] at arrives
    exact ⟨out,pref,given,prefers,arrives⟩

/-! The nearest double on the way out. -/

/- Half a unit past the largest finite double. -/
def overflowAt : ℚ := (2 ^ 54 - 1) * 2 ^ (970 : Int)

structure NearestField (x : ℚ) (n : Nat) : Prop where
  range : n ≤ infinity
  overflow : n = infinity ↔ overflowAt ≤ x
  nearest : x < overflowAt → ∀ m, |x - fieldValue n| ≤ |x - fieldValue m| ∧
    (|x - fieldValue n| = |x - fieldValue m| → fieldValue m ≠ fieldValue n → n % 2 = 0)

theorem nearestField {x : ℚ} {k kept : Nat} (near : HalfEven.Nearest (x / 2 ^ ((k : Int) - 1074)) kept)
    (large : k = 0 ∨ (2 : ℚ) ^ ((k : Int) - 1022) ≤ x) (least : k = 0 ∨ 2 ^ 52 ≤ kept) (most : kept ≤ 2 ^ 53) (m : Nat) :
    |x - fieldValue (k * 2 ^ 52 + kept)| ≤ |x - fieldValue m| ∧
      (|x - fieldValue (k * 2 ^ 52 + kept)| = |x - fieldValue m| → fieldValue m ≠ fieldValue (k * 2 ^ 52 + kept) →
        kept % 2 = 0) := by
  have least' : (0 : ℚ) < 2 ^ (-1074 : Int) := zpow_pos (by norm_num) _
  have units : x / 2 ^ (-1074 : Int) / 2 ^ k = x / 2 ^ ((k : Int) - 1074) := by
    rw [div_div, ← zpow_natCast, ← zpow_add₀ (by norm_num), add_comm, ← sub_eq_add_neg]
  rw [← units] at near
  have large' : k = 0 ∨ (2 : ℚ) ^ (52 + k) ≤ x / 2 ^ (-1074 : Int) := by
    refine large.imp_right fun bound => ?_
    rw [le_div_iff₀ least', ← zpow_natCast, ← zpow_add₀ (by norm_num)]
    refine le_trans (le_of_eq ?_) bound
    congr 1
    omega
  obtain ⟨best,tie⟩ := FloatGrid.roundNearest near large' least most m
  have distance (n : Nat) : |x - fieldValue n| = |x / 2 ^ (-1074 : Int) - FloatGrid.point 52 n| * 2 ^ (-1074 : Int) := by
    rw [← abs_of_pos least', ← abs_mul, abs_of_pos least', sub_mul, div_mul_cancel₀ _ least'.ne']
    rfl
  rw [distance, distance]
  refine ⟨mul_le_mul_of_nonneg_right best least'.le,fun same differ => tie (mul_right_cancel₀ least'.ne' same) fun equal => ?_⟩
  exact differ (by rw [fieldValue, fieldValue, equal])

/- What the window says of the value, in units of its last bit. -/
theorem windowUnits {x : ℚ} {body : KeyNumber.Body} (keyed : KeyNumber.Keyed x body) :
    (body.window : ℚ) ≤ x / 2 ^ (body.exp - 127) ∧ x / 2 ^ (body.exp - 127) < body.window + 1 ∧
      (body.inexact = false ↔ x / 2 ^ (body.exp - 127) = body.window) ∧ 2 ^ 127 ≤ body.window ∧ body.window < 2 ^ 128 := by
  have scale := KeyNumber.twoPos (body.exp - 127)
  have shift : body.exp + 1 - (128 : Nat) = body.exp - 127 := by push_cast; ring
  have floor := keyed.body.floor
  have next := keyed.body.next
  have mark := keyed.mark
  rw [shift] at floor next
  rw [show body.exp + 1 - 128 = body.exp - 127 by ring] at mark
  refine ⟨(le_div_iff₀ scale).mpr floor,(div_lt_iff₀ scale).mpr next,?_,keyed.body.range (by decide)⟩
  rw [div_eq_iff scale.ne', ← Bool.not_eq_true, mark, not_not, eq_comm]

/- The rounding of the window after `dropped` of its bits. -/
theorem roundedWindowSpec {x : ℚ} {body : KeyNumber.Body} (keyed : KeyNumber.Keyed x body) {dropped : Nat} (low : 75 ≤ dropped)
    (high : dropped ≤ 128) :
    HalfEven.Nearest (x / 2 ^ (body.exp - 127 + dropped)) (roundedWindow body dropped) ∧
      (dropped = 75 → 2 ^ 52 ≤ roundedWindow body dropped) ∧ roundedWindow body dropped ≤ 2 ^ 53 ∧
      (75 < dropped → roundedWindow body dropped ≤ 2 ^ 52) := by
  obtain ⟨floor,next,exact',least,most⟩ := windowUnits keyed
  have two : 2 * 2 ^ (dropped - 1) = 2 ^ dropped := by
    rw [← pow_succ']
    congr 1
    omega
  have same : roundedWindow body dropped = body.window / 2 ^ dropped +
      (HalfEven.up (compare (body.window % 2 ^ dropped) (2 ^ (dropped - 1))) body.inexact (body.window / 2 ^ dropped)).toNat := by
    unfold roundedWindow
    by_cases all : dropped = 128
    · rw [if_pos all, all, Nat.mod_eq_of_lt most, Nat.div_eq_of_lt most]
    · rw [if_neg all, Nat.shiftRight_eq_div_pow, Nat.and_two_pow_sub_one_eq_mod]
  have near := @HalfEven.cutNearest body.window (2 ^ (dropped - 1)) (by positivity) _ floor next _ exact'
  rw [two, div_div, Nat.cast_pow, Nat.cast_ofNat, ← zpow_natCast, ← zpow_add₀ (by norm_num), ← same] at near
  have carry := Bool.toNat_le (HalfEven.up (compare (body.window % 2 ^ dropped) (2 ^ (dropped - 1))) body.inexact
    (body.window / 2 ^ dropped))
  have above {n : Nat} (le : n ≤ dropped) : body.window / 2 ^ dropped < 2 ^ (128 - n) := by
    refine Nat.div_lt_of_lt_mul (lt_of_lt_of_le most ?_)
    rw [← pow_add]
    exact Nat.pow_le_pow_right (by decide) (by omega)
  rw [same] at near ⊢
  refine ⟨near,?_,?_,?_⟩
  · rintro rfl
    omega
  · have := above low
    omega
  · intro more
    have := @above 76 (by omega)
    omega

/- The normal field, its carry into the next exponent included. -/
theorem normalBitsValue {exp : Int} {k kept : Nat} (is : exp = k - 1022) (least : 2 ^ 52 ≤ kept) (most : kept ≤ 2 ^ 53)
    (top : exp ≤ 1023) : normalBits exp kept = k * 2 ^ 52 + kept := by
  have join (e f : Nat) (small : f < 2 ^ 52) : e <<< 52 ||| f = e * 2 ^ 52 + f := by
    rw [← Nat.shiftLeft_add_eq_or_of_lt small, Nat.shiftLeft_eq]
  have low (f : Nat) : f &&& (2 ^ 52 - 1) = f % 2 ^ 52 := Nat.and_two_pow_sub_one_eq_mod f 52
  unfold normalBits
  by_cases carry : kept = 2 ^ 53
  · rw [if_pos carry]
    simp only
    by_cases past : 1023 < exp + 1
    · rw [if_pos past]
      unfold infinity
      omega
    · rw [if_neg past, low, join _ _ (Nat.mod_lt _ (by decide)), Nat.shiftRight_eq_div_pow]
      omega
  · rw [if_neg carry]
    simp only
    rw [if_neg (by omega), low, join _ _ (Nat.mod_lt _ (by decide))]
    omega

theorem overflowSplit : overflowAt = (2 ^ 53 - 1 / 2) * 2 ^ (971 : Int) := by
  have double : (2 : ℚ) ^ (971 : Int) = 2 * 2 ^ (970 : Int) := by
    rw [← zpow_one_add₀ (by norm_num)]
    rfl
  rw [overflowAt, double]
  ring

/- Whether the rounded value is past every finite double. -/
theorem overflowKept {x : ℚ} {k kept : Nat} (near : HalfEven.Nearest (x / 2 ^ ((k : Int) - 1074)) kept) (range : k ≤ 2045)
    (most : kept ≤ 2 ^ 53) (below : x < 2 ^ ((k : Int) - 1021)) :
    k * 2 ^ 52 + kept = infinity ↔ overflowAt ≤ x := by
  have scale (e : Int) : (0 : ℚ) < 2 ^ e := KeyNumber.twoPos e
  have last : (((2045 : Nat) : Int) - 1074) = 971 := rfl
  unfold infinity
  constructor
  · intro is
    obtain rfl : k = 2045 := by omega
    obtain rfl : kept = 2 ^ 53 := by omega
    have half := (abs_le.mp near.1).1
    rw [last] at half
    rw [overflowSplit, ← le_div_iff₀ (scale _)]
    generalize x / 2 ^ (971 : Int) = y at *
    push_cast at half
    linarith
  · intro large
    rw [overflowSplit] at large
    have full : k = 2045 := by
      by_contra less
      have bound : (2 : ℚ) ^ ((k : Int) - 1021) ≤ 2 ^ (52 + 971 : Int) := zpow_le_zpow_right₀ (by norm_num) (by omega)
      rw [zpow_add₀ (by norm_num)] at bound
      have more : (2 ^ (52 : Int) : ℚ) * 2 ^ (971 : Int) ≤ (2 ^ 53 - 1 / 2) * 2 ^ (971 : Int) :=
        mul_le_mul_of_nonneg_right (by norm_num) (scale 971).le
      exact absurd (below.trans_le (bound.trans (more.trans large))) (lt_irrefl x)
    subst full
    obtain ⟨half,even⟩ := near
    rw [last] at half even
    rw [← le_div_iff₀ (scale _)] at large
    have above := (abs_le.mp half).2
    generalize x / 2 ^ (971 : Int) = y at *
    -- the odd coefficient before the carry is not the even one of a tie
    have carry : kept = 2 ^ 53 := by
      by_contra less
      have short : (kept : ℚ) + 1 ≤ 2 ^ 53 := by exact_mod_cast (by omega : kept + 1 ≤ 2 ^ 53)
      have tie : y - kept = 1 / 2 := by linarith
      have equal : (kept : ℚ) + 1 = 2 ^ 53 := by linarith
      have equal' : kept + 1 = 2 ^ 53 := by exact_mod_cast equal
      have := even (by rw [tie]; norm_num)
      omega
    omega

theorem magnitudeBitsNearest {x : ℚ} {body : KeyNumber.Body} (keyed : KeyNumber.Keyed x body) :
    NearestField x (magnitudeBits body) := by
  have bottom : (2 : ℚ) ^ body.exp ≤ x := by
    have := keyed.body.low
    rwa [add_sub_cancel_right] at this
  have top := keyed.body.high
  -- a rounding at the unit of the binade settles all three
  have settle {k kept : Nat} (near : HalfEven.Nearest (x / 2 ^ ((k : Int) - 1074)) kept)
      (large : k = 0 ∨ (2 : ℚ) ^ ((k : Int) - 1022) ≤ x) (least : k = 0 ∨ 2 ^ 52 ≤ kept) (most : kept ≤ 2 ^ 53)
      (range : k ≤ 2045) (below : x < 2 ^ ((k : Int) - 1021)) : NearestField x (k * 2 ^ 52 + kept) := by
    refine ⟨by unfold infinity; omega,overflowKept near range most below,fun _ m => ?_⟩
    obtain ⟨best,tie⟩ := nearestField near large least most m
    refine ⟨best,fun same differ => ?_⟩
    have := tie same differ
    omega
  unfold magnitudeBits
  split_ifs with past normal
  · have large : overflowAt ≤ x := by
      refine le_trans ?_ ((zpow_le_zpow_right₀ (by norm_num) (by omega : (54 + 970 : Int) ≤ body.exp)).trans bottom)
      rw [zpow_add₀ (by norm_num), overflowAt]
      exact mul_le_mul_of_nonneg_right (by norm_num) (KeyNumber.twoPos 970).le
    exact ⟨le_rfl,⟨fun _ => large,fun _ => rfl⟩,fun less => absurd large (not_le.mpr less)⟩
  · obtain ⟨k,exp⟩ : ∃ k : Nat, body.exp = k - 1022 := ⟨(body.exp + 1022).toNat,by omega⟩
    obtain ⟨near,least,most,_⟩ := roundedWindowSpec keyed (le_refl 75) (by norm_num)
    rw [normalBitsValue exp (least rfl) most (by omega)]
    refine settle ?_ (Or.inr (exp ▸ bottom)) (Or.inr (least rfl)) most (by omega) ?_
    · convert near using 3
      rw [exp]
      push_cast
      ring
    · convert top using 2
      omega
  · simp only
    have below : x < 2 ^ (((0 : Nat) : Int) - 1021) :=
      lt_of_lt_of_le top (zpow_le_zpow_right₀ (by norm_num) (by push_cast; omega))
    split_ifs with deep
    · -- below half a unit nothing is kept
      have unit := KeyNumber.twoPos (((0 : Nat) : Int) - 1074)
      have positive : 0 < x := lt_of_lt_of_le (KeyNumber.twoPos _) bottom
      have small : x / 2 ^ (((0 : Nat) : Int) - 1074) < 1 / 2 := by
        rw [div_lt_iff₀ unit, one_div, ← zpow_neg_one, ← zpow_add₀ (by norm_num)]
        exact lt_of_lt_of_le top (zpow_le_zpow_right₀ (by norm_num) (by push_cast; omega))
      have near : HalfEven.Nearest (x / 2 ^ (((0 : Nat) : Int) - 1074)) 0 := by
        have some := div_pos positive unit
        generalize x / 2 ^ (((0 : Nat) : Int) - 1074) = y at *
        refine ⟨?_,fun _ => rfl⟩
        rw [Nat.cast_zero, sub_zero, abs_of_pos some]
        exact small.le
      exact @settle 0 0 near (Or.inl rfl) (Or.inl rfl) (by omega) (by omega) below
    · obtain ⟨near,_,_,most⟩ := @roundedWindowSpec x body keyed (127 - body.exp - 1074).toNat (by omega) (by omega)
      have short := most (by omega)
      have := @settle 0 (roundedWindow body (127 - body.exp - 1074).toNat) ?_ (Or.inl rfl) (Or.inl rfl) (by omega) (by omega) below
      · rwa [Nat.zero_mul, Nat.zero_add] at this
      · convert near using 3
        omega

/-! Both directions. -/

/- The double of a decimal's sign nearest to it: on a tie the even one, past the largest an infinity. -/
structure NearestDouble (negative : Bool) (x : ℚ) (bits : UInt64) : Prop where
  sign : signOf bits = negative
  overflow : overflowAt ≤ x → Exact.double bits = if negative then .negInfinity else .posInfinity
  nearest : x < overflowAt → ∃ y, Exact.double bits = .finite y ∧ ∀ other z, Exact.double other = .finite z →
    |Exact.signed negative x - y| ≤ |Exact.signed negative x - z| ∧
      (|Exact.signed negative x - y| = |Exact.signed negative x - z| → z ≠ y → bits.toNat % 2 = 0)

theorem wordFields (negative : Bool) {n : Nat} (small : n ≤ infinity) :
    signOf (.ofNat ((if negative then 2 ^ 63 else 0) ||| n)) = negative ∧
      fieldOf (.ofNat ((if negative then 2 ^ 63 else 0) ||| n)) = n ∧
      (UInt64.ofNat ((if negative then 2 ^ 63 else 0) ||| n)).toNat % 2 = n % 2 := by
  unfold infinity at small
  have below : n < 2 ^ 63 := by omega
  have joined : ((if negative then 2 ^ 63 else 0) ||| n) = negative.toNat * 2 ^ 63 + n := by
    cases negative
    · simp
    · rw [if_pos rfl, Bool.toNat_true, Nat.one_mul]
      exact (Nat.two_pow_add_eq_or_of_lt below 1).symm
  have sign := Bool.toNat_le negative
  have whole : (UInt64.ofNat ((if negative then 2 ^ 63 else 0) ||| n)).toNat = negative.toNat * 2 ^ 63 + n := by
    rw [joined, UInt64.toNat_ofNat', Nat.mod_eq_of_lt (by omega)]
  rw [signOf, fieldOf, whole]
  refine ⟨?_,by omega,by omega⟩
  cases negative
  · simp
    omega
  · simp
    omega

theorem signedDistance (negative : Bool) (x y : ℚ) :
    |Exact.signed negative x - Exact.signed negative y| = |x - y| := by
  cases negative
  · rfl
  · simp only [Exact.signed, if_true]
    rw [neg_sub_neg, abs_sub_comm]

theorem fieldValueNonneg (n : Nat) : 0 ≤ fieldValue n :=
  mul_nonneg (Nat.cast_nonneg _) (KeyNumber.twoPos _).le

theorem nearestDouble (negative : Bool) {x : ℚ} {n : Nat} (nonneg : 0 ≤ x) (field : NearestField x n) :
    NearestDouble negative x (.ofNat ((if negative then 2 ^ 63 else 0) ||| n)) := by
  obtain ⟨sign,fields,even⟩ := wordFields negative field.range
  refine ⟨sign,fun large => ?_,fun less => ?_⟩
  · rw [doubleInfinite (fields.trans (field.overflow.mpr large)), sign]
  · have small : n < infinity := by
      refine lt_of_le_of_ne field.range fun top => ?_
      exact absurd (field.overflow.mp top) (not_le.mpr less)
    have value := (doubleFinite (.ofNat ((if negative then 2 ^ 63 else 0) ||| n))).1 (by rw [fields]; exact small)
    rw [sign, fields] at value
    refine ⟨_,value,fun other z given => ?_⟩
    obtain ⟨_,rfl⟩ := finiteField given
    rw [even, signedDistance]
    have best := field.nearest less
    by_cases same : signOf other = negative
    · rw [same, signedDistance]
      obtain ⟨near,tie⟩ := best (fieldOf other)
      exact ⟨near,fun equal differ => tie equal fun is => differ (by rw [is])⟩
    · -- a double of the other sign is no nearer than zero
      have opposite : signOf other = !negative := by
        cases negative <;> simpa using same
      have far (y : ℚ) : Exact.signed negative x - Exact.signed (!negative) y = Exact.signed negative (x + y) := by
        cases negative
        · simp [Exact.signed]
        · simp [Exact.signed]
          ring
      have size (y : ℚ) (positive : 0 ≤ y) : |Exact.signed negative y| = y := by
        cases negative <;> simp [Exact.signed, abs_of_nonneg positive]
      have least := fieldValueNonneg (fieldOf other)
      have none : fieldValue 0 = 0 := by simp [fieldValue, FloatGrid.point]
      obtain ⟨near,tie⟩ := best 0
      rw [none, sub_zero, abs_of_nonneg nonneg] at near tie
      rw [opposite, far, size _ (by linarith)]
      refine ⟨by linarith,fun equal differ => tie (by linarith) fun is => differ ?_⟩
      have zero : fieldValue (fieldOf other) = 0 := by linarith
      rw [zero, ← is]
      cases negative <;> simp [Exact.signed]

theorem zeroField : NearestField 0 0 := by
  have positive : 0 < overflowAt := by
    rw [overflowAt]
    exact mul_pos (by norm_num) (KeyNumber.twoPos _)
  refine ⟨Nat.zero_le _,⟨fun top => absurd top (by decide),fun large => absurd large (not_le.mpr positive)⟩,fun _ m => ?_⟩
  have none : fieldValue 0 = 0 := by simp [fieldValue, FloatGrid.point]
  rw [none, sub_zero, abs_zero]
  exact ⟨abs_nonneg _,fun _ _ => rfl⟩

theorem toBinary64Nearest (negative : Bool) {c : Nat} {e : Int} (fits : Fits c e) :
    NearestDouble negative (magnitude c e) (toBinary64 (.finite negative c e)) := by
  unfold toBinary64
  simp only
  by_cases zero : c = 0
  · have none : magnitude c e = 0 := by rw [zero]; simp [magnitude]
    have near := nearestDouble negative le_rfl zeroField
    rw [Nat.or_zero] at near
    rw [if_pos zero, none]
    exact near
  · rw [if_neg zero]
    have canonical : Canonical c e := ⟨Nat.pos_of_ne_zero zero,fits⟩
    exact nearestDouble negative (magnitudePos canonical).le (magnitudeBitsNearest (KeyNumber.decimalKeyed canonical))

/- Rounding to 34 digits moves a value far less than doubles are apart. -/
theorem roundedNear {negative : Bool} {x : ℚ} {pref : Int} {c : Nat} {e : Int} (positive : 0 < x)
    (normal : 10 ^ (minExponent + 33) ≤ x) (rounded : Rounded negative x pref (.finite negative c e)) :
    |x - magnitude c e| * (2 * 10 ^ 33) ≤ x := by
  cases rounded with
  | exact closest =>
    rw [closest.worth, sub_self, abs_zero, zero_mul]
    exact positive.le
  | @inexact q n _ _ _ quantum nearest _ worth =>
    have ten := tenPos q
    have large : 10 ^ (q + 33) ≤ x := by
      by_contra small
      rcases eq_or_lt_of_le quantum.range with bottom | above
      · rw [bottom] at normal
        exact small normal
      · have := quantum.least (q - 1) (by omega) (by rw [show q - 1 + 34 = q + 33 by ring]; exact not_le.mp small)
        omega
    have error : |x - magnitude c e| ≤ 1 / 2 * 10 ^ q := by
      have : x - magnitude c e = (x / 10 ^ q - n) * 10 ^ q := by
        rw [worth, magnitude]
        field_simp
      rw [this, abs_mul, abs_of_pos ten]
      exact mul_le_mul_of_nonneg_right nearest.1 ten.le
    rw [zpow_add₀ (by norm_num)] at large
    calc |x - magnitude c e| * (2 * 10 ^ 33) ≤ 1 / 2 * 10 ^ q * (2 * 10 ^ 33) :=
          mul_le_mul_of_nonneg_right error (by norm_num)
      _ = 10 ^ q * 10 ^ (33 : Int) := by norm_num; ring
      _ ≤ x := large

theorem bitsExt {a b : UInt64} (signs : signOf a = signOf b) (fields : fieldOf a = fieldOf b) : a = b := by
  have left := a.toNat_lt
  have right := b.toNat_lt
  unfold signOf at signs
  unfold fieldOf at fields
  rw [decide_eq_decide] at signs
  refine UInt64.toNat_inj.mp ?_
  omega

theorem fieldValueBound {n : Nat} (small : n < infinity) : fieldValue n ≤ (2 ^ 53 - 1) * 2 ^ (971 : Int) := by
  have last : FloatGrid.point 52 (infinity - 1) = (2 ^ 53 - 1) * 2 ^ 2045 := by
    have field : infinity - 1 = 2045 * 2 ^ 52 + (2 ^ 53 - 1) := by decide
    rw [field]
    exact FloatGrid.pointField (Or.inr (by norm_num)) (by norm_num)
  have order : FloatGrid.point 52 n ≤ FloatGrid.point 52 (infinity - 1) :=
    (FloatGrid.pointStrict 52).monotone (by omega)
  rw [last] at order
  have order' : (FloatGrid.point 52 n : ℚ) ≤ ((2 ^ 53 - 1 : Nat) : ℚ) * (2 : ℚ) ^ ((2045 : Nat) : Int) := by
    rw [zpow_natCast]
    exact_mod_cast order
  rw [fieldValue]
  refine le_trans (mul_le_mul_of_nonneg_right order' (KeyNumber.twoPos _).le) (le_of_eq ?_)
  rw [mul_assoc, ← zpow_add₀ (by norm_num)]
  norm_num

/- A decimal this near a double is nearer to it than to every other. -/
theorem closerThanOthers {n m : Nat} {d : ℚ} (near : |fieldValue n - d| * (2 * 10 ^ 33) ≤ fieldValue n)
    (best : |d - fieldValue m| ≤ |d - fieldValue n|) : m = n := by
  by_contra other
  have apart := @FloatGrid.pointApart 52 m n other
  have size := FloatGrid.pointUnits 52 n
  have positive : (0 : ℚ) < FloatGrid.unit 52 n := by exact_mod_cast FloatGrid.unitPos 52 n
  have size' : (FloatGrid.point 52 n : ℚ) < 2 ^ 53 * FloatGrid.unit 52 n := by exact_mod_cast size
  have scale := KeyNumber.twoPos (-1074)
  have triangle : |fieldValue m - fieldValue n| ≤ |fieldValue m - d| + |d - fieldValue n| := abs_sub_le _ _ _
  have distance : |fieldValue m - fieldValue n| =
      |(FloatGrid.point 52 m : ℚ) - FloatGrid.point 52 n| * 2 ^ (-1074 : Int) := by
    rw [fieldValue, fieldValue, ← sub_mul, abs_mul, abs_of_pos scale]
  rw [abs_sub_comm (fieldValue m) d] at triangle
  rw [abs_sub_comm d (fieldValue n)] at triangle best
  rw [distance] at triangle
  have value : fieldValue n = FloatGrid.point 52 n * 2 ^ (-1074 : Int) := rfl
  generalize |fieldValue n - d| = error at *
  generalize |d - fieldValue m| = error' at *
  generalize |(FloatGrid.point 52 m : ℚ) - FloatGrid.point 52 n| = gap at *
  rw [value] at near
  generalize (2 : ℚ) ^ (-1074 : Int) = u at *
  generalize (FloatGrid.point 52 n : ℚ) = v at *
  generalize (FloatGrid.unit 52 n : ℚ) = w at *
  have wide : w * u ≤ 2 * (gap * u) := by nlinarith
  have narrow : v * u < 2 ^ 53 * w * u := mul_lt_mul_of_pos_right size' scale
  have some : 0 < w * u := mul_pos positive scale
  nlinarith

theorem leastDouble {n : Nat} (pos : 0 < n) : 10 ^ (minExponent + 33) ≤ fieldValue n := by
  have one : 1 ≤ FloatGrid.point 52 n := by
    have := FloatGrid.pointStrict 52 pos
    omega
  have one' : (1 : ℚ) ≤ FloatGrid.point 52 n := by exact_mod_cast one
  have scale := KeyNumber.twoPos (-1074)
  have small : (10 : ℚ) ^ (minExponent + 33) ≤ 2 ^ (-1074 : Int) := by
    calc (10 : ℚ) ^ (minExponent + 33) ≤ 10 ^ (-1074 : Int) := zpow_le_zpow_right₀ (by norm_num) (by decide)
      _ ≤ 2 ^ (-1074 : Int) := by
        rw [zpow_neg, zpow_neg]
        exact inv_anti₀ (by positivity) (zpow_le_zpow_left₀ (by norm_num) (by norm_num) (by norm_num))
  rw [fieldValue]
  exact small.trans (le_mul_of_one_le_left scale.le one')

theorem roundTrip {bits : UInt64} (small : fieldOf bits < infinity) {c : Nat} {e : Int} {pref : Int}
    (rounded : Rounded (signOf bits) (fieldValue (fieldOf bits)) pref (.finite (signOf bits) c e)) :
    toBinary64 (.finite (signOf bits) c e) = bits := by
  have double := toBinary64Nearest (signOf bits) (roundedFits rounded)
  have nonneg := fieldValueNonneg (fieldOf bits)
  -- the decimal is as near to the double as 34 digits are
  have near : |fieldValue (fieldOf bits) - magnitude c e| * (2 * 10 ^ 33) ≤ fieldValue (fieldOf bits) := by
    rcases Nat.eq_zero_or_pos (fieldOf bits) with zero | pos
    · have none : fieldValue 0 = 0 := by simp [fieldValue, FloatGrid.point]
      rw [zero, none] at rounded ⊢
      have worth : magnitude c e = 0 := by
        cases rounded with
        | exact closest => exact closest.worth
        | inexact held => exact absurd (by simp [magnitude]) (held 0 0 (by decide))
      rw [worth, sub_zero, abs_zero, zero_mul]
    · have normal := leastDouble pos
      exact roundedNear (lt_of_lt_of_le (tenPos _) normal) normal rounded
  have below : magnitude c e < overflowAt := by
    have most := fieldValueBound small
    have above : magnitude c e - fieldValue (fieldOf bits) ≤ |fieldValue (fieldOf bits) - magnitude c e| := by
      rw [abs_sub_comm]
      exact le_abs_self _
    have unit := KeyNumber.twoPos 971
    rw [overflowSplit]
    generalize (2 : ℚ) ^ (971 : Int) = u at *
    linarith
  obtain ⟨y,is,best⟩ := double.nearest below
  obtain ⟨inside,rfl⟩ := finiteField is
  rw [double.sign] at best
  have closest := (best bits _ ((doubleFinite bits).1 small)).1
  rw [signedDistance, signedDistance] at closest
  exact bitsExt double.sign (closerThanOthers near closest)

/- A double's exact value `y` as the decimal and the flag it becomes. -/
structure Converts (bits : UInt64) (y : ℚ) (out : Raw × Bool) : Prop where
  sign : y = Exact.signed (signOf bits) |y|
  rounded : ∃ pref, Prefers |y| pref ∧ Rounded (signOf bits) |y| pref out.1
  inexact : ∃ c e, out.1 = .finite (signOf bits) c e ∧ (out.2 = true ↔ Exact.signed (signOf bits) (magnitude c e) ≠ y)

theorem binary64Conversions :
    (∀ bits y, Exact.double bits = .finite y →
      ∃ out, fromBinary64 bits = some out ∧ Converts bits y out ∧ toBinary64 out.1 = bits) ∧
    ∀ word negative c e, decodeRaw word = .finite negative c e →
      NearestDouble negative (magnitude c e) (toBinary64 (decodeRaw word)) := by
  constructor
  · intro bits y finite
    obtain ⟨small,rfl⟩ := finiteField finite
    obtain ⟨out,pref,is,prefers,rounded,⟨c,e,raw⟩,inexact⟩ := fromBinary64Arrives bits small
    have nonneg := fieldValueNonneg (fieldOf bits)
    have size : |Exact.signed (signOf bits) (fieldValue (fieldOf bits))| = fieldValue (fieldOf bits) := by
      cases signOf bits <;> simp [Exact.signed, abs_of_nonneg nonneg]
    refine ⟨out,is,⟨by rw [size],⟨pref,by rwa [size],by rwa [size]⟩,c,e,raw,?_⟩,?_⟩
    · have inj {x z : ℚ} : Exact.signed (signOf bits) x ≠ Exact.signed (signOf bits) z ↔ x ≠ z := by
        cases signOf bits <;> simp [Exact.signed]
      rw [inexact, inj, raw]
      constructor
      · exact fun all => all c e rfl
      · rintro differ c' e' ⟨⟩
        exact differ
    · rw [raw] at rounded ⊢
      exact roundTrip small rounded
  · intro word negative c e is
    have stored := decodeStored word
    rw [is] at stored ⊢
    exact toBinary64Nearest negative stored

/- The double nearest to a tenth, and the decimal 1.50. -/
theorem binary64Tenth :
    (∃ out, fromBinary64 0x3FB999999999999A = some out ∧
      Converts 0x3FB999999999999A (Exact.signed (signOf 0x3FB999999999999A) (fieldValue (fieldOf 0x3FB999999999999A))) out ∧
      toBinary64 out.1 = 0x3FB999999999999A) ∧
    NearestDouble false (magnitude 150 (-2)) (toBinary64 (decodeRaw (pack false 150 (-2)))) :=
  ⟨binary64Conversions.1 _ _ ((doubleFinite 0x3FB999999999999A).1 (by decide)),
    binary64Conversions.2 _ _ _ _ (decodeRawPack false (by decide))⟩

end Kimmy.Decimal.Arith
