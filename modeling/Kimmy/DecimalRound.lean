import Kimmy.Magnitude
import Kimmy.HalfEven

/-!
Rounding an exact value once to a `Decimal128` (`round` of `decimal/arith.rs`): 34 digits,
half to even, the preferred exponent where the result is exact.
-/
namespace Kimmy.Decimal.Arith
open Limbs BigInt

def prec : Nat := 34
def emax : Int := 6144

def finite (negative : Bool) (coefficient : Nat) (exponent : Int) : Raw :=
  .finite negative coefficient (max minExponent (min exponent maxExponent))

/- Trailing zeros come off, down to the preferred exponent. -/
def strip (c : Mag) (e pref : Int) : Mag × Int :=
  if e < pref then
    let zeros := c.trailingZeros (min (pref - e).toNat (2 ^ 32 - 1))
    if 0 < zeros then ((c.splitDigits zeros).1,e + zeros) else (c,e)
  else (c,e)

/- The digits above 34, and those below the least exponent, are cut off; `none` is an `expect`. -/
def cutOff (c : Mag) (e : Int) (sticky : Bool) : Option (Nat × Int) :=
  let digits : Int := c.digits
  let cut := max (max (digits - prec) (minExponent - e)) 0
  if 0 < cut then do
    let coefficient ←
      if digits < cut then some 0
      else do
        let (quotient,tail) := c.splitDigits cut.toNat
        let coefficient ← quotient.toU128
        some (coefficient + (HalfEven.up tail.againstHalf sticky coefficient).toNat)
    if prec < Decimal.digits coefficient then some (coefficient / 10,e + cut + 1) else some (coefficient,e + cut)
  else do some (← c.toU128,e)

/- Overflow, and folding a large exponent down. -/
def settle (negative : Bool) (coefficient : Nat) (e : Int) : Raw :=
  if coefficient = 0 then finite negative 0 e
  else if emax < e + Decimal.digits coefficient - 1 then .inf negative
  else if maxExponent < e then finite negative (coefficient * 10 ^ (e - maxExponent).toNat) maxExponent
  else finite negative coefficient e

def round (negative : Bool) (c : Mag) (e : Int) (sticky : Bool) (pref : Int) : Option Raw :=
  if c.isZero && !sticky then some (finite negative 0 pref)
  else
    let (c,e) := if sticky then (c,e) else strip c e pref
    if !sticky && c.digits ≤ prec && minExponent ≤ e && e ≤ maxExponent then do
      some (finite negative (← c.toU128) e)
    else do
      let (coefficient,e) ← cutOff c e sticky
      some (settle negative coefficient e)

/-! What rounding once means. -/

/- The pair is worth `x`, and no pair of that value has an exponent nearer the preferred one. -/
structure Closest (x : ℚ) (pref : Int) (c : Nat) (e : Int) : Prop where
  fits : Fits c e
  worth : magnitude c e = x
  nearest : ∀ d f, Fits d f → magnitude d f = x → |e - pref| ≤ |f - pref|

/- The least exponent at which `x` has at most 34 digits. -/
structure Quantum (x : ℚ) (q : Int) : Prop where
  range : minExponent ≤ q
  above : x < 10 ^ (q + 34)
  least : ∀ r, minExponent ≤ r → x < 10 ^ (r + 34) → q ≤ r

inductive Rounded (negative : Bool) (x : ℚ) (pref : Int) : Raw → Prop where
  | exact {c e} (closest : Closest x pref c e) : Rounded negative x pref (.finite negative c e)
  | inexact {q n c e} (held : ∀ d f, Fits d f → magnitude d f ≠ x) (quantum : Quantum x q)
      (nearest : HalfEven.Nearest (x / 10 ^ q) n) (fits : Fits c e) (worth : magnitude c e = magnitude n q)
      (full : ∀ d f, Fits d f → magnitude d f = magnitude n q → e ≤ f) :
      Rounded negative x pref (.finite negative c e)
  | overflow {q n} (quantum : Quantum x q) (nearest : HalfEven.Nearest (x / 10 ^ q) n)
      (beyond : ∀ d f, Fits d f → magnitude d f ≠ magnitude n q) : Rounded negative x pref (.inf negative)

/- What `round` is given: `x` in `[c, c + 1)` units of `10 ^ e`. -/
structure Stands (x : ℚ) (c : Nat) (e : Int) (sticky : Bool) (pref : Int) : Prop where
  low : magnitude c e ≤ x
  high : x < magnitude (c + 1) e
  exact' : sticky = false ↔ x = magnitude c e
  long : sticky = true → 10 ^ 34 ≤ c
  order : e ≤ pref ∨ 10 ^ 34 ≤ c
  near : pref - e < 2 ^ 32

/-! Powers of ten. -/

theorem tenPos (e : Int) : (0 : ℚ) < 10 ^ e := zpow_pos (by norm_num) e

theorem tenLt {a b : Int} : (10 : ℚ) ^ a < 10 ^ b ↔ a < b := zpow_lt_zpow_iff_right₀ (by norm_num)

theorem tenLe {a b : Int} : (10 : ℚ) ^ a ≤ 10 ^ b ↔ a ≤ b := zpow_le_zpow_iff_right₀ (by norm_num)

theorem tenSplit (n : Nat) (e : Int) : (10 : ℚ) ^ ((n : Int) + e) = (10 ^ n : Nat) * 10 ^ e := by
  rw [zpow_add₀ (by norm_num), zpow_natCast]
  push_cast
  rfl

theorem magnitudeLt {c n : Nat} (e : Int) (small : c < 10 ^ n) : magnitude c e < 10 ^ ((n : Int) + e) := by
  rw [tenSplit, magnitude]
  exact mul_lt_mul_of_pos_right (by exact_mod_cast small) (tenPos e)

theorem leMagnitude {c n : Nat} (e : Int) (large : 10 ^ n ≤ c) : 10 ^ ((n : Int) + e) ≤ magnitude c e := by
  rw [tenSplit, magnitude]
  exact mul_le_mul_of_nonneg_right (by exact_mod_cast large) (tenPos e).le

/- Every pair of a value has an exponent of at least the quantum. -/
theorem pairsAbove {v : ℚ} {q : Int} (large : q = minExponent ∨ 10 ^ (q + 33) ≤ v) {d : Nat} {f : Int} (fits : Fits d f)
    (same : magnitude d f = v) : q ≤ f := by
  rcases large with rfl | large
  · exact fits.2.1
  · have below := magnitudeLt f (fitsDigits fits)
    rw [same] at below
    have := tenLt.mp (lt_of_le_of_lt large below)
    omega

/-! The steps of `round`. -/

theorem stripSpec {c : Mag} (pos : 0 < c.value) {e pref : Int} (near : pref - e < 2 ^ 32) :
    0 < (strip c e pref).1.value ∧ magnitude (strip c e pref).1.value (strip c e pref).2 = magnitude c.value e ∧
      e ≤ (strip c e pref).2 ∧ ((strip c e pref).2 ≤ pref ∨ strip c e pref = (c,e)) ∧
      ((strip c e pref).2 < pref → (strip c e pref).1.value % 10 ≠ 0) := by
  unfold strip
  split_ifs with less
  · simp only
    rw [min_eq_left (by omega : (pref - e).toNat ≤ 2 ^ 32 - 1)]
    obtain ⟨most,divides,stops⟩ := Mag.trailingZerosSpec pos (pref - e).toNat
    generalize c.trailingZeros (pref - e).toNat = zeros at *
    split_ifs with some
    · simp only
      rw [Mag.splitDigitsValue]
      obtain ⟨core,is⟩ := divides
      have quotient : c.value / 10 ^ zeros = core := by
        rw [is]
        exact Nat.mul_div_cancel_left _ (by positivity)
      rw [quotient]
      refine ⟨?_,?_,by omega,Or.inl (by omega),fun below => ?_⟩
      · rcases Nat.eq_zero_or_pos core with rfl | positive
        · omega
        · exact positive
      · rw [is, Nat.mul_comm, magnitudeShift]
      · intro ten
        refine stops (by omega) ?_
        rw [is, pow_succ]
        exact Nat.mul_dvd_mul_left _ (Nat.dvd_of_mod_eq_zero ten)
    · refine ⟨pos,rfl,le_rfl,Or.inr rfl,fun below ten => ?_⟩
      have none : zeros = 0 := by omega
      rw [none] at stops
      exact stops (by omega) (by simpa using Nat.dvd_of_mod_eq_zero ten)
  · exact ⟨pos,rfl,le_rfl,Or.inr rfl,fun below => absurd below less⟩

/- `x` in units of the least digit kept. -/
structure Within (x : ℚ) (c : Nat) (e : Int) (sticky : Bool) : Prop where
  pos : 0 < c
  low : (c : ℚ) ≤ x / 10 ^ e
  high : x / 10 ^ e < c + 1
  exact' : sticky = false ↔ x / 10 ^ e = c

theorem unitsOf {x : ℚ} {c : Nat} {e : Int} : x / 10 ^ e = c ↔ x = magnitude c e := by
  rw [div_eq_iff (tenNe e), magnitude]

theorem withinBounds {x : ℚ} {c : Nat} {e : Int} {sticky : Bool} (within : Within x c e sticky) :
    10 ^ ((Decimal.digits c : Int) + e - 1) ≤ x ∧ x < 10 ^ ((Decimal.digits c : Int) + e) := by
  obtain ⟨pos,low,high,_⟩ := within
  have some := digitsPos pos
  have least : 10 ^ (Decimal.digits c - 1) ≤ c := ltDigits.mp (by omega)
  have most := digitsBound c
  rw [le_div_iff₀ (tenPos e)] at low
  rw [div_lt_iff₀ (tenPos e)] at high
  constructor
  · rw [show (Decimal.digits c : Int) + e - 1 = ((Decimal.digits c - 1 : Nat) : Int) + e by omega]
    exact (leMagnitude e least).trans low
  · rw [tenSplit]
    refine lt_of_lt_of_le high (mul_le_mul_of_nonneg_right ?_ (tenPos e).le)
    exact_mod_cast most

/- The exponent after the cut is the quantum. -/
theorem cutQuantum {x : ℚ} {c : Nat} {e : Int} {sticky : Bool} (within : Within x c e sticky) {q : Int}
    (is : q = e + max (max ((Decimal.digits c : Int) - prec) (minExponent - e)) 0)
    (cut : 0 < max (max ((Decimal.digits c : Int) - prec) (minExponent - e)) 0) :
    Quantum x q ∧ (q = minExponent ∨ 10 ^ (q + 33) ≤ x) := by
  obtain ⟨least,most⟩ := withinBounds within
  have prec' : prec = 34 := rfl
  have large : q = minExponent ∨ 10 ^ (q + 33) ≤ x := by
    rcases le_or_gt ((Decimal.digits c : Int) - prec) (minExponent - e) with low | high
    · exact Or.inl (by omega)
    · refine Or.inr (le_trans (tenLe.mpr ?_) least)
      omega
  refine ⟨⟨by omega,lt_of_lt_of_le most (tenLe.mpr (by omega)),fun r range above => ?_⟩,large⟩
  rcases large with bottom | large
  · omega
  · have := tenLt.mp (lt_of_le_of_lt large above)
    omega

theorem cutOffSpec {x : ℚ} {c : Mag} {e : Int} {sticky : Bool} (within : Within x c.value e sticky)
    (cut : 0 < max (max ((Decimal.digits c.value : Int) - prec) (minExponent - e)) 0) :
    ∃ q n, cutOff c e sticky = some (if n = 10 ^ 34 then (10 ^ 33,q + 1) else (n,q)) ∧ n ≤ 10 ^ 34 ∧
      q = e + max (max ((Decimal.digits c.value : Int) - prec) (minExponent - e)) 0 ∧
      HalfEven.Nearest (x / 10 ^ q) n := by
  have prec' : prec = 34 := rfl
  obtain ⟨quantum,_⟩ := cutQuantum within rfl cut
  obtain ⟨pos,low,high,exact'⟩ := within
  generalize is : max (max ((Decimal.digits c.value : Int) - prec) (minExponent - e)) 0 = k at *
  obtain ⟨j,rfl⟩ : ∃ j : Nat, k = j + 1 := ⟨(k - 1).toNat,by omega⟩
  have units : x / 10 ^ (e + (j + 1 : Int)) = x / 10 ^ e / (2 * (5 * 10 ^ j) : Nat) := by
    rw [div_div, zpow_add₀ (by norm_num), show (2 * (5 * 10 ^ j) : Nat) = 10 ^ (j + 1) by rw [pow_succ]; ring]
    push_cast
    rw [← zpow_natCast]
    push_cast
    rfl
  -- the coefficient after rounding, and how the source writes it
  have shape {n : Nat} (small : n ≤ 10 ^ 34) :
      (if prec < Decimal.digits n then some (n / 10,e + (j + 1 : Int) + 1) else some (n,e + (j + 1 : Int))) =
        some (if n = 10 ^ 34 then (10 ^ 33,e + (j + 1 : Int) + 1) else (n,e + (j + 1 : Int))) := by
    by_cases top : n = 10 ^ 34
    · rw [if_pos top, if_pos (by rw [prec', ltDigits, top]), top]
      norm_num
    · rw [if_neg top, if_neg (by rw [prec', ltDigits]; omega)]
  unfold cutOff
  simp only [Mag.digitsValue, is]
  rw [if_pos (by omega)]
  by_cases all : (Decimal.digits c.value : Int) < (j : Int) + 1
  · refine ⟨e + (j + 1),0,?_,by omega,rfl,?_⟩
    · rw [if_pos all]
      exact shape (Nat.zero_le _)
    · -- every digit lies below the first one cut, so the value is below a tenth
      have nonneg : 0 ≤ x / 10 ^ e := le_trans (Nat.cast_nonneg _) low
      have most : x / 10 ^ e ≤ 10 ^ j := by
        have bound : c.value + 1 ≤ 10 ^ j :=
          le_trans (digitsBound c.value) (Nat.pow_le_pow_right (by decide) (by omega))
        exact le_trans high.le (by exact_mod_cast bound)
      have power : (0 : ℚ) < 10 ^ j := by positivity
      have small : x / 10 ^ (e + (j + 1 : Int)) < 1 / 2 := by
        rw [units, div_lt_iff₀ (by positivity)]
        push_cast
        linarith
      have least : 0 ≤ x / 10 ^ (e + (j + 1 : Int)) := by
        rw [units]
        positivity
      refine ⟨?_,fun _ => rfl⟩
      rw [Nat.cast_zero, sub_zero, abs_of_nonneg least]
      exact small.le
  · rw [if_neg all]
    have toNat : ((j : Int) + 1).toNat = j + 1 := by omega
    have ten : 2 * (5 * 10 ^ j) = 10 ^ (j + 1) := by rw [pow_succ]; ring
    obtain ⟨half,_⟩ := c.splitDigitsCut (show 0 < j + 1 by omega)
    rw [Nat.add_sub_cancel] at half
    have nearest := @HalfEven.cutNearest _ (5 * 10 ^ j) (by positivity) _ low high _ exact'
    rw [← units, ten] at nearest
    have kept : c.value / 10 ^ (j + 1) < 10 ^ 34 := by
      refine Nat.div_lt_of_lt_mul (lt_of_lt_of_le (digitsBound c.value) ?_)
      rw [← pow_add]
      exact Nat.pow_le_pow_right (by decide) (by omega)
    have bound := coefficientBound.2
    have read : (c.splitDigits (j + 1)).1.toU128 = some (c.value / 10 ^ (j + 1)) := by
      rw [Mag.toU128Value, Mag.splitDigitsValue]
      rw [Mag.splitDigitsValue]
      omega
    refine ⟨e + (j + 1),_,?_,?_,rfl,nearest⟩
    · simp only [toNat, read, half, Option.bind_eq_bind, Option.bind_some]
      refine shape ?_
      have := Bool.toNat_le (HalfEven.up (compare (c.value % 10 ^ (j + 1)) (5 * 10 ^ j)) sticky (c.value / 10 ^ (j + 1)))
      omega
    · have := Bool.toNat_le (HalfEven.up (compare (c.value % 10 ^ (j + 1)) (5 * 10 ^ j)) sticky (c.value / 10 ^ (j + 1)))
      omega

theorem finiteInside {e : Int} (negative : Bool) (c : Nat) (low : minExponent ≤ e) (high : e ≤ maxExponent) :
    finite negative c e = .finite negative c e := by
  rw [finite, min_eq_left high, max_eq_right low]

/- A rounded coefficient of at most 34 digits is stored, folded down or an overflow. -/
theorem settleSpec (negative : Bool) {n : Nat} {q : Int} (short : n < 10 ^ 34) (range : minExponent ≤ q)
    (zero : n = 0 → q ≤ maxExponent) :
    (∃ c e, settle negative n q = .finite negative c e ∧ Fits c e ∧ magnitude c e = magnitude n q ∧
        (e = q ∨ maxExponent < q ∧ e = maxExponent)) ∨
      settle negative n q = .inf negative ∧ ∀ d f, Fits d f → magnitude d f ≠ magnitude n q := by
  have nines : maxCoefficient + 1 = 10 ^ 34 := by decide
  have limit : emax = maxExponent + 33 := rfl
  unfold settle
  split_ifs with none past fold
  · subst none
    exact Or.inl ⟨0,q,finiteInside negative 0 range (zero rfl),⟨Nat.zero_le _,range,zero rfl⟩,rfl,Or.inl rfl⟩
  · refine Or.inr ⟨rfl,fun d f fits same => ?_⟩
    have some := digitsPos (Nat.pos_of_ne_zero none)
    have least : 10 ^ (Decimal.digits n - 1) ≤ n := ltDigits.mp (by omega)
    have large := leMagnitude q least
    have below := magnitudeLt f (fitsDigits fits)
    rw [same] at below
    have := tenLt.mp (lt_of_le_of_lt large below)
    have := fits.2.2
    omega
  · have length : n * 10 ^ (q - maxExponent).toNat < 10 ^ 34 := by
      rw [← digitsLe, digitsScaled (Nat.pos_of_ne_zero none)]
      omega
    refine Or.inl ⟨n * 10 ^ (q - maxExponent).toNat,maxExponent,?_,⟨by omega,by decide,le_rfl⟩,?_,Or.inr ⟨fold,rfl⟩⟩
    · exact finiteInside _ _ (by decide) le_rfl
    · rw [magnitudeShift]
      congr 1
      omega
  · exact Or.inl ⟨n,q,finiteInside negative n range (by omega),⟨by omega,range,by omega⟩,rfl,Or.inl rfl⟩

/- Rounding what is cut: exact where only zeros were cut off, and otherwise no pair has the value. -/
theorem roundCut {x : ℚ} {c : Mag} {e pref : Int} {sticky : Bool} (negative : Bool)
    (within : Within x c.value e sticky) (core : e < pref → sticky = false → c.value % 10 ≠ 0)
    (cut : 0 < max (max ((Decimal.digits c.value : Int) - prec) (minExponent - e)) 0) :
    ∃ pair, cutOff c e sticky = some pair ∧ Rounded negative x pref (settle negative pair.1 pair.2) := by
  have prec' : prec = 34 := rfl
  obtain ⟨q,n,is,most,q',nearest⟩ := cutOffSpec within cut
  obtain ⟨quantum,large⟩ := cutQuantum within q' cut
  refine ⟨_,is,?_⟩
  -- the pair that is settled has the rounded value, and at most 34 digits
  obtain ⟨m,p,pair,short,same,where'⟩ : ∃ m p, (if n = 10 ^ 34 then ((10 ^ 33 : Nat),q + 1) else (n,q)) = (m,p) ∧
      m < 10 ^ 34 ∧ magnitude m p = magnitude n q ∧ (m = n ∧ p = q ∨ m ≠ 0 ∧ 10 ^ 34 ≤ n ∧ p = q + 1) := by
    by_cases top : n = 10 ^ 34
    · refine ⟨10 ^ 33,q + 1,if_pos top,by norm_num,?_,Or.inr ⟨by norm_num,top.ge,rfl⟩⟩
      rw [top, show (10 : Nat) ^ 34 = 10 ^ 33 * 10 ^ 1 by norm_num, magnitudeShift]
      rfl
    · exact ⟨n,q,if_neg top,by omega,rfl,Or.inl ⟨rfl,rfl⟩⟩
  rw [pair]
  simp only
  -- at a quantum above the least, the rounded value keeps 34 digits
  have rounded : q = minExponent ∨ 10 ^ (q + 33) ≤ magnitude n q := by
    rcases large with bottom | large
    · exact Or.inl bottom
    · refine Or.inr ?_
      have units : (10 : ℚ) ^ 33 ≤ x / 10 ^ q := by
        rw [le_div_iff₀ (tenPos q), ← zpow_natCast, ← zpow_add₀ (by norm_num)]
        exact (tenLe.mpr (by push_cast; omega)).trans large
      have least : 10 ^ 33 ≤ n := by
        by_contra less
        have below : (n : ℚ) + 1 ≤ 10 ^ 33 := by exact_mod_cast not_le.mp less
        have := (abs_le.mp nearest.1).2
        linarith
      rw [add_comm]
      exact leMagnitude q least
  have full {d : Nat} {f : Int} (fits : Fits d f) (worth : magnitude d f = magnitude n q) : p ≤ f := by
    rcases where' with ⟨_,rfl⟩ | ⟨_,top,rfl⟩
    · exact pairsAbove rounded fits worth
    · have below := magnitudeLt f (fitsDigits fits)
      rw [worth] at below
      have := tenLt.mp (lt_of_le_of_lt (leMagnitude q top) below)
      omega
  have range : minExponent ≤ p := by
    have := quantum.range
    omega
  have bottom : m = 0 → p ≤ maxExponent := by
    intro none
    rcases where' with ⟨rfl,rfl⟩ | ⟨some,_⟩
    swap
    · exact absurd none some
    subst none
    rcases rounded with rfl | rounded
    · decide
    · have : magnitude 0 p = 0 := by simp [magnitude]
      have := tenPos (p + 33)
      linarith
  -- whether anything but zeros was cut
  by_cases held : ∃ d f, Fits d f ∧ magnitude d f = x
  · obtain ⟨d,f,fits,worth⟩ := held
    have above : q ≤ f := pairsAbove large fits worth
    have whole : x / 10 ^ q = ((d * 10 ^ (f - q).toNat : Nat) : ℚ) := by
      rw [unitsOf, ← worth, magnitudeShift]
      congr 1
      omega
    have integer : n = d * 10 ^ (f - q).toNat := by
      refine HalfEven.nearestUnique nearest ?_
      rw [whole]
      exact ⟨by norm_num,fun tie => by norm_num at tie⟩
    have exactly : x = magnitude n q := by
      rw [← unitsOf, whole, integer]
    have top := fits.2.2
    have stays := full fits (worth.trans exactly)
    rcases settleSpec negative short range bottom with ⟨c',e',stored,fits',worth',where''⟩ | ⟨_,beyond⟩
    swap
    · exact absurd (worth.trans (exactly.trans same.symm)) (beyond d f fits)
    rw [stored]
    refine .exact ⟨fits',worth'.trans (same.trans exactly.symm),fun d' f' held' equal => ?_⟩
    -- digits were cut off an integer, so they were zeros, and no zero was left above the preferred exponent
    have unit : x / 10 ^ e = ((n * 10 ^ (q - e).toNat : Nat) : ℚ) := by
      rw [unitsOf, exactly, magnitudeShift]
      congr 1
      omega
    have coefficient : c.value = n * 10 ^ (q - e).toNat := by
      have low := within.low
      have high := within.high
      rw [unit] at low high
      have first : c.value ≤ n * 10 ^ (q - e).toNat := by exact_mod_cast low
      have second : n * 10 ^ (q - e).toNat < c.value + 1 := by exact_mod_cast high
      omega
    have plain : sticky = false := within.exact'.mpr (by rw [unit, coefficient])
    have down : pref ≤ e := by
      by_contra less
      refine core (by omega) plain ?_
      obtain ⟨k,is⟩ : ∃ k, (q - e).toNat = k + 1 := ⟨(q - e).toNat - 1,by omega⟩
      rw [coefficient, is, pow_succ, ← Nat.mul_assoc]
      exact Nat.mul_mod_left _ _
    have next := full held' (equal.trans exactly)
    rcases abs_cases (e' - pref) with first | first <;> rcases abs_cases (f' - pref) with second | second <;> omega
  · rw [not_exists] at held
    have none : ∀ d f, Fits d f → magnitude d f ≠ x := fun d f fits same => held d ⟨f,fits,same⟩
    rcases settleSpec negative short range bottom with ⟨c',e',stored,fits,worth,where''⟩ | ⟨inf,beyond⟩
    · rw [stored]
      refine .inexact none quantum nearest fits (worth.trans same) fun d f held' equal => ?_
      have := full held' equal
      omega
    · rw [inf]
      exact .overflow quantum nearest (same ▸ beyond)

/- An exact value that needs no cut: stored as it is, folded down, or past the format. -/
theorem roundPlain {c : Mag} {e pref : Int} (negative : Bool) (pos : 0 < c.value) (short : c.value < 10 ^ 34)
    (high : maxExponent < e) (order : e ≤ pref) :
    cutOff c e false = some (c.value,e) ∧ Rounded negative (magnitude c.value e) pref (settle negative c.value e) := by
  have prec' : prec = 34 := rfl
  have range : minExponent + 34 ≤ maxExponent := by decide
  have digits : Decimal.digits c.value ≤ 34 := digitsLe.mpr short
  have bound := coefficientBound.2
  constructor
  · unfold cutOff
    simp only [Mag.digitsValue]
    rw [if_neg (by omega), Mag.toU128Value (by omega)]
    rfl
  · rcases @settleSpec negative c.value e short (by omega) (fun none => by omega) with
      ⟨c',e',stored,fits,worth,where'⟩ | ⟨inf,beyond⟩
    · rw [stored]
      refine .exact ⟨fits,worth,fun d f held _ => ?_⟩
      have own := fits.2.2
      have top := held.2.2
      rcases abs_cases (e' - pref) with first | first <;> rcases abs_cases (f - pref) with second | second <;> omega
    · rw [inf]
      have some := digitsPos pos
      obtain ⟨k,is⟩ : ∃ k : Nat, Decimal.digits c.value + k = 34 := ⟨34 - Decimal.digits c.value,by omega⟩
      have same : magnitude (c.value * 10 ^ k) (e - k) = magnitude c.value e := by
        rw [magnitudeShift]
        congr 1
        omega
      have least : 10 ^ (Decimal.digits c.value - 1) ≤ c.value := ltDigits.mp (by omega)
      refine @Rounded.overflow _ _ _ (e - k) (c.value * 10 ^ k) ⟨by omega,?_,fun r _ above => ?_⟩ ?_ (same ▸ beyond)
      · refine lt_of_lt_of_le (magnitudeLt e (digitsBound c.value)) (tenLe.mpr (by omega))
      · have := tenLt.mp (lt_of_le_of_lt (leMagnitude e least) above)
        omega
      · rw [unitsOf.mpr same.symm]
        exact ⟨by norm_num,fun tie => by norm_num at tie⟩

theorem roundSpec {x : ℚ} {c : Mag} {e pref : Int} {sticky : Bool} (negative : Bool)
    (stands : Stands x c.value e sticky pref) :
    ∃ raw, round negative c e sticky pref = some raw ∧ Rounded negative x pref raw := by
  obtain ⟨low,high,exact',long,order,near⟩ := stands
  have prec' : prec = 34 := rfl
  have bound := coefficientBound.2
  have nines : maxCoefficient + 1 = 10 ^ 34 := by decide
  unfold round
  by_cases zero : c.value = 0
  · have plain : sticky = false := by
      by_contra some
      have := long (by simpa using some)
      omega
    have empty := (Mag.isZeroValue c).mpr zero
    rw [plain, empty]
    refine ⟨_,rfl,.exact ⟨⟨Nat.zero_le _,le_max_left _ _,?_⟩,?_,fun d f fits _ => clampNearest pref fits.2.1 fits.2.2⟩⟩
    · have : minExponent ≤ maxExponent := by decide
      omega
    · rw [exact'.mp plain, zero]
      simp [magnitude]
  · have pos : 0 < c.value := Nat.pos_of_ne_zero zero
    have some : c.isZero = false := Bool.eq_false_of_not_eq_true fun is => zero ((Mag.isZeroValue c).mp is)
    rw [some, Bool.false_and, if_neg Bool.noConfusion]
    cases sticky with
    | true =>
      have large := long rfl
      have within : Within x c.value e true := by
        refine ⟨pos,by rwa [le_div_iff₀ (tenPos e)],?_,by rw [unitsOf]; exact exact'⟩
        rw [div_lt_iff₀ (tenPos e)]
        simpa [magnitude] using high
      have digits : 34 < Decimal.digits c.value := ltDigits.mpr large
      obtain ⟨pair,is,rounded⟩ := @roundCut _ _ _ pref _ negative within (fun _ no => by cases no) (by omega)
      refine ⟨_,?_,rounded⟩
      simp only [if_true, Bool.not_true, Bool.false_and, Bool.false_eq_true, if_false, is]
      rfl
    | false =>
      obtain ⟨pos',worth,up,where',core⟩ := stripSpec pos near
      have value : x = magnitude (strip c e pref).1.value (strip c e pref).2 := by rw [worth, ← exact'.mp rfl]
      have order' : (strip c e pref).2 ≤ pref ∨ 10 ^ 34 ≤ (strip c e pref).1.value := by
        rcases where' with below | same
        · exact Or.inl below
        · rw [same]
          exact order
      simp only [Bool.false_eq_true, if_false, Bool.not_false, Bool.true_and]
      generalize (strip c e pref).1 = c' at *
      generalize (strip c e pref).2 = e' at *
      have within : Within x c'.value e' false := by
        have unit := unitsOf.mpr value
        exact ⟨pos',by rw [unit],by rw [unit]; linarith,by rw [unit]; simp⟩
      split_ifs with fits
      · simp only [Bool.and_eq_true, decide_eq_true_eq, Mag.digitsValue] at fits
        obtain ⟨⟨short,least⟩,most⟩ := fits
        have small : c'.value < 10 ^ 34 := digitsLe.mp short
        rw [Mag.toU128Value (by omega)]
        refine ⟨_,rfl,?_⟩
        rw [finiteInside _ _ least most]
        refine .exact ⟨⟨by omega,least,most⟩,value.symm,fun d f held same => ?_⟩
        -- a pair of a larger exponent would need a zero at the end
        have below : e' < pref → f ≤ e' := by
          intro less
          by_contra above
          have scaled := scaledOf (value.symm.trans same.symm) (by omega : e' ≤ f)
          refine core less ?_
          obtain ⟨k,is⟩ : ∃ k, (f - e').toNat = k + 1 := ⟨(f - e').toNat - 1,by omega⟩
          rw [scaled, is, pow_succ, ← Nat.mul_assoc]
          exact Nat.mul_mod_left _ _
        rcases abs_cases (e' - pref) with first | first <;> rcases abs_cases (f - pref) with second | second <;> omega
      · simp only [Bool.and_eq_true, decide_eq_true_eq, Mag.digitsValue, not_and, not_le, prec'] at fits
        by_cases cut : 0 < max (max ((Decimal.digits c'.value : Int) - prec) (minExponent - e')) 0
        · obtain ⟨pair,is,rounded⟩ := roundCut negative within (fun less _ => core less) cut
          exact ⟨_,by rw [is]; rfl,rounded⟩
        · have digits : Decimal.digits c'.value ≤ 34 := by omega
          have small : c'.value < 10 ^ 34 := digitsLe.mp digits
          have past := fits ⟨digits,by omega⟩
          obtain ⟨is,rounded⟩ := @roundPlain c' e' pref negative pos' small past (by omega)
          rw [value]
          exact ⟨_,by rw [is]; rfl,rounded⟩

end Kimmy.Decimal.Arith
