import Kimmy.Numeric
import Mathlib.Tactic.LinearCombination

/-!
`cmp_numbers`: two numbers of any storage type compared by exact value. The class decides
first; inside a class the magnitudes are compared by the route the pair of representations
selects. `cmpNumbersExact` says that every route is the order of the values.
-/
namespace Kimmy

inductive Number where
  | binary (n : Numeric)
  | decimal (d : Decimal)

namespace Number
open BigInt Exact Decimal

def of : Bson → Option Number
  | .decimal128 d => some (.decimal (decode d))
  | other => (Numeric.decompose other).map .binary

def classRank : Number → Nat
  | .binary n => n.classRank
  | .decimal .nan => 0
  | .decimal .negInfinity => 1
  | .decimal (.finite true _ _) => 2
  | .decimal .zero => 3
  | .decimal (.finite false _ _) => 4
  | .decimal .posInfinity => 5

def negativeClass : Nat := 2

def pow10 : List Nat := (List.range 35).map (10 ^ ·)

/- The source's `expect` is on a coefficient below `10^34`; see `digitsSpec`. -/
def digits (c : Nat) : Nat := pow10.findIdx (fun power => c < power)

def cmpDecimals (c : Nat) (e : Int) (d : Nat) (f : Int) : Ordering :=
  let n := digits c
  let m := digits d
  (compare (n + e) (m + f)).then (compare (c * pow10.getD (34 - n) 0) (d * pow10.getD (34 - m) 0))

def log2TenLo : Int := 61278757397652712441
def log2TenHi : Int := log2TenLo + 1

def log2Interval (c : Nat) (e : Int) : Int × Int :=
  let log2C : Int := 127 - leadingZeros 128 c
  let (low,high) := if 0 ≤ e then (e * log2TenLo,e * log2TenHi) else (e * log2TenHi,e * log2TenLo)
  (log2C + low >>> (64 : Nat),log2C + (high + 2 ^ 64 - 1) >>> (64 : Nat))

def cmpDecimalBinaryExactly (c : Nat) (e : Int) (m : Nat) (f : Int) : Ordering :=
  let p := (max e 0).toNat
  let q := (max (-e) 0).toNat
  let s := (max f 0).toNat
  let t := (max (-f) 0).toNat
  let decimal := (Big.fromU128 c).mulPow5 p
  let binary := (Big.fromU128 m).mulPow5 q
  let twosDecimal := p + t
  let twosBinary := q + s
  if twosDecimal > twosBinary then (decimal.shl (twosDecimal - twosBinary)).cmp binary
  else decimal.cmp (binary.shl (twosBinary - twosDecimal))

def cmpDecimalBinary (c : Nat) (e : Int) (exp : Int) (mantissa : Nat) : Ordering :=
  let (lo,hi) := log2Interval c e
  if hi < exp then .lt
  else if lo > exp then .gt
  else cmpDecimalBinaryExactly c e mantissa (exp - 63)

def cmp (x y : Number) : Ordering :=
  let turned (magnitude : Ordering) := if x.classRank = negativeClass then magnitude.swap else magnitude
  if x.classRank ≠ y.classRank then compare x.classRank y.classRank
  else match x, y with
    | .binary x, .binary y => Numeric.cmpNumeric x y
    | .decimal (.finite _ c e), .decimal (.finite _ d f) => turned (cmpDecimals c e d f)
    | .decimal (.finite _ c e), .binary (.finite _ exp mantissa) =>
        turned (cmpDecimalBinary c e exp mantissa)
    | .binary (.finite _ exp mantissa), .decimal (.finite _ c e) =>
        turned (cmpDecimalBinary c e exp mantissa).swap
    | _, _ => .eq

def cmpNumbers (a b : Bson) : Ordering :=
  match of a, of b with
  | some x, some y => x.cmp y
  | _, _ => .eq

/-! Two decimals: the adjusted exponent, then both coefficients at 34 digits. -/

theorem pow10At {i : Nat} (small : i < 35) : pow10.getD i 0 = 10 ^ i := by
  simp [pow10, small]

theorem digitsSpec {c : Nat} (pos : 0 < c) (small : c ≤ maxCoefficient) :
    0 < digits c ∧ digits c ≤ 34 ∧ 10 ^ (digits c - 1) ≤ c ∧ c < 10 ^ digits c := by
  have length : pow10.length = 35 := by simp [pow10]
  have found : digits c < pow10.length := by
    rw [digits, List.findIdx_lt_length]
    exact ⟨10 ^ 34,List.mem_map.mpr ⟨34,by simp,rfl⟩,
      decide_eq_true (lt_of_le_of_lt small coefficientBound.1)⟩
  have at' {i : Nat} (h : i < pow10.length) : pow10[i] = 10 ^ i := by simp [pow10]
  have here : c < 10 ^ digits c := by
    have hit : c < pow10[digits c] := of_decide_eq_true (List.findIdx_getElem (w := found))
    rwa [at'] at hit
  have positive : 0 < digits c := by
    rcases Nat.eq_zero_or_pos (digits c) with zero | h
    · rw [zero] at here; omega
    · exact h
  refine ⟨positive,by omega,?_,here⟩
  have earlier : digits c - 1 < pow10.findIdx (fun power => decide (c < power)) := by
    show _ < digits c
    omega
  have before := List.not_of_lt_findIdx earlier
  simpa [at'] using before

theorem zpowTenLt {x y : ℚ} {a b : Int} (hx : x < 10 ^ a) (hy : (10 : ℚ) ^ b ≤ y) (h : a ≤ b) : x < y :=
  lt_of_lt_of_le hx ((zpow_le_zpow_right₀ (by norm_num) h).trans hy)

theorem magnitudeRange {c : Nat} {e : Int} (h : Canonical c e) :
    (10 : ℚ) ^ ((digits c : Int) + e - 1) ≤ magnitude c e ∧ magnitude c e < 10 ^ ((digits c : Int) + e) := by
  obtain ⟨positive,_,least,most⟩ := digitsSpec h.1 h.2.1
  have scale : (0 : ℚ) < 10 ^ e := zpow_pos (by norm_num) e
  constructor
  · rw [show (digits c : Int) + e - 1 = ((digits c - 1 : Nat) : Int) + e by omega,
      zpow_add₀ (by norm_num), zpow_natCast]
    exact mul_le_mul_of_nonneg_right (by exact_mod_cast least) scale.le
  · rw [zpow_add₀ (by norm_num), zpow_natCast]
    exact mul_lt_mul_of_pos_right (by exact_mod_cast most) scale

theorem magnitudeScaled {c : Nat} {e : Int} (h : Canonical c e) :
    magnitude c e = (c * pow10.getD (34 - digits c) 0 : Nat) * (10 : ℚ) ^ ((digits c : Int) + e - 34) := by
  obtain ⟨_,most,_⟩ := digitsSpec h.1 h.2.1
  rw [pow10At (by omega), magnitude]
  push_cast
  rw [mul_assoc, ← zpow_natCast, ← zpow_add₀ (by norm_num)]
  congr 2
  omega

theorem cmpDecimalsExact {c e d f} (hc : Canonical c e) (hd : Canonical d f) :
    cmpDecimals c e d f = compare (magnitude c e) (magnitude d f) := by
  obtain ⟨lowC,highC⟩ := magnitudeRange hc
  obtain ⟨lowD,highD⟩ := magnitudeRange hd
  simp only [cmpDecimals]
  rcases lt_trichotomy ((digits c : Int) + e) (digits d + f) with less | same | greater
  · rw [compare_lt_iff_lt.mpr less, Ordering.lt_then, eq_comm, compare_lt_iff_lt]
    exact zpowTenLt highC lowD (by omega)
  · rw [compare_eq_iff_eq.mpr same, Ordering.eq_then, magnitudeScaled hc, magnitudeScaled hd, same,
      compareMul (zpow_pos (by norm_num) _), compareCast]
  · rw [compare_gt_iff_gt.mpr greater, Ordering.gt_then, eq_comm, compare_gt_iff_gt]
    exact zpowTenLt highD lowC (by omega)

/-! A decimal against a binary value: the `log2` interval, then big integers. -/

theorem log2TenSplit : log2TenLo = 2 ^ 64 + (PowerOfFive.log2FiveLo : Int) ∧
    log2TenHi = 2 ^ 64 + (PowerOfFive.log2FiveHi : Int) := by decide

/- The two rounded products, for an exponent of either sign. -/
theorem log2Products (n : Nat) :
    ((n : Int) * log2TenLo) >>> (64 : Nat) = n + PowerOfFive.floorLog2 n ∧
    ((n : Int) * log2TenHi + 2 ^ 64 - 1) >>> (64 : Nat) = n + PowerOfFive.ceilLog2 n ∧
    (-(n : Int) * log2TenHi) >>> (64 : Nat) = -(n + PowerOfFive.ceilLog2 n : Int) ∧
    (-(n : Int) * log2TenLo + 2 ^ 64 - 1) >>> (64 : Nat) = -(n + PowerOfFive.floorLog2 n : Int) := by
  rw [log2TenSplit.1, log2TenSplit.2]
  unfold PowerOfFive.floorLog2 PowerOfFive.ceilLog2
  simp only [Int.shiftRight_eq_div_pow]
  rw [mul_add, mul_add, mul_add, mul_add, neg_mul, neg_mul, neg_mul, ← Nat.cast_mul, ← Nat.cast_mul]
  generalize n * PowerOfFive.log2FiveLo = low
  generalize n * PowerOfFive.log2FiveHi = high
  omega

theorem powTwoFive (n : Nat) : (10 : ℚ) ^ n = 2 ^ n * 5 ^ n := by
  rw [← mul_pow]; norm_num

/- `2^(n + ⌊n log2 5⌋) ≤ 10^n ≤ 2^(n + ⌈n log2 5⌉)`. -/
theorem powTenBounds {n : Nat} (small : n < 12655) :
    (2 : ℚ) ^ (n + PowerOfFive.floorLog2 n) ≤ 10 ^ n ∧ (10 : ℚ) ^ n ≤ 2 ^ (n + PowerOfFive.ceilLog2 n) := by
  have low : (2 : ℚ) ^ PowerOfFive.floorLog2 n ≤ 5 ^ n := by exact_mod_cast PowerOfFive.floorLog2Le small
  have high : (5 : ℚ) ^ n ≤ 2 ^ PowerOfFive.ceilLog2 n := by exact_mod_cast PowerOfFive.ceilLog2Ge small
  rw [powTwoFive, pow_add, pow_add]
  exact ⟨mul_le_mul_of_nonneg_left low (by positivity),mul_le_mul_of_nonneg_left high (by positivity)⟩

/- The interval's two shifts bound `10^e` whatever the sign of `e`. -/
theorem powTenInterval {e : Int} (low : minExponent ≤ e) (high : e ≤ maxExponent) :
    let (a,b) := if 0 ≤ e then (e * log2TenLo,e * log2TenHi) else (e * log2TenHi,e * log2TenLo)
    (2 : ℚ) ^ (a >>> (64 : Nat)) ≤ 10 ^ e ∧ (10 : ℚ) ^ e ≤ (2 : ℚ) ^ ((b + 2 ^ 64 - 1) >>> (64 : Nat)) := by
  unfold minExponent at low
  unfold maxExponent at high
  rcases le_or_gt 0 e with sign | sign
  · obtain ⟨n,rfl⟩ := Int.eq_ofNat_of_zero_le sign
    rw [if_pos sign]
    obtain ⟨floor,ceiling,_⟩ := log2Products n
    simp only [floor, ceiling]
    exact_mod_cast powTenBounds (n := n) (by omega)
  · obtain ⟨n,rfl⟩ : ∃ n : Nat, e = -n := ⟨e.natAbs,by omega⟩
    rw [if_neg (by omega)]
    obtain ⟨_,_,ceiling,floor⟩ := log2Products n
    obtain ⟨below,above⟩ := powTenBounds (n := n) (by omega)
    simp only [floor, ceiling, zpow_neg]
    constructor
    · exact inv_anti₀ (by positivity) (by exact_mod_cast above)
    · exact inv_anti₀ (by positivity) (by exact_mod_cast below)

theorem log2IntervalSpec {c e} (h : Canonical c e) :
    (2 : ℚ) ^ (log2Interval c e).1 ≤ magnitude c e ∧ magnitude c e < 2 ^ ((log2Interval c e).2 + 1) := by
  obtain ⟨pos,small,low,high⟩ := h
  obtain ⟨present,least,most⟩ := bitLengthSpec pos
  have width : bitLength c ≤ 128 := bitLengthLe.mpr (by
    have := coefficientBound
    omega)
  have log2C : (127 - leadingZeros 128 c : Int) = (bitLength c - 1 : Nat) := by
    unfold leadingZeros; omega
  have bounds := powTenInterval low high
  simp only [log2Interval, log2C] at bounds ⊢
  generalize (if 0 ≤ e then (e * log2TenLo,e * log2TenHi) else (e * log2TenHi,e * log2TenLo)) = pair at *
  obtain ⟨a,b⟩ := pair
  obtain ⟨below,above⟩ := bounds
  dsimp only
  constructor
  · rw [zpow_add₀ (by norm_num), zpow_natCast]
    exact mul_le_mul (by exact_mod_cast least) below (by positivity) (by positivity)
  · rw [add_right_comm, show ((bitLength c - 1 : Nat) : Int) + 1 = bitLength c by omega,
      zpow_add₀ (by norm_num), zpow_natCast]
    exact mul_lt_mul (by exact_mod_cast most) above (by positivity) (by positivity)

/- Both sides times `10^q · 2^t`, less the smaller power of two. -/
theorem cmpDecimalBinaryExactlyValue {c m : Nat} (e f : Int) (hc : c < 2 ^ 128) (hm : m < 2 ^ 128) :
    cmpDecimalBinaryExactly c e m f = compare (magnitude c e) (m * (2 : ℚ) ^ f) := by
  have ten : (10 : ℚ) ^ e * 10 ^ (max (-e) 0).toNat = 5 ^ (max e 0).toNat * 2 ^ (max e 0).toNat := by
    rw [← mul_pow, ← zpow_natCast, ← zpow_natCast, ← zpow_add₀ (by norm_num),
      show e + ((max (-e) 0).toNat : Int) = (max e 0).toNat by omega]
    norm_num
  have two : (2 : ℚ) ^ f * 2 ^ (max (-f) 0).toNat = 2 ^ (max f 0).toNat := by
    rw [← zpow_natCast, ← zpow_natCast, ← zpow_add₀ (by norm_num),
      show f + ((max (-f) 0).toNat : Int) = (max f 0).toNat by omega]
  simp only [cmpDecimalBinaryExactly]
  generalize (max e 0).toNat = p at *
  generalize (max (-e) 0).toNat = q at *
  generalize (max f 0).toNat = s at *
  generalize (max (-f) 0).toNat = t at *
  have scale : (0 : ℚ) < 10 ^ q * 2 ^ t := by positivity
  have left : magnitude c e * (10 ^ q * 2 ^ t) = (c * 5 ^ p * 2 ^ (p + t) : Nat) := by
    rw [magnitude]
    push_cast
    linear_combination (c : ℚ) * 2 ^ t * ten
  have right : m * (2 : ℚ) ^ f * (10 ^ q * 2 ^ t) = (m * 5 ^ q * 2 ^ (q + s) : Nat) := by
    rw [powTwoFive]
    push_cast
    linear_combination (m : ℚ) * 2 ^ q * 5 ^ q * two
  rw [← compareMul scale (x := magnitude c e), left, right, compareCast]
  -- the common power of two changes neither side
  have cancel (a b k : Nat) : compare (a * 2 ^ k) (b * 2 ^ k) = compare a b := by
    rw [← compareCast, ← compareCast a b]
    push_cast
    exact compareMul (by positivity)
  split
  · rename_i more
    rw [Big.cmpValue, Big.shlValue, Big.mulPow5Value, Big.mulPow5Value, Big.fromU128Value hc,
      Big.fromU128Value hm, ← cancel _ _ (q + s), mul_assoc, ← pow_add, Nat.sub_add_cancel more.le]
  · rename_i more
    rw [Big.cmpValue, Big.shlValue, Big.mulPow5Value, Big.mulPow5Value, Big.fromU128Value hc,
      Big.fromU128Value hm, ← cancel _ _ (p + t), mul_assoc (m * 5 ^ q), ← pow_add,
      Nat.sub_add_cancel (by omega)]

theorem binaryRange {exp m} (h : Numeric.Normal exp m) :
    (2 : ℚ) ^ exp ≤ Numeric.binaryValue exp m ∧ Numeric.binaryValue exp m < 2 ^ (exp + 1) := by
  have scale : (0 : ℚ) < 2 ^ (exp - 63) := zpow_pos (by norm_num) _
  constructor
  · have split : (2 : ℚ) ^ exp = 2 ^ 63 * 2 ^ (exp - 63) := by
      rw [← zpow_natCast, ← zpow_add₀ (by norm_num)]
      congr 1
      omega
    rw [split]
    exact mul_le_mul_of_nonneg_right (by exact_mod_cast h.1) scale.le
  · rw [show exp + 1 = ((64 : Nat) : Int) + (exp - 63) by omega, zpow_add₀ (by norm_num), zpow_natCast,
      Numeric.binaryValue]
    exact mul_lt_mul_of_pos_right (by exact_mod_cast h.2.1) scale

theorem cmpDecimalBinaryExact {c e exp m} (hc : Canonical c e) (hm : Numeric.Normal exp m) :
    cmpDecimalBinary c e exp m = compare (magnitude c e) (Numeric.binaryValue exp m) := by
  obtain ⟨low,high⟩ := log2IntervalSpec hc
  obtain ⟨least,most⟩ := binaryRange hm
  have two {a b : Int} (h : a ≤ b) : (2 : ℚ) ^ a ≤ 2 ^ b := zpow_le_zpow_right₀ (by norm_num) h
  simp only [cmpDecimalBinary]
  split
  · rename_i below
    rw [eq_comm, compare_lt_iff_lt]
    exact lt_of_lt_of_le high ((two (by omega)).trans least)
  · split
    · rename_i above
      rw [eq_comm, compare_gt_iff_gt]
      exact lt_of_lt_of_le most ((two (by omega)).trans low)
    · refine cmpDecimalBinaryExactlyValue e (exp - 63) ?_ ?_
      · have := hc.2.1
        have := coefficientBound
        omega
      · have := hm.2.1
        omega

theorem cmpBinaryExact {ea ma eb mb} (ha : Numeric.Normal ea ma) (hb : Numeric.Normal eb mb) :
    (compare ea eb).then (compare ma mb) =
      compare (Numeric.binaryValue ea ma) (Numeric.binaryValue eb mb) := by
  obtain ⟨leastA,mostA⟩ := binaryRange ha
  obtain ⟨leastB,mostB⟩ := binaryRange hb
  have two {a b : Int} (h : a ≤ b) : (2 : ℚ) ^ a ≤ 2 ^ b := zpow_le_zpow_right₀ (by norm_num) h
  rcases lt_trichotomy ea eb with less | rfl | greater
  · rw [compare_lt_iff_lt.mpr less, Ordering.lt_then, eq_comm, compare_lt_iff_lt]
    exact lt_of_lt_of_le mostA ((two (by omega)).trans leastB)
  · rw [compare_eq_iff_eq.mpr rfl, Ordering.eq_then, Numeric.binaryValue, Numeric.binaryValue,
      compareMul (zpow_pos (by norm_num) _), compareCast]
  · rw [compare_gt_iff_gt.mpr greater, Ordering.gt_then, eq_comm, compare_gt_iff_gt]
    exact lt_of_lt_of_le mostB ((two (by omega)).trans leastA)

/-! What a number read by `of` denotes, and its class. -/

def decimalValue : Decimal → Exact
  | .nan => .nan
  | .negInfinity => .negInfinity
  | .posInfinity => .posInfinity
  | .zero => .finite 0
  | .finite negative c e => .finite (signed negative (magnitude c e))

def value : Number → Exact
  | .binary n => n.value
  | .decimal d => decimalValue d

def Proper : Number → Prop
  | .binary n => n.Proper
  | .decimal (.finite _ c e) => Canonical c e
  | .decimal _ => True

theorem decodeValue (word : Decimal128) : decimalValue (decode word) = Exact.decimal word := by
  have range := word.isLt
  simp only [decode, decodeBits, Exact.decimal]
  generalize word.toNat = bits at *
  have form : bits >>> 122 &&& 0b11111 = bits / 2 ^ 122 % 2 ^ 5 := by
    rw [Nat.shiftRight_eq_div_pow]; exact Nat.and_two_pow_sub_one_eq_mod _ 5
  have top : bits >>> 125 &&& 0b11 = bits / 2 ^ 122 % 2 ^ 5 / 2 ^ 3 := by
    rw [Nat.shiftRight_eq_div_pow, Nat.and_two_pow_sub_one_eq_mod _ 2]
    omega
  have biased : bits >>> 113 &&& 0x3FFF = bits / 2 ^ 113 % 2 ^ 14 := by
    rw [Nat.shiftRight_eq_div_pow]; exact Nat.and_two_pow_sub_one_eq_mod _ 14
  have low : bits &&& (2 ^ 113 - 1) = bits % 2 ^ 113 := Nat.and_two_pow_sub_one_eq_mod _ 113
  have sign : (bits >>> 127 == 1) = decide (bits / 2 ^ 127 = 1) := by
    rw [Nat.shiftRight_eq_div_pow, beq_eq_decide]
  rw [form, top, biased, low, sign]
  have most : maxCoefficient + 1 = 10 ^ 34 := by decide
  have five : bits / 2 ^ 122 % 2 ^ 5 < 2 ^ 5 := Nat.mod_lt _ (by decide)
  generalize bits / 2 ^ 122 % 2 ^ 5 = combination at *
  generalize bits / 2 ^ 113 % 2 ^ 14 = exponent at *
  generalize bits % 2 ^ 113 = coefficient at *
  have formNan : combination = 31 → combination / 2 ^ 3 = 3 := by omega
  have formInf : combination = 30 → combination / 2 ^ 3 = 3 := by omega
  by_cases isNan : combination = 31
  · simp [isNan, decimalValue]
  by_cases isInf : combination = 30
  · cases decide (bits / 2 ^ 127 = 1) <;> simp [isInf, decimalValue]
  by_cases large : combination / 2 ^ 3 = 3
  · simp only [large, isNan, isInf, if_true, if_false, true_or, decimalValue]
  simp only [large, isNan, isInf, if_false, false_or]
  by_cases none : coefficient = 0
  · simp [none, decimalValue, signed]
  by_cases beyond : 10 ^ 34 ≤ coefficient
  · rw [if_pos beyond, if_pos (.inr (by omega))]
    rfl
  · rw [if_neg beyond, if_neg (by omega)]
    rfl

theorem ofSpec (b : Bson) : (of b).map value = Exact.ofBson b ∧ ∀ n, of b = some n → n.Proper := by
  cases b with
  | int32 v =>
    obtain ⟨proper,exact⟩ := Numeric.fromI64Spec (v := v.toInt) (by have := v.le_toInt; omega)
      (by have := v.toInt_lt; omega)
    exact ⟨congrArg some exact,fun n h => by cases h; exact proper⟩
  | int64 v =>
    obtain ⟨proper,exact⟩ := Numeric.fromI64Spec v.le_toInt v.toInt_lt
    exact ⟨congrArg some exact,fun n h => by cases h; exact proper⟩
  | double v =>
    obtain ⟨proper,exact⟩ := Numeric.fromF64Spec v
    exact ⟨congrArg some exact,fun n h => by cases h; exact proper⟩
  | decimal128 word =>
    refine ⟨congrArg some (decodeValue word),fun n h => ?_⟩
    cases h
    cases read : decode word with
    | finite => exact decodeCanonical read
    | _ => trivial
  | _ => exact ⟨rfl,fun n h => by cases h⟩

/- The classes of the comparator, on values. -/
def valueClass : Exact → Nat
  | .nan => 0
  | .negInfinity => 1
  | .finite x => if x < 0 then 2 else if x = 0 then 3 else 4
  | .posInfinity => 5

theorem finiteClassLt {x y : ℚ} (h : valueClass (.finite x) < valueClass (.finite y)) : x < y := by
  by_contra ge
  have le : y ≤ x := not_lt.mp ge
  simp only [valueClass] at h
  split at h
  · rename_i negative
    rw [if_pos (lt_of_le_of_lt le negative)] at h
    omega
  · split at h
    · rename_i zero
      rcases lt_or_eq_of_le (zero ▸ le) with negative | same
      · rw [if_pos negative] at h
        omega
      · rw [same] at h
        simp at h
    · split at h
      · omega
      · split at h <;> omega

theorem valueClassCmp {x y : Exact} (differ : valueClass x ≠ valueClass y) :
    compare (valueClass x) (valueClass y) = x.cmp y := by
  have finiteRank (x : ℚ) : 1 < valueClass (.finite x) ∧ valueClass (.finite x) < 5 := by
    simp only [valueClass]
    split
    · decide
    · split <;> decide
  cases x with
  | finite x =>
    obtain ⟨low,high⟩ := finiteRank x
    cases y with
    | finite y =>
      rcases lt_or_gt_of_ne differ with less | greater
      · rw [compare_lt_iff_lt.mpr less]
        exact (compare_lt_iff_lt.mpr (finiteClassLt less)).symm
      · rw [compare_gt_iff_gt.mpr greater]
        exact (compare_gt_iff_gt.mpr (finiteClassLt greater)).symm
    | nan => exact compare_gt_iff_gt.mpr (lt_trans Nat.zero_lt_one low)
    | negInfinity => exact compare_gt_iff_gt.mpr low
    | posInfinity => exact compare_lt_iff_lt.mpr high
  | _ =>
    cases y with
    | finite y =>
      obtain ⟨low,high⟩ := finiteRank y
      first
        | exact compare_lt_iff_lt.mpr (lt_trans Nat.zero_lt_one low)
        | exact compare_lt_iff_lt.mpr low
        | exact compare_gt_iff_gt.mpr high
    | _ => decide +revert

theorem signedClass {negative : Bool} {x : ℚ} (pos : 0 < x) :
    valueClass (.finite (signed negative x)) = if negative then 2 else 4 := by
  cases negative
  · simp [valueClass, signed, not_lt_of_gt pos, ne_of_gt pos]
  · simp [valueClass, signed, pos]

theorem numericClass {n : Numeric} (proper : n.Proper) : n.classRank = valueClass n.value := by
  cases n with
  | finite negative exp m =>
    have pos := lt_of_lt_of_le (zpow_pos (by norm_num) exp) (binaryRange proper).1
    rw [Numeric.value, signedClass pos]
    cases negative <;> rfl
  | zero => rfl
  | _ => rfl

theorem classRankValue {n : Number} (proper : n.Proper) : n.classRank = valueClass n.value := by
  cases n with
  | binary n => exact numericClass proper
  | decimal d =>
    cases d with
    | finite negative c e =>
      rw [value, decimalValue, signedClass (magnitudePos proper)]
      cases negative <;> rfl
    | _ => rfl

theorem numericCmpExact {x y : Numeric} (hx : x.Proper) (hy : y.Proper) :
    Numeric.cmpNumeric x y = x.value.cmp y.value := by
  unfold Numeric.cmpNumeric
  split
  · rename_i differ
    rw [numericClass hx, numericClass hy] at differ ⊢
    exact valueClassCmp differ
  rename_i same
  rw [ne_eq, not_not] at same
  cases x with
  | finite sx ea ma =>
    cases y with
    | finite sy eb mb =>
      have signs : sx = sy := by cases sx <;> cases sy <;> simp_all [Numeric.classRank]
      subst signs
      simp only [Numeric.value, Exact.cmp, compareSigned]
      rw [cmpBinaryExact hx hy]
    | _ => cases sx <;> simp [Numeric.classRank] at same
  | _ =>
    cases y with
    | finite sy => cases sy <;> simp [Numeric.classRank] at same
    | _ => simp_all [Numeric.classRank, Numeric.value, Exact.cmp]

/- The branch for two finite values of one class, whichever route compared them. -/
theorem turnedExact {x y : Number} {sx sy : Bool} {v w : ℚ} {magnitude : Ordering}
    (hx : x.classRank = if sx then 2 else 4) (hy : y.classRank = if sy then 2 else 4)
    (same : x.classRank = y.classRank) (route : magnitude = compare v w) :
    (if x.classRank = negativeClass then magnitude.swap else magnitude) =
      Exact.cmp (.finite (signed sx v)) (.finite (signed sy w)) := by
  rw [hx, hy] at same
  have signs : sx = sy := by cases sx <;> cases sy <;> simp_all
  subst signs
  rw [hx, route, Exact.cmp, compareSigned]
  cases sx <;> rfl

theorem compareSwap (v w : ℚ) : (compare v w).swap = compare w v := Std.OrientedOrd.eq_swap.symm

/- Outside the two finite classes the class is the value. -/
theorem finiteOrSpecial (n : Number) :
    (∃ s c e, n = .decimal (.finite s c e)) ∨ (∃ s exp m, n = .binary (.finite s exp m)) ∨
      (n.classRank ≠ 2 ∧ n.classRank ≠ 4 ∧ n.value.cmp n.value = .eq ∧
        ∀ m : Number, n.classRank = m.classRank → m.value = n.value) := by
  have only {r : Nat} {v : Exact} (h : r ≠ 2 ∧ r ≠ 4) (fixed : ∀ m : Number, r = m.classRank → m.value = v) :
      r ≠ 2 ∧ r ≠ 4 ∧ v.cmp v = .eq ∧ ∀ m : Number, r = m.classRank → m.value = v :=
    ⟨h.1,h.2,by cases v <;> simp [Exact.cmp],fixed⟩
  rcases n with (_ | _ | ⟨s,exp,m⟩ | _ | _) | (_ | _ | _ | _ | ⟨s,c,e⟩)
  case binary.finite => exact .inr (.inl ⟨s,exp,m,rfl⟩)
  case decimal.finite => exact .inl ⟨s,c,e,rfl⟩
  all_goals
    refine .inr (.inr (only (by decide) fun m same => ?_))
    rcases m with (_ | _ | ⟨_ | _,_,_⟩ | _ | _) | (_ | _ | _ | _ | ⟨_ | _,_,_⟩) <;>
      first | rfl | cases same

theorem cmpExact {x y : Number} (hx : x.Proper) (hy : y.Proper) : x.cmp y = x.value.cmp y.value := by
  simp only [cmp]
  split
  · rename_i differ
    rw [classRankValue hx, classRankValue hy] at differ ⊢
    exact valueClassCmp differ
  rename_i same
  rw [ne_eq, not_not] at same
  have finiteClass (s : Bool) (c : Nat) (e : Int) :
      classRank (.decimal (.finite s c e)) = if s then 2 else 4 := by cases s <;> rfl
  have binaryClass (s : Bool) (exp : Int) (m : Nat) :
      classRank (.binary (.finite s exp m)) = if s then 2 else 4 := by cases s <;> rfl
  split
  · exact numericCmpExact hx hy
  · exact turnedExact (finiteClass _ _ _) (finiteClass _ _ _) same (cmpDecimalsExact hx hy)
  · exact turnedExact (finiteClass _ _ _) (binaryClass _ _ _) same (cmpDecimalBinaryExact hx hy)
  · refine turnedExact (binaryClass _ _ _) (finiteClass _ _ _) same ?_
    rw [cmpDecimalBinaryExact hy hx, compareSwap]
  · rename_i bothBinary bothDecimal decimalBinary binaryDecimal
    rcases finiteOrSpecial x with ⟨s,c,e,rfl⟩ | ⟨s,exp,m,rfl⟩ | ⟨_,_,equal,fixed⟩
    · rcases finiteOrSpecial y with ⟨s',d,f,rfl⟩ | ⟨s',exp,m,rfl⟩ | ⟨notNegative,notPositive,_⟩
      · exact (bothDecimal _ _ _ _ _ _ rfl rfl).elim
      · exact (decimalBinary _ _ _ _ _ _ rfl rfl).elim
      · rw [← same, finiteClass] at notNegative notPositive
        cases s <;> contradiction
    · rcases finiteOrSpecial y with ⟨s',d,f,rfl⟩ | ⟨s',exp',m',rfl⟩ | ⟨notNegative,notPositive,_⟩
      · exact (binaryDecimal _ _ _ _ _ _ rfl rfl).elim
      · exact (bothBinary _ _ rfl rfl).elim
      · rw [← same, binaryClass] at notNegative notPositive
        cases s <;> contradiction
    · rw [fixed y same, equal]

theorem cmpNumbersExact {a b : Bson} {x y : Exact} (ha : Exact.ofBson a = some x)
    (hb : Exact.ofBson b = some y) : cmpNumbers a b = x.cmp y := by
  obtain ⟨readA,properA⟩ := ofSpec a
  obtain ⟨readB,properB⟩ := ofSpec b
  rw [ha, Option.map_eq_some_iff] at readA
  rw [hb, Option.map_eq_some_iff] at readB
  obtain ⟨n,ofA,rfl⟩ := readA
  obtain ⟨m,ofB,rfl⟩ := readB
  rw [cmpNumbers, ofA, ofB]
  exact cmpExact (properA n ofA) (properB m ofB)

end Number
end Kimmy
