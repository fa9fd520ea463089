import Kimmy.Window.ExactDoubles

/-!
The sum that a window of doubles and integers reports is exact and rounded once. The digits hold what
each term that is in brought, digit by digit, and so what is left when a term goes; carried, they are
the total in units of the least double; and the word is cut from the limbs as half even has it.
-/
namespace Kimmy.Window
open Limbs BigInt
open Decimal.Arith (infinity signOf fieldOf fieldValue overflowAt NearestField NearestDouble)

/-! Reading the limbs. -/

section
variable {limbs : List Nat}

theorem lastNonzeroNone : ∀ {limbs : List Nat}, lastNonzero limbs = none → Nat.ofDigits (2 ^ 32) limbs = 0
  | [], _ => rfl
  | l :: limbs, none' => by
      unfold lastNonzero at none'
      cases rest : lastNonzero limbs with
      | some i =>
          rw [rest] at none'
          cases none'
      | none =>
          rw [rest] at none'
          simp only at none'
          split_ifs at none' with zero
          rw [Nat.ofDigits_cons, lastNonzeroNone rest, not_not.mp zero, Nat.mul_zero]

theorem lastNonzeroSome : ∀ {limbs : List Nat} {top : Nat}, Proper (2 ^ 32) limbs → lastNonzero limbs = some top →
    0 < limbs.getD top 0 ∧ Nat.ofDigits (2 ^ 32) limbs / (2 ^ 32) ^ top = limbs.getD top 0
  | [], _, _, found => nomatch found
  | l :: limbs, top, proper, found => by
      obtain ⟨small, tail⟩ := properCons.mp proper
      unfold lastNonzero at found
      cases rest : lastNonzero limbs with
      | some i =>
          rw [rest] at found
          obtain rfl := Option.some.inj found
          obtain ⟨positive, quotient⟩ := lastNonzeroSome tail rest
          rw [List.getD_cons_succ, Nat.ofDigits_cons, pow_succ' (2 ^ 32) i, ← Nat.div_div_eq_div_mul,
            Nat.add_mul_div_left _ _ (by decide), Nat.div_eq_of_lt small, Nat.zero_add]
          exact ⟨positive,quotient⟩
      | none =>
          rw [rest] at found
          simp only at found
          split_ifs at found with nonzero
          obtain rfl := Option.some.inj found
          rw [Nat.ofDigits_cons, lastNonzeroNone rest, pow_zero, Nat.div_one]
          exact ⟨Nat.pos_of_ne_zero nonzero,rfl⟩

/- The position of the leading bit. -/
theorem highestBit (proper : Proper (2 ^ 32) limbs) {top : Nat} (found : lastNonzero limbs = some top) :
    2 ^ (top * 32 + 31 - leadingZeros 32 (limbs.getD top 0)) ≤ Nat.ofDigits (2 ^ 32) limbs ∧
      Nat.ofDigits (2 ^ 32) limbs < 2 ^ (top * 32 + 31 - leadingZeros 32 (limbs.getD top 0) + 1) := by
  obtain ⟨positive, quotient⟩ := lastNonzeroSome proper found
  have digit : limbs.getD top 0 < 2 ^ 32 := by
    rw [limbAt proper]
    exact Nat.mod_lt _ (by decide)
  obtain ⟨some, low, high⟩ := bitLengthSpec positive
  have most : bitLength (limbs.getD top 0) ≤ 32 := bitLengthLe.mpr digit
  have place : top * 32 + 31 - leadingZeros 32 (limbs.getD top 0) = 32 * top + (bitLength (limbs.getD top 0) - 1) := by
    unfold leadingZeros
    omega
  have power : 0 < (2 ^ 32) ^ top := by positivity
  rw [← pow_mul] at quotient power
  generalize Nat.ofDigits (2 ^ 32) limbs = v at *
  generalize limbs.getD top 0 = l at *
  rw [place]
  constructor
  · rw [pow_add, Nat.mul_comm, ← Nat.le_div_iff_mul_le power, quotient]
    exact low
  · rw [show 32 * top + (bitLength l - 1) + 1 = bitLength l + 32 * top by omega, pow_add, ← Nat.div_lt_iff_lt_mul power, quotient]
    exact high

theorem bitsAtValue (proper : Proper (2 ^ 32) limbs) (start : Nat) {len : Nat} (short : len ≤ 97) :
    bitsAt limbs start len = Nat.ofDigits (2 ^ 32) limbs / 2 ^ start % 2 ^ len := by
  unfold bitsAt
  simp only [limbAt proper]
  have power (i : Nat) : ((2 : Nat) ^ 32) ^ (start / 32 + i) = 2 ^ (32 * (start / 32)) * 2 ^ (32 * i) := by
    rw [← pow_mul, ← pow_add]
    congr 1
    omega
  have first := power 0
  rw [Nat.add_zero, Nat.mul_zero, pow_zero, Nat.mul_one] at first
  rw [first, power 1, power 2, power 3]
  simp only [← Nat.div_div_eq_div_mul]
  have split : 2 ^ start = 2 ^ (32 * (start / 32)) * 2 ^ (start % 32) := by
    rw [← pow_add]
    congr 1
    omega
  rw [split, ← Nat.div_div_eq_div_mul]
  generalize Nat.ofDigits (2 ^ 32) limbs / 2 ^ (32 * (start / 32)) = v
  have window : v % 2 ^ 32 + v / 2 ^ (32 * 1) % 2 ^ 32 * 2 ^ 32 + v / 2 ^ (32 * 2) % 2 ^ 32 * 2 ^ 64 +
      v / 2 ^ (32 * 3) % 2 ^ 32 * 2 ^ 96 = v % 2 ^ 128 := by omega
  rw [window]
  have wide : (2 : Nat) ^ 128 = 2 ^ (start % 32) * 2 ^ (128 - start % 32) := by
    rw [← pow_add]
    congr 1
    omega
  rw [wide, Nat.mod_mul_right_div_self, Nat.mod_mod_of_dvd _ (pow_dvd_pow 2 (by omega))]

theorem anyNonzero : ∀ (limbs : List Nat), (limbs.any fun l => l ≠ 0) = decide (Nat.ofDigits (2 ^ 32) limbs ≠ 0)
  | [] => rfl
  | l :: limbs => by
      rw [List.any_cons, anyNonzero limbs, Nat.ofDigits_cons, Bool.eq_iff_iff]
      simp only [Bool.or_eq_true, decide_eq_true_eq]
      generalize Nat.ofDigits (2 ^ 32) limbs = v
      omega

theorem stickyBelowValue (proper : Proper (2 ^ 32) limbs) (guard : Nat) :
    stickyBelow limbs guard = decide (Nat.ofDigits (2 ^ 32) limbs % 2 ^ guard ≠ 0) := by
  have split : 2 ^ guard = (2 ^ 32) ^ (guard / 32) * 2 ^ (guard % 32) := by
    rw [← pow_mul, ← pow_add]
    congr 1
    omega
  have below : 2 ^ (guard % 32) ∣ 2 ^ 32 := pow_dvd_pow 2 (by omega)
  unfold stickyBelow
  rw [anyNonzero, limbAt proper, Nat.mod_mod_of_dvd _ below, ← Nat.ofDigits_mod_pow_eq_ofDigits_take _ (by decide) _ proper,
    split, Nat.mod_mul, Bool.eq_iff_iff]
  generalize Nat.ofDigits (2 ^ 32) limbs = v
  have power : 0 < (2 ^ 32) ^ (guard / 32) := by positivity
  have whole (zero : guard % 32 = 0) : v / (2 ^ 32) ^ (guard / 32) % 2 ^ (guard % 32) = 0 := by
    rw [zero, pow_zero, Nat.mod_one]
  generalize (2 ^ 32) ^ (guard / 32) = unit at *
  generalize v / unit % 2 ^ (guard % 32) = rest at *
  simp only [Bool.or_eq_true, Bool.and_eq_true, decide_eq_true_eq, ne_eq, Nat.add_eq_zero_iff, mul_eq_zero, power.ne', false_or]
  tauto

end

/-! Rounding. -/

/- The bits of the kept part and of the two parts below it decide as half even does. -/
theorem raised (v k : Nat) :
    (decide (v / 2 ^ k % 2 ^ 1 = 1) && (decide (v % 2 ^ k ≠ 0) || decide (v / 2 ^ (k + 1) % 2 = 1))) =
      HalfEven.up (compare (v % (2 * 2 ^ k)) (2 ^ k)) false (v / (2 * 2 ^ k)) := by
  have power : 0 < 2 ^ k := by positivity
  have split : v % (2 ^ k * 2) = v % 2 ^ k + 2 ^ k * (v / 2 ^ k % 2) := Nat.mod_mul
  have below := Nat.mod_lt v power
  have bit := Nat.mod_lt (v / 2 ^ k) (show 0 < 2 by decide)
  rw [pow_one, pow_succ 2 k, Nat.mul_comm 2 (2 ^ k), split]
  generalize v % 2 ^ k = low at *
  generalize v / 2 ^ k % 2 = b at *
  generalize v / (2 ^ k * 2) = kept at *
  generalize 2 ^ k = unit at *
  unfold HalfEven.up
  obtain rfl | rfl : b = 0 ∨ b = 1 := by omega
  · rw [compare_lt_iff_lt.mpr (by omega)]
    rfl
  · rcases Nat.eq_zero_or_pos low with rfl | some
    · rw [compare_eq_iff_eq.mpr (by omega), decide_eq_true rfl, decide_eq_false (not_not.mpr rfl), Bool.true_and]
      rfl
    · rw [compare_gt_iff_gt.mpr (by omega)]
      simp [some.ne']

/- At the unit of its binade a value of more than 53 bits has its nearest double. -/
theorem keptNearest {v h : Nat} (long : 53 ≤ h) (low : 2 ^ h ≤ v) (high : v < 2 ^ (h + 1)) {kept : Nat}
    (is : kept = v / 2 ^ (h - 52) + (HalfEven.up (compare (v % (2 * 2 ^ (h - 53))) (2 ^ (h - 53))) false
      (v / (2 * 2 ^ (h - 53)))).toNat) :
    2 ^ 52 ≤ kept ∧ kept ≤ 2 ^ 53 ∧
      HalfEven.Nearest ((v * 2 ^ (-1074 : Int)) / 2 ^ (((h - 52 : Nat) : Int) - 1074) : ℚ) kept := by
  obtain ⟨k, rfl⟩ : ∃ k, h = k + 53 := ⟨h - 53,by omega⟩
  have unit : 0 < 2 ^ (k + 1) := by positivity
  rw [show k + 53 - 52 = k + 1 by omega, show k + 53 - 53 = k by omega] at *
  have near := @HalfEven.cutNearest v (2 ^ k) (by positivity) v le_rfl (lt_add_one _) false (iff_of_true rfl rfl)
  have double : 2 * 2 ^ k = 2 ^ (k + 1) := (pow_succ' 2 k).symm
  rw [double] at is near
  rw [← is] at near
  have least : 2 ^ 52 ≤ v / 2 ^ (k + 1) := by
    rw [Nat.le_div_iff_mul_le unit, ← pow_add]
    refine le_trans (le_of_eq ?_) low
    congr 1
    omega
  have most : v / 2 ^ (k + 1) < 2 ^ 53 := by
    rw [Nat.div_lt_iff_lt_mul unit, ← pow_add]
    refine lt_of_lt_of_le high (le_of_eq ?_)
    congr 1
    omega
  have one := Bool.toNat_le (HalfEven.up (compare (v % 2 ^ (k + 1)) (2 ^ k)) false (v / 2 ^ (k + 1)))
  refine ⟨by omega,by omega,?_⟩
  convert near using 1
  have nonzero : (2 : ℚ) ^ (-1074 : Int) ≠ 0 := (KeyNumber.twoPos _).ne'
  rw [sub_eq_add_neg, zpow_add₀ (by norm_num), zpow_natCast, mul_div_mul_right _ _ nonzero]
  push_cast
  rfl

/- Few bits are their own field. -/
theorem smallField {v : Nat} (small : v < 2 ^ 53) : NearestField (v * 2 ^ (-1074 : Int)) v := by
  have unit := KeyNumber.twoPos (-1074)
  have value : fieldValue v = v * 2 ^ (-1074 : Int) := by
    have point := @FloatGrid.pointField 52 0 v (Or.inl rfl) (by omega)
    rw [Nat.zero_mul, Nat.zero_add, pow_zero, Nat.mul_one] at point
    rw [fieldValue, point]
  have less : (v * 2 ^ (-1074 : Int) : ℚ) < overflowAt := by
    have bound : (v : ℚ) ≤ 2 ^ 53 := by exact_mod_cast small.le
    have scale : (2 : ℚ) ^ (-1074 : Int) ≤ 2 ^ (970 : Int) := zpow_le_zpow_right₀ (by norm_num) (by norm_num)
    calc (v * 2 ^ (-1074 : Int) : ℚ) ≤ 2 ^ 53 * 2 ^ (-1074 : Int) := mul_le_mul_of_nonneg_right bound unit.le
      _ ≤ 2 ^ 53 * 2 ^ (970 : Int) := mul_le_mul_of_nonneg_left scale (by norm_num)
      _ < overflowAt := mul_lt_mul_of_pos_right (by norm_num) (KeyNumber.twoPos 970)
  refine ⟨by unfold infinity; omega,iff_of_false (by unfold infinity; omega) (not_le.mpr less),fun _ m => ?_⟩
  rw [value, sub_self, abs_zero]
  refine ⟨abs_nonneg _,fun same differ => absurd ?_ differ⟩
  exact (sub_eq_zero.mp (abs_eq_zero.mp same.symm)).symm

/- The word of a coefficient that may be raised, with the carry into the next binade. -/
theorem wordRaised {h mantissa : Nat} {up : Bool} (long : 53 ≤ h) (least : 2 ^ 52 ≤ mantissa) (most : mantissa < 2 ^ 53)
    {p : Prop} [Decidable p] (raises : p ↔ up = true) :
    fieldAt (if p then if mantissa + 1 = 2 ^ 53 then ((mantissa + 1) / 2,h + 1) else (mantissa + 1,h) else (mantissa,h)) =
      if h ≤ 2097 then (h - 52) * 2 ^ 52 + (mantissa + up.toNat) else infinity := by
  unfold fieldAt infinity
  cases up with
  | false =>
      rw [if_neg fun held => absurd (raises.mp held) (by decide)]
      simp only [Bool.toNat_false]
      split_ifs <;> omega
  | true =>
      rw [if_pos (raises.mpr rfl)]
      simp only [Bool.toNat_true]
      by_cases carry : mantissa + 1 = 2 ^ 53
      · rw [if_pos carry]
        simp only
        split_ifs <;> omega
      · rw [if_neg carry]
        simp only
        split_ifs <;> omega

theorem longNearest {v h : Nat} (long : 53 ≤ h) (low : 2 ^ h ≤ v) (high : v < 2 ^ (h + 1)) :
    NearestField (v * 2 ^ (-1074 : Int)) (if h ≤ 2097 then (h - 52) * 2 ^ 52 + (v / 2 ^ (h - 52) +
      (HalfEven.up (compare (v % (2 * 2 ^ (h - 53))) (2 ^ (h - 53))) false (v / (2 * 2 ^ (h - 53)))).toNat)
      else infinity) := by
  obtain ⟨least, most, near⟩ := keptNearest long low high rfl
  have unit := KeyNumber.twoPos (-1074)
  have bottom : (2 : ℚ) ^ ((h : Int) - 1074) ≤ v * 2 ^ (-1074 : Int) := by
    rw [sub_eq_add_neg, zpow_add₀ (by norm_num), zpow_natCast]
    exact mul_le_mul_of_nonneg_right (by exact_mod_cast low) unit.le
  have top : (v : ℚ) * 2 ^ (-1074 : Int) < 2 ^ ((h : Int) - 1073) := by
    rw [show (h : Int) - 1073 = ((h + 1 : Nat) : Int) + -1074 by push_cast; ring, zpow_add₀ (by norm_num), zpow_natCast]
    exact mul_lt_mul_of_pos_right (by exact_mod_cast high) unit
  split_ifs with range
  · generalize v / 2 ^ (h - 52) + _ = kept at *
    have exponent : (((h - 52 : Nat) : Int)) = h - 52 := by omega
    have large : (2 : ℚ) ^ (((h - 52 : Nat) : Int) - 1022) ≤ v * 2 ^ (-1074 : Int) := by
      rw [exponent, show (h : Int) - 52 - 1022 = h - 1074 by ring]
      exact bottom
    have below : (v : ℚ) * 2 ^ (-1074 : Int) < 2 ^ (((h - 52 : Nat) : Int) - 1021) := by
      rw [exponent, show (h : Int) - 52 - 1021 = h - 1073 by ring]
      exact top
    refine ⟨by unfold infinity; omega,Decimal.Arith.overflowKept near (by omega) most below,fun _ m => ?_⟩
    obtain ⟨best, tie⟩ := Decimal.Arith.nearestField near (Or.inr large) (Or.inr least) most m
    refine ⟨best,fun same differ => ?_⟩
    have even := tie same differ
    omega
  · have large : overflowAt ≤ v * 2 ^ (-1074 : Int) := by
      refine le_trans ?_ ((zpow_le_zpow_right₀ (by norm_num) (by omega : (54 + 970 : Int) ≤ h - 1074)).trans bottom)
      rw [zpow_add₀ (by norm_num), overflowAt]
      exact mul_le_mul_of_nonneg_right (by norm_num) (KeyNumber.twoPos 970).le
    exact ⟨le_rfl,⟨fun _ => large,fun _ => rfl⟩,fun less => absurd large (not_le.mpr less)⟩

/- The rounding of a value given by its leading bit, out of any limbs that read as it does. -/
theorem settledNearest {v h : Nat} (low : 2 ^ h ≤ v) (high : v < 2 ^ (h + 1)) :
    NearestField (v * 2 ^ (-1074 : Int)) (if h < 53 then v / 2 ^ 0 % 2 ^ 53
      else fieldAt (if v / 2 ^ (h - 53) % 2 ^ 1 = 1 ∧
          (decide (v % 2 ^ (h - 53) ≠ 0) = true ∨ v / 2 ^ (h - 52) % 2 ^ 53 % 2 = 1) then
        if v / 2 ^ (h - 52) % 2 ^ 53 + 1 = 2 ^ 53 then ((v / 2 ^ (h - 52) % 2 ^ 53 + 1) / 2,h + 1)
        else (v / 2 ^ (h - 52) % 2 ^ 53 + 1,h)
      else (v / 2 ^ (h - 52) % 2 ^ 53,h))) := by
  by_cases short : h < 53
  · have small : v < 2 ^ 53 := lt_of_lt_of_le high (Nat.pow_le_pow_right (by decide) (by omega))
    rw [if_pos short, pow_zero, Nat.div_one, Nat.mod_eq_of_lt small]
    exact smallField small
  · have long : 53 ≤ h := not_lt.mp short
    have unit : 0 < 2 ^ (h - 52) := by positivity
    have least : 2 ^ 52 ≤ v / 2 ^ (h - 52) := by
      rw [Nat.le_div_iff_mul_le unit, ← pow_add, show 52 + (h - 52) = h by omega]
      exact low
    have most : v / 2 ^ (h - 52) < 2 ^ 53 := by
      rw [Nat.div_lt_iff_lt_mul unit, ← pow_add, show 53 + (h - 52) = h + 1 by omega]
      exact high
    have decided := raised v (h - 53)
    rw [show h - 53 + 1 = h - 52 by omega] at decided
    rw [if_neg short, Nat.mod_eq_of_lt most, wordRaised long least most]
    · exact longNearest long low high
    · rw [← decided]
      simp only [Bool.and_eq_true, Bool.or_eq_true, decide_eq_true_eq]

theorem roundToDoubleNearest {limbs : List Nat} (proper : Proper (2 ^ 32) limbs) :
    NearestField ((Nat.ofDigits (2 ^ 32) limbs : Nat) * 2 ^ (-1074 : Int)) (roundToDouble limbs) := by
  unfold roundToDouble
  cases found : lastNonzero limbs with
  | none =>
      rw [lastNonzeroNone found, Nat.cast_zero, zero_mul]
      exact Decimal.Arith.zeroField
  | some top =>
      obtain ⟨low, high⟩ := highestBit proper found
      simp only [bitsAtValue proper _ (by decide : 53 ≤ 97), bitsAtValue proper _ (by decide : 1 ≤ 97),
        stickyBelowValue proper]
      exact settledNearest low high


theorem complementSpec : ∀ {limbs : List Nat} {up : Nat}, Proper (2 ^ 32) limbs → up ≤ 1 →
    Proper (2 ^ 32) (complement up limbs) ∧ (complement up limbs).length = limbs.length ∧
      ∃ out ≤ 1, Nat.ofDigits (2 ^ 32) (complement up limbs) + Nat.ofDigits (2 ^ 32) limbs + 1 + (2 ^ 32) ^ limbs.length * out =
        (2 ^ 32) ^ limbs.length + up
  | [], up, _, small => ⟨nofun,rfl,up,small,by simp [complement]⟩
  | l :: limbs, up, proper, small => by
      obtain ⟨digit, tail⟩ := properCons.mp proper
      obtain ⟨rest, same, out, most, value⟩ :=
        @complementSpec limbs ((2 ^ 32 - 1 - l + up) / 2 ^ 32) tail (by omega)
      unfold complement
      refine ⟨properCons.mpr ⟨Nat.mod_lt _ (by decide),rest⟩,by rw [List.length_cons, List.length_cons, same],out,most,?_⟩
      have split := Nat.mod_add_div (2 ^ 32 - 1 - l + up) (2 ^ 32)
      rw [Nat.ofDigits_cons, Nat.ofDigits_cons, List.length_cons, pow_succ' (2 ^ 32) limbs.length]
      generalize (2 ^ 32 - 1 - l + up) / 2 ^ 32 = carry at *
      generalize (2 ^ 32 - 1 - l + up) % 2 ^ 32 = low at *
      generalize (2 ^ 32) ^ limbs.length = unit at *
      have whole : low + 2 ^ 32 * carry + l + 1 = 2 ^ 32 + up := by omega
      linear_combination 2 ^ 32 * value + whole

/- The value of the digits decides the word. -/
def ofTotal (total : Int) : UInt64 :=
  .ofNat ((if total < 0 then 2 ^ 63 else 0) ||| roundToDouble ((List.range 68).map fun i => total.natAbs / (2 ^ 32) ^ i % 2 ^ 32))

theorem digitsUnique {limbs : List Nat} (proper : Proper (2 ^ 32) limbs) (length : limbs.length = 68) {v : Nat}
    (is : Nat.ofDigits (2 ^ 32) limbs = v) : limbs = (List.range 68).map fun i => v / (2 ^ 32) ^ i % 2 ^ 32 := by
  subst is
  refine List.ext_getElem (by simp [length]) fun i here _ => ?_
  rw [List.getElem_map, List.getElem_range, ← limbAt proper, List.getD_eq_getElem _ _ here]

/- The digits and the last carry of a total that the digits have room for. -/
theorem carryOf {unit d : Nat} {carry total : Int} (value : (d : Int) + unit * carry = total) (small : d < unit)
    (fits : total.natAbs < unit) : (carry = 0 ∧ d = total.natAbs ∧ ¬ total < 0) ∨ (carry = -1 ∧ unit - d = total.natAbs ∧
      total < 0 ∧ 0 < d) := by
  have low : -1 ≤ carry := by
    by_contra less
    have : (unit : Int) * carry ≤ unit * -2 := Int.mul_le_mul_of_nonneg_left (by omega) (by omega)
    omega
  have high : carry ≤ 0 := by
    by_contra more
    have : (unit : Int) * 1 ≤ unit * carry := Int.mul_le_mul_of_nonneg_left (by omega) (by omega)
    omega
  obtain rfl | rfl : carry = 0 ∨ carry = -1 := by omega
  · exact Or.inl ⟨rfl,by omega,by omega⟩
  · exact Or.inr ⟨rfl,by omega,by omega,by omega⟩

theorem valueOfTotal {s : ExactDoubles} (fits : (signedValue (2 ^ 32) s.digits).natAbs < (2 ^ 32) ^ 68) :
    s.value = ofTotal (signedValue (2 ^ 32) s.digits) := by
  have value := @carriesValue (2 ^ 32) (by decide) 0 s.digits
  have proper := @carriesProper (2 ^ 32) (by decide) 0 s.digits
  have length := carriesLength (2 ^ 32) 0 s.digits
  have small := Nat.ofDigits_lt_base_pow_length (by decide) proper
  rw [length, s.full] at small
  rw [s.full, add_zero] at value
  rw [s.full] at length
  unfold ExactDoubles.value ofTotal
  cases split : carries (2 ^ 32) 0 s.digits with
  | mk limbs carry =>
  rw [split] at value proper length small
  simp only at *
  obtain ⟨properUp, lengthUp, out, most, negated⟩ := complementSpec proper le_rfl
  generalize signedValue (2 ^ 32) s.digits = total at *
  rw [length] at negated lengthUp
  have power : ((2 ^ 32 : Nat) : Int) ^ 68 = (((2 ^ 32) ^ 68 : Nat) : Int) := (Nat.cast_pow _ _).symm
  rw [power] at value
  generalize (2 ^ 32) ^ 68 = unit at fits value small negated
  rcases carryOf value small fits with ⟨rfl, is, nonneg⟩ | ⟨rfl, is, negative, positive⟩
  · rw [if_neg nonneg, Nat.zero_or, ← digitsUnique proper length is]
    rfl
  · have none : out = 0 := by
      rcases Nat.le_one_iff_eq_zero_or_eq_one.mp most with zero | one
      · exact zero
      · rw [one] at negated
        omega
    rw [none] at negated
    rw [if_pos negative, ← digitsUnique properUp lengthUp (by omega)]
    rfl

theorem ofTotalNearest {total : Int} (fits : total.natAbs < (2 ^ 32) ^ 68) :
    NearestDouble (decide (total < 0)) (total.natAbs * 2 ^ (-1074 : Int)) (ofTotal total) := by
  have proper : Proper (2 ^ 32) ((List.range 68).map fun i => total.natAbs / (2 ^ 32) ^ i % 2 ^ 32) := by
    intro l member
    obtain ⟨i, _, rfl⟩ := List.mem_map.mp member
    exact Nat.mod_lt _ (by decide)
  have field := roundToDoubleNearest proper
  rw [valueDigits, Nat.mod_eq_of_lt fits] at field
  have nonneg : (0 : ℚ) ≤ total.natAbs * 2 ^ (-1074 : Int) := mul_nonneg (Nat.cast_nonneg _) (KeyNumber.twoPos _).le
  have near := Decimal.Arith.nearestDouble (decide (total < 0)) nonneg field
  simp only [decide_eq_true_eq] at near
  exact near

/-! What the digits hold. -/

/- Parts that do not overlap are added digit by digit. -/
theorem digitsApart {a b k m w : Nat} (small : a < 2 ^ k) (aligned : 2 ^ k ∣ b) :
    (a + b) / 2 ^ m % 2 ^ w = a / 2 ^ m % 2 ^ w + b / 2 ^ m % 2 ^ w := by
  obtain ⟨c, rfl⟩ := aligned
  have power (j : Nat) : 0 < 2 ^ j := by positivity
  rcases Nat.le_total k m with above | below
  · obtain ⟨j, rfl⟩ := Nat.exists_eq_add_of_le above
    have least : a < 2 ^ (k + j) := lt_of_lt_of_le small (Nat.pow_le_pow_right (by decide) above)
    rw [Nat.div_eq_of_lt least, Nat.zero_mod, Nat.zero_add, pow_add, ← Nat.div_div_eq_div_mul, ← Nat.div_div_eq_div_mul,
      Nat.add_mul_div_left _ _ (power k), Nat.div_eq_of_lt small, Nat.zero_add, Nat.mul_div_cancel_left _ (power k)]
  · obtain ⟨j, rfl⟩ := Nat.exists_eq_add_of_le below
    have whole : 2 ^ (m + j) * c = 2 ^ m * (2 ^ j * c) := by rw [pow_add, Nat.mul_assoc]
    have part : a / 2 ^ m < 2 ^ j := by
      rw [Nat.div_lt_iff_lt_mul (power m), ← pow_add, Nat.add_comm]
      exact small
    rw [whole, Nat.add_mul_div_left _ _ (power m), Nat.mul_div_cancel_left _ (power m)]
    rcases Nat.le_total w j with inside | wide
    · obtain ⟨i, rfl⟩ := Nat.exists_eq_add_of_le inside
      rw [pow_add, Nat.mul_assoc, Nat.add_mul_mod_self_left, Nat.mul_mod_right, Nat.add_zero]
    · obtain ⟨i, rfl⟩ := Nat.exists_eq_add_of_le wide
      rw [pow_add, Nat.mod_mul, Nat.mod_mul, Nat.mod_mul, Nat.add_mul_mod_self_left, Nat.add_mul_div_left _ _ (power j),
        Nat.mul_mod_right, Nat.mul_div_cancel_left _ (power j), Nat.mod_eq_of_lt part, Nat.div_eq_of_lt part]
      simp

/- The digits of a number of units. -/
def spread (v i : Nat) : Nat := v / 2 ^ (32 * i) % 2 ^ 32

theorem spreadPiece {piece : Nat} (small : piece < 2 ^ 64) (place i : Nat) :
    spread (piece * 2 ^ (32 * place)) i =
      (if i = place then piece % 2 ^ 32 else 0) + if i = place + 1 then piece / 2 ^ 32 else 0 := by
  have power (j : Nat) : 0 < 2 ^ j := by positivity
  unfold spread
  rcases Nat.lt_trichotomy i place with less | rfl | more
  · obtain ⟨j, rfl⟩ := Nat.exists_eq_add_of_lt less
    have below : 32 * (i + j + 1) = 32 * i + (32 * j + 32) := by omega
    have whole : piece * 2 ^ (32 * i + (32 * j + 32)) = 2 ^ (32 * i) * (piece * 2 ^ (32 * j) * 2 ^ 32) := by
      rw [pow_add, pow_add]
      ring
    rw [below, whole, Nat.mul_div_cancel_left _ (power _), Nat.mul_mod_left, if_neg (by omega), if_neg (by omega)]
  · rw [Nat.mul_div_cancel _ (power _), if_pos rfl, if_neg (by omega), Nat.add_zero]
  · obtain ⟨j, rfl⟩ := Nat.exists_eq_add_of_lt more
    have above : 2 ^ (32 * (place + j + 1)) = 2 ^ (32 * place) * 2 ^ (32 * (j + 1)) := by
      rw [← pow_add]
      congr 1
      omega
    rw [above, ← Nat.div_div_eq_div_mul, Nat.mul_div_cancel _ (power _), if_neg (by omega), Nat.zero_add]
    cases j with
    | zero =>
        rw [if_pos (by omega)]
        exact Nat.mod_eq_of_lt (by omega)
    | succ j =>
        have high : piece < 2 ^ (32 * (j + 1 + 1)) := lt_of_lt_of_le small (Nat.pow_le_pow_right (by decide) (by omega))
        rw [if_neg (by omega), Nat.div_eq_of_lt high]
        rfl

theorem signedTermAdd (negative : Bool) (a b : Int) :
    signedTerm negative (a + b) = signedTerm negative a + signedTerm negative b := by
  cases negative
  · rfl
  · exact neg_add a b

theorem signedTermZero (negative : Bool) : signedTerm negative 0 = 0 := by cases negative <;> rfl

theorem signedTermIf (negative : Bool) (c : Prop) [Decidable c] (n : Nat) :
    signedTerm negative ((if c then n else 0 : Nat) : Int) = if c then signedTerm negative n else 0 := by
  split_ifs
  · rfl
  · exact signedTermZero negative

namespace ExactDoubles

/- The digits are those of `exact`, as far as their words have room. -/
def Keeps (s : ExactDoubles) (exact' : Nat → Int) : Prop := ∀ i < 68, s.digits.getD i 0 = wrap 64 (exact' i)

theorem zeroKeeps : zero.Keeps fun _ => 0 := by
  intro i inside
  rw [zero, List.getD_replicate _ inside]
  rfl

theorem Keeps.bump {s : ExactDoubles} {exact' : Nat → Int} (keeps : s.Keeps exact') (place : Nat) (n : Int) :
    (s.bump place n).Keeps fun i => exact' i + if i = place then n else 0 := by
  intro i inside
  have here : i < s.digits.length := by rw [s.full]; exact inside
  have held := keeps i inside
  rw [List.getD_eq_getElem?_getD, List.getElem?_eq_getElem here, Option.getD_some] at held
  show (s.digits.modify place fun d => wrap 64 (d + n)).getD i 0 = _
  rw [List.getD_eq_getElem?_getD, List.getElem?_modify, List.getElem?_eq_getElem here, held]
  show (if place = i then wrap 64 (wrap 64 (exact' i) + n) else wrap 64 (exact' i)) =
    wrap 64 (exact' i + if i = place then n else 0)
  by_cases same : i = place
  · rw [if_pos same, if_pos same.symm]
    exact Int.bmod_add_bmod
  · rw [if_neg same, if_neg (Ne.symm same), add_zero]

theorem Keeps.addShifted {s : ExactDoubles} {exact' : Nat → Int} (keeps : s.Keeps exact') (magnitude shift : Nat)
    (negative : Bool) :
    (s.addShifted magnitude shift negative).Keeps fun i =>
      exact' i + signedTerm negative (spread (magnitude * 2 ^ shift) i) := by
  induction s, magnitude, shift using ExactDoubles.addShifted.induct negative generalizing exact' with
  | case1 s shift =>
      rw [ExactDoubles.addShifted, if_pos rfl]
      intro i inside
      simp only [Nat.zero_mul, spread, Nat.zero_div, Nat.zero_mod, Nat.cast_zero, signedTermZero, add_zero]
      exact keeps i inside
  | case2 s magnitude shift some piece low both =>
      rename_i ih
      rw [ExactDoubles.addShifted, if_neg some]
      have next := ih ((keeps.bump _ _).bump _ _)
      intro i inside
      rw [next i inside]
      congr 1
      -- the number in two parts: its lowest digit and the rest
      have digit : magnitude % 2 ^ 32 < 2 ^ 32 := Nat.mod_lt _ (by decide)
      have first : magnitude % 2 ^ 32 * 2 ^ shift < 2 ^ (shift + 32) := by
        rw [pow_add, Nat.mul_comm]
        exact Nat.mul_lt_mul_of_pos_left digit (by positivity)
      have parts : magnitude * 2 ^ shift = magnitude % 2 ^ 32 * 2 ^ shift + magnitude / 2 ^ 32 * 2 ^ (shift + 32) := by
        have whole := Nat.mod_add_div magnitude (2 ^ 32)
        rw [pow_add]
        nth_rewrite 1 [← whole]
        ring
      have placed : magnitude % 2 ^ 32 * 2 ^ shift = piece * 2 ^ (32 * (shift / 32)) := by
        show _ = (magnitude % 2 ^ 32) <<< (shift % 32) * _
        rw [Nat.shiftLeft_eq, Nat.mul_assoc, ← pow_add]
        congr 2
        omega
      have word : piece < 2 ^ 64 := by
        show (magnitude % 2 ^ 32) <<< (shift % 32) < 2 ^ 64
        rw [Nat.shiftLeft_eq]
        calc magnitude % 2 ^ 32 * 2 ^ (shift % 32) < 2 ^ 32 * 2 ^ (shift % 32) :=
              Nat.mul_lt_mul_of_pos_right digit (by positivity)
          _ ≤ 2 ^ 32 * 2 ^ 32 := Nat.mul_le_mul_left _ (Nat.pow_le_pow_right (by decide) (by omega))
          _ = 2 ^ 64 := by norm_num
      have split : spread (magnitude * 2 ^ shift) i =
          spread (piece * 2 ^ (32 * (shift / 32))) i + spread (magnitude / 2 ^ 32 * 2 ^ (shift + 32)) i := by
        rw [parts, ← placed]
        exact digitsApart first (Nat.dvd_mul_left _ _)
      simp only
      rw [split, spreadPiece word, Nat.cast_add, Nat.cast_add, signedTermAdd, signedTermAdd, signedTermIf, signedTermIf]
      ring

end ExactDoubles

/- The number of units in a finite double. -/
def unitsOf (bits : UInt64) : Nat := FloatGrid.point 52 (fieldOf bits)

theorem fieldsOf (bits : UInt64) : fieldOf bits / 2 ^ 52 = bits.toNat / 2 ^ 52 % 2 ^ 11 ∧
    fieldOf bits % 2 ^ 52 = bits.toNat % 2 ^ 52 := by
  have range := bits.toNat_lt
  unfold fieldOf
  omega

theorem ExactDoubles.Keeps.add {s : ExactDoubles} {exact' : Nat → Int} (keeps : s.Keeps exact') (bits : UInt64) :
    (s.add bits).Keeps fun i => exact' i + signedTerm (signOf bits) (spread (unitsOf bits) i) := by
  obtain ⟨exponent, fraction⟩ := fieldsOf bits
  unfold ExactDoubles.add unitsOf FloatGrid.point FloatGrid.unit
  simp only
  rw [exponent, fraction]
  split_ifs with zero
  · have whole : fieldOf bits = bits.toNat % 2 ^ 52 * 2 ^ 0 := by
      rw [zero] at exponent
      rw [← fraction, pow_zero, Nat.mul_one]
      omega
    rw [whole]
    exact keeps.addShifted _ 0 (signOf bits)
  · exact keeps.addShifted _ _ (signOf bits)

theorem negatedFields (bits : UInt64) :
    signOf (Plain.negated bits) = !signOf bits ∧ fieldOf (Plain.negated bits) = fieldOf bits := by
  have range := bits.toNat_lt
  have flipped : (Plain.negated bits).toNat = bits.toNat ^^^ 2 ^ 63 := by
    unfold Plain.negated
    rw [UInt64.toNat_xor]
    rfl
  have low : (bits.toNat ^^^ 2 ^ 63) % 2 ^ 63 = bits.toNat % 2 ^ 63 := by
    rw [Nat.xor_mod_two_pow, Nat.mod_self, Nat.xor_zero]
  have high : (bits.toNat ^^^ 2 ^ 63) / 2 ^ 63 = bits.toNat / 2 ^ 63 ^^^ 1 := by
    rw [← Nat.shiftRight_eq_div_pow, Nat.shiftRight_xor_distrib, Nat.shiftRight_eq_div_pow, Nat.shiftRight_eq_div_pow,
      Nat.div_self (by decide)]
  refine ⟨?_,?_⟩
  · unfold signOf
    rw [flipped, high]
    obtain zero | one : bits.toNat / 2 ^ 63 = 0 ∨ bits.toNat / 2 ^ 63 = 1 := by omega
    · rw [zero]
      rfl
    · rw [one]
      rfl
  · unfold fieldOf
    rw [flipped, low]

theorem spreadSum (v n : Nat) : ∑ i ∈ Finset.range n, spread v i * (2 ^ 32) ^ i = v % (2 ^ 32) ^ n := by
  induction n with
  | zero => simp [Nat.mod_one]
  | succ n ih =>
      rw [Finset.sum_range_succ, ih, Nat.mod_pow_succ, spread, pow_mul]
      ring

/- The number that digits stand for. -/
def worth (exact' : Nat → Int) : Int := ∑ i ∈ Finset.range 68, exact' i * (2 ^ 32) ^ i

theorem worthAdd (f g : Nat → Int) : worth (fun i => f i + g i) = worth f + worth g := by
  unfold worth
  rw [← Finset.sum_add_distrib]
  exact Finset.sum_congr rfl fun i _ => add_mul _ _ _

theorem worthSpread (negative : Bool) {v : Nat} (small : v < (2 ^ 32) ^ 68) :
    worth (fun i => signedTerm negative (spread v i)) = signedTerm negative v := by
  have plain : ∑ i ∈ Finset.range 68, (spread v i : Int) * (2 ^ 32) ^ i = (v : Int) := by
    have sum := congrArg (fun n : Nat => (n : Int)) (spreadSum v 68)
    simp only [Nat.mod_eq_of_lt small, Nat.cast_sum, Nat.cast_mul, Nat.cast_pow, Nat.cast_ofNat] at sum
    exact sum
  unfold worth
  cases negative
  · simp only [signedTerm, Bool.false_eq_true, if_false]
    exact plain
  · simp only [signedTerm, if_true]
    show ∑ i ∈ Finset.range 68, -(spread v i : Int) * (2 ^ 32) ^ i = -(v : Int)
    rw [← plain, ← Finset.sum_neg_distrib]
    exact Finset.sum_congr rfl fun i _ => neg_mul _ _

theorem wrapSmall {n : Int} {width : Nat} (small : n.natAbs * 2 < 2 ^ width) : wrap width n = n := by
  have cast : ((2 ^ width : Nat) : Int) = 2 ^ width := by push_cast; rfl
  refine Int.bmod_eq_of_le_mul_two ?_ ?_ <;> omega

theorem ExactDoubles.Keeps.value {s : ExactDoubles} {exact' : Nat → Int} (keeps : s.Keeps exact')
    (small : ∀ i < 68, (exact' i).natAbs < 2 ^ 63) : signedValue (2 ^ 32) s.digits = worth exact' := by
  have digits : s.digits = placesFrom (fun p => exact' p.toNat) 0 68 := by
    refine List.ext_getElem (by simp [placesFrom, s.full]) fun i here there => ?_
    have inside : i < 68 := s.full ▸ here
    have held := keeps i inside
    rw [List.getD_eq_getElem _ _ here, wrapSmall (by have := small i inside; omega)] at held
    rw [held]
    simp [placesFrom]
  have sum := placesSum (2 ^ 32) (fun p => exact' p.toNat) 0 68
  rw [digits]
  unfold worth
  have cast : ((signedValue (2 ^ 32) (placesFrom (fun p => exact' p.toNat) 0 68) : Int) : ℚ) =
      ((∑ i ∈ Finset.range 68, exact' i * (2 ^ 32) ^ i : Int) : ℚ) := by
    rw [sum]
    push_cast
    simp
  exact_mod_cast cast

/-! Additions and removals. -/

/- A finite double or an integer. -/
def Summand : Bson → Prop
  | .int32 _ | .int64 _ => True
  | .double bits => ∃ x, Exact.double bits = .finite x
  | _ => False

def termOf (v : Bson) : ℚ :=
  match Exact.ofBson v with
  | some (.finite x) => x
  | _ => 0

/- The steps so far and the terms they leave: a removal takes out a term that is held, and there are never `2 ^ 31`
terms. -/
inductive Holding : List (Bson × Bool) → List Bson → Prop where
  | start : Holding [] []
  | adds {steps held v} : Holding steps held → Summand v → held.length + 1 < 2 ^ 31 →
      Holding (steps ++ [(v,true)]) (v :: held)
  | removes {steps held v} : Holding steps held → v ∈ held → Holding (steps ++ [(v,false)]) (held.erase v)

def Plain.run (steps : List (Bson × Bool)) : Plain := steps.foldl (fun p step => p.apply step.1 step.2) .new

def doubleDigit (i : Nat) : Bson → Int
  | .double bits => signedTerm (signOf bits) (spread (unitsOf bits) i)
  | _ => 0

def integerOf : Bson → Int
  | .int32 n => n.toInt
  | .int64 n => n.toInt
  | _ => 0

def doubleCount : Bson → Nat
  | .double _ => 1
  | _ => 0

/- What the state says of the terms that are held. -/
structure Plain.Sums (p : Plain) (held : List Bson) : Prop where
  summands : ∀ v ∈ held, Summand v
  few : held.length < 2 ^ 31
  count : p.nDbl = (held.map doubleCount).sum
  digits : p.doubles.Keeps fun i => (held.map (doubleDigit i)).sum
  ints : p.ints = wrap 128 (held.map integerOf).sum

theorem sumErase {α : Type} [AddCommMonoid α] {held : List Bson} {v : Bson} (f : Bson → α) (member : v ∈ held) :
    (held.map f).sum = f v + ((held.erase v).map f).sum := by
  rw [((List.perm_cons_erase member).map f).sum_eq, List.map_cons, List.sum_cons]

theorem signedTermNot (negative : Bool) (n : Int) : signedTerm (!negative) n = -signedTerm negative n := by
  cases negative
  · rfl
  · exact (neg_neg n).symm

/- One term in or out. -/
theorem Plain.applyFields (p : Plain) {v : Bson} (summand : Summand v) (adding : Bool) {exact' : Nat → Int}
    (keeps : p.doubles.Keeps exact') :
    (p.apply v adding).nDbl = (if doubleCount v = 0 then p.nDbl else Plain.count adding p.nDbl) ∧
      (p.apply v adding).ints = (if doubleCount v = 0 then wrap 128 (p.ints + signedTerm (!adding) (integerOf v)) else p.ints) ∧
      ((p.apply v adding).doubles.Keeps (fun i => exact' i + signedTerm (!adding) (doubleDigit i v)) ∨
        doubleCount v = 1 ∧ (p.apply v adding).nDbl = 0 ∧ (p.apply v adding).doubles = .zero) := by
  cases v with
  | int32 n =>
      refine ⟨rfl,rfl,Or.inl ?_⟩
      simp only [doubleDigit, signedTermZero, add_zero]
      exact keeps
  | int64 n =>
      refine ⟨rfl,rfl,Or.inl ?_⟩
      simp only [doubleDigit, signedTermZero, add_zero]
      exact keeps
  | double bits =>
      obtain ⟨x, finite⟩ := summand
      have small := (Decimal.Arith.finiteField finite).1
      have applied : p.apply (.double bits) adding = p.applyDouble bits adding := by
        unfold Plain.apply
        simp only [if_neg (not_lt.mpr small.le), if_neg small.ne]
      rw [applied]
      refine ⟨rfl,rfl,?_⟩
      have entered : (p.doubles.add (if adding then bits else negated bits)).Keeps fun i =>
          exact' i + signedTerm (!adding) (doubleDigit i (.double bits)) := by
        cases adding with
        | true => exact keeps.add bits
        | false =>
            obtain ⟨sign, field⟩ := negatedFields bits
            have taken := keeps.add (negated bits)
            unfold unitsOf at taken
            rw [sign, field] at taken
            simp only [signedTermNot] at taken
            exact taken
      unfold Plain.applyDouble
      simp only
      by_cases none : count adding p.nDbl = 0
      · rw [if_pos none]
        exact Or.inr ⟨rfl,none,rfl⟩
      · rw [if_neg none]
        exact Or.inl entered
  | _ => exact absurd summand id

theorem Plain.newSums : new.Sums [] := ⟨nofun,by decide,rfl,ExactDoubles.zeroKeeps,rfl⟩

/- No double is held when none is counted. -/
theorem noDoubles {held : List Bson} (none : (held.map doubleCount).sum = 0) (i : Nat) :
    (held.map (doubleDigit i)).sum = 0 := by
  refine List.sum_eq_zero fun x member => ?_
  obtain ⟨v, there, rfl⟩ := List.mem_map.mp member
  have zero := List.sum_eq_zero_iff.mp none (doubleCount v) (List.mem_map_of_mem there)
  cases v <;> first | rfl | cases zero

/- The terms after a step, by what each of them adds up to. -/
theorem Plain.Sums.step {p : Plain} {held after : List Bson} (sums : p.Sums held) {v : Bson} (summand : Summand v)
    (adding : Bool) (few : after.length < 2 ^ 31) (summands : ∀ w ∈ after, Summand w)
    (total : ∀ f : Bson → Int, (after.map f).sum = (held.map f).sum + signedTerm (!adding) (f v))
    (counted : (after.map doubleCount).sum = if doubleCount v = 0 then (held.map doubleCount).sum
      else Plain.count adding (held.map doubleCount).sum) : (p.apply v adding).Sums after := by
  obtain ⟨number, ints, digits⟩ := p.applyFields summand adding sums.digits
  have counts : (p.apply v adding).nDbl = (after.map doubleCount).sum := by
    rw [number, counted, sums.count]
  refine ⟨summands,few,counts,?_,?_⟩
  · rcases digits with keeps | ⟨_, none, cleared⟩
    · simp only [total]
      exact keeps
    · rw [cleared]
      have nothing := noDoubles (counts.symm.trans none)
      simp only [nothing]
      exact ExactDoubles.zeroKeeps
  · rw [ints, total, sums.ints]
    split_ifs with integer
    · exact Int.bmod_add_bmod
    · have zero : integerOf v = 0 := by cases v <;> first | rfl | exact absurd rfl integer
      rw [zero, signedTermZero, add_zero]

theorem Plain.runSums {steps : List (Bson × Bool)} {held : List Bson} (holding : Holding steps held) :
    (run steps).Sums held := by
  have snoc (steps : List (Bson × Bool)) (v : Bson) (adding : Bool) :
      run (steps ++ [(v,adding)]) = (run steps).apply v adding := by
    unfold run
    rw [List.foldl_append]
    rfl
  induction holding with
  | start => exact newSums
  | @adds steps held v _ summand few sums =>
      rw [snoc]
      refine sums.step summand true few ?_ (fun f => ?_) ?_
      · intro w member
        rcases List.mem_cons.mp member with rfl | there
        · exact summand
        · exact sums.summands w there
      · rw [List.map_cons, List.sum_cons, add_comm]
        rfl
      · rw [List.map_cons, List.sum_cons]
        cases v <;> first | exact Nat.zero_add _ | exact Nat.add_comm _ _
  | @removes steps held v _ member sums =>
      rw [snoc]
      refine sums.step (sums.summands v member) false ?_ (fun w there => sums.summands w (List.mem_of_mem_erase there))
        (fun f => ?_) ?_
      · exact lt_of_le_of_lt (List.erase_sublist.length_le) sums.few
      · rw [sumErase f member]
        simp [signedTerm]
      · rw [sumErase doubleCount member]
        cases v <;> first | exact (Nat.zero_add _).symm | exact (Nat.add_sub_cancel_left _ _).symm

/-! The sum that is reported. -/

def doubleUnits : Bson → Int
  | .double bits => signedTerm (signOf bits) (unitsOf bits)
  | _ => 0

theorem sumBound {f : Bson → Int} {g : Bson → Nat} : ∀ {held : List Bson}, (∀ v ∈ held, (f v).natAbs ≤ g v) →
    (held.map f).sum.natAbs ≤ (held.map g).sum
  | [], _ => le_rfl
  | v :: held, each => by
      rw [List.map_cons, List.map_cons, List.sum_cons, List.sum_cons]
      have head := each v List.mem_cons_self
      have tail := @sumBound f g held fun w member => each w (List.mem_cons_of_mem _ member)
      exact (Int.natAbs_add_le _ _).trans (Nat.add_le_add head tail)

theorem signedTermAbs (negative : Bool) (n : Nat) : (signedTerm negative n).natAbs = n := by
  cases negative <;> simp [signedTerm]

theorem digitBound (i : Nat) (v : Bson) : (doubleDigit i v).natAbs ≤ (2 ^ 32 - 1) * doubleCount v := by
  cases v with
  | double bits =>
      show (signedTerm (signOf bits) (spread (unitsOf bits) i)).natAbs ≤ _
      rw [signedTermAbs]
      exact Nat.le_sub_one_of_lt (Nat.mod_lt _ (by decide))
  | _ => exact Nat.zero_le _

/- An integer takes the place of a double. -/
theorem doublesAndIntegers (held : List Bson) : (held.map doubleCount).sum ≤ held.length ∧
    ((held.map doubleCount).sum = held.length → (held.map integerOf).sum = 0) := by
  induction held with
  | nil => exact ⟨le_rfl,fun _ => rfl⟩
  | cons v held ih =>
      obtain ⟨most, all⟩ := ih
      rw [List.map_cons, List.map_cons, List.sum_cons, List.sum_cons, List.length_cons]
      cases v with
      | double bits =>
          simp only [doubleCount, integerOf, zero_add]
          exact ⟨by omega,fun full => all (by omega)⟩
      | _ =>
          simp only [doubleCount]
          exact ⟨by omega,fun full => by omega⟩

theorem unitsBound {bits : UInt64} (small : fieldOf bits < infinity) : unitsOf bits < (2 ^ 32) ^ 66 := by
  have below := FloatGrid.pointUnits 52 (fieldOf bits)
  have unit : FloatGrid.unit 52 (fieldOf bits) ≤ 2 ^ (2045 : Nat) := by
    unfold FloatGrid.unit
    unfold infinity at small
    exact Nat.pow_le_pow_right (by decide) (by omega)
  refine lt_of_lt_of_le below ?_
  calc 2 ^ (52 + 1) * FloatGrid.unit 52 (fieldOf bits) ≤ 2 ^ (52 + 1) * 2 ^ (2045 : Nat) := Nat.mul_le_mul_left _ unit
    _ = 2 ^ (52 + 1 + 2045) := (pow_add _ _ _).symm
    _ ≤ 2 ^ (32 * 66) := Nat.pow_le_pow_right (by decide) (by decide)
    _ = (2 ^ 32) ^ 66 := pow_mul _ _ _

theorem roomFor : (2 ^ 32) ^ 66 * 2 ^ 64 = (2 ^ 32) ^ 68 := by
  rw [show (2 : Nat) ^ 64 = (2 ^ 32) ^ 2 by norm_num, ← pow_add]

theorem worthDoubles : ∀ {held : List Bson}, (∀ v ∈ held, Summand v) →
    worth (fun i => (held.map (doubleDigit i)).sum) = (held.map doubleUnits).sum
  | [], _ => by simp [worth]
  | v :: held, summands => by
      simp only [List.map_cons, List.sum_cons]
      rw [worthAdd, worthDoubles fun w member => summands w (List.mem_cons_of_mem _ member)]
      congr 1
      cases v with
      | double bits =>
          obtain ⟨x, finite⟩ := summands _ List.mem_cons_self
          have small := unitsBound (Decimal.Arith.finiteField finite).1
          exact worthSpread (signOf bits) (lt_of_lt_of_le small (Nat.pow_le_pow_right (by decide) (by decide)))
      | _ => simp [worth, doubleDigit, doubleUnits]

theorem signedAbs (n : Int) : signedTerm (decide (n < 0)) n.natAbs = n := by
  unfold signedTerm
  split_ifs with negative
  · have := of_decide_eq_true negative
    omega
  · have : ¬ n < 0 := fun less => negative (decide_eq_true less)
    omega

theorem unitsTerm {v : Bson} (summand : Summand v) :
    termOf v = ((doubleUnits v + integerOf v * 2 ^ (1074 : Nat) : Int) : ℚ) * 2 ^ (-1074 : Int) := by
  have cancel : (2 : ℚ) ^ (1074 : Nat) * 2 ^ (-1074 : Int) = 1 := by
    rw [← zpow_natCast, ← zpow_add₀ (by norm_num)]
    rfl
  cases v with
  | int32 n =>
      show (n.toInt : ℚ) = ((0 + n.toInt * 2 ^ (1074 : Nat) : Int) : ℚ) * _
      rw [zero_add, Int.cast_mul, Int.cast_pow, Int.cast_ofNat, mul_assoc, cancel, mul_one]
  | int64 n =>
      show (n.toInt : ℚ) = ((0 + n.toInt * 2 ^ (1074 : Nat) : Int) : ℚ) * _
      rw [zero_add, Int.cast_mul, Int.cast_pow, Int.cast_ofNat, mul_assoc, cancel, mul_one]
  | double bits =>
      obtain ⟨x, finite⟩ := summand
      obtain ⟨_, rfl⟩ := Decimal.Arith.finiteField finite
      have value : termOf (.double bits) = Exact.signed (signOf bits) (fieldValue (fieldOf bits)) := by
        unfold termOf Exact.ofBson
        simp only [finite]
      rw [value]
      show _ = ((signedTerm (signOf bits) (unitsOf bits) + 0 * 2 ^ (1074 : Nat) : Int) : ℚ) * _
      rw [zero_mul, add_zero, fieldValue]
      unfold Exact.signed signedTerm unitsOf
      split_ifs <;> push_cast <;> ring
  | _ => exact absurd summand id

def totalUnits (held : List Bson) : Int := (held.map doubleUnits).sum + (held.map integerOf).sum * 2 ^ (1074 : Nat)

theorem totalTerms : ∀ {held : List Bson}, (∀ v ∈ held, Summand v) →
    (held.map termOf).sum = (totalUnits held : ℚ) * 2 ^ (-1074 : Int)
  | [], _ => by simp [totalUnits]
  | v :: held, summands => by
      have tail := totalTerms fun w member => summands w (List.mem_cons_of_mem v member)
      rw [List.map_cons, List.sum_cons, tail, unitsTerm (summands v List.mem_cons_self), ← add_mul, ← Int.cast_add]
      congr 2
      unfold totalUnits
      rw [List.map_cons, List.map_cons, List.sum_cons, List.sum_cons]
      ring

theorem signedScaled (negative : Bool) (a c : Nat) : signedTerm negative ((a * c : Nat) : Int) = signedTerm negative a * c := by
  cases negative <;> simp [signedTerm]

theorem integerBound (v : Bson) : (integerOf v).natAbs ≤ 2 ^ 63 := by
  cases v with
  | int32 n =>
      have low := n.le_toInt
      have high := n.toInt_lt
      show n.toInt.natAbs ≤ _
      omega
  | int64 n =>
      have low := n.le_toInt
      have high := n.toInt_lt
      show n.toInt.natAbs ≤ _
      omega
  | _ => exact Nat.zero_le _

theorem constantSum (held : List Bson) (n : Nat) : (held.map fun _ => n).sum = held.length * n := by
  rw [List.map_const', List.sum_replicate, smul_eq_mul]

/- The integers held, in units. -/
theorem integersBound {held : List Bson} (few : held.length < 2 ^ 31) :
    (held.map integerOf).sum.natAbs < 2 ^ 94 ∧ (held.map integerOf).sum.natAbs * 2 ^ (1074 : Nat) < (2 ^ 32) ^ 66 := by
  have most : (held.map integerOf).sum.natAbs ≤ held.length * 2 ^ 63 := by
    rw [← constantSum]
    exact sumBound fun v _ => integerBound v
  have below : (held.map integerOf).sum.natAbs < 2 ^ 94 := by omega
  refine ⟨below,?_⟩
  calc (held.map integerOf).sum.natAbs * 2 ^ (1074 : Nat) < 2 ^ 94 * 2 ^ (1074 : Nat) :=
        Nat.mul_lt_mul_of_pos_right below (Nat.pow_pos (by decide))
    _ = 2 ^ (94 + 1074) := (pow_add _ _ _).symm
    _ ≤ 2 ^ (32 * 66) := Nat.pow_le_pow_right (by decide) (by decide)
    _ = (2 ^ 32) ^ 66 := pow_mul _ _ _

theorem doublesBound {held : List Bson} (summands : ∀ v ∈ held, Summand v) :
    (held.map doubleUnits).sum.natAbs ≤ held.length * (2 ^ 32) ^ 66 := by
  rw [← constantSum]
  refine sumBound fun v member => ?_
  cases v with
  | double bits =>
      obtain ⟨x, finite⟩ := summands _ member
      show (signedTerm (signOf bits) (unitsOf bits)).natAbs ≤ _
      rw [signedTermAbs]
      exact (unitsBound (Decimal.Arith.finiteField finite).1).le
  | _ => exact Nat.zero_le _

theorem Plain.Sums.value {p : Plain} {held : List Bson} (sums : p.Sums held) :
    p.doubles.valueWith p.ints = ofTotal (totalUnits held) ∧ (totalUnits held).natAbs < (2 ^ 32) ^ 68 := by
  obtain ⟨fewInts, fits⟩ := integersBound sums.few
  have doubles := doublesBound sums.summands
  have ints : p.ints = (held.map integerOf).sum := by
    rw [sums.ints]
    exact wrapSmall (by omega)
  have keeps : (p.doubles.addInteger p.ints).Keeps _ := sums.digits.addShifted p.ints.natAbs 1074 (decide (p.ints < 0))
  -- no digit leaves its word
  have small : ∀ i < 68, ((held.map (doubleDigit i)).sum +
      signedTerm (decide (p.ints < 0)) (spread (p.ints.natAbs * 2 ^ (1074 : Nat)) i)).natAbs < 2 ^ 63 := by
    intro i _
    have digits : (held.map (doubleDigit i)).sum.natAbs ≤ (2 ^ 32 - 1) * (held.map doubleCount).sum := by
      rw [← List.sum_map_mul_left]
      exact sumBound fun v _ => digitBound i v
    have digit : spread (p.ints.natAbs * 2 ^ (1074 : Nat)) i < 2 ^ 32 := Nat.mod_lt _ (by decide)
    have none (zero : p.ints = 0) : spread (p.ints.natAbs * 2 ^ (1074 : Nat)) i = 0 := by
      rw [zero, Int.natAbs_zero, Nat.zero_mul, spread, Nat.zero_div]
      rfl
    obtain ⟨most, all⟩ := doublesAndIntegers held
    have few := sums.few
    have total := (Int.natAbs_add_le (held.map (doubleDigit i)).sum
      (signedTerm (decide (p.ints < 0)) (spread (p.ints.natAbs * 2 ^ (1074 : Nat)) i)))
    rw [signedTermAbs] at total
    rw [← ints] at all
    generalize spread (p.ints.natAbs * 2 ^ (1074 : Nat)) i = n at *
    by_cases full : (held.map doubleCount).sum = held.length
    · have zero := none (all full)
      omega
    · omega
  have worthIs : signedValue (2 ^ 32) (p.doubles.addInteger p.ints).digits = totalUnits held := by
    rw [keeps.value small, worthAdd, worthDoubles sums.summands, worthSpread, totalUnits, ← ints]
    · rw [signedScaled, signedAbs, Nat.cast_pow, Nat.cast_ofNat]
    · rw [ints, ← roomFor]
      exact lt_of_lt_of_le fits (Nat.le_mul_of_pos_right _ (by decide))
  have room : (totalUnits held).natAbs < (2 ^ 32) ^ 68 := by
    rw [← roomFor]
    unfold totalUnits
    refine lt_of_le_of_lt (Int.natAbs_add_le _ _) ?_
    rw [Int.natAbs_mul, Int.natAbs_pow]
    have few := sums.few
    have positive : 0 < (2 ^ 32) ^ 66 := by positivity
    have whole : held.length * (2 ^ 32) ^ 66 ≤ 2 ^ 31 * (2 ^ 32) ^ 66 := Nat.mul_le_mul_right _ few.le
    have two : (2 : Int).natAbs = 2 := rfl
    rw [two]
    generalize (2 ^ 32) ^ 66 = u at *
    omega
  refine ⟨?_,room⟩
  rw [ExactDoubles.valueWith, valueOfTotal (by rw [worthIs]; exact room), worthIs]

/- The sum of the terms that are held, rounded once: whatever the order they came and went in. -/
theorem exactSumNearest {steps : List (Bson × Bool)} {held : List Bson} (holding : Holding steps held) :
    let reported (steps : List (Bson × Bool)) := (Plain.run steps).doubles.valueWith (Plain.run steps).ints
    NearestDouble (decide ((held.map termOf).sum < 0)) |(held.map termOf).sum| (reported steps) ∧
      ∀ {others kept}, Holding others kept → (kept.map termOf).sum = (held.map termOf).sum →
        reported others = reported steps := by
  intro reported
  have sums := Plain.runSums holding
  obtain ⟨value, room⟩ := sums.value
  have unit := KeyNumber.twoPos (-1074)
  have total := totalTerms sums.summands
  have sign : decide ((held.map termOf).sum < 0) = decide (totalUnits held < 0) := by
    rw [total, decide_eq_decide, mul_neg_iff]
    simp only [unit, unit.not_gt, and_false, false_or, and_true]
    exact_mod_cast Iff.rfl
  have size : |(held.map termOf).sum| = (totalUnits held).natAbs * 2 ^ (-1074 : Int) := by
    rw [total, abs_mul, abs_of_pos unit, Nat.cast_natAbs, Int.cast_abs]
  refine ⟨?_,fun {others kept} other same => ?_⟩
  · show NearestDouble _ _ ((Plain.run steps).doubles.valueWith (Plain.run steps).ints)
    rw [value, sign, size]
    exact ofTotalNearest room
  · have theirs := Plain.runSums other
    rw [totalTerms theirs.summands, total] at same
    have equal : totalUnits kept = totalUnits held := by exact_mod_cast mul_right_cancel₀ unit.ne' same
    show (Plain.run others).doubles.valueWith (Plain.run others).ints = (Plain.run steps).doubles.valueWith (Plain.run steps).ints
    rw [theirs.value.1, equal, value]

/- The largest double and half a unit of it: a tie that goes to the infinity, and back when the half leaves. -/
theorem exactSumOfLargest :
    Holding [(.double 0x7FEFFFFFFFFFFFFF,true),(.double 0x7C90000000000000,true)]
        [.double 0x7C90000000000000,.double 0x7FEFFFFFFFFFFFFF] ∧
      NearestDouble (decide (([.double 0x7C90000000000000,.double 0x7FEFFFFFFFFFFFFF].map termOf).sum < 0))
        |([.double 0x7C90000000000000,.double 0x7FEFFFFFFFFFFFFF].map termOf).sum|
        ((Plain.run [(.double 0x7FEFFFFFFFFFFFFF,true),(.double 0x7C90000000000000,true)]).doubles.valueWith
          (Plain.run [(.double 0x7FEFFFFFFFFFFFFF,true),(.double 0x7C90000000000000,true)]).ints) := by
  have finite (bits : UInt64) (small : fieldOf bits < infinity) : Summand (.double bits) :=
    ⟨_,(Decimal.Arith.doubleFinite bits).1 small⟩
  have held : Holding [(.double 0x7FEFFFFFFFFFFFFF,true),(.double 0x7C90000000000000,true)]
      [.double 0x7C90000000000000,.double 0x7FEFFFFFFFFFFFFF] :=
    .adds (.adds .start (finite _ (by decide)) (by decide)) (finite _ (by decide)) (by decide)
  exact ⟨held,(exactSumNearest held).1⟩

end Kimmy.Window
