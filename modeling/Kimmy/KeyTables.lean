import Kimmy.KeyNumber
import Kimmy.NearMultiple

/-!
The tables never change a key. Whatever route `decimal` takes, its body is the one exact
integer arithmetic gives; and the second table leaves a coefficient undecided only where the
expansion ends. Undecided means that the product lies less than `c` below a multiple of
`2^256`, and for all but the shortest powers a multiplier of `NearMultiple` rules that out.
-/
namespace Kimmy.KeyNumber
open BigInt Limbs Decimal NearMultiple PowerOfFive

/-! The exact route's own mark is the closed form's. -/

theorem topBitsRest (b : Big) {L n : Nat} (fits : n ≤ 64 * L) :
    (b.topBits L n).2 = true ↔ 2 ^ (bitLength b.value - n) ∣ b.value := by
  rw [← Big.bitLenValue]
  rcases Nat.lt_or_ge n b.bitLen with long | short
  · rw [(b.topBitsLong fits long).2]
    exact Nat.dvd_iff_mod_eq_zero.symm
  · rw [(b.topBitsShort short).2, Nat.sub_eq_zero_of_le short, pow_zero]
    exact iff_of_true rfl (one_dvd _)

theorem fiveSmall {c q : Nat} {e : Int} (h : Canonical c e) (divides : 5 ^ q ∣ c) : q < 49 := by
  by_contra long
  have most := Nat.le_of_dvd h.1 divides
  have least := Nat.pow_le_pow_right (by decide : 0 < 5) (not_lt.mp long)
  have small := coefficientSmall h
  have : 2 ^ 113 ≤ 5 ^ 49 := by decide
  omega

/- Below zero the mark is clear exactly where the power of five divides the coefficient. -/
theorem negativeMark {c q : Nat} (h : Canonical c (-q)) (some : 0 < q) :
    inexact c (-q) = false ↔ 5 ^ q ∣ c := by
  have sign : ¬ (0 : Int) ≤ -q := by omega
  simp only [inexact, if_neg sign, Int.natAbs_neg, Int.natAbs_natCast]
  by_cases divides : 5 ^ q ∣ c
  · have small : c / 5 ^ q < 2 ^ 113 := lt_of_le_of_lt (Nat.div_le_self _ _) (coefficientSmall h)
    have pos : 0 < c / 5 ^ q := Nat.div_pos (Nat.le_of_dvd h.1 divides) (by positivity)
    have tail := integerTailSpec pos (lt_trans small (by decide)) (by decide : 0 < 12655)
    have width := bitLengthLe.mpr small
    rw [pow_zero, mul_one, Nat.sub_eq_zero_of_le (by omega), pow_zero] at tail
    rw [if_neg (not_le.mpr (fiveSmall h divides)), Nat.mod_eq_zero_of_dvd divides, if_neg (by simp)]
    simpa [divides] using tail
  · have rest : c % 5 ^ q ≠ 0 := fun zero => divides (Nat.dvd_of_mod_eq_zero zero)
    rw [if_pos rest, ite_self]
    simp [divides]

theorem exactMark {c e} (h : Canonical c e) : (exactBody c e).inexact = inexact c e := by
  have small := coefficientSmall h
  have wide : c < 2 ^ 128 := lt_trans small (by decide)
  have low := h.2.2.1
  have high := h.2.2.2
  unfold minExponent at low
  unfold maxExponent at high
  rcases le_or_gt 0 e with sign | sign
  · obtain ⟨e,rfl⟩ := Int.eq_ofNat_of_zero_le sign
    have tail := integerTailSpec h.1 wide (by omega : e < 12655)
    have total : ((Big.fromU128 c).mulPow5 e).value = c * 5 ^ e := by
      rw [Big.mulPow5Value, Big.fromU128Value wide]
    simp only [exactBody, inexact, if_pos sign, Int.toNat_natCast, Bool.true_and]
    have rest := topBitsRest ((Big.fromU128 c).mulPow5 e) (L := 2) (n := 128) (by decide)
    rw [total] at rest
    rw [Bool.eq_iff_iff, tail, ← rest]
    simp
  · obtain ⟨q,rfl⟩ : ∃ q : Nat, e = -q := ⟨e.natAbs,by omega⟩
    have some : 0 < q := by omega
    simp only [exactBody, if_neg (not_le.mpr sign), Int.natAbs_neg, Int.natAbs_natCast]
    generalize 129 + ceilLog2Pow5 q + 1 - (128 - BigInt.leadingZeros 128 c) = k
    have shifted : ((Big.fromU128 c).shl k).value = c * 2 ^ k := by
      rw [Big.shlValue, Big.fromU128Value wide]
    obtain ⟨quotient,divides⟩ := Big.divPow5Spec ((Big.fromU128 c).shl k) q
    rw [shifted] at quotient divides
    have odd : 5 ^ q ∣ c * 2 ^ k ↔ 5 ^ q ∣ c :=
      (Nat.Coprime.pow q k (by decide : Nat.Coprime 5 2)).dvd_mul_right
    rw [odd] at divides
    by_cases five : 5 ^ q ∣ c
    · have value : (((Big.fromU128 c).shl k).divPow5 q).1.value = c / 5 ^ q * 2 ^ k := by
        rw [quotient, Nat.mul_comm, Nat.mul_div_assoc _ five, Nat.mul_comm]
      -- the quotient is short and its other bits are the shift's zeros
      have rest : ((((Big.fromU128 c).shl k).divPow5 q).1.topBits 2 128).2 = true := by
        refine (topBitsRest _ (by decide)).mpr ?_
        have short : c / 5 ^ q < 2 ^ 113 := lt_of_le_of_lt (Nat.div_le_self _ _) small
        have width : bitLength (c / 5 ^ q * 2 ^ k) ≤ 113 + k := by
          refine bitLengthLe.mpr ?_
          rw [pow_add]
          exact Nat.mul_lt_mul_of_pos_right short (by positivity)
        rw [value]
        exact Dvd.dvd.mul_left (Nat.pow_dvd_pow 2 (by omega)) _
      rw [(negativeMark h some).mpr five, rest, divides.mpr five]
      rfl
    · have kept : (((Big.fromU128 c).shl k).divPow5 q).2 = false :=
        Bool.eq_false_iff.mpr fun all => five (divides.mp all)
      have mark : inexact c (-q) = true :=
        Bool.eq_true_of_not_eq_false fun clear => five ((negativeMark h some).mp clear)
      rw [mark, kept]
      rfl

theorem decimalExact {c e} (h : Canonical c e) : decimal c e = exactBody c e := by
  obtain ⟨body,mark⟩ := decimalBody h
  obtain ⟨exp,window⟩ := Head.unique body (exactWindowBody h)
  have first : (decimal c e).exp = (exactBody c e).exp := by
    simp only [exactWindow] at exp
    omega
  calc decimal c e = ⟨(decimal c e).exp,(decimal c e).window,(decimal c e).inexact⟩ := rfl
    _ = ⟨(exactBody c e).exp,(exactBody c e).window,(exactBody c e).inexact⟩ := by
        rw [first, window, mark, exactMark h]
        rfl
    _ = exactBody c e := rfl

/-! What an undecided product says. -/

/- The second table's entry as one number. -/
def wideTop (e : Int) : Nat := Nat.ofDigits word (wide e).mantissa

theorem wideTopHead {e : Int} (low : minExponent ≤ e) :
    Head ((5 : ℚ) ^ e) 384 ((wide e).shift + (384 : Nat)) (wideTop e) := entryHead wideLimbs low

theorem movedOfNone {c : Nat} {e : Int} {power : Pow5} (pos : 0 < c) (small : c < 2 ^ 113)
    (proper : Proper word power.mantissa) (large : 2 ^ 128 ≤ Nat.ofDigits word power.mantissa)
    (none : windowFrom c e power = none) :
    let P := c * Nat.ofDigits word power.mantissa
    (P + (c - 1)) / 2 ^ (bitLength P - 128) ≠ P / 2 ^ (bitLength P - 128) := by
  intro P same
  simp only [windowFromValue pos small proper large] at none
  rw [same, if_neg (not_not.mpr rfl)] at none
  cases none

theorem undecided {c : Nat} {e : Int} (h : Canonical c e) (none : wideWindow c e = none) :
    ∃ d, 0 < d ∧ d < c ∧ 2 ^ 256 ∣ c * wideTop e + d := by
  have size : 2 ^ (384 - 1) ≤ wideTop e := ((wideTopHead h.2.2.1).range (by decide)).1
  have large : 2 ^ 128 ≤ wideTop e := le_trans (Nat.pow_le_pow_right (by decide) (by decide)) size
  have moved := movedOfNone h.1 (coefficientSmall h) (entryProper wideLimbs e) large none
  have product : 2 ^ (384 - 1) ≤ c * wideTop e := size.trans (Nat.le_mul_of_pos_left _ h.1)
  have length : 384 - 1 < bitLength (c * wideTop e) := ltBitLength.mpr product
  change (c * wideTop e + (c - 1)) / 2 ^ (bitLength (c * wideTop e) - 128) ≠
    c * wideTop e / 2 ^ (bitLength (c * wideTop e) - 128) at moved
  generalize c * wideTop e = P at *
  have scale : 0 < 2 ^ (bitLength P - 128) := by positivity
  have deep : 256 ≤ bitLength P - 128 := by omega
  generalize bitLength P - 128 = cut at *
  have grown : P / 2 ^ cut < (P + (c - 1)) / 2 ^ cut :=
    lt_of_le_of_ne (Nat.div_le_div_right (Nat.le_add_right _ _)) moved.symm
  -- the next multiple lies in what was added
  have reached : (P / 2 ^ cut + 1) * 2 ^ cut ≤ P + (c - 1) := (Nat.le_div_iff_mul_le scale).mp grown
  have before : P < (P / 2 ^ cut + 1) * 2 ^ cut := by
    rw [mul_comm]
    exact Nat.lt_mul_div_succ P scale
  refine ⟨(P / 2 ^ cut + 1) * 2 ^ cut - P,by omega,by omega,?_⟩
  rw [Nat.add_sub_cancel' before.le]
  exact Dvd.dvd.mul_left (Nat.pow_dvd_pow 2 deep) _

/-! The entries as quotients. -/

theorem integerHead {N f n : Nat} (some : 0 < n) (low : 2 ^ f ≤ N) (high : N < 2 ^ (f + 1)) :
    Head (N : ℚ) n (f + 1) (N * 2 ^ (n - 1) / 2 ^ f) := by
  have scale : (2 : ℚ) ^ ((f : Int) + 1 - n) * 2 ^ (n - 1) = 2 ^ f := by
    rw [← zpow_natCast, ← zpow_natCast, twoAdd]
    congr 1
    omega
  have pos : (0 : ℚ) < 2 ^ (n - 1) := by positivity
  refine ⟨?_,?_,?_,?_⟩
  · rw [add_sub_cancel_right, zpow_natCast]
    exact_mod_cast low
  · rw [show (f : Int) + 1 = (f + 1 : Nat) by push_cast; rfl, zpow_natCast]
    exact_mod_cast high
  · refine le_of_mul_le_mul_right ?_ pos
    rw [mul_assoc, scale]
    exact_mod_cast Nat.div_mul_le_self (N * 2 ^ (n - 1)) (2 ^ f)
  · refine lt_of_mul_lt_mul_right ?_ pos.le
    rw [mul_assoc, scale, mul_comm _ ((2 : ℚ) ^ f)]
    exact_mod_cast Nat.lt_mul_div_succ (N * 2 ^ (n - 1)) (by positivity : 0 < 2 ^ f)

theorem reciprocalHead {N f n : Nat} (low : 2 ^ f < N) (high : N < 2 ^ (f + 1)) :
    Head ((N : ℚ)⁻¹) n (-f) (2 ^ (n + f) / N) := by
  have pos : 0 < N := by omega
  have positive : (0 : ℚ) < N := by exact_mod_cast pos
  have inverse (k : Nat) : (2 : ℚ) ^ (-(k : Int)) = (2 ^ k)⁻¹ := by rw [zpow_neg, zpow_natCast]
  refine ⟨?_,?_,?_,?_⟩
  · rw [show -(f : Int) - 1 = -((f + 1 : Nat) : Int) by push_cast; ring, inverse]
    exact inv_anti₀ positive (by exact_mod_cast high.le)
  · rw [inverse]
    exact inv_strictAnti₀ (by positivity) (by exact_mod_cast low)
  · rw [show -(f : Int) - n = -((n + f : Nat) : Int) by push_cast; ring, inverse, ← div_eq_mul_inv,
      div_le_iff₀ (by positivity), ← div_eq_inv_mul, le_div_iff₀ positive]
    exact_mod_cast Nat.div_mul_le_self (2 ^ (n + f)) N
  · rw [show -(f : Int) - n = -((n + f : Nat) : Int) by push_cast; ring, inverse, ← div_eq_mul_inv,
      lt_div_iff₀ (by positivity), ← div_eq_inv_mul, div_lt_iff₀ positive, mul_comm _ (N : ℚ)]
    exact_mod_cast Nat.lt_mul_div_succ (2 ^ (n + f)) pos

/- The kernel is to evaluate these, so the operations are named. -/
def powerTop (e : Nat) : Nat := Nat.div (Nat.mul (Nat.pow 5 e) (Nat.pow 2 (384 - 1))) (Nat.pow 2 (floorLog2 e))
def reciprocalTop (q : Nat) : Nat := Nat.div (Nat.pow 2 (384 + floorLog2 q)) (Nat.pow 5 q)

theorem powerTopEq (e : Nat) : powerTop e = 5 ^ e * 2 ^ (384 - 1) / 2 ^ floorLog2 e := rfl

theorem reciprocalTopEq (q : Nat) : reciprocalTop q = 2 ^ (384 + floorLog2 q) / 5 ^ q := rfl

theorem wideTopPower {e : Nat} (he : e < 12655) : wideTop e = powerTop e := by
  have head := integerHead (n := 384) (by decide) (floorLog2Le he) (ltNextLog2 he)
  have table := wideTopHead (e := e) (by unfold minExponent; omega)
  rw [zpow_natCast, show (5 : ℚ) ^ e = (5 ^ e : Nat) by push_cast; rfl] at table
  exact (table.unique head).2

theorem wideTopReciprocal {q : Nat} (some : 0 < q) (hq : q ≤ 6176) : wideTop (-q) = reciprocalTop q := by
  have low := floorLog2Le (n := q) (by omega)
  have strict : 2 ^ floorLog2 q < 5 ^ q := by
    refine lt_of_le_of_ne low fun same => ?_
    have coprime : Nat.Coprime (2 ^ floorLog2 q) (5 ^ q) := Nat.Coprime.pow _ _ (by decide)
    rw [same, Nat.coprime_self] at coprime
    have := Nat.one_lt_pow some.ne' (by decide : 1 < 5)
    omega
  have head := reciprocalHead (n := 384) strict (ltNextLog2 (by omega))
  have table := wideTopHead (e := -q) (by unfold minExponent; omega)
  rw [zpow_neg, zpow_natCast, show (5 : ℚ) ^ q = (5 ^ q : Nat) by push_cast; rfl] at table
  exact (table.unique head).2

/-! No coefficient is that close. -/

theorem coefficientLimit {c e} (h : Canonical c e) : c < 10 ^ 34 := lt_of_le_of_lt h.2.1 coefficientBound.1

/- A short power fits its entry with zeros to spare. -/
theorem shortPower {c d e : Nat} (he : e ≤ 116) (some : 0 < d) (small : d < 2 ^ 113) :
    ¬ 2 ^ 256 ∣ c * powerTop e + d := by
  intro divides
  have log : floorLog2 e ≤ 270 := by unfold floorLog2 PowerOfFive.log2FiveLo; omega
  have whole : powerTop e = 5 ^ e * 2 ^ (384 - 1 - floorLog2 e) := by
    rw [powerTopEq, ← Nat.sub_add_cancel (by omega : floorLog2 e ≤ 384 - 1), pow_add, ← mul_assoc,
      Nat.mul_div_cancel _ (by positivity), Nat.sub_add_cancel (by omega)]
  have zeros : 2 ^ 113 ∣ c * powerTop e := by
    rw [whole]
    exact Dvd.dvd.mul_left (Dvd.dvd.mul_left (Nat.pow_dvd_pow 2 (by omega)) _) _
  have low : 2 ^ 113 ∣ c * powerTop e + d := (Nat.pow_dvd_pow 2 (by decide)).trans divides
  have := Nat.le_of_dvd some ((Nat.dvd_add_right zeros).mp low)
  omega

/- A short reciprocal misses `2^S / 5^q` by so little that the product is that close to a
multiple only where `5^q` divides the coefficient. -/
theorem shortReciprocal {c d q : Nat} (hq : q ≤ 61) (smallC : c < 10 ^ 34) (smallD : d < 10 ^ 34)
    (divides : 2 ^ 256 ∣ c * reciprocalTop q + d) : 5 ^ q ∣ c := by
  have split := Nat.div_add_mod (2 ^ (384 + floorLog2 q)) (5 ^ q)
  have less := Nat.mod_lt (2 ^ (384 + floorLog2 q)) (by positivity : 0 < 5 ^ q)
  have odd : Nat.Coprime (5 ^ q) (2 ^ (384 + floorLog2 q) % 5 ^ q) := by
    rw [Nat.coprime_comm, Nat.Coprime, ← Nat.gcd_rec]
    exact Nat.Coprime.pow _ _ (by decide)
  have deep : 2 ^ 256 ∣ 2 ^ (384 + floorLog2 q) := Nat.pow_dvd_pow 2 (by omega)
  rw [reciprocalTopEq] at divides
  generalize 2 ^ (384 + floorLog2 q) % 5 ^ q = s at *
  generalize 2 ^ (384 + floorLog2 q) / 5 ^ q = t at *
  generalize 2 ^ (384 + floorLog2 q) = scale at *
  have same : 5 ^ q * (c * t + d) + c * s = c * scale + 5 ^ q * d := by
    rw [← split]
    ring
  have congruent : 5 ^ q * d ≡ c * s [MOD 2 ^ 256] := by
    have left : 5 ^ q * (c * t + d) + c * s ≡ 0 + c * s [MOD 2 ^ 256] :=
      Nat.ModEq.add_right _ (Nat.modEq_zero_iff_dvd.mpr (Dvd.dvd.mul_left divides _))
    have right : c * scale + 5 ^ q * d ≡ 0 + 5 ^ q * d [MOD 2 ^ 256] :=
      Nat.ModEq.add_right _ (Nat.modEq_zero_iff_dvd.mpr (Dvd.dvd.mul_left deep _))
    rw [zero_add] at left right
    exact right.symm.trans (same ▸ left)
  have power : 5 ^ q ≤ 5 ^ 61 := Nat.pow_le_pow_right (by decide) hq
  have room : 5 ^ 61 * 10 ^ 34 < 2 ^ 256 := by decide
  have first : 5 ^ q * d < 2 ^ 256 := lt_of_le_of_lt (Nat.mul_le_mul power smallD.le) room
  have second : c * s < 2 ^ 256 := by
    refine lt_of_le_of_lt ?_ room
    rw [mul_comm]
    exact Nat.mul_le_mul (less.le.trans power) smallC.le
  have equal := Nat.ModEq.eq_of_lt_of_lt congruent first second
  exact odd.dvd_of_dvd_mul_right ⟨d,equal.symm⟩

def bounds : Bounds := ⟨2 ^ 256,10 ^ 34,2 ^ 135⟩

theorem entriesClear :
    allClear bounds reciprocalTop 6115 62 = true ∧ allClear bounds (fun i => powerTop (6111 - i)) 5995 0 = true := by
  decide +kernel

theorem undecidedEnds {c : Nat} {e : Int} (h : Canonical c e) (none : wideWindow c e = none) :
    e < 0 ∧ 5 ^ e.natAbs ∣ c := by
  obtain ⟨d,some,less,divides⟩ := undecided h none
  obtain ⟨reciprocals,powers⟩ := entriesClear
  have smallC := coefficientLimit h
  have smallD : d < 10 ^ 34 := less.trans smallC
  have narrow : d < 2 ^ 113 := less.trans (coefficientSmall h)
  have low := h.2.2.1
  have high := h.2.2.2
  unfold minExponent at low
  unfold maxExponent at high
  rcases le_or_gt 0 e with sign | sign
  · obtain ⟨e,rfl⟩ := Int.eq_ofNat_of_zero_le sign
    rw [wideTopPower (by omega)] at divides
    by_cases short : e ≤ 116
    · exact absurd divides (shortPower short some narrow)
    · have clear := allClearSound powers (6111 - e) (by omega)
      rw [show 6111 - (0 + (6111 - e)) = e by omega] at clear
      exact absurd divides (clear c d h.1 smallC some smallD)
  · obtain ⟨q,rfl⟩ : ∃ q : Nat, e = -q := ⟨e.natAbs,by omega⟩
    rw [wideTopReciprocal (by omega) (by omega)] at divides
    rw [Int.natAbs_neg, Int.natAbs_natCast]
    refine ⟨sign,?_⟩
    by_cases short : q ≤ 61
    · exact shortReciprocal short smallC smallD divides
    · have clear := allClearSound reciprocals (q - 62) (by omega)
      rw [show 62 + (q - 62) = q by omega] at clear
      exact absurd divides (clear c d h.1 smallC some smallD)

/-! Where the exact route is taken. -/

def TakesExact (c : Nat) (e : Int) : Prop :=
  (e < 0 ∧ inexact c e = false) ∨ (fastWindow c e).or (wideWindow c e) = none

/- The binary expansion ends: some power of two makes the value whole. -/
def Ends (x : ℚ) : Prop := ∃ n k : Nat, x = n / 2 ^ k

theorem endsIff {c q : Nat} : Ends (magnitude c (-q)) ↔ 5 ^ q ∣ c := by
  rw [magnitudeNeg, zpow_neg, zpow_natCast]
  constructor
  · rintro ⟨n,k,same⟩
    refine endsDvd (w := n) (j := (q : Int) - k) ?_
    rw [zpow_sub₀ (by norm_num), zpow_natCast, zpow_natCast]
    field_simp at same ⊢
    linear_combination -same
  · rintro ⟨n,rfl⟩
    refine ⟨n,q,?_⟩
    push_cast
    field_simp

theorem tablesExact {c e} (h : Canonical c e) :
    decimal c e = exactBody c e ∧ (TakesExact c e ↔ e < 0 ∧ Ends (magnitude c e)) := by
  refine ⟨decimalExact h,?_⟩
  constructor
  · rintro (⟨sign,clear⟩ | none)
    · obtain ⟨q,rfl⟩ : ∃ q : Nat, e = -q := ⟨e.natAbs,by omega⟩
      exact ⟨sign,endsIff.mpr ((negativeMark h (by omega)).mp clear)⟩
    · obtain ⟨sign,divides⟩ := undecidedEnds h (Option.or_eq_none_iff.mp none).2
      obtain ⟨q,rfl⟩ : ∃ q : Nat, e = -q := ⟨e.natAbs,by omega⟩
      rw [Int.natAbs_neg, Int.natAbs_natCast] at divides
      exact ⟨sign,endsIff.mpr divides⟩
  · rintro ⟨sign,ends⟩
    obtain ⟨q,rfl⟩ : ∃ q : Nat, e = -q := ⟨e.natAbs,by omega⟩
    exact .inl ⟨sign,(negativeMark h (by omega)).mpr (endsIff.mp ends)⟩

theorem tablesExactHalf : Canonical 15 (-1) ∧ decimal 15 (-1) = exactBody 15 (-1) ∧ TakesExact 15 (-1) := by
  have canonical : Canonical 15 (-1) := ⟨by decide,by decide,by decide,by decide⟩
  refine ⟨canonical,(tablesExact canonical).1,(tablesExact canonical).2.mpr ⟨by decide,3,1,?_⟩⟩
  norm_num [magnitude]

end Kimmy.KeyNumber
