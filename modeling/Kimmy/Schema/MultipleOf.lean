import Kimmy.CmpNumbers
import Kimmy.DocId
import Mathlib.Data.Nat.GCD.Basic
import Mathlib.Tactic.FieldSimp
import Mathlib.Tactic.Linarith

/-!
`multipleOf` (`json_schema.rs`): both numbers are read as a coefficient and a power of ten, and whether one divides the
other is decided without forming the powers, by the twos and fives that are left when the coefficients have been
cancelled. No step may leave its integer type, which `none` stands for.
-/
namespace Kimmy.Schema
open Decimal

/- An `i32`, or an overflow. -/
def i32 (n : Int) : Option Int := if -2 ^ 31 ≤ n ∧ n < 2 ^ 31 then some n else none

def gcd (a b : Nat) : Nat := if b = 0 then a else gcd b (a % b)
termination_by b
decreasing_by exact Nat.mod_lt _ (by omega)

/- How often `p` divides what is left, counted on. The number is never zero where this is used. -/
def divideOut (p rest : Nat) (count : Int) : Option (Nat × Int) :=
  if 1 < p ∧ 0 < rest ∧ rest % p = 0 then do
    let count ← i32 (count + 1)
    divideOut p (rest / p) count
  else some (rest,count)
termination_by rest
decreasing_by exact Nat.div_lt_self (by omega) (by omega)

/- Whether `cv * 10 ^ ev` is a whole multiple of `cd * 10 ^ ed`. -/
def decimalMultiple (cv : Nat) (ev : Int) (cd : Nat) (ed : Int) : Option Bool := do
  let shift ← i32 (ev - ed)
  if 0 ≤ shift then
    let (rest,twos) ← divideOut 2 (cd / gcd cv cd) 0
    let (rest,fives) ← divideOut 5 rest 0
    some (rest == 1 && decide (twos ≤ shift) && decide (fives ≤ shift))
  else
    let k ← i32 (-shift)
    match checked (10 ^ k.toNat) with
    | none => some false
    | some power => some (cv % cd == 0 && cv / cd % power == 0)

section
variable (doubleParts : UInt64 → Option (Nat × Int))

/- The magnitude of a finite number; a double is rounded to 15 digits first. -/
def decimalParts : Bson → Option (Nat × Int)
  | .int32 n => some (n.toInt.natAbs,0)
  | .int64 n => some (n.toInt.natAbs,0)
  | .double bits => doubleParts bits
  | .decimal128 word => match decode word with
      | .zero => some (0,0)
      | .finite _ coefficient exponent => some (coefficient,exponent)
      | _ => none
  | _ => none

def isMultiple (value divisor : Bson) : Option Bool :=
  match decimalParts doubleParts value, decimalParts doubleParts divisor with
  | some (cv,ev), some (cd,ed) =>
      if cd = 0 then some false
      else if cv = 0 then some true
      else decimalMultiple cv ev cd ed
  | _, _ => some false

end

/-! Cancelling. -/

theorem gcdEq (a b : Nat) : gcd a b = Nat.gcd a b := by
  induction b using Nat.strong_induction_on generalizing a with
  | _ b ih =>
    rw [gcd]
    split_ifs with zero
    · rw [zero, Nat.gcd_zero_right]
    · rw [ih _ (Nat.mod_lt _ (by omega)), Nat.gcd_comm b, ← Nat.gcd_rec, Nat.gcd_comm]

/- A number below `2 ^ 128` is divided out less than 128 times. -/
theorem divideOutSpec {p : Nat} (prime : 1 < p) {rest : Nat} (some' : 0 < rest) {count : Int} (low : 0 ≤ count) {bits : Nat}
    (small : rest < 2 ^ bits) (room : count + bits < 2 ^ 31) :
    ∃ left k, divideOut p rest count = some (left,count + (k : Nat)) ∧ rest = p ^ k * left ∧ ¬p ∣ left := by
  induction rest using Nat.strong_induction_on generalizing count bits with
  | _ rest ih =>
    rw [divideOut]
    by_cases divides : rest % p = 0
    · obtain ⟨next,rfl⟩ := Nat.dvd_of_mod_eq_zero divides
      have positive : 0 < next := Nat.pos_of_mul_pos_left some'
      have quotient : p * next / p = next := Nat.mul_div_cancel_left next (by omega)
      obtain ⟨bits,rfl⟩ : ∃ more, bits = more + 1 := by
        cases bits with
        | zero => rw [pow_zero] at small; omega
        | succ more => exact ⟨more,rfl⟩
      have half : next < 2 ^ bits := by
        have twice : 2 * next ≤ p * next := Nat.mul_le_mul_right next prime
        rw [pow_succ] at small
        omega
      rw [if_pos ⟨prime,some',divides⟩, quotient]
      have step : i32 (count + 1) = some (count + 1) := if_pos (by push_cast at room; omega)
      rw [step]
      obtain ⟨left,k,is,factors,apart⟩ := ih next (lt_of_lt_of_le (by omega) (Nat.mul_le_mul_right next prime)) positive
        (by omega : 0 ≤ count + 1) half (by push_cast at room; omega)
      refine ⟨left,k + 1,?_,?_,apart⟩
      · show divideOut p next (count + 1) = _
        rw [is]
        push_cast
        rw [show count + 1 + (k : Int) = count + (k + 1) by ring]
      · rw [factors]
        ring
    · rw [if_neg fun all => divides all.2.2]
      refine ⟨rest,0,by simp,by simp,?_⟩
      intro divided
      exact divides (Nat.mod_eq_zero_of_dvd divided)

/- The divisors of a power of ten. -/
theorem dividesTens {a b r s : Nat} (noTwo : ¬2 ∣ r) (noFive : ¬5 ∣ r) :
    2 ^ a * (5 ^ b * r) ∣ 10 ^ s ↔ r = 1 ∧ a ≤ s ∧ b ≤ s := by
  have ten : (10 : Nat) ^ s = 2 ^ s * 5 ^ s := by rw [← mul_pow]; rfl
  have two : Nat.Coprime r 2 := ((Nat.Prime.coprime_iff_not_dvd Nat.prime_two).mpr noTwo).symm
  have five : Nat.Coprime r 5 := ((Nat.Prime.coprime_iff_not_dvd Nat.prime_five).mpr noFive).symm
  constructor
  · intro divides
    rw [ten] at divides
    have rest : r ∣ 2 ^ s * 5 ^ s := (Dvd.intro_left _ rfl).trans ((Dvd.intro_left _ rfl).trans divides)
    have twos : 2 ^ a ∣ 2 ^ s * 5 ^ s := (Dvd.intro _ rfl).trans divides
    have fives : 5 ^ b ∣ 2 ^ s * 5 ^ s := (Dvd.intro _ rfl).trans ((Dvd.intro_left _ rfl).trans divides)
    refine ⟨?_,?_,?_⟩
    · exact Nat.Coprime.eq_one_of_dvd (Nat.Coprime.mul_right (two.pow_right s) (five.pow_right s)) rest
    · have apart : Nat.Coprime (2 ^ a) (5 ^ s) := Nat.Coprime.pow a s (by decide)
      exact (Nat.pow_dvd_pow_iff_le_right (by decide)).mp (apart.dvd_of_dvd_mul_right twos)
    · have apart : Nat.Coprime (5 ^ b) (2 ^ s) := Nat.Coprime.pow b s (by decide)
      exact (Nat.pow_dvd_pow_iff_le_right (by decide)).mp (apart.dvd_of_dvd_mul_left fives)
  · rintro ⟨rfl,as,bs⟩
    rw [ten, mul_one]
    exact Nat.mul_dvd_mul (Nat.pow_dvd_pow 2 as) (Nat.pow_dvd_pow 5 bs)

/- What the gcd takes away, the dividend has. -/
theorem dividesCancelled {c d : Nat} (some' : 0 < d) (n : Nat) : d ∣ c * n ↔ d / Nat.gcd c d ∣ n := by
  have positive := Nat.gcd_pos_of_pos_right c some'
  obtain ⟨x,y,apart,xs,ys⟩ := Nat.exists_coprime c d
  generalize Nat.gcd c d = g at *
  subst xs ys
  rw [Nat.mul_div_cancel _ positive, Nat.mul_right_comm]
  constructor
  · intro divides
    exact apart.symm.dvd_of_dvd_mul_left (Nat.dvd_of_mul_dvd_mul_right positive divides)
  · intro divides
    exact Nat.mul_dvd_mul_right (Dvd.dvd.mul_left divides x) g

/-! Deciding. -/

section
variable {cv cd : Nat} {ev ed : Int}

/- Whole multiples of magnitudes, with the powers brought to one side. -/
theorem wholeUp {s : Nat} (shift : ev - ed = s) :
    (∃ k : Nat, magnitude cv ev = k * magnitude cd ed) ↔ cd ∣ cv * 10 ^ s := by
  have power : (10 : ℚ) ^ ev = 10 ^ s * 10 ^ ed := by
    rw [show ev = s + ed by omega, zpow_add₀ (by norm_num), zpow_natCast]
  have unit : (10 : ℚ) ^ ed ≠ 0 := zpow_ne_zero _ (by norm_num)
  unfold magnitude
  rw [power]
  constructor
  · rintro ⟨k,is⟩
    refine ⟨k,?_⟩
    have : (cv : ℚ) * 10 ^ s = cd * k := mul_right_cancel₀ unit (by linear_combination is)
    exact_mod_cast this
  · rintro ⟨k,is⟩
    refine ⟨k,?_⟩
    have : (cv : ℚ) * 10 ^ s = cd * k := by exact_mod_cast is
    linear_combination this * (10 : ℚ) ^ ed

theorem wholeDown {s : Nat} (shift : ed - ev = s) :
    (∃ k : Nat, magnitude cv ev = k * magnitude cd ed) ↔ cd * 10 ^ s ∣ cv := by
  have power : (10 : ℚ) ^ ed = 10 ^ s * 10 ^ ev := by
    rw [show ed = s + ev by omega, zpow_add₀ (by norm_num), zpow_natCast]
  have unit : (10 : ℚ) ^ ev ≠ 0 := zpow_ne_zero _ (by norm_num)
  unfold magnitude
  rw [power]
  constructor
  · rintro ⟨k,is⟩
    refine ⟨k,?_⟩
    have : (cv : ℚ) = cd * 10 ^ s * k := mul_right_cancel₀ unit (by linear_combination is)
    exact_mod_cast this
  · rintro ⟨k,is⟩
    refine ⟨k,?_⟩
    have : (cv : ℚ) = cd * 10 ^ s * k := by exact_mod_cast is
    linear_combination this * (10 : ℚ) ^ ev

theorem decimalMultipleSpec (someV : 0 < cv) (someD : 0 < cd) (smallV : cv < 2 ^ 128) (smallD : cd < 2 ^ 128)
    (rangeV : -2 ^ 29 ≤ ev ∧ ev < 2 ^ 29) (rangeD : -2 ^ 29 ≤ ed ∧ ed < 2 ^ 29) :
    ∃ b, decimalMultiple cv ev cd ed = some b ∧ (b = true ↔ ∃ k : Nat, magnitude cv ev = k * magnitude cd ed) := by
  have fits : i32 (ev - ed) = some (ev - ed) := if_pos (by omega)
  unfold decimalMultiple
  rw [fits]
  simp only [Option.bind_eq_bind, Option.bind_some]
  by_cases up : 0 ≤ ev - ed
  · rw [if_pos up]
    obtain ⟨s,shift⟩ : ∃ s : Nat, ev - ed = s := ⟨(ev - ed).toNat,by omega⟩
    have cancelled : 0 < cd / Nat.gcd cv cd :=
      Nat.div_pos (Nat.le_of_dvd someD (Nat.gcd_dvd_right cv cd)) (Nat.gcd_pos_of_pos_right cv someD)
    have below : cd / Nat.gcd cv cd < 2 ^ 128 := lt_of_le_of_lt (Nat.div_le_self _ _) smallD
    obtain ⟨odd,twos,first,factors,noTwo⟩ := @divideOutSpec 2 (by decide) _ cancelled 0 (by decide) 128 below (by norm_num)
    have oddPos : 0 < odd := by
      rcases Nat.eq_zero_or_pos odd with zero | positive
      · rw [zero, Nat.mul_zero] at factors
        omega
      · exact positive
    have oddSmall : odd < 2 ^ 128 := by
      have : odd ≤ 2 ^ twos * odd := Nat.le_mul_of_pos_left odd (by positivity)
      omega
    obtain ⟨rest,fives,second,left,noFive⟩ := @divideOutSpec 5 (by decide) _ oddPos 0 (by decide) 128 oddSmall (by norm_num)
    have noTwoLeft : ¬2 ∣ rest := fun divides => noTwo (left ▸ divides.mul_left (5 ^ fives))
    rw [gcdEq, first]
    simp only [Option.bind_some]
    rw [second]
    simp only [Option.bind_some]
    refine ⟨_,rfl,?_⟩
    rw [wholeUp shift, dividesCancelled someD, factors, left, dividesTens noTwoLeft noFive, shift]
    simp only [Bool.and_eq_true, beq_iff_eq, decide_eq_true_eq, zero_add, Nat.cast_le, and_assoc]
  · rw [if_neg up]
    obtain ⟨s,shift⟩ : ∃ s : Nat, ed - ev = s := ⟨(ed - ev).toNat,by omega⟩
    have negated : i32 (-(ev - ed)) = some (-(ev - ed)) := if_pos (by omega)
    rw [negated, wholeDown shift]
    simp only [Option.bind_some]
    rw [show (-(ev - ed)).toNat = s by omega]
    unfold checked
    split_ifs with power
    · refine ⟨_,rfl,?_⟩
      simp only [Bool.and_eq_true, beq_iff_eq]
      constructor
      · rintro ⟨whole,tens⟩
        obtain ⟨k,rfl⟩ := Nat.dvd_of_mod_eq_zero whole
        rw [Nat.mul_div_cancel_left _ someD] at tens
        exact Nat.mul_dvd_mul_left cd (Nat.dvd_of_mod_eq_zero tens)
      · rintro ⟨k,rfl⟩
        rw [Nat.mul_assoc, Nat.mul_div_cancel_left _ someD]
        exact ⟨Nat.mul_mod_right _ _,Nat.mul_mod_right _ _⟩
    · refine ⟨false,rfl,?_⟩
      -- The power alone is past every coefficient.
      have large : cv < cd * 10 ^ s := lt_of_lt_of_le (by omega) (Nat.le_mul_of_pos_left _ someD)
      constructor
      · intro wrong
        cases wrong
      · intro divides
        exact absurd (Nat.le_of_dvd someV divides) (by omega)

end

/-! The check. -/

/- The numbers that are read as they are. -/
def Decimally : Bson → Prop
  | .int32 _ | .int64 _ | .decimal128 _ => True
  | _ => False

section
variable {doubleParts : UInt64 → Option (Nat × Int)}

/- The parts of a number that is read as it is. -/
theorem partsSpec {b : Bson} {x : ℚ} (kind : Decimally b) (read : Exact.ofBson b = some (.finite x)) :
    ∃ c e, decimalParts doubleParts b = some (c,e) ∧ |x| = magnitude c e ∧ c < 2 ^ 128 ∧ -2 ^ 29 ≤ e ∧ e < 2 ^ 29 := by
  have integer : ∀ {n : Int}, n.natAbs < 2 ^ 128 → x = n → ∃ c e, some (n.natAbs,0) = some (c,e) ∧ |x| = magnitude c e ∧
      c < 2 ^ 128 ∧ -2 ^ 29 ≤ e ∧ e < 2 ^ 29 := by
    rintro n small rfl
    refine ⟨_,_,rfl,?_,small,by norm_num,by norm_num⟩
    unfold magnitude
    rw [zpow_zero, mul_one, Nat.cast_natAbs, Int.cast_abs]
  cases b with
  | int32 n =>
    have low := Int32.le_toInt n
    have high := Int32.toInt_lt n
    simp only [Exact.ofBson, Option.some.injEq, Exact.finite.injEq] at read
    exact integer (by omega) read.symm
  | int64 n =>
    have low := Int64.le_toInt n
    have high := Int64.toInt_lt n
    simp only [Exact.ofBson, Option.some.injEq, Exact.finite.injEq] at read
    exact integer (by omega) read.symm
  | decimal128 word =>
    simp only [Exact.ofBson, Option.some.injEq] at read
    rw [← Number.decodeValue] at read
    cases form : decode word with
    | zero =>
      rw [form] at read
      cases read
      exact ⟨0,0,by simp only [decimalParts, form],by simp [magnitude],by decide,by norm_num,by norm_num⟩
    | finite negative c e =>
      rw [form] at read
      cases read
      obtain ⟨some',most,low,high⟩ := decodeCanonical form
      have positive := magnitudePos ⟨some',most,low,high⟩
      have bound : maxCoefficient < 2 ^ 128 := by decide
      unfold minExponent at low
      unfold maxExponent at high
      refine ⟨c,e,by simp only [decimalParts, form],?_,by omega,by omega,by omega⟩
      cases negative
      · exact abs_of_pos positive
      · rw [show Exact.signed true (magnitude c e) = -magnitude c e from rfl, abs_neg, abs_of_pos positive]
    | nan | negInfinity | posInfinity =>
      rw [form] at read
      cases read
  | _ => cases kind

theorem multipleExact {value divisor : Bson} {x y : ℚ} (kindV : Decimally value) (kindD : Decimally divisor)
    (readV : Exact.ofBson value = some (.finite x)) (readD : Exact.ofBson divisor = some (.finite y)) (positive : 0 < y) :
    ∃ b, isMultiple doubleParts value divisor = some b ∧ (b = true ↔ ∃ k : Int, x / y = k) := by
  obtain ⟨cv,ev,partsV,isV,smallV,rangeV⟩ := partsSpec kindV readV
  obtain ⟨cd,ed,partsD,isD,smallD,rangeD⟩ := partsSpec kindD readD
  rw [abs_of_pos positive] at isD
  have someD : cd ≠ 0 := by
    rintro rfl
    unfold magnitude at isD
    simp at isD
    exact absurd isD (ne_of_gt positive)
  -- A whole quotient, by its magnitude.
  have whole : (∃ k : Int, x / y = k) ↔ ∃ k : Nat, magnitude cv ev = k * magnitude cd ed := by
    rw [← isV, ← isD]
    constructor
    · rintro ⟨k,is⟩
      refine ⟨k.natAbs,?_⟩
      rw [div_eq_iff (ne_of_gt positive)] at is
      rw [is, abs_mul, abs_of_pos positive, Nat.cast_natAbs, Int.cast_abs]
    · rintro ⟨k,is⟩
      rcases abs_choice x with same | negated
      · exact ⟨k,by rw [div_eq_iff (ne_of_gt positive), ← same, is]; push_cast; rfl⟩
      · refine ⟨-k,?_⟩
        rw [div_eq_iff (ne_of_gt positive)]
        push_cast
        linarith
  unfold isMultiple
  rw [partsV, partsD]
  simp only
  rw [if_neg someD, whole]
  split_ifs with zero
  · refine ⟨true,rfl,by simp [zero, magnitude]⟩
  · exact decimalMultipleSpec (Nat.pos_of_ne_zero zero) (Nat.pos_of_ne_zero someD) smallV smallD rangeV rangeD

end

/- 15 is a multiple of 0.25, which is 25 hundredths. -/
theorem multipleQuarters : ∃ b, isMultiple (fun _ => none) (.int32 15) (.decimal128 (BitVec.ofNat 128 (6174 * 2 ^ 113 + 25))) = some b ∧
    (b = true ↔ ∃ k : Int, ((Int32.toInt 15 : Int) : ℚ) / (25 * 10 ^ (6174 - 6176 : Int)) = k) := by
  refine multipleExact trivial trivial rfl ?_ (by positivity)
  rfl

end Kimmy.Schema
