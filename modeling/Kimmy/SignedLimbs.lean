import Kimmy.Limbs
import Mathlib.Algebra.BigOperators.Group.Finset.Basic
import Mathlib.Algebra.BigOperators.Ring.Finset
import Mathlib.Algebra.BigOperators.Intervals
import Mathlib.Algebra.Order.Field.Rat
import Mathlib.Order.Interval.Finset.Basic
import Mathlib.Data.Int.Interval

/-!
Signed limbs: a number as integers at the places of a base, of any sign and size and most of
them zero. A pass of carries makes digits of them, and a negative total is negated by
borrowing.
-/
namespace Kimmy.Limbs

/- The number `f` stands for; `f` is zero outside some finite set of places. -/
def Worth (base : ℚ) (f : Int → Int) (x : ℚ) : Prop :=
  ∃ places : Finset Int, (∀ p, p ∉ places → f p = 0) ∧ x = ∑ p ∈ places, f p * base ^ p

theorem worthZero (base : ℚ) : Worth base (fun _ => 0) 0 := ⟨∅,fun _ _ => rfl,by simp⟩

/- Any set of places that holds every limb gives the number. -/
theorem worthSum {base : ℚ} {f : Int → Int} {x : ℚ} (worth : Worth base f x) {places : Finset Int}
    (held : ∀ p, p ∉ places → f p = 0) : x = ∑ p ∈ places, f p * base ^ p := by
  obtain ⟨own,none,is⟩ := worth
  have left : ∑ p ∈ own, f p * base ^ p = ∑ p ∈ own ∪ places, f p * base ^ p :=
    Finset.sum_subset Finset.subset_union_left fun p _ absent => by rw [none p absent]; simp
  have right : ∑ p ∈ places, f p * base ^ p = ∑ p ∈ own ∪ places, f p * base ^ p :=
    Finset.sum_subset Finset.subset_union_right fun p _ absent => by rw [held p absent]; simp
  rw [is, left, right]

theorem worthAdd {base : ℚ} {f g : Int → Int} {x : ℚ} (worth : Worth base f x) {position value : Int}
    (is : ∀ p, g p = f p + if p = position then value else 0) : Worth base g (x + value * base ^ position) := by
  obtain ⟨places,none,total⟩ := worth
  refine ⟨insert position places,fun p absent => ?_,?_⟩
  · rw [Finset.mem_insert, not_or] at absent
    rw [is, none p absent.2, if_neg absent.1, add_zero]
  · have more : x = ∑ p ∈ insert position places, f p * base ^ p :=
      worthSum ⟨places,none,total⟩ fun p absent => none p fun member => absent (Finset.mem_insert_of_mem member)
    have single : ∑ p ∈ insert position places, (if p = position then (value : ℚ) else 0) * base ^ p =
        value * base ^ position := by
      rw [Finset.sum_eq_single_of_mem position (Finset.mem_insert_self _ _) fun p _ other => by simp [other]]
      simp
    rw [more, ← single, ← Finset.sum_add_distrib]
    refine Finset.sum_congr rfl fun p _ => ?_
    rw [is, Int.cast_add, add_mul]
    congr 2
    split_ifs <;> simp

def signedValue (base : Nat) : List Int → Int
  | [] => 0
  | v :: values => v + base * signedValue base values

def carries (base : Nat) : Int → List Int → List Nat × Int
  | carry, [] => ([],carry)
  | carry, v :: values =>
      let rest := carries base ((v + carry) / base) values
      (((v + carry) % base).toNat :: rest.1,rest.2)

theorem carriesLength (base : Nat) (carry : Int) (values : List Int) :
    (carries base carry values).1.length = values.length := by
  induction values generalizing carry with
  | nil => rfl
  | cons v values ih => simp [carries, ih]

theorem carriesProper {base : Nat} (pos : 0 < base) (carry : Int) (values : List Int) :
    Proper base (carries base carry values).1 := by
  induction values generalizing carry with
  | nil => simp [carries, Proper]
  | cons v values ih =>
    refine properCons.mpr ⟨?_,ih _⟩
    have := Int.emod_lt_of_pos (v + carry) (show (0 : Int) < base by omega)
    omega

theorem carriesValue {base : Nat} (pos : 0 < base) (carry : Int) (values : List Int) :
    ((Nat.ofDigits base (carries base carry values).1 : Nat) : Int) + base ^ values.length * (carries base carry values).2 =
      signedValue base values + carry := by
  induction values generalizing carry with
  | nil => simp [carries, signedValue]
  | cons v values ih =>
    have tail := ih ((v + carry) / base)
    have split := Int.emod_add_mul_ediv (v + carry) base
    have low : (((v + carry) % base).toNat : Int) = (v + carry) % base :=
      Int.toNat_of_nonneg (Int.emod_nonneg _ (by omega))
    simp only [carries, signedValue, Nat.ofDigits_cons, List.length_cons, pow_succ']
    rw [Nat.cast_add, Nat.cast_mul, low]
    linear_combination base * tail + split

def negate (base : Nat) : Nat → List Nat → List Nat × Nat
  | borrow, [] => ([],borrow)
  | borrow, l :: limbs =>
      let (low,borrow) := if l + borrow = 0 then (0,0) else (base - (l + borrow),1)
      let rest := negate base borrow limbs
      (low :: rest.1,rest.2)

theorem negateSpec {base borrow : Nat} {limbs : List Nat} (proper : Proper base limbs) (one : 0 < base)
    (small : borrow ≤ 1) :
    Proper base (negate base borrow limbs).1 ∧ (negate base borrow limbs).1.length = limbs.length ∧
      (negate base borrow limbs).2 ≤ 1 ∧ Nat.ofDigits base (negate base borrow limbs).1 + Nat.ofDigits base limbs + borrow =
        base ^ limbs.length * (negate base borrow limbs).2 := by
  induction limbs generalizing borrow with
  | nil => exact ⟨by simp [negate, Proper],rfl,small,by simp [negate]⟩
  | cons l limbs ih =>
    obtain ⟨hl,rest⟩ := properCons.mp proper
    rw [negate]
    by_cases none : l + borrow = 0
    · simp only [none, if_true]
      obtain ⟨below,length,most,value⟩ := ih rest (Nat.zero_le 1)
      refine ⟨properCons.mpr ⟨one,below⟩,by simp [length],most,?_⟩
      simp only [Nat.ofDigits_cons, List.length_cons, pow_succ']
      have first : l = 0 := by omega
      have second : borrow = 0 := by omega
      subst first second
      linear_combination base * value
    · simp only [none, if_false]
      obtain ⟨below,length,most,value⟩ := ih rest le_rfl
      refine ⟨properCons.mpr ⟨by omega,below⟩,by simp [length],most,?_⟩
      simp only [Nat.ofDigits_cons, List.length_cons, pow_succ']
      have taken : base - (l + borrow) + (l + borrow) = base := Nat.sub_add_cancel (by omega)
      linear_combination base * value + taken

/- The sign is that of the last carry, and the digits with the limbs above them are the magnitude. -/
theorem carriesSign {base : Nat} (one : 1 < base) (values : List Int) :
    ((carries base 0 values).2 < 0 ↔ signedValue base values < 0) ∧
      (0 ≤ (carries base 0 values).2 → Nat.ofDigits base
        ((carries base 0 values).1 ++ Nat.digits base (carries base 0 values).2.natAbs) = (signedValue base values).natAbs) ∧
      ((carries base 0 values).2 < 0 → Nat.ofDigits base
        ((negate base 0 (carries base 0 values).1).1 ++
          Nat.digits base ((carries base 0 values).2.natAbs - (negate base 0 (carries base 0 values).1).2)) =
            (signedValue base values).natAbs) := by
  have value := carriesValue (by omega : 0 < base) 0 values
  have proper := carriesProper (by omega : 0 < base) 0 values
  have length := carriesLength base 0 values
  obtain ⟨_,sameLength,most,negated⟩ := negateSpec proper (by omega) (Nat.zero_le 1)
  have small := Nat.ofDigits_lt_base_pow_length one proper
  simp only [Nat.ofDigits_append, Nat.ofDigits_digits, sameLength]
  generalize (carries base 0 values).1 = digits at *
  generalize (carries base 0 values).2 = carry at *
  generalize (negate base 0 digits).1 = low at *
  generalize (negate base 0 digits).2 = borrow at *
  generalize signedValue base values = total at *
  rw [length] at *
  have power : (0 : Int) < ((base ^ values.length : Nat) : Int) := by exact_mod_cast Nat.pow_pos (by omega : 0 < base)
  have small' : ((Nat.ofDigits base digits : Nat) : Int) < ((base ^ values.length : Nat) : Int) := by exact_mod_cast small
  have cast : ((base : Int)) ^ values.length = ((base ^ values.length : Nat) : Int) := by push_cast; rfl
  rw [cast, add_zero] at value
  generalize base ^ values.length = unit at *
  generalize Nat.ofDigits base digits = d at *
  generalize Nat.ofDigits base low = n at *
  refine ⟨?_,fun nonneg => ?_,fun negative => ?_⟩
  · constructor
    · intro negative
      nlinarith
    · intro negative
      by_contra nonneg
      nlinarith
  · obtain ⟨k,rfl⟩ := Int.eq_ofNat_of_zero_le nonneg
    have : total = ((d + unit * k : Nat) : Int) := by
      rw [← value]
      push_cast
      rfl
    rw [this, Int.natAbs_natCast, Int.natAbs_natCast]
  · obtain ⟨k,rfl⟩ : ∃ k : Nat, carry = -(k : Int) := ⟨carry.natAbs,by omega⟩
    have least : borrow ≤ k := by omega
    have : total = -((n + unit * (k - borrow) : Nat) : Int) := by
      have balance : (n : Int) + d = unit * borrow := by exact_mod_cast (by simpa using negated)
      rw [← value]
      push_cast [least]
      linear_combination balance
    rw [this, Int.natAbs_neg, Int.natAbs_natCast, Int.natAbs_neg, Int.natAbs_natCast]

/- The limbs of a run of places from the bottom up. -/
def placesFrom (f : Int → Int) (low : Int) (n : Nat) : List Int := (List.range n).map fun i : Nat => f (low + i)

theorem placesSum (base : Nat) (f : Int → Int) (low : Int) (n : Nat) :
    (signedValue base (placesFrom f low n) : ℚ) = ∑ i ∈ Finset.range n, (f (low + i) : ℚ) * base ^ i := by
  induction n generalizing low with
  | zero => simp [placesFrom, signedValue]
  | succ n ih =>
    have tail : placesFrom f low (n + 1) = f low :: placesFrom f (low + 1) n := by
      simp only [placesFrom, List.range_succ_eq_map, List.map_cons, List.map_map]
      congr 1
      · simp
      · refine List.map_congr_left fun i _ => ?_
        simp only [Function.comp_apply]
        congr 1
        push_cast
        ring
    rw [tail, signedValue, Int.cast_add, Int.cast_mul, ih, Finset.sum_range_succ', Finset.mul_sum, add_comm]
    congr 1
    · refine Finset.sum_congr rfl fun i _ => ?_
      rw [show low + 1 + (i : Int) = low + ((i + 1 : Nat) : Int) by push_cast; ring, pow_succ]
      push_cast
      ring
    · simp

/- A run of places that holds every limb, read as one integer at its lowest place. -/
theorem worthPlaces {base : Nat} (pos : 0 < base) {f : Int → Int} {x : ℚ} (worth : Worth base f x) {low : Int} {n : Nat}
    (held : ∀ p, f p ≠ 0 → low ≤ p ∧ p < low + n) :
    x = signedValue base (placesFrom f low n) * (base : ℚ) ^ low := by
  have nonzero : (base : ℚ) ≠ 0 := by exact_mod_cast pos.ne'
  have all : ∀ p, p ∉ (Finset.range n).image (fun i : Nat => low + i) → f p = 0 := by
    intro p absent
    by_contra some
    obtain ⟨least,most⟩ := held p some
    refine absent (Finset.mem_image.mpr ⟨(p - low).toNat,Finset.mem_range.mpr (by omega),by omega⟩)
  rw [worthSum worth all, placesSum, Finset.sum_mul, Finset.sum_image fun i _ j _ same => by simpa using same]
  refine Finset.sum_congr rfl fun i _ => ?_
  rw [zpow_add₀ nonzero, zpow_natCast]
  ring

end Kimmy.Limbs
