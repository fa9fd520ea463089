import Kimmy.BigInt

/-!
Dividing an integer of any length by a `u128` (`Big::div_rem_u128`): straight for a short
dividend, limb by limb for a short divisor, and Knuth's algorithm D for a divisor of two
limbs, whose estimated quotient digit is corrected until it is the digit.
-/
namespace Kimmy.BigInt
open Limbs

namespace Big

def asU128 (limbs : List Nat) : Nat := Nat.ofDigits word limbs

/- The loop that corrects the estimate; `v1` is never zero. -/
def correct (v1 v0 u0 qhat rhat : Nat) : Nat :=
  if (word ≤ qhat ∨ rhat * word + u0 < qhat * v0) ∧ 0 < v1 then
    if word ≤ rhat + v1 then qhat - 1 else correct v1 v0 u0 (qhat - 1) (rhat + v1)
  else qhat
termination_by word - rhat
decreasing_by omega

/- One limb of `u -= qhat * v`: the limb left, the borrow and the product's carry. -/
def subtractLimb (qhat v u : Nat) (borrow carry : Nat) : Nat × Nat × Nat :=
  let product := qhat * v + carry
  let t : Int := u - borrow - (product % word : Nat)
  ((t % word).toNat,(if t < 0 then 1 else 0),product / word)

/- One quotient digit, and the two low limbs that remain; the third is left zero. -/
def divDigit (v1 v0 u0 u1 u2 : Nat) : Nat × Nat × Nat :=
  let top := u2 * word + u1
  let qhat := correct v1 v0 u0 (top / v1) (top % v1)
  let (low,borrow,carry) := subtractLimb qhat v0 u0 0 0
  let (high,_,_) := subtractLimb qhat v1 u1 borrow carry
  (qhat % word,low,high)

/- What the third limb comes to; the source asserts that it is not negative. -/
def thirdLimb (v1 v0 u0 u1 u2 : Nat) : Int :=
  let top := u2 * word + u1
  let qhat := correct v1 v0 u0 (top / v1) (top % v1)
  let (_,borrow,carry) := subtractLimb qhat v0 u0 0 0
  let (_,borrow,carry) := subtractLimb qhat v1 u1 borrow carry
  u2 - borrow - carry

/- The digits from the top down, and the remainder in the two limbs below the last. -/
def divTwo (v1 v0 : Nat) : List Nat → List Nat × Nat × Nat
  | [] => ([],0,0)
  | [low] => ([],low,0)
  | [low,high] => ([],low,high)
  | u0 :: u1 :: u2 :: rest =>
      let above := divTwo v1 v0 (u1 :: u2 :: rest)
      let step := divDigit v1 v0 u0 above.2.1 above.2.2
      (step.1 :: above.1,step.2)

/- `none` is a panic: a zero divisor, or a quotient past 128 bits. -/
def divRemU128 (b : Big) (d : Nat) : Option (Nat × Nat) :=
  if d = 0 then none
  else if b.bitLen ≤ 128 then some (asU128 b.limbs / d,asU128 b.limbs % d)
  else if d / word = 0 then
    let (quotient,remainder) := b.divSmall d
    if quotient.limbs.length ≤ 2 then some (asU128 quotient.limbs,remainder) else none
  else
    let shift := leadingZeros 128 d
    let divisor := d * 2 ^ shift
    let u := if shift = 0 then b.limbs ++ [0] else (shlLimbs shift 0 (b.limbs ++ [0])).1
    let (quotient,low,high) := divTwo (divisor / word) (divisor % word) u
    if (quotient.drop 2).all (· == 0) then some (asU128 (quotient.take 2),(high * word + low) / 2 ^ shift) else none

/-! The corrected estimate is the digit. -/

theorem correctSpec {v1 v0 u0 : Nat} (some : 0 < v1) (low : v0 < word) {top : Nat}
    (digit : (top * word + u0) / (v1 * word + v0) < word) :
    ∀ {qhat rhat : Nat}, qhat * v1 + rhat = top → qhat ≤ word + 1 →
      (top * word + u0) / (v1 * word + v0) ≤ qhat →
      correct v1 v0 u0 qhat rhat = (top * word + u0) / (v1 * word + v0) := by
  have divisor : 0 < v1 * word + v0 := by
    have := Nat.mul_pos some wordPos
    omega
  generalize is : (top * word + u0) / (v1 * word + v0) = q at *
  -- an estimate whose product fits is at most the digit
  have fits {qhat rhat : Nat} (split : qhat * v1 + rhat = top) (small : qhat * v0 ≤ rhat * word + u0) : qhat ≤ q := by
    rw [← is, Nat.le_div_iff_mul_le divisor]
    calc qhat * (v1 * word + v0) = qhat * v1 * word + qhat * v0 := by ring
      _ ≤ qhat * v1 * word + (rhat * word + u0) := by omega
      _ = (qhat * v1 + rhat) * word + u0 := by ring
      _ = top * word + u0 := by rw [split]
  have large {qhat rhat : Nat} (split : qhat * v1 + rhat = top) (above : q ≤ qhat)
      (more : word ≤ qhat ∨ rhat * word + u0 < qhat * v0) : q < qhat := by
    rcases more with wide | beyond
    · omega
    · by_contra least
      have same : qhat = q := by omega
      have product : (v1 * word + v0) * q ≤ top * word + u0 := by
        rw [← is]
        exact Nat.mul_div_le _ _
      rw [← same, ← split] at product
      nlinarith
  intro qhat rhat split bound above
  fun_induction correct v1 v0 u0 qhat rhat with
  | case1 qhat rhat more past =>
    -- the estimate was too large, and one less leaves a remainder past a limb
    have less := large split above more.1
    have step : (qhat - 1) * v1 + (rhat + v1) = top := by
      rw [← split]
      obtain ⟨n,rfl⟩ : ∃ n, qhat = n + 1 := ⟨qhat - 1,by omega⟩
      rw [Nat.add_sub_cancel]
      ring
    refine le_antisymm (fits step ?_) (by omega)
    calc (qhat - 1) * v0 ≤ word * v0 := Nat.mul_le_mul_right _ (by omega)
      _ ≤ word * word := Nat.mul_le_mul_left _ low.le
      _ ≤ (rhat + v1) * word := Nat.mul_le_mul_right _ past
      _ ≤ (rhat + v1) * word + u0 := Nat.le_add_right _ _
  | case2 qhat rhat more past ih =>
    have less := large split above more.1
    refine ih ?_ (by omega) (by omega)
    rw [← split]
    obtain ⟨n,rfl⟩ : ∃ n, qhat = n + 1 := ⟨qhat - 1,by omega⟩
    rw [Nat.add_sub_cancel]
    ring
  | case3 qhat rhat done =>
    rw [not_and_or, not_or] at done
    rcases done with ⟨_,small⟩ | none
    · exact le_antisymm (fits split (by omega)) above
    · exact absurd some none

theorem subtractLimbSpec (qhat v carry : Nat) {u borrow : Nat} (small : u < word) (one : borrow ≤ 1) :
    ∃ left again next, subtractLimb qhat v u borrow carry = (left,again,next) ∧ left < word ∧ again ≤ 1 ∧
      (u : Int) - borrow - (qhat * v + carry : Nat) = left - (again + next) * word := by
  have split := Nat.mod_add_div (qhat * v + carry) word
  have below := Nat.mod_lt (qhat * v + carry) wordPos
  rw [subtractLimb]
  generalize (qhat * v + carry) % word = part at *
  generalize (qhat * v + carry) / word = next at *
  rw [← split]
  generalize word = w at *
  by_cases negative : (u : Int) - borrow - part < 0
  · have left : ((u : Int) - borrow - part) % w = u - borrow - part + w := by
      rw [← Int.add_emod_right, Int.emod_eq_of_lt (by omega) (by omega)]
    refine ⟨_,_,_,rfl,by rw [left]; omega,by rw [if_pos negative],?_⟩
    rw [left, if_pos negative, Int.toNat_of_nonneg (by omega)]
    push_cast
    ring
  · have left : ((u : Int) - borrow - part) % w = u - borrow - part := Int.emod_eq_of_lt (by omega) (by omega)
    refine ⟨_,_,_,rfl,by rw [left]; omega,by rw [if_neg negative]; omega,?_⟩
    rw [left, if_neg negative, Int.toNat_of_nonneg (by omega)]
    push_cast
    ring

/- A multiple of a bound, between two residues of it, is zero. -/
theorem onlyMultiple {k m s r : Int} (split : r = k * m + s) (r0 : 0 ≤ r) (rm : r < m) (s0 : 0 ≤ s) (sm : s < m) : k = 0 := by
  by_contra some
  rcases lt_or_gt_of_ne some with less | more
  · nlinarith
  · nlinarith

section
variable {v1 v0 u0 u1 u2 : Nat} (normal : word ≤ 2 * v1) (high : v1 < word) (low : v0 < word) (h0 : u0 < word) (h1 : u1 < word)
  (rem : u2 * word + u1 < v1 * word + v0)

include h0 rem in
theorem digitSmall : ((u2 * word + u1) * word + u0) / (v1 * word + v0) < word := by
  refine Nat.div_lt_of_lt_mul ?_
  calc (u2 * word + u1) * word + u0 < (u2 * word + u1) * word + word := by omega
    _ = (u2 * word + u1 + 1) * word := by ring
    _ ≤ (v1 * word + v0) * word := Nat.mul_le_mul_right _ rem

include normal low h0 rem in
theorem estimateExact : correct v1 v0 u0 ((u2 * word + u1) / v1) ((u2 * word + u1) % v1) =
    ((u2 * word + u1) * word + u0) / (v1 * word + v0) := by
  have word0 := wordPos
  have some : 0 < v1 := by omega
  refine correctSpec some low (digitSmall h0 rem) (by rw [Nat.mul_comm]; exact Nat.div_add_mod _ _) ?_ ?_
  · have bound : (u2 * word + u1) / v1 < word + 2 := by
      refine Nat.div_lt_of_lt_mul ?_
      rw [Nat.mul_add]
      omega
    omega
  · rw [Nat.le_div_iff_mul_le some]
    have product := Nat.div_mul_le_self ((u2 * word + u1) * word + u0) (v1 * word + v0)
    generalize ((u2 * word + u1) * word + u0) / (v1 * word + v0) = q at *
    refine Nat.le_of_lt_succ (Nat.lt_of_mul_lt_mul_right (a := word) ?_)
    calc q * v1 * word ≤ q * (v1 * word + v0) := by rw [Nat.mul_add, Nat.mul_assoc]; exact Nat.le_add_right _ _
      _ ≤ (u2 * word + u1) * word + u0 := product
      _ < (u2 * word + u1) * word + word := by omega
      _ = (u2 * word + u1).succ * word := by rw [Nat.succ_mul]

include normal high low h0 h1 rem in
theorem divDigitSpec :
    ∃ left above, divDigit v1 v0 u0 u1 u2 = (((u2 * word + u1) * word + u0) / (v1 * word + v0),left,above) ∧
      left < word ∧ above < word ∧ above * word + left = ((u2 * word + u1) * word + u0) % (v1 * word + v0) ∧
      thirdLimb v1 v0 u0 u1 u2 = 0 := by
  have word0 := wordPos
  have some : 0 < v1 := by omega
  have digit := digitSmall h0 rem
  have divisor : 0 < v1 * word + v0 := by
    have := Nat.mul_pos some word0
    omega
  have estimate := estimateExact normal low h0 rem
  have division := Nat.div_add_mod ((u2 * word + u1) * word + u0) (v1 * word + v0)
  have remains := Nat.mod_lt ((u2 * word + u1) * word + u0) divisor
  have inside : v1 * word + v0 ≤ word * word :=
    calc v1 * word + v0 ≤ v1 * word + word := by omega
      _ = (v1 + 1) * word := by ring
      _ ≤ word * word := Nat.mul_le_mul_right _ high
  simp only [divDigit, thirdLimb, estimate]
  generalize ((u2 * word + u1) * word + u0) / (v1 * word + v0) = q at *
  generalize ((u2 * word + u1) * word + u0) % (v1 * word + v0) = r at *
  obtain ⟨left,borrow,carry,first,leftSmall,borrowSmall,firstIs⟩ := subtractLimbSpec q v0 0 h0 (Nat.zero_le 1)
  obtain ⟨above,last,top,second,aboveSmall,_,secondIs⟩ := subtractLimbSpec q v1 carry h1 borrowSmall
  rw [first]
  simp only
  rw [second]
  simp only
  -- what stands above the two limbs is a multiple of their base that is too small to be one
  have total : (r : Int) = (u2 - last - top) * (word * word) + (above * word + left : Nat) := by
    push_cast at firstIs secondIs ⊢
    have whole : ((v1 : Int) * word + v0) * q + r = (u2 * word + u1) * word + u0 := by exact_mod_cast division
    linear_combination whole + firstIs + word * secondIs
  have limbs : above * word + left < word * word :=
    calc above * word + left < above * word + word := by omega
      _ = (above + 1) * word := by ring
      _ ≤ word * word := Nat.mul_le_mul_right _ aboveSmall
  have bounded : (r : Int) < word * word := by exact_mod_cast lt_of_lt_of_le remains inside
  have none := onlyMultiple total (Int.natCast_nonneg r) bounded (Int.natCast_nonneg _) (by exact_mod_cast limbs)
  refine ⟨left,above,by rw [Nat.mod_eq_of_lt digit],leftSmall,aboveSmall,?_,none⟩
  rw [none, zero_mul, zero_add] at total
  exact_mod_cast total.symm

end

/-! The digits from the top down. -/

theorem divTwoCons (v1 v0 u0 : Nat) {u : List Nat} (long : 2 ≤ u.length) : divTwo v1 v0 (u0 :: u) =
    ((divDigit v1 v0 u0 (divTwo v1 v0 u).2.1 (divTwo v1 v0 u).2.2).1 :: (divTwo v1 v0 u).1,
      (divDigit v1 v0 u0 (divTwo v1 v0 u).2.1 (divTwo v1 v0 u).2.2).2) := by
  rcases u with _ | ⟨a, _ | ⟨b, u⟩⟩
  · simp at long
  · simp at long
  · rfl

theorem divTwoSpec {v1 v0 : Nat} (normal : word ≤ 2 * v1) (high : v1 < word) (low : v0 < word) {below : List Nat} {a b : Nat}
    (proper : Proper word (below ++ [a,b])) (top : b * word + a < v1 * word + v0) :
    ∃ quotient left above, divTwo v1 v0 (below ++ [a,b]) = (quotient,left,above) ∧ Proper word quotient ∧ left < word ∧
      above < word ∧ above * word + left < v1 * word + v0 ∧
      Nat.ofDigits word (below ++ [a,b]) = (v1 * word + v0) * Nat.ofDigits word quotient + (above * word + left) := by
  induction below with
  | nil =>
    have ha : a < word := proper a (by simp)
    have hb : b < word := proper b (by simp)
    refine ⟨[],a,b,rfl,by simp [Proper],ha,hb,top,?_⟩
    simp [Nat.ofDigits_cons]
    ring
  | cons u0 below ih =>
    obtain ⟨h0,rest⟩ := properCons.mp proper
    obtain ⟨quotient,left,above,is,properQ,leftSmall,aboveSmall,less,value⟩ := ih rest
    obtain ⟨left',above',step,left'',above'',remains,_⟩ := divDigitSpec normal high low h0 leftSmall less
    have digit : ((above * word + left) * word + u0) / (v1 * word + v0) < word := by
      refine Nat.div_lt_of_lt_mul ?_
      calc (above * word + left) * word + u0 < (above * word + left) * word + word := by omega
        _ = (above * word + left + 1) * word := by ring
        _ ≤ (v1 * word + v0) * word := Nat.mul_le_mul_right _ less
    have division := Nat.div_add_mod ((above * word + left) * word + u0) (v1 * word + v0)
    rw [List.cons_append, divTwoCons v1 v0 u0 (by simp), is]
    simp only
    rw [step]
    refine ⟨_,left',above',rfl,properCons.mpr ⟨digit,properQ⟩,left'',above'',?_,?_⟩
    · rw [remains]
      exact Nat.mod_lt _ (by omega)
    · rw [Nat.ofDigits_cons, Nat.ofDigits_cons, value, remains]
      linear_combination -division

/- Every digit of a division, with the limbs its estimate is made from. -/
def EveryDigit (holds : Nat → Nat → Nat → Prop) (v1 v0 : Nat) : List Nat → Prop
  | u0 :: u1 :: u2 :: rest =>
      let above := divTwo v1 v0 (u1 :: u2 :: rest)
      EveryDigit holds v1 v0 (u1 :: u2 :: rest) ∧ holds u0 above.2.1 above.2.2
  | _ => True

/- The estimate is the digit, and taking it leaves nothing to add back. -/
structure ExactDigit (v1 v0 u0 u1 u2 : Nat) : Prop where
  estimate : correct v1 v0 u0 ((u2 * word + u1) / v1) ((u2 * word + u1) % v1) =
    ((u2 * word + u1) * word + u0) / (v1 * word + v0)
  third : thirdLimb v1 v0 u0 u1 u2 = 0

theorem everyDigit {v1 v0 : Nat} (normal : word ≤ 2 * v1) (high : v1 < word) (low : v0 < word) {below : List Nat} {a b : Nat}
    (proper : Proper word (below ++ [a,b])) (top : b * word + a < v1 * word + v0) :
    EveryDigit (ExactDigit v1 v0) v1 v0 (below ++ [a,b]) := by
  induction below with
  | nil => trivial
  | cons u0 below ih =>
    obtain ⟨h0,rest⟩ := properCons.mp proper
    obtain ⟨quotient,left,above,is,_,leftSmall,_,less,_⟩ := divTwoSpec normal high low rest top
    obtain ⟨_,_,_,_,_,_,third⟩ := divDigitSpec normal high low h0 leftSmall less
    have here : ExactDigit v1 v0 u0 left above := ⟨estimateExact normal low h0 less,third⟩
    have step : ∀ {u : List Nat}, 2 ≤ u.length → EveryDigit (ExactDigit v1 v0) v1 v0 u →
        ExactDigit v1 v0 u0 (divTwo v1 v0 u).2.1 (divTwo v1 v0 u).2.2 → EveryDigit (ExactDigit v1 v0) v1 v0 (u0 :: u) := by
      intro u long each own
      rcases u with _ | ⟨x,_ | ⟨y,u⟩⟩
      · simp at long
      · simp at long
      · exact ⟨each,own⟩
    rw [List.cons_append]
    refine step (by simp) (ih rest) ?_
    rw [is]
    exact here

/- The dividend shifted, with a limb to spare. -/
theorem shiftedSpec (b : Big) {shift : Nat} (small : shift < 64) :
    let u := if shift = 0 then b.limbs ++ [0] else (shlLimbs shift 0 (b.limbs ++ [0])).1
    Proper word u ∧ u.length = b.limbs.length + 1 ∧ Nat.ofDigits word u = b.value * 2 ^ shift := by
  have padded : Proper word (b.limbs ++ [0]) := properAppend.mpr ⟨b.proper,by simp [Proper, wordPos]⟩
  have worth : Nat.ofDigits word (b.limbs ++ [0]) = b.value := by
    rw [Nat.ofDigits_append, value]
    simp
  simp only
  split_ifs with zero
  · exact ⟨padded,by simp,by rw [worth, zero, pow_zero, Nat.mul_one]⟩
  · rw [shlLimbsEq small.le (by positivity) padded]
    have length := mulAddLength word (2 ^ shift) 0 (b.limbs ++ [0])
    have total := mulAddValue word (2 ^ shift) 0 (b.limbs ++ [0])
    rw [worth, Nat.add_zero, List.length_append, List.length_singleton] at total
    refine ⟨mulAddProper wordPos _ _ _,by rw [length, List.length_append, List.length_singleton],?_⟩
    -- the spare limb takes whatever is shifted out of the top one
    have bound : b.value < word ^ b.limbs.length := Nat.ofDigits_lt_base_pow_length wordOne b.proper
    have below : b.value * 2 ^ shift < word ^ (b.limbs.length + 1) := by
      rw [pow_succ]
      exact Nat.mul_lt_mul'' bound (Nat.pow_lt_pow_right (by decide) small)
    have none : (mulAdd word (2 ^ shift) 0 (b.limbs ++ [0])).2 = 0 := by
      by_contra some
      have := Nat.le_mul_of_pos_right (word ^ (b.limbs.length + 1)) (Nat.pos_of_ne_zero some)
      omega
    rw [none, Nat.mul_zero, Nat.add_zero] at total
    exact total

theorem topTwo {u : List Nat} {n bound : Nat} (length : u.length = n + 2) (less : Nat.ofDigits word u < word ^ n * bound) :
    ∃ below a c, u = below ++ [a,c] ∧ c * word + a < bound := by
  obtain ⟨a,c,last⟩ : ∃ a c, u.drop n = [a,c] := by
    have two : (u.drop n).length = 2 := by rw [List.length_drop]; omega
    exact List.length_eq_two.mp two
  have whole : u = u.take n ++ [a,c] := by rw [← last, List.take_append_drop]
  have front : (u.take n).length = n := by rw [List.length_take]; omega
  refine ⟨_,a,c,whole,?_⟩
  rw [whole, Nat.ofDigits_append, front] at less
  simp only [Nat.ofDigits_cons, Nat.ofDigits_nil, Nat.mul_zero, Nat.add_zero] at less
  have parts : word ^ n * (a + word * c) < word ^ n * bound := lt_of_le_of_lt (Nat.le_add_left _ _) less
  have := Nat.lt_of_mul_lt_mul_left parts
  rwa [Nat.add_comm, Nat.mul_comm]

theorem drop2 {limbs : List Nat} (small : Nat.ofDigits word limbs < 2 ^ 128) :
    (limbs.drop 2).all (· == 0) = true ∧ asU128 (limbs.take 2) = Nat.ofDigits word limbs := by
  have split : Nat.ofDigits word limbs = asU128 (limbs.take 2) + word ^ (limbs.take 2).length * Nat.ofDigits word (limbs.drop 2) := by
    rw [asU128, ← Nat.ofDigits_append, List.take_append_drop]
  have none : Nat.ofDigits word (limbs.drop 2) = 0 := by
    by_contra some
    have long : (limbs.take 2).length = 2 := by
      rw [List.length_take]
      have : limbs.drop 2 ≠ [] := by
        intro is
        rw [is] at some
        exact some rfl
      have := List.length_pos_iff.mpr this
      rw [List.length_drop] at this
      omega
    rw [long] at split
    have := Nat.le_mul_of_pos_right (word ^ 2) (Nat.pos_of_ne_zero some)
    have square : word ^ 2 = 2 ^ 128 := by decide
    omega
  refine ⟨?_,by rw [split, none, Nat.mul_zero, Nat.add_zero]⟩
  have zeros : ∀ {xs : List Nat}, Nat.ofDigits word xs = 0 → xs.all (· == 0) = true := by
    intro xs
    induction xs with
    | nil => intro _; rfl
    | cons x xs ih =>
      intro is
      rw [Nat.ofDigits_cons, Nat.add_eq_zero_iff, Nat.mul_eq_zero] at is
      obtain ⟨first,word0 | rest⟩ := is
      · exact absurd word0 (by decide)
      · rw [List.all_cons, ih rest, first]
        rfl
  exact zeros none

/- A `u128` of more than one limb is normalised by less than a limb. -/
theorem normalised {d : Nat} (wide : word ≤ d) (small : d < 2 ^ 128) :
    leadingZeros 128 d < 64 ∧ d * 2 ^ leadingZeros 128 d < 2 ^ 128 ∧ 2 ^ 127 ≤ d * 2 ^ leadingZeros 128 d := by
  have length := bitLengthSpec (lt_of_lt_of_le wordPos wide)
  have most : bitLength d ≤ 128 := bitLengthLe.mpr small
  have least : 64 < bitLength d := ltBitLength.mpr wide
  obtain ⟨_,low,high⟩ := length
  rw [leadingZeros]
  refine ⟨by omega,?_,?_⟩
  · calc d * 2 ^ (128 - bitLength d) < 2 ^ bitLength d * 2 ^ (128 - bitLength d) :=
          Nat.mul_lt_mul_of_pos_right high (by positivity)
      _ = 2 ^ 128 := by rw [← pow_add]; congr 1; omega
  · calc 2 ^ 127 = 2 ^ (bitLength d - 1) * 2 ^ (128 - bitLength d) := by rw [← pow_add]; congr 1; omega
      _ ≤ d * 2 ^ (128 - bitLength d) := Nat.mul_le_mul_right _ low

/- The dividend shifted as the divisor is. -/
def dividend (b : Big) (shift : Nat) : List Nat := if shift = 0 then b.limbs ++ [0] else (shlLimbs shift 0 (b.limbs ++ [0])).1

theorem dividendTop (b : Big) {d : Nat} (wide : word ≤ d) (small : d < 2 ^ 128) (some : b.limbs ≠ []) :
    ∃ front a c, b.dividend (leadingZeros 128 d) = front ++ [a,c] ∧ Proper word (front ++ [a,c]) ∧
      c * word + a < d * 2 ^ leadingZeros 128 d / word * word + d * 2 ^ leadingZeros 128 d % word ∧
      word ≤ 2 * (d * 2 ^ leadingZeros 128 d / word) ∧ d * 2 ^ leadingZeros 128 d / word < word := by
  obtain ⟨shifted,below,normal⟩ := normalised wide small
  obtain ⟨proper,length,worth⟩ := shiftedSpec b shifted
  have words : (2 : Nat) ^ 127 = 2 ^ 63 * word ∧ (2 : Nat) ^ 128 = word * word ∧ word = 2 * 2 ^ 63 := by decide
  unfold dividend
  generalize leadingZeros 128 d = shift at *
  generalize (if shift = 0 then b.limbs ++ [0] else (shlLimbs shift 0 (b.limbs ++ [0])).1) = u at *
  have half : 2 ^ 63 ≤ d * 2 ^ shift / word := by
    rw [Nat.le_div_iff_mul_le wordPos]
    omega
  obtain ⟨n,limbs⟩ : ∃ n, b.limbs.length = n + 1 := by
    have := List.length_pos_iff.mpr some
    exact ⟨b.limbs.length - 1,by omega⟩
  have bound : b.value < word ^ b.limbs.length := Nat.ofDigits_lt_base_pow_length wordOne b.proper
  have less : Nat.ofDigits word u < word ^ n * (d * 2 ^ shift) := by
    rw [worth, ← Nat.mul_assoc]
    refine Nat.mul_lt_mul_of_pos_right (lt_of_lt_of_le bound ?_) (by positivity)
    rw [limbs, pow_succ]
    exact Nat.mul_le_mul_left _ wide
  obtain ⟨front,a,c,rfl,top⟩ := topTwo (by omega) less
  refine ⟨front,a,c,rfl,proper,?_,by omega,Nat.div_lt_of_lt_mul (by omega)⟩
  rw [Nat.div_add_mod']
  exact top

theorem longLimbs {b : Big} (long : ¬b.bitLen ≤ 128) : b.limbs ≠ [] := by
  intro none
  rw [bitLen, none] at long
  exact long (by decide)

theorem divRemU128Spec (b : Big) {d : Nat} (pos : 0 < d) (small : d < 2 ^ 128) (fits : b.value / d < 2 ^ 128) :
    b.divRemU128 d = some (b.value / d,b.value % d) := by
  unfold divRemU128
  rw [if_neg (by omega)]
  split_ifs with short narrow
  · rfl
  · obtain ⟨quotient,remainder⟩ := divSmallSpec b pos
    have few : (b.divSmall d).1.limbs.length ≤ 2 := by
      by_contra long
      have least := valueLower word (b.divSmall d).1.trimmed (by rintro is; rw [is] at long; simp at long)
      have : word ^ 2 ≤ word ^ ((b.divSmall d).1.limbs.length - 1) := Nat.pow_le_pow_right wordPos (by omega)
      have square : word ^ 2 = 2 ^ 128 := by decide
      rw [← value, quotient] at least
      omega
    simp only
    rw [if_pos few, remainder, asU128, ← value, quotient]
  · have wide : word ≤ d := by
      by_contra below
      exact narrow (Nat.div_eq_of_lt (by omega))
    obtain ⟨front,a,c,own,proper,top,normal,high⟩ := dividendTop b wide small (longLimbs short)
    obtain ⟨quotient,left,above,is,_,_,_,remains,total⟩ := divTwoSpec normal high (Nat.mod_lt _ wordPos) proper top
    have worth := (shiftedSpec b (normalised wide small).1).2.2
    have split := Nat.div_add_mod' (d * 2 ^ leadingZeros 128 d) word
    simp only at worth ⊢
    unfold dividend at own
    rw [own] at worth ⊢
    generalize leadingZeros 128 d = shift at *
    rw [is]
    simp only
    rw [worth, split] at total
    rw [split] at remains
    have scale : 0 < 2 ^ shift := by positivity
    have quotients : Nat.ofDigits word quotient = b.value / d := by
      rw [← Nat.mul_div_mul_right b.value d scale, total, Nat.mul_add_div (by omega), Nat.div_eq_of_lt remains, Nat.add_zero]
    have remainders : (above * word + left) / 2 ^ shift = b.value % d := by
      have whole : above * word + left = b.value % d * 2 ^ shift := by
        rw [← Nat.mul_mod_mul_right, total, Nat.mul_add_mod, Nat.mod_eq_of_lt remains]
      rw [whole, Nat.mul_div_left _ scale]
    obtain ⟨none,all⟩ := drop2 (quotients ▸ fits)
    rw [if_pos none, all, quotients, remainders]

theorem divRemExact (b : Big) {d : Nat} (pos : 0 < d) (small : d < 2 ^ 128) (fits : b.value / d < 2 ^ 128) :
    b.divRemU128 d = some (b.value / d,b.value % d) ∧
      (128 < b.bitLen → word ≤ d →
        EveryDigit (ExactDigit (d * 2 ^ leadingZeros 128 d / word) (d * 2 ^ leadingZeros 128 d % word))
          (d * 2 ^ leadingZeros 128 d / word) (d * 2 ^ leadingZeros 128 d % word) (b.dividend (leadingZeros 128 d))) := by
  refine ⟨divRemU128Spec b pos small fits,fun long wide => ?_⟩
  obtain ⟨front,a,c,own,proper,top,normal,high⟩ := dividendTop b wide small (longLimbs (by omega))
  rw [own]
  exact everyDigit normal high (Nat.mod_lt _ wordPos) proper top

theorem divRemThree : (ofLimbs [0,0,2 ^ 63]).value / (2 ^ 64 + 1) < 2 ^ 128 ∧ 128 < (ofLimbs [0,0,2 ^ 63]).bitLen ∧
    (ofLimbs [0,0,2 ^ 63]).divRemU128 (2 ^ 64 + 1) =
      some ((ofLimbs [0,0,2 ^ 63]).value / (2 ^ 64 + 1),(ofLimbs [0,0,2 ^ 63]).value % (2 ^ 64 + 1)) :=
  ⟨by decide,by decide,(divRemExact _ (by decide) (by decide) (by decide)).1⟩

end Big
end Kimmy.BigInt
