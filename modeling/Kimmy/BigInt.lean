import Kimmy.Limbs
import Mathlib.Data.Nat.Bitwise
import Mathlib.Tactic.NormNum

/-!
The unsigned big integer of the exact comparator, the key encoder and the decimal
arithmetic (`cmp/big.rs`): 64-bit limbs, no zero limb at the top. Each operation is the
source's limb loop and is followed by what it does to the value.
-/
namespace Kimmy.BigInt
open Limbs

/-! Bit lengths of machine words. -/

def bitLength (n : Nat) : Nat := if n = 0 then 0 else n.log2 + 1

def leadingZeros (width n : Nat) : Nat := width - bitLength n

def trailingZeros : Nat → Nat → Nat
  | 0, _ => 0
  | width + 1, n => if n % 2 = 1 then 0 else trailingZeros width (n / 2) + 1

attribute [local simp] trailingZeros

theorem bitLengthLe {n k : Nat} : bitLength n ≤ k ↔ n < 2 ^ k := by
  unfold bitLength
  split
  · simp [*]
  · rw [← Nat.log2_lt ‹_›]; omega

theorem ltBitLength {n k : Nat} : k < bitLength n ↔ 2 ^ k ≤ n := by
  have := @bitLengthLe n k
  omega

theorem bitLengthEq {n k : Nat} (low : 2 ^ k ≤ n) (high : n < 2 ^ (k + 1)) : bitLength n = k + 1 :=
  Nat.le_antisymm (Iff.mpr bitLengthLe high) (Iff.mpr ltBitLength low)

theorem bitLengthSpec {n : Nat} (pos : 0 < n) :
    0 < bitLength n ∧ 2 ^ (bitLength n - 1) ≤ n ∧ n < 2 ^ bitLength n := by
  have some : 0 < bitLength n := Iff.mpr ltBitLength (Nat.succ_le_of_lt pos)
  exact ⟨some,Iff.mp ltBitLength (by omega),Iff.mp bitLengthLe le_rfl⟩

theorem trailingZerosDvd {width n : Nat} : 2 ^ trailingZeros width n ∣ n := by
  induction width generalizing n with
  | zero => simp
  | succ width ih =>
    rw [trailingZeros]
    split
    · simp
    · obtain ⟨m,hm⟩ := @ih (n / 2)
      exact ⟨m,by rw [pow_succ, mul_assoc, mul_comm 2 m, ← mul_assoc, ← hm]; omega⟩

theorem dvdTrailingZeros {width n k : Nat} (pos : 0 < n) (small : n < 2 ^ width) :
    2 ^ k ∣ n ↔ k ≤ trailingZeros width n := by
  induction width generalizing n k with
  | zero => simp at small; omega
  | succ width ih =>
    rw [trailingZeros]
    split
    · rename_i odd
      cases k with
      | zero => simp
      | succ k =>
        have no : ¬ 2 ^ (k + 1) ∣ n := fun h => by
          have := (Dvd.intro_left (2 ^ k) (by ring : 2 ^ k * 2 = 2 ^ (k + 1))).trans h
          omega
        exact iff_of_false no (by omega)
    · have half : n = 2 * (n / 2) := by omega
      cases k with
      | zero => simp
      | succ k =>
        have rest := ih (n := n / 2) (k := k) (by omega) (by rw [pow_succ] at small; omega)
        rw [half, pow_succ', Nat.mul_dvd_mul_iff_left (by omega)]
        rw [rest, ← half]
        omega

/-! The integer. -/

def word : Nat := 2 ^ 64

theorem wordPos : 0 < word := by decide
theorem wordOne : 1 < word := by decide

/- The top limb decides the length. -/
theorem bitLengthTop {front top} (proper : Proper word (front ++ [top])) (nonzero : top ≠ 0) :
    bitLength (Nat.ofDigits word (front ++ [top])) = 64 * front.length + bitLength top := by
  obtain ⟨present,least,most⟩ := bitLengthSpec (Nat.pos_of_ne_zero nonzero)
  have low := Nat.ofDigits_lt_base_pow_length wordOne (properAppend.mp proper).1
  have power : word ^ front.length = 2 ^ (64 * front.length) := by rw [word, pow_mul]
  have last : 64 * front.length + bitLength top = 64 * front.length + (bitLength top - 1) + 1 := by omega
  rw [Nat.ofDigits_append, Nat.ofDigits_singleton, last]
  refine bitLengthEq ?_ ?_
  · rw [pow_add, ← power]
    exact (Nat.mul_le_mul_left _ least).trans (Nat.le_add_left _ _)
  · rw [← last, pow_add, ← power]
    calc _ < word ^ front.length + word ^ front.length * top := by omega
      _ = word ^ front.length * (top + 1) := by ring
      _ ≤ _ := Nat.mul_le_mul_left _ most

/- A word shifted right, continued by the low bits of what stands above it. -/
theorem shiftJoin {width part : Nat} (hp : part ≤ width) (x y : Nat)
    (above : y % 2 ^ part = x / 2 ^ width % 2 ^ part) :
    (x % 2 ^ width) >>> part ||| (y <<< (width - part)) % 2 ^ width = x / 2 ^ part % 2 ^ width := by
  have join : 2 ^ width = 2 ^ part * 2 ^ (width - part) := by
    rw [← pow_add, Nat.add_sub_cancel' hp]
  have small : (x % 2 ^ width) >>> part < 2 ^ (width - part) := by
    rw [Nat.shiftRight_eq_div_pow]
    exact Nat.div_lt_of_lt_mul (by rw [← join]; exact Nat.mod_lt _ (by positivity))
  have shifted : (y <<< (width - part)) % 2 ^ width = (y % 2 ^ part) <<< (width - part) := by
    rw [Nat.shiftLeft_eq, Nat.shiftLeft_eq, join, Nat.mul_mod_mul_right]
  rw [shifted, Nat.or_comm, ← Nat.shiftLeft_add_eq_or_of_lt small, Nat.shiftRight_eq_div_pow,
    Nat.shiftLeft_eq, above]
  have low : x % 2 ^ width / 2 ^ part = x / 2 ^ part % 2 ^ (width - part) := by
    rw [join, Nat.mod_mul_right_div_self]
  have high : x / 2 ^ part / 2 ^ (width - part) = x / 2 ^ width := by
    rw [Nat.div_div_eq_div_mul, ← join]
  have swap : 2 ^ width = 2 ^ (width - part) * 2 ^ part := by rw [join, mul_comm]
  conv_rhs => rw [swap, Nat.mod_mul]
  rw [low, high]
  ring

structure Big where
  limbs : List Nat
  proper : Proper word limbs
  trimmed : Trimmed limbs

namespace Big

def value (b : Big) : Nat := Nat.ofDigits word b.limbs

/- Every store into a limb is an `as u64` cast; `trim` follows it. -/
def ofLimbs (limbs : List Nat) : Big where
  limbs := trim (limbs.map (· % word))
  proper := trimProper fun l m => by
    obtain ⟨n,_,rfl⟩ := List.mem_map.mp m
    exact Nat.mod_lt n wordPos
  trimmed := trimTrimmed _

theorem ofLimbsValue {limbs} (proper : Proper word limbs) :
    (ofLimbs limbs).value = Nat.ofDigits word limbs := by
  have same : limbs.map (· % word) = limbs := by
    conv_rhs => rw [← List.map_id limbs]
    exact List.map_congr_left fun l m => Nat.mod_eq_of_lt (proper l m)
  simp only [value, ofLimbs, same, valueTrim]

theorem valueInj {a b : Big} (same : a.value = b.value) : a = b := by
  have lengths : a.limbs.length = b.limbs.length := Nat.le_antisymm
    (lengthLe b.proper a.trimmed wordOne (le_of_eq same))
    (lengthLe a.proper b.trimmed wordOne (ge_of_eq same))
  have limbs : a.limbs = b.limbs :=
    Nat.ofDigits_inj_of_len_eq wordOne lengths a.proper b.proper same
  cases a
  cases b
  congr

def fromU128 (value : Nat) : Big := ofLimbs [value % word,value / word % word]

theorem fromU128Value {n : Nat} (small : n < 2 ^ 128) : (fromU128 n).value = n := by
  have high : n / word < word := Nat.div_lt_of_lt_mul (by rwa [word, ← pow_add])
  rw [fromU128, ofLimbsValue (by simp [Proper, Nat.mod_lt, wordPos])]
  simp [Nat.ofDigits_cons, Nat.mod_eq_of_lt high, Nat.mod_add_div]

/- A pass and its carry, pushed when it is not zero. -/
def pushCarry (pass : List Nat × Nat) : List Nat :=
  if pass.2 = 0 then pass.1 else pass.1 ++ [pass.2]

theorem pushCarryValue (base : Nat) (pass : List Nat × Nat) :
    Nat.ofDigits base (pushCarry pass) = Nat.ofDigits base pass.1 + base ^ pass.1.length * pass.2 := by
  unfold pushCarry
  split <;> simp [*, Nat.ofDigits_append]

theorem pushCarryProper {base pass} (limbs : Proper base pass.1) (carry : pass.2 < base) :
    Proper base (pushCarry pass) := by
  unfold pushCarry
  split
  · exact limbs
  · exact properAppend.mpr ⟨limbs,by simpa [Proper] using carry⟩

def mulAddSmall (b : Big) (m a : Nat) : Big := ofLimbs (pushCarry (mulAdd word m a b.limbs))

def mulSmall (b : Big) (m : Nat) : Big := ofLimbs (pushCarry (mulAdd word m 0 b.limbs))

theorem mulAddSmallValue (b : Big) {m a : Nat} (hm : m < word) (ha : a < word) :
    (b.mulAddSmall m a).value = b.value * m + a := by
  have carry : (mulAdd word m a b.limbs).2 ≤ word - 1 :=
    mulAddCarry b.proper (by omega) (by omega)
  rw [mulAddSmall, ofLimbsValue (pushCarryProper (mulAddProper wordPos m a b.limbs) (by omega)),
    pushCarryValue, mulAddLength, mulAddValue]
  rfl

theorem mulSmallValue (b : Big) {m : Nat} (hm : m < word) : (b.mulSmall m).value = b.value * m :=
  mulAddSmallValue b hm (by decide)

/-! Shifting left: the part of a limb with the carry, then whole limbs. -/

def shlLimbs (part : Nat) : Nat → List Nat → List Nat × Nat
  | carry, [] => ([],carry)
  | carry, l :: limbs =>
      let rest := shlLimbs part (l >>> (64 - part)) limbs
      (((l <<< part) % word ||| carry) :: rest.1,rest.2)

attribute [local simp] shlLimbs

theorem shlLimb {part l carry : Nat} (hp : part ≤ 64) (hc : carry < 2 ^ part) :
    ((l <<< part) % word ||| carry) = (l * 2 ^ part + carry) % word ∧
      l >>> (64 - part) = (l * 2 ^ part + carry) / word := by
  have split : word = 2 ^ part * 2 ^ (64 - part) := by rw [← pow_add, Nat.add_sub_cancel' hp]; rfl
  have pos : 0 < 2 ^ part := by positivity
  have low : (l * 2 ^ part + carry) % 2 ^ part = carry := by
    rw [mul_comm, Nat.mul_add_mod, Nat.mod_eq_of_lt hc]
  have high : (l * 2 ^ part + carry) / 2 ^ part = l := by
    rw [mul_comm, Nat.mul_add_div pos, Nat.div_eq_of_lt hc, Nat.add_zero]
  constructor
  · have shifted : (l <<< part) % word = (l % 2 ^ (64 - part)) <<< part := by
      rw [Nat.shiftLeft_eq, Nat.shiftLeft_eq, split, mul_comm l, Nat.mul_mod_mul_left, mul_comm]
    rw [shifted, ← Nat.shiftLeft_add_eq_or_of_lt hc, Nat.shiftLeft_eq]
    rw [split, Nat.mod_mul, low, high]
    ring
  · rw [Nat.shiftRight_eq_div_pow, split, ← Nat.div_div_eq_div_mul, high]

theorem shlLimbsEq {part carry : Nat} {limbs} (hp : part ≤ 64) (hc : carry < 2 ^ part)
    (proper : Proper word limbs) : shlLimbs part carry limbs = mulAdd word (2 ^ part) carry limbs := by
  induction limbs generalizing carry with
  | nil => rfl
  | cons l limbs ih =>
    obtain ⟨hl,rest⟩ := properCons.mp proper
    obtain ⟨low,high⟩ := @shlLimb part l carry hp hc
    have next : l >>> (64 - part) < 2 ^ part := by
      rw [Nat.shiftRight_eq_div_pow]
      exact Nat.div_lt_of_lt_mul (by rwa [← pow_add, Nat.sub_add_cancel hp])
    simp only [shlLimbs, mulAdd, ih next rest]
    rw [low, high]

def shlPart (b : Big) (part : Nat) : List Nat :=
  if part = 0 then b.limbs else pushCarry (shlLimbs part 0 b.limbs)

theorem trimmedOfValue {base limbs} (one : 1 < base) (proper : Proper base limbs)
    (low : base ^ (limbs.length - 1) ≤ Nat.ofDigits base limbs) : Trimmed limbs := by
  intro last
  obtain ⟨front,rfl⟩ := List.getLast?_eq_some_iff.mp last
  have bound := Nat.ofDigits_lt_base_pow_length one (properAppend.mp proper).1
  simp [Nat.ofDigits_append] at low
  omega

theorem shlPartSpec (b : Big) {part : Nat} (hp : part < 64) (nonzero : b.limbs ≠ []) :
    Proper word (b.shlPart part) ∧ Trimmed (b.shlPart part) ∧
      Nat.ofDigits word (b.shlPart part) = b.value * 2 ^ part := by
  unfold shlPart
  split
  · exact ⟨b.proper,b.trimmed,by simp [*, value]⟩
  rw [shlLimbsEq (le_of_lt hp) (by positivity) b.proper]
  have carry : (mulAdd word (2 ^ part) 0 b.limbs).2 ≤ 2 ^ part :=
    mulAddCarry b.proper le_rfl (by positivity)
  have below : 2 ^ part < word := Nat.pow_lt_pow_right (by decide) hp
  have proper := pushCarryProper (mulAddProper wordPos (2 ^ part) 0 b.limbs)
    (lt_of_le_of_lt carry below)
  have total := pushCarryValue word (mulAdd word (2 ^ part) 0 b.limbs)
  rw [mulAddLength, mulAddValue, Nat.add_zero] at total
  refine ⟨proper,?_,total⟩
  -- either the pushed carry is the nonzero top, or the length is unchanged and the value grew
  by_cases zero : (mulAdd word (2 ^ part) 0 b.limbs).2 = 0
  · refine trimmedOfValue wordOne proper ?_
    have length : (pushCarry (mulAdd word (2 ^ part) 0 b.limbs)).length = b.limbs.length := by
      simp [pushCarry, zero, mulAddLength]
    rw [total, length]
    exact (valueLower word b.trimmed nonzero).trans (Nat.le_mul_of_pos_right _ (by positivity))
  · simp [pushCarry, zero, Trimmed]

theorem shlPartNonempty (b : Big) (part : Nat) (nonzero : b.limbs ≠ []) : b.shlPart part ≠ [] := by
  unfold shlPart
  split
  · exact nonzero
  · cases h : b.limbs with
    | nil => contradiction
    | cons l limbs =>
      unfold pushCarry
      split <;> simp [shlLimbs]

def shl (b : Big) (bits : Nat) : Big :=
  if nonzero : b.limbs = [] then b else
    { limbs := List.replicate (bits / 64) 0 ++ b.shlPart (bits % 64)
      proper := properAppend.mpr ⟨properReplicateZero wordPos _,
        (shlPartSpec b (Nat.mod_lt _ (by decide)) nonzero).1⟩
      trimmed := by
        have top := (shlPartSpec b (Nat.mod_lt bits (by decide)) nonzero).2.1
        have some := shlPartNonempty b (bits % 64) nonzero
        simpa [Trimmed, List.getLast?_append_of_ne_nil _ some] using top }

theorem shlValue (b : Big) (bits : Nat) : (b.shl bits).value = b.value * 2 ^ bits := by
  unfold shl
  split
  · rename_i zero
    simp [value, zero]
  · rename_i nonzero
    simp only [value]
    rw [Nat.ofDigits_append, Nat.ofDigits_replicate_zero, List.length_replicate,
      (shlPartSpec b (Nat.mod_lt bits (by decide)) nonzero).2.2, Nat.zero_add]
    have split : 2 ^ bits = word ^ (bits / 64) * 2 ^ (bits % 64) := by
      rw [word, ← pow_mul, ← pow_add, Nat.div_add_mod]
    rw [split, value]
    ring

/-! Division by a word, and powers of five 27 at a time. -/

def divSmall (b : Big) (d : Nat) : Big × Nat :=
  let pass := Limbs.divSmall word d b.limbs
  (ofLimbs pass.1,pass.2)

theorem divSmallSpec (b : Big) {d : Nat} (pos : 0 < d) :
    (b.divSmall d).1.value = b.value / d ∧ (b.divSmall d).2 = b.value % d := by
  have spec := divSmallQuotient word pos b.limbs
  exact ⟨by rw [divSmall, ofLimbsValue (divSmallProper pos b.proper), spec.1]; rfl,spec.2⟩

def pow5Step : Nat := 7450580596923828125

theorem pow5StepEq : pow5Step = 5 ^ 27 := by decide

theorem pow5Word {k : Nat} (small : k ≤ 27) : 5 ^ k < word :=
  lt_of_le_of_lt (Nat.pow_le_pow_right (by decide) small) (by decide)

theorem pow5Split (k : Nat) : 5 ^ k = pow5Step ^ (k / 27) * 5 ^ (k % 27) := by
  rw [pow5StepEq, ← pow_mul, ← pow_add, Nat.div_add_mod]

def mulPow5 (b : Big) (k : Nat) : Big :=
  (((fun c : Big => c.mulSmall pow5Step)^[k / 27]) b).mulSmall (5 ^ (k % 27))

theorem mulPow5Value (b : Big) (k : Nat) : (b.mulPow5 k).value = b.value * 5 ^ k := by
  have steps (n : Nat) (c : Big) :
      (((fun c : Big => c.mulSmall pow5Step)^[n]) c).value = c.value * pow5Step ^ n := by
    induction n generalizing c with
    | zero => simp
    | succ n ih =>
      rw [Function.iterate_succ_apply, ih, mulSmallValue c (by decide), pow_succ]
      ring
  rw [mulPow5, mulSmallValue _ (pow5Word (by omega)), steps, mul_assoc, ← pow5Split]

/- One turn of the loop of `div_pow5`: the quotient, and whether every remainder was zero. -/
def divStep (d : Nat) (s : Big × Bool) : Big × Bool :=
  ((s.1.divSmall d).1,s.2 && (s.1.divSmall d).2 == 0)

def divPow5 (b : Big) (k : Nat) : Big × Bool :=
  divStep (5 ^ (k % 27)) ((divStep pow5Step)^[k / 27] (b,true))

theorem divMulDvd {n a b : Nat} : a * b ∣ n ↔ a ∣ n ∧ b ∣ n / a := by
  constructor
  · intro h
    have left : a ∣ n := (Nat.dvd_mul_right a b).trans h
    exact ⟨left,Nat.dvd_div_of_mul_dvd h⟩
  · rintro ⟨left,right⟩
    exact Nat.mul_dvd_of_dvd_div left right

theorem divStepSpec {d : Nat} (pos : 0 < d) (s : Big × Bool) :
    (divStep d s).1.value = s.1.value / d ∧ ((divStep d s).2 = true ↔ s.2 = true ∧ d ∣ s.1.value) := by
  obtain ⟨quotient,rest⟩ := divSmallSpec s.1 pos
  refine ⟨quotient,?_⟩
  rw [divStep, Bool.and_eq_true, beq_iff_eq, rest, ← Nat.dvd_iff_mod_eq_zero]

theorem divStepsSpec {d : Nat} (pos : 0 < d) (n : Nat) (s : Big × Bool) :
    ((divStep d)^[n] s).1.value = s.1.value / d ^ n ∧
      (((divStep d)^[n] s).2 = true ↔ s.2 = true ∧ d ^ n ∣ s.1.value) := by
  induction n generalizing s with
  | zero => simp
  | succ n ih =>
    obtain ⟨quotient,exact⟩ := divStepSpec pos s
    obtain ⟨value,flag⟩ := ih (divStep d s)
    rw [Function.iterate_succ_apply]
    refine ⟨by rw [value, quotient, Nat.div_div_eq_div_mul, pow_succ'],?_⟩
    rw [flag, exact, quotient, pow_succ', divMulDvd, and_assoc]

theorem divPow5Spec (b : Big) (k : Nat) :
    (b.divPow5 k).1.value = b.value / 5 ^ k ∧ ((b.divPow5 k).2 = true ↔ 5 ^ k ∣ b.value) := by
  obtain ⟨value,flag⟩ := divStepsSpec (d := pow5Step) (by decide) (k / 27) (b,true)
  obtain ⟨quotient,exact⟩ := divStepSpec (d := 5 ^ (k % 27)) (by positivity)
    ((divStep pow5Step)^[k / 27] (b,true))
  constructor
  · rw [divPow5, quotient, value, Nat.div_div_eq_div_mul, ← pow5Split]
  · rw [divPow5, exact, flag, value, pow5Split k, divMulDvd]
    simp

/-! Significant bits, the top of them, and the order. -/

def bitLen (b : Big) : Nat :=
  match b.limbs.getLast? with
  | none => 0
  | some top => 64 * (b.limbs.length - 1) + (64 - leadingZeros 64 top)

theorem bitLenValue (b : Big) : b.bitLen = bitLength b.value := by
  unfold bitLen
  cases last : b.limbs.getLast? with
  | none => simp [value, List.getLast?_eq_none_iff.mp last, bitLength]
  | some top =>
    obtain ⟨front,split⟩ := List.getLast?_eq_some_iff.mp last
    have nonzero : top ≠ 0 := fun zero => b.trimmed (by rw [last, zero])
    have width : bitLength top ≤ 64 := bitLengthLe.mpr (b.proper top (by simp [split]))
    simp only [value, split, bitLengthTop (split ▸ b.proper) nonzero, List.length_append,
      List.length_singleton, leadingZeros]
    omega

/- Bits `part ..` of the limb at `i`, continued by the low bits of the limb above it. -/
def shrLimb (limbs : List Nat) (part i : Nat) : Nat :=
  if part = 0 then limbs.getD i 0
  else limbs.getD i 0 >>> part ||| (limbs.getD (i + 1) 0 <<< (64 - part)) % word

theorem shrLimbValue {limbs} (proper : Proper word limbs) {part : Nat} (hp : part < 64) (i : Nat) :
    shrLimb limbs part i = Nat.ofDigits word limbs / word ^ i / 2 ^ part % word := by
  have here := limbAt proper i
  have above := limbAt proper (i + 1)
  rw [pow_succ, ← Nat.div_div_eq_div_mul] at above
  generalize Nat.ofDigits word limbs / word ^ i = x at here above ⊢
  unfold shrLimb
  rw [here, above]
  split
  · simp [*]
  · have divides : 2 ^ part ∣ word := Nat.pow_dvd_pow 2 (le_of_lt hp)
    exact shiftJoin (le_of_lt hp) x _ (Nat.mod_mod_of_dvd _ divides)

/- The source asserts `1 ≤ n ≤ 64 · L` and a nonzero value; `Tops` below is its contract. -/
def topBits (b : Big) (L n : Nat) : List Nat × Bool :=
  let len := b.bitLen
  if len ≤ n then
    let shifted := b.shl (n - len)
    (shifted.limbs ++ List.replicate (L - shifted.limbs.length) 0,true)
  else
    let cut := len - n
    let whole := cut / 64
    let part := cut % 64
    ((List.range L).map (fun i => shrLimb b.limbs part (whole + i)),
      (b.limbs.take whole).all (· == 0) && b.limbs.getD whole 0 % 2 ^ part == 0)

theorem topBitsShort (b : Big) {L n : Nat} (short : b.bitLen ≤ n) :
    Nat.ofDigits word (b.topBits L n).1 = b.value * 2 ^ (n - b.bitLen) ∧ (b.topBits L n).2 = true := by
  rw [topBits, if_pos short]
  refine ⟨?_,rfl⟩
  rw [Nat.ofDigits_append_replicate_zero]
  exact shlValue b _

theorem lowLimbs {limbs} (proper : Proper word limbs) (whole part : Nat) (hp : part < 64) :
    ((limbs.take whole).all (· == 0) && limbs.getD whole 0 % 2 ^ part == 0) = true ↔
      Nat.ofDigits word limbs % 2 ^ (64 * whole + part) = 0 := by
  induction whole generalizing limbs with
  | zero =>
    have := limbAt proper 0
    simp only [pow_zero, Nat.div_one] at this
    have divides : 2 ^ part ∣ word := by
      rw [word]; exact Nat.pow_dvd_pow 2 (le_of_lt hp)
    rw [List.take_zero, List.all_nil, Bool.true_and, beq_iff_eq, this,
      Nat.mod_mod_of_dvd _ divides, Nat.mul_zero, Nat.zero_add]
  | succ whole ih =>
    cases limbs with
    | nil => simp
    | cons l limbs =>
      obtain ⟨hl,rest⟩ := properCons.mp proper
      have split : 2 ^ (64 * (whole + 1) + part) = word * 2 ^ (64 * whole + part) := by
        rw [word, ← pow_add]; congr 1; ring
      rw [Nat.ofDigits_cons, split, Nat.mod_mul, Nat.add_mul_mod_self_left,
        Nat.add_mul_div_left _ _ wordPos, Nat.mod_eq_of_lt hl, Nat.div_eq_of_lt hl, Nat.zero_add]
      have tail := ih rest
      simp only [List.take_succ_cons, List.all_cons, List.getD_cons_succ, Bool.and_assoc] at tail ⊢
      rw [Bool.and_eq_true, tail, beq_iff_eq, Nat.add_eq_zero_iff]
      simp [Nat.ne_of_gt wordPos]

theorem topBitsLong (b : Big) {L n : Nat} (fits : n ≤ 64 * L) (long : n < b.bitLen) :
    Nat.ofDigits word (b.topBits L n).1 = b.value / 2 ^ (b.bitLen - n) ∧
      ((b.topBits L n).2 = true ↔ b.value % 2 ^ (b.bitLen - n) = 0) := by
  rw [topBits, if_neg (by omega)]
  have parts := Nat.div_add_mod (b.bitLen - n) 64
  have hp : (b.bitLen - n) % 64 < 64 := Nat.mod_lt _ (by decide)
  constructor
  · have limb (i : Nat) : shrLimb b.limbs ((b.bitLen - n) % 64) ((b.bitLen - n) / 64 + i) =
        b.value / 2 ^ (b.bitLen - n) / word ^ i % word := by
      rw [shrLimbValue b.proper hp, Nat.div_div_eq_div_mul, Nat.div_div_eq_div_mul]
      congr 2
      rw [pow_add, word, ← pow_mul]
      conv_rhs => rw [← parts, pow_add]
      ring
    simp only [limb, valueDigits]
    refine Nat.mod_eq_of_lt (Nat.div_lt_of_lt_mul ?_)
    have bound := (bitLengthLe (n := b.value) (k := b.bitLen)).mp (le_of_eq (bitLenValue b).symm)
    rw [word, ← pow_mul, ← pow_add]
    exact lt_of_lt_of_le bound (Nat.pow_le_pow_right (by decide) (by omega))
  · rw [lowLimbs b.proper _ _ hp, parts]
    rfl

def cmp (a b : Big) : Ordering := compareLimbs a.limbs b.limbs

theorem cmpValue (a b : Big) : a.cmp b = compare a.value b.value :=
  compareLimbsValue wordOne a.proper b.proper a.trimmed b.trimmed

end Big
end Kimmy.BigInt
