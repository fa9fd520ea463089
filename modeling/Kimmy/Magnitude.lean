import Kimmy.DecimalFormat

/-!
A magnitude in limbs of nineteen decimal digits (`Mag` of `decimal/arith.rs`): counting
digits, reading one, and cutting the low ones off are limb operations. Every operation is
held to the natural number it stands for.
-/
namespace Kimmy.Decimal.Arith
open Limbs BigInt

def limb : Nat := 10000000000000000000
def limbDigits : Nat := 19

theorem limbPow : limb = 10 ^ limbDigits := by decide
theorem limbOne : 1 < limb := by decide
theorem limbPos : 0 < limb := by decide

structure Mag where
  limbs : List Nat
  proper : Proper limb limbs
  trimmed : Trimmed limbs

/- What a cut left over: its highest digit, and whether any digit below is nonzero. -/
structure Tail where
  digit : Nat
  restNonzero : Bool

namespace Tail

def againstHalf (t : Tail) : Ordering :=
  match compare t.digit 5 with
  | .eq => if t.restNonzero then .gt else .eq
  | other => other

def isZero (t : Tail) : Bool := t.digit == 0 && !t.restNonzero

end Tail

namespace Mag

def value (m : Mag) : Nat := Nat.ofDigits limb m.limbs

def zero : Mag := ⟨[],by simp [Proper],by simp [Trimmed]⟩

theorem digitsTrimmed (n : Nat) : Trimmed (Nat.digits limb n) := by
  intro last
  obtain ⟨front,is⟩ := List.getLast?_eq_some_iff.mp last
  have some : Nat.digits limb n ≠ [] := by simp [is]
  have nonzero := Nat.getLast_digit_ne_zero limb (Nat.digits_ne_nil_iff_ne_zero.mp some)
  simp [is] at nonzero

theorem digitsProper (n : Nat) : Proper limb (Nat.digits limb n) := fun _ member => Nat.digits_lt_base limbOne member

/- The loop that takes a limb off at a time. -/
def fromU128 (value : Nat) : Mag := ⟨Nat.digits limb value,digitsProper value,digitsTrimmed value⟩

def ofLimbs (limbs : List Nat) (proper : Proper limb limbs) : Mag := ⟨trim limbs,trimProper proper,trimTrimmed limbs⟩

def isZero (m : Mag) : Bool := m.limbs.isEmpty

def digits (m : Mag) : Nat :=
  match m.limbs.getLast? with
  | none => 0
  | some top => limbDigits * (m.limbs.length - 1) + Nat.log 10 top + 1

/- The value, if it fits a `u128`. -/
def toU128 (m : Mag) : Option Nat :=
  m.limbs.reverse.foldlM (fun acc l => do checked ((← checked (acc * limb)) + l)) 0

theorem fromU128Value (n : Nat) : (fromU128 n).value = n := Nat.ofDigits_digits limb n

theorem ofLimbsValue (limbs : List Nat) (proper : Proper limb limbs) :
    (ofLimbs limbs proper).value = Nat.ofDigits limb limbs := valueTrim limb limbs

theorem zeroValue : zero.value = 0 := rfl

theorem isZeroValue (m : Mag) : m.isZero = true ↔ m.value = 0 := by
  rw [isZero, List.isEmpty_iff]
  constructor
  · intro none
    rw [value, none]
    rfl
  · intro none
    by_contra some
    have least := valueLower limb m.trimmed some
    have : 0 < limb ^ (m.limbs.length - 1) := Nat.pow_pos limbPos
    rw [← value] at least
    omega

theorem digitsValue (m : Mag) : m.digits = Decimal.digits m.value := by
  unfold digits
  cases last : m.limbs.getLast? with
  | none =>
    have none : m.limbs = [] := List.getLast?_eq_none_iff.mp last
    rw [value, none]
    rfl
  | some top =>
    obtain ⟨front,is⟩ := List.getLast?_eq_some_iff.mp last
    have nonzero : top ≠ 0 := by
      rintro rfl
      exact m.trimmed last
    have proper := m.proper
    rw [is] at proper
    have front' := Nat.ofDigits_lt_base_pow_length limbOne (properAppend.mp proper).1
    have split : m.value = Nat.ofDigits limb front + limb ^ front.length * top := by
      rw [value, is, Nat.ofDigits_append]
      simp
    have power : limb ^ front.length = 10 ^ (limbDigits * front.length) := by rw [limbPow, pow_mul]
    have length : m.limbs.length - 1 = front.length := by simp [is]
    rw [power] at split front'
    simp only
    rw [length]
    have low := Nat.pow_log_le_self 10 nonzero
    have high := Nat.lt_pow_succ_log_self (b := 10) (by decide) top
    apply le_antisymm
    · apply ltDigits.mpr
      rw [split, pow_add]
      exact (Nat.mul_le_mul_left _ low).trans (Nat.le_add_left _ _)
    · rw [digitsLe, split, Nat.add_assoc, pow_add]
      calc Nat.ofDigits limb front + 10 ^ (limbDigits * front.length) * top
          < 10 ^ (limbDigits * front.length) + 10 ^ (limbDigits * front.length) * top := by omega
        _ = 10 ^ (limbDigits * front.length) * (top + 1) := by ring
        _ ≤ 10 ^ (limbDigits * front.length) * 10 ^ (Nat.log 10 top + 1) := Nat.mul_le_mul_left _ high

theorem checkedSome {n : Nat} (small : n < 2 ^ 128) : checked n = some n := if_pos small

theorem foldChecked {base : Nat} (pos : 0 < base) {limbs : List Nat} (bound : Nat.ofDigits base limbs < 2 ^ 128) :
    limbs.reverse.foldlM (fun acc l => do checked ((← checked (acc * base)) + l)) 0 = some (Nat.ofDigits base limbs) := by
  induction limbs with
  | nil => rfl
  | cons l limbs ih =>
    rw [Nat.ofDigits_cons] at bound ⊢
    have rest : Nat.ofDigits base limbs < 2 ^ 128 := by
      have := Nat.le_mul_of_pos_left (Nat.ofDigits base limbs) pos
      omega
    rw [List.reverse_cons, List.foldlM_append, ih rest]
    rw [Nat.add_comm, Nat.mul_comm] at bound ⊢
    simp only [Option.bind_eq_bind, Option.bind_some, List.foldlM_cons, List.foldlM_nil]
    generalize Nat.ofDigits base limbs * base = scaled at bound ⊢
    rw [checkedSome (show scaled < 2 ^ 128 by omega), Option.bind_some, checkedSome bound]
    rfl

theorem toU128Value {m : Mag} (small : m.value < 2 ^ 128) : m.toU128 = some m.value := foldChecked limbPos small

/-! Multiplying. -/

/- A pass over the limbs and the limbs of its carry, with nothing to trim. -/
theorem passSpec {base m : Nat} (one : 1 < base) (pos : 0 < m) {limbs : List Nat} (trimmed : Trimmed limbs) :
    let out := (mulAdd base m 0 limbs).1 ++ Nat.digits base (mulAdd base m 0 limbs).2
    Proper base out ∧ Trimmed out ∧ Nat.ofDigits base out = Nat.ofDigits base limbs * m := by
  have value : Nat.ofDigits base ((mulAdd base m 0 limbs).1 ++ Nat.digits base (mulAdd base m 0 limbs).2) =
      Nat.ofDigits base limbs * m := by
    rw [Nat.ofDigits_append, Nat.ofDigits_digits, mulAddLength, mulAddValue, Nat.add_zero]
  have proper : Proper base ((mulAdd base m 0 limbs).1 ++ Nat.digits base (mulAdd base m 0 limbs).2) :=
    properAppend.mpr ⟨mulAddProper (by omega) m 0 limbs,fun _ member => Nat.digits_lt_base one member⟩
  refine ⟨proper,?_,value⟩
  rcases Nat.eq_zero_or_pos (mulAdd base m 0 limbs).2 with none | carry
  · simp only [none, Nat.digits_zero, List.append_nil] at value proper ⊢
    rcases limbs with _ | ⟨l, limbs⟩
    · simp [mulAdd, Trimmed]
    · refine Big.trimmedOfValue one proper ?_
      rw [value, mulAddLength]
      exact (valueLower base trimmed (List.cons_ne_nil _ _)).trans (Nat.le_mul_of_pos_right _ pos)
  · intro last
    have some : Nat.digits base (mulAdd base m 0 limbs).2 ≠ [] := Nat.digits_ne_nil_iff_ne_zero.mpr (by omega)
    rw [List.getLast?_append_of_ne_nil _ some] at last
    obtain ⟨front,is⟩ := List.getLast?_eq_some_iff.mp last
    have nonzero := Nat.getLast_digit_ne_zero base (Nat.digits_ne_nil_iff_ne_zero.mp some)
    simp [is] at nonzero

def mulSmall (b : Mag) (m : Nat) : Mag :=
  if zero' : m = 0 then zero
  else
    let spec := passSpec limbOne (Nat.pos_of_ne_zero zero') b.trimmed
    ⟨(mulAdd limb m 0 b.limbs).1 ++ Nat.digits limb (mulAdd limb m 0 b.limbs).2,spec.1,spec.2.1⟩

theorem mulSmallValue (b : Mag) (m : Nat) : (b.mulSmall m).value = b.value * m := by
  unfold mulSmall
  split
  · rename_i none
    rw [none, zeroValue, Nat.mul_zero]
  · rename_i some
    exact (passSpec limbOne (Nat.pos_of_ne_zero some) b.trimmed).2.2

theorem rowsProper (short long : List Nat) :
    Proper limb (addRows limb long short (List.replicate (short.length + long.length) 0)) :=
  (addRowsSpec limbOne (properReplicateZero limbPos _) (by simp)).1

/- Schoolbook, the shorter operand outside. -/
def mul (a b : Mag) : Mag :=
  if a.isZero || b.isZero then zero
  else
    let (short,long) := if a.limbs.length ≤ b.limbs.length then (a,b) else (b,a)
    ofLimbs (addRows limb long.limbs short.limbs (List.replicate (short.limbs.length + long.limbs.length) 0))
      (rowsProper short.limbs long.limbs)

theorem rowsValue {base : Nat} (one : 1 < base) {short long : List Nat} (properS : Proper base short)
    (properL : Proper base long) :
    Nat.ofDigits base (addRows base long short (List.replicate (short.length + long.length) 0)) =
      Nat.ofDigits base short * Nat.ofDigits base long := by
  rw [(addRowsSpec one (properReplicateZero (by omega) _) (by simp)).2, Nat.ofDigits_replicate_zero, Nat.zero_add,
    List.length_replicate, pow_add]
  exact Nat.mod_eq_of_lt (Nat.mul_lt_mul'' (Nat.ofDigits_lt_base_pow_length one properS)
    (Nat.ofDigits_lt_base_pow_length one properL))

theorem mulValue (a b : Mag) : (a.mul b).value = a.value * b.value := by
  unfold mul
  split_ifs with none order
  · rcases Bool.or_eq_true_iff.mp none with none | none
    · rw [(isZeroValue a).mp none, Nat.zero_mul, zeroValue]
    · rw [(isZeroValue b).mp none, Nat.mul_zero, zeroValue]
  · rw [ofLimbsValue, rowsValue limbOne a.proper b.proper]
    rfl
  · rw [ofLimbsValue, rowsValue limbOne b.proper a.proper, Nat.mul_comm]
    rfl

theorem zerosTrimmed {limbs : List Nat} (trimmed : Trimmed limbs) (some : limbs ≠ []) (n : Nat) :
    Trimmed (List.replicate n 0 ++ limbs) := by
  rw [Trimmed, List.getLast?_append_of_ne_nil _ some]
  exact trimmed

theorem mulSmallSome {b : Mag} (some : b.isZero = false) {m : Nat} (pos : 0 < m) : (b.mulSmall m).limbs ≠ [] := by
  intro none
  have zero := (isZeroValue (b.mulSmall m)).mp (by rw [isZero, none]; rfl)
  rw [mulSmallValue] at zero
  have nonzero : b.value ≠ 0 := fun is => by rw [(isZeroValue b).mpr is] at some; cases some
  rcases Nat.mul_eq_zero.mp zero with h | h
  · exact nonzero h
  · omega

def mulPow10 (b : Mag) (k : Nat) : Mag :=
  if done : b.isZero = true ∨ k = 0 then b
  else
    let part := b.mulSmall (10 ^ (k % limbDigits))
    ⟨List.replicate (k / limbDigits) 0 ++ part.limbs,properAppend.mpr ⟨properReplicateZero limbPos _,part.proper⟩,
      zerosTrimmed part.trimmed (mulSmallSome (Bool.eq_false_of_not_eq_true fun is => done (Or.inl is)) (by positivity)) _⟩

theorem limbPowers (k : Nat) : limb ^ (k / limbDigits) * 10 ^ (k % limbDigits) = 10 ^ k := by
  rw [limbPow, ← pow_mul, ← pow_add, Nat.div_add_mod]

theorem mulPow10Value (b : Mag) (k : Nat) : (b.mulPow10 k).value = b.value * 10 ^ k := by
  unfold mulPow10
  split
  · rename_i done
    rcases done with none | rfl
    · rw [(isZeroValue b).mp none, Nat.zero_mul]
    · rw [pow_zero, Nat.mul_one]
  · have part := mulSmallValue b (10 ^ (k % limbDigits))
    rw [value] at part ⊢
    simp only
    rw [Nat.ofDigits_append, Nat.ofDigits_replicate_zero, List.length_replicate, Nat.zero_add, part, ← limbPowers k]
    ring

/-! Reading and cutting low digits. -/

/- The digit at a position, zero past the top. -/
def digitAt (m : Mag) (position : Nat) : Nat :=
  m.limbs.getD (position / limbDigits) 0 / 10 ^ (position % limbDigits) % 10

def nonzeroBelow (m : Mag) (position : Nat) : Bool :=
  (m.limbs.take (position / limbDigits)).any (· != 0) ||
    (0 < position % limbDigits && m.limbs.getD (position / limbDigits) 0 % 10 ^ (position % limbDigits) != 0)

theorem dropProper {base : Nat} {limbs : List Nat} (proper : Proper base limbs) (n : Nat) : Proper base (limbs.drop n) :=
  fun l member => proper l (List.mem_of_mem_drop member)

def splitDigits (m : Mag) (k : Nat) : Mag × Tail :=
  let tail : Tail := ⟨m.digitAt (k - 1),m.nonzeroBelow (k - 1)⟩
  let whole := k / limbDigits
  let part := k % limbDigits
  if m.limbs.length ≤ whole then (zero,tail)
  else
    let limbs := m.limbs.drop whole
    if 0 < part then
      (ofLimbs (divSmall limb (10 ^ part) limbs).1
        (divSmallProper (by positivity) (dropProper m.proper whole)),tail)
    else (ofLimbs limbs (dropProper m.proper whole),tail)

theorem digitAtValue (m : Mag) (position : Nat) : m.digitAt position = m.value / 10 ^ position % 10 := by
  rw [digitAt, limbAt m.proper, ← value]
  have small : position % limbDigits < limbDigits := Nat.mod_lt _ (by decide)
  obtain ⟨rest,split⟩ : ∃ rest, limbDigits = position % limbDigits + (rest + 1) := ⟨limbDigits - position % limbDigits - 1,by omega⟩
  have base : limb = 10 ^ (position % limbDigits) * (10 * 10 ^ rest) := by
    rw [limbPow]
    conv_lhs => rw [split]
    rw [pow_add, pow_succ']
  -- the limb is the value cut below it and above it; the digit is inside
  have inside (x : Nat) : x % limb / 10 ^ (position % limbDigits) % 10 = x / 10 ^ (position % limbDigits) % 10 := by
    rw [base, Nat.mod_mul_right_div_self, Nat.mod_mul_right_mod]
  rw [inside, Nat.div_div_eq_div_mul, limbPowers]

theorem takeZero {limbs : List Nat} {base : Nat} (proper : Proper base limbs) (one : 1 < base) (n : Nat) :
    (limbs.take n).any (· != 0) = true ↔ Nat.ofDigits base limbs % base ^ n ≠ 0 := by
  induction limbs generalizing n with
  | nil => simp
  | cons l limbs ih =>
    obtain ⟨hl,rest⟩ := properCons.mp proper
    cases n with
    | zero => simp [Nat.mod_one]
    | succ n =>
      rw [List.take_succ_cons, List.any_cons, Bool.or_eq_true, ih rest, Nat.ofDigits_cons, pow_succ', Nat.mod_mul,
        Nat.add_mul_mod_self_left, Nat.mod_eq_of_lt hl, Nat.add_mul_div_left _ _ (by omega), Nat.div_eq_of_lt hl,
        Nat.zero_add, bne_iff_ne]
      rw [ne_eq, ne_eq, ne_eq, Nat.add_eq_zero_iff, not_and_or, Nat.mul_eq_zero, not_or]
      constructor
      · rintro (h | h)
        · exact Or.inl h
        · exact Or.inr ⟨by omega,h⟩
      · rintro (h | ⟨_,h⟩)
        · exact Or.inl h
        · exact Or.inr h

theorem nonzeroBelowValue (m : Mag) (position : Nat) :
    m.nonzeroBelow position = true ↔ m.value % 10 ^ position ≠ 0 := by
  rw [nonzeroBelow, Bool.or_eq_true, takeZero m.proper limbOne, Bool.and_eq_true, limbAt m.proper, ← value,
    decide_eq_true_eq, bne_iff_ne]
  have small : position % limbDigits ≤ limbDigits := Nat.le_of_lt (Nat.mod_lt _ (by decide))
  have divides : 10 ^ (position % limbDigits) ∣ limb := by
    rw [limbPow]
    exact pow_dvd_pow 10 small
  rw [Nat.mod_mod_of_dvd _ divides, ← limbPowers position, Nat.mod_mul]
  generalize m.value / limb ^ (position / limbDigits) = high
  generalize m.value % limb ^ (position / limbDigits) = low
  have scale : 0 < limb ^ (position / limbDigits) := Nat.pow_pos limbPos
  rw [ne_eq, ne_eq, ne_eq, Nat.add_eq_zero_iff, not_and_or, Nat.mul_eq_zero, not_or]
  constructor
  · rintro (h | ⟨_,h⟩)
    · exact Or.inl h
    · exact Or.inr ⟨by omega,h⟩
  · rintro (h | ⟨_,h⟩)
    · exact Or.inl h
    · refine Or.inr ⟨Nat.pos_of_ne_zero fun none => h ?_,h⟩
      rw [none, pow_zero, Nat.mod_one]

theorem dropValue {limbs : List Nat} {base : Nat} (proper : Proper base limbs) (one : 1 < base) (n : Nat) :
    Nat.ofDigits base (limbs.drop n) = Nat.ofDigits base limbs / base ^ n := by
  induction limbs generalizing n with
  | nil => simp
  | cons l limbs ih =>
    obtain ⟨hl,rest⟩ := properCons.mp proper
    cases n with
    | zero => simp
    | succ n =>
      rw [List.drop_succ_cons, ih rest, Nat.ofDigits_cons, pow_succ', ← Nat.div_div_eq_div_mul,
        Nat.add_mul_div_left _ _ (by omega), Nat.div_eq_of_lt hl, Nat.zero_add]

theorem splitDigitsValue (m : Mag) (k : Nat) : (m.splitDigits k).1.value = m.value / 10 ^ k := by
  have cut : Nat.ofDigits limb (m.limbs.drop (k / limbDigits)) = m.value / limb ^ (k / limbDigits) :=
    dropValue m.proper limbOne _
  rw [← limbPowers k, ← Nat.div_div_eq_div_mul, ← cut]
  unfold splitDigits
  simp only
  split_ifs with past part
  · rw [zeroValue, List.drop_eq_nil_of_le past]
    simp
  · rw [ofLimbsValue, (divSmallQuotient limb (by positivity) _).1]
  · rw [ofLimbsValue, show k % limbDigits = 0 by omega, pow_zero, Nat.div_one]

theorem splitDigitsTail (m : Mag) (k : Nat) : (m.splitDigits k).2 = ⟨m.digitAt (k - 1),m.nonzeroBelow (k - 1)⟩ := by
  unfold splitDigits
  simp only
  split_ifs <;> rfl

/- The tail compares what was cut with half a unit, and tells whether it was zero. -/
theorem splitDigitsCut (m : Mag) {k : Nat} (pos : 0 < k) :
    (m.splitDigits k).2.againstHalf = compare (m.value % 10 ^ k) (5 * 10 ^ (k - 1)) ∧
      ((m.splitDigits k).2.isZero = true ↔ m.value % 10 ^ k = 0) := by
  have rest := nonzeroBelowValue m (k - 1)
  rw [splitDigitsTail, digitAtValue]
  obtain ⟨j,rfl⟩ : ∃ j, k = j + 1 := ⟨k - 1,by omega⟩
  rw [Nat.add_sub_cancel] at rest ⊢
  have split : m.value % 10 ^ (j + 1) = m.value % 10 ^ j + 10 ^ j * (m.value / 10 ^ j % 10) := by
    rw [pow_succ, Nat.mod_mul]
  have low : m.value % 10 ^ j < 10 ^ j := Nat.mod_lt _ (by positivity)
  rw [split]
  generalize m.value / 10 ^ j % 10 = digit at *
  generalize m.value % 10 ^ j = below at *
  generalize m.nonzeroBelow j = nonzero at *
  have power : 0 < 10 ^ j := by positivity
  generalize 10 ^ j = unit at *
  constructor
  · rcases lt_trichotomy digit 5 with less | rfl | more
    · have under : below + unit * digit < 5 * unit := by nlinarith
      rw [Tail.againstHalf, compare_lt_iff_lt.mpr less, compare_lt_iff_lt.mpr under]
    · rw [Tail.againstHalf, compare_eq_iff_eq.mpr rfl]
      cases nonzero with
      | true =>
        have : below ≠ 0 := rest.mp rfl
        rw [compare_gt_iff_gt.mpr (show below + unit * 5 > 5 * unit by omega)]
        rfl
      | false =>
        have : below = 0 := by
          by_contra some
          exact absurd (rest.mpr some) Bool.noConfusion
        rw [compare_eq_iff_eq.mpr (show below + unit * 5 = 5 * unit by omega)]
        rfl
    · have above : 5 * unit < below + unit * digit := by nlinarith
      rw [Tail.againstHalf, compare_gt_iff_gt.mpr more, compare_gt_iff_gt.mpr above]
  · rw [Tail.isZero, Bool.and_eq_true, beq_iff_eq, Bool.not_eq_true', Nat.add_eq_zero_iff, Nat.mul_eq_zero]
    constructor
    · rintro ⟨none,clear⟩
      refine ⟨?_,Or.inr none⟩
      by_contra some
      rw [rest.mpr some] at clear
      cases clear
    · rintro ⟨none,empty | clear⟩
      · omega
      · refine ⟨clear,?_⟩
        cases nonzero with
        | true => exact absurd none (rest.mp rfl)
        | false => rfl

/-! Trailing zeros, up to a cap. -/

def zerosOf (limb : Nat) : Nat :=
  if limb ≠ 0 ∧ limb % 10 = 0 then zerosOf (limb / 10) + 1 else 0
termination_by limb
decreasing_by omega

def zerosFrom (cap : Nat) : List Nat → Nat → Nat
  | [], zeros => zeros
  | l :: limbs, zeros =>
      if l = 0 then if cap ≤ zeros + limbDigits then zeros + limbDigits else zerosFrom cap limbs (zeros + limbDigits)
      else zeros + zerosOf l

def trailingZeros (m : Mag) (cap : Nat) : Nat := min (zerosFrom cap m.limbs 0) cap

theorem zerosOfSpec {n : Nat} (pos : 0 < n) : 10 ^ zerosOf n ∣ n ∧ ¬ 10 ^ (zerosOf n + 1) ∣ n := by
  induction n using Nat.strong_induction_on with
  | _ n ih =>
    rw [zerosOf]
    split_ifs with more
    · obtain ⟨divides,stops⟩ := ih (n / 10) (by omega) (by omega)
      have ten : n = 10 * (n / 10) := by omega
      rw [ten, pow_succ', pow_succ', Nat.mul_dvd_mul_iff_left (by decide), Nat.mul_dvd_mul_iff_left (by decide)]
      rw [← ten]
      exact ⟨divides,stops⟩
    · refine ⟨by simp,fun divides => more ⟨by omega,?_⟩⟩
      simpa [Nat.dvd_iff_mod_eq_zero] using divides

/- The limbs still to read are worth `rest`, and everything below them is zero. -/
theorem zerosFromSpec {cap : Nat} {limbs : List Nat} (proper : Proper limb limbs) (pos : 0 < Nat.ofDigits limb limbs)
    (zeros : Nat) : ∃ z, zerosFrom cap limbs zeros = zeros + z ∧ 10 ^ z ∣ Nat.ofDigits limb limbs ∧
      (zeros + z < cap → ¬ 10 ^ (z + 1) ∣ Nat.ofDigits limb limbs) := by
  induction limbs generalizing zeros with
  | nil => simp at pos
  | cons l limbs ih =>
    obtain ⟨hl,rest⟩ := properCons.mp proper
    rw [Nat.ofDigits_cons] at pos ⊢
    rw [zerosFrom]
    split_ifs with none enough
    · subst none
      refine ⟨limbDigits,rfl,?_,fun less => by omega⟩
      rw [Nat.zero_add, ← limbPow]
      exact Dvd.intro _ rfl
    · subst none
      rw [Nat.zero_add] at pos ⊢
      obtain ⟨z,is,divides,stops⟩ := ih rest (Nat.pos_of_mul_pos_left pos) (zeros + limbDigits)
      refine ⟨limbDigits + z,by rw [is, Nat.add_assoc],?_,fun less => ?_⟩
      · rw [pow_add, ← limbPow]
        exact Nat.mul_dvd_mul_left _ divides
      · rw [Nat.add_assoc, pow_add, ← limbPow, Nat.mul_dvd_mul_iff_left limbPos]
        exact stops (by omega)
    · obtain ⟨divides,stops⟩ := zerosOfSpec (Nat.pos_of_ne_zero none)
      -- a nonzero limb decides: the limbs above it are multiples of a larger power
      have within : zerosOf l < limbDigits := by
        by_contra long
        have : limb ∣ l := by
          rw [limbPow]
          exact (pow_dvd_pow 10 (by omega)).trans divides
        exact absurd (Nat.le_of_dvd (Nat.pos_of_ne_zero none) this) (by omega)
      have above {n : Nat} (le : n ≤ limbDigits) : 10 ^ n ∣ limb * Nat.ofDigits limb limbs := by
        rw [limbPow]
        exact (pow_dvd_pow 10 le).mul_right _
      refine ⟨zerosOf l,rfl,(Nat.dvd_add_right divides).mpr (above within.le),fun _ bad => stops ?_⟩
      exact (Nat.dvd_add_left (above within)).mp bad

theorem trailingZerosSpec {m : Mag} (pos : 0 < m.value) (cap : Nat) : m.trailingZeros cap ≤ cap ∧
    10 ^ m.trailingZeros cap ∣ m.value ∧ (m.trailingZeros cap < cap → ¬ 10 ^ (m.trailingZeros cap + 1) ∣ m.value) := by
  obtain ⟨z,is,divides,stops⟩ := @zerosFromSpec cap m.limbs m.proper pos 0
  rw [Nat.zero_add] at is stops
  refine ⟨min_le_right _ _,?_,fun less => ?_⟩
  · rw [trailingZeros, is]
    exact (pow_dvd_pow 10 (min_le_left _ _)).trans divides
  · rw [trailingZeros, is] at less ⊢
    rw [min_eq_left (by omega)]
    exact stops (by omega)

/- The same value in base 2^64. -/
def toBig (m : Mag) : Big := m.limbs.foldr (fun l big => big.mulAddSmall limb l) (Big.fromU128 0)

theorem toBigValue (m : Mag) : m.toBig.value = m.value := by
  have word' : limb < word := by decide
  have general {limbs : List Nat} (proper : Proper limb limbs) :
      (limbs.foldr (fun l (big : Big) => big.mulAddSmall limb l) (Big.fromU128 0)).value = Nat.ofDigits limb limbs := by
    induction limbs with
    | nil => rfl
    | cons l limbs ih =>
      obtain ⟨hl,rest⟩ := properCons.mp proper
      rw [List.foldr_cons, Big.mulAddSmallValue _ word' (by omega), ih rest, Nat.ofDigits_cons]
      ring
  exact general m.proper

end Mag
end Kimmy.Decimal.Arith
