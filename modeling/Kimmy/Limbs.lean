import Mathlib.Data.Nat.Digits.Lemmas
import Mathlib.Data.Nat.Log
import Mathlib.Order.Compare
import Mathlib.Tactic.Ring
import Mathlib.Tactic.Linarith
import Mathlib.Tactic.LinearCombination

/-!
Naturals as little-endian limbs in a base, read with `Nat.ofDigits`. The loops are the
schoolbook ones: each keeps a carry or a remainder, and its lemma says what the whole
pass did to the value. Nothing here fixes the base.
-/
namespace Kimmy.Limbs

def Proper (base : Nat) (limbs : List Nat) : Prop := ∀ l ∈ limbs, l < base

theorem properCons {base l limbs} : Proper base (l :: limbs) ↔ l < base ∧ Proper base limbs := by
  simp [Proper]

theorem properAppend {base xs ys} :
    Proper base (xs ++ ys) ↔ Proper base xs ∧ Proper base ys := by
  simp only [Proper, List.mem_append]
  exact ⟨fun h => ⟨fun l m => h l (.inl m), fun l m => h l (.inr m)⟩,
    fun h l m => m.elim (h.1 l) (h.2 l)⟩

theorem properReplicateZero {base : Nat} (pos : 0 < base) (n : Nat) :
    Proper base (List.replicate n 0) := fun l m => by
  rw [(List.mem_replicate.mp m).2]; exact pos

/-! Dropping the zero limbs at the top. -/

def trim : List Nat → List Nat
  | [] => []
  | l :: limbs => match trim limbs with
    | [] => if l = 0 then [] else [l]
    | top :: more => l :: top :: more

attribute [local simp] trim

def Trimmed (limbs : List Nat) : Prop := limbs.getLast? ≠ some 0

theorem valueTrim (base : Nat) (limbs : List Nat) :
    Nat.ofDigits base (trim limbs) = Nat.ofDigits base limbs := by
  induction limbs with
  | nil => rfl
  | cons l limbs ih =>
    rw [Nat.ofDigits_cons, ← ih, trim]
    cases trim limbs with
    | nil => by_cases h : l = 0 <;> simp [h]
    | cons top more => rw [Nat.ofDigits_cons]

theorem trimTrimmed (limbs : List Nat) : Trimmed (trim limbs) := by
  induction limbs with
  | nil => simp [Trimmed]
  | cons l limbs ih =>
    rw [trim]
    cases h : trim limbs with
    | nil =>
      by_cases zero : l = 0
      · simp [zero, Trimmed]
      · simp [zero, Trimmed]
    | cons top more =>
      rw [h] at ih
      simpa [Trimmed, List.getLast?_cons_cons] using ih

theorem trimProper {base limbs} (proper : Proper base limbs) : Proper base (trim limbs) := by
  induction limbs with
  | nil => exact proper
  | cons l limbs ih =>
    obtain ⟨hl,rest⟩ := properCons.mp proper
    have tail := ih rest
    rw [trim]
    cases h : trim limbs with
    | nil =>
      by_cases zero : l = 0
      · simp [zero, Proper]
      · simpa [zero, Proper] using hl
    | cons top more =>
      rw [h] at tail
      exact properCons.mpr ⟨hl,tail⟩

/- A nonzero top limb carries the value to the last power of the base. -/
theorem valueLower (base : Nat) {limbs} (trimmed : Trimmed limbs) (nonempty : limbs ≠ []) :
    base ^ (limbs.length - 1) ≤ Nat.ofDigits base limbs := by
  induction limbs with
  | nil => contradiction
  | cons l limbs ih =>
    rw [Nat.ofDigits_cons]
    cases limbs with
    | nil =>
      have : l ≠ 0 := by simpa [Trimmed] using trimmed
      simp
      omega
    | cons top more =>
      have tail := ih (by simpa [Trimmed, List.getLast?_cons_cons] using trimmed) (by simp)
      simp only [List.length_cons, Nat.add_sub_cancel] at tail ⊢
      calc base ^ (more.length + 1) = base * base ^ more.length := by ring
        _ ≤ base * Nat.ofDigits base (top :: more) := Nat.mul_le_mul_left _ tail
        _ ≤ _ := Nat.le_add_left _ _

/-! One limb of the value, and a window of them. -/

theorem limbAt {base limbs} (proper : Proper base limbs) (i : Nat) :
    limbs.getD i 0 = Nat.ofDigits base limbs / base ^ i % base := by
  induction limbs generalizing i with
  | nil => simp
  | cons l limbs ih =>
    obtain ⟨hl,rest⟩ := properCons.mp proper
    have pos : 0 < base := by omega
    rw [Nat.ofDigits_cons]
    cases i with
    | zero => simp [Nat.mod_eq_of_lt hl]
    | succ i =>
      rw [List.getD_cons_succ, ih rest i, pow_succ', ← Nat.div_div_eq_div_mul,
        Nat.add_mul_div_left _ _ pos, Nat.div_eq_of_lt hl, Nat.zero_add]

theorem valueDigits (base n y : Nat) :
    Nat.ofDigits base ((List.range n).map (fun i => y / base ^ i % base)) = y % base ^ n := by
  induction n generalizing y with
  | zero => simp [Nat.mod_one]
  | succ n ih =>
    rw [List.range_succ_eq_map, List.map_cons, List.map_map, Nat.ofDigits_cons]
    have step : (fun i => y / base ^ i % base) ∘ Nat.succ = fun i => y / base / base ^ i % base := by
      funext i
      simp only [Function.comp_apply, Nat.succ_eq_add_one]
      rw [pow_succ', Nat.div_div_eq_div_mul]
    rw [step, ih, pow_zero, Nat.div_one, pow_succ', Nat.mod_mul]

/-! Multiplying by one limb, with a carry in and a carry out. -/

def mulAdd (base m : Nat) : Nat → List Nat → List Nat × Nat
  | carry, [] => ([],carry)
  | carry, l :: limbs =>
      let t := l * m + carry
      let rest := mulAdd base m (t / base) limbs
      (t % base :: rest.1,rest.2)

attribute [local simp] mulAdd

theorem mulAddLength (base m carry : Nat) (limbs : List Nat) :
    (mulAdd base m carry limbs).1.length = limbs.length := by
  induction limbs generalizing carry with
  | nil => rfl
  | cons l limbs ih => simp [ih]

theorem mulAddValue (base m carry : Nat) (limbs : List Nat) :
    Nat.ofDigits base (mulAdd base m carry limbs).1 +
      base ^ limbs.length * (mulAdd base m carry limbs).2 = Nat.ofDigits base limbs * m + carry := by
  induction limbs generalizing carry with
  | nil => simp
  | cons l limbs ih =>
    have tail := ih ((l * m + carry) / base)
    have split := Nat.mod_add_div (l * m + carry) base
    simp only [mulAdd, Nat.ofDigits_cons, List.length_cons, pow_succ']
    calc _ = (l * m + carry) % base + base * (Nat.ofDigits base (mulAdd base m ((l * m + carry) / base) limbs).1 +
          base ^ limbs.length * (mulAdd base m ((l * m + carry) / base) limbs).2) := by ring
      _ = (l * m + carry) % base + base * ((l * m + carry) / base) + base * Nat.ofDigits base limbs * m := by
          rw [tail]; ring
      _ = _ := by rw [split]; ring

theorem mulAddProper {base : Nat} (pos : 0 < base) (m carry : Nat) (limbs : List Nat) :
    Proper base (mulAdd base m carry limbs).1 := by
  induction limbs generalizing carry with
  | nil => simp [Proper]
  | cons l limbs ih => exact properCons.mpr ⟨Nat.mod_lt _ pos,ih _⟩

theorem mulAddCarry {base m carry bound limbs} (proper : Proper base limbs)
    (hm : m ≤ bound) (hc : carry ≤ bound) : (mulAdd base m carry limbs).2 ≤ bound := by
  induction limbs generalizing carry with
  | nil => exact hc
  | cons l limbs ih =>
    obtain ⟨hl,rest⟩ := properCons.mp proper
    refine ih rest (Nat.div_le_of_le_mul ?_)
    calc l * m + carry ≤ l * bound + bound := Nat.add_le_add (Nat.mul_le_mul_left _ hm) hc
      _ = (l + 1) * bound := by ring
      _ ≤ base * bound := Nat.mul_le_mul_right _ hl

/-! One row of a product, added to what is there; its carry overwrites the limb after it. -/

def mulRow (base a : Nat) : Nat → List Nat → List Nat → List Nat
  | carry, b :: t, p :: product =>
      let current := a * b + p + carry
      current % base :: mulRow base a (current / base) t product
  | carry, [], _ :: product => carry % base :: product
  | _, _, [] => []

attribute [local simp] mulRow

theorem mulRowSpec {base a carry t p} (z : Nat) (rest : List Nat) (ha : a < base) (hc : carry < base)
    (ht : Proper base t) (hp : Proper base p) (length : p.length = t.length) :
    ∃ row, mulRow base a carry t (p ++ z :: rest) = row ++ rest ∧ row.length = t.length + 1 ∧
      Proper base row ∧ Nat.ofDigits base row = Nat.ofDigits base p + a * Nat.ofDigits base t + carry := by
  induction t generalizing p carry with
  | nil =>
    obtain rfl := List.eq_nil_of_length_eq_zero length
    exact ⟨[carry % base],rfl,rfl,by simpa [Proper] using Nat.mod_lt _ (by omega),
      by simp [Nat.mod_eq_of_lt hc]⟩
  | cons b t ih =>
    cases p with
    | nil => simp at length
    | cons q p =>
      obtain ⟨hb,restT⟩ := properCons.mp ht
      obtain ⟨hq,restP⟩ := properCons.mp hp
      have next : (a * b + q + carry) / base < base := by
        refine Nat.div_lt_of_lt_mul ?_
        have := Nat.mul_le_mul (Nat.le_sub_one_of_lt ha) (Nat.le_sub_one_of_lt hb)
        obtain ⟨n,rfl⟩ : ∃ n, base = n + 1 := ⟨base - 1,by omega⟩
        simp only [Nat.add_sub_cancel] at this
        nlinarith
      obtain ⟨row,same,long,proper,value⟩ := ih next restT restP
        (by simpa using length)
      refine ⟨(a * b + q + carry) % base :: row,?_,by simp [long],
        properCons.mpr ⟨Nat.mod_lt _ (by omega),proper⟩,?_⟩
      · simp only [List.cons_append, mulRow]
        rw [same]
      · have split := Nat.mod_add_div (a * b + q + carry) base
        simp only [Nat.ofDigits_cons, value]
        linear_combination split

/-! Adding a number that may be wider than a limb, modulo the length. -/

def addCarry (base : Nat) : Nat → List Nat → List Nat
  | _, [] => []
  | carry, l :: limbs =>
      if carry = 0 then l :: limbs
      else
        let sum := l + carry % base
        sum % base :: addCarry base (carry / base + sum / base) limbs

attribute [local simp] addCarry

theorem addCarryProper {base carry limbs} (pos : 0 < base) (proper : Proper base limbs) :
    Proper base (addCarry base carry limbs) := by
  induction limbs generalizing carry with
  | nil => exact proper
  | cons l limbs ih =>
    rw [addCarry]
    split
    · exact proper
    · exact properCons.mpr ⟨Nat.mod_lt _ pos,ih (properCons.mp proper).2⟩

theorem addCarryValue {base carry limbs} (one : 1 < base) (proper : Proper base limbs) :
    Nat.ofDigits base (addCarry base carry limbs) =
      (Nat.ofDigits base limbs + carry) % base ^ limbs.length := by
  induction limbs generalizing carry with
  | nil => simp [Nat.mod_one]
  | cons l limbs ih =>
    obtain ⟨_,rest⟩ := properCons.mp proper
    rw [addCarry]
    split
    · rename_i zero
      rw [zero, Nat.add_zero, Nat.mod_eq_of_lt (Nat.ofDigits_lt_base_pow_length one proper)]
    · have low : (l + carry % base) % base = (l + carry) % base := Nat.add_mod_mod _ _ _
      have high : carry / base + (l + carry % base) / base = (l + carry) / base := by
        conv_rhs => rw [← Nat.mod_add_div carry base, ← Nat.add_assoc,
          Nat.add_mul_div_left _ _ (by omega)]
        exact Nat.add_comm _ _
      have regroup : l + base * Nat.ofDigits base limbs + carry =
          (l + carry) + base * Nat.ofDigits base limbs := by ring
      simp only [Nat.ofDigits_cons, ih rest, low, high, List.length_cons, pow_succ']
      rw [regroup, Nat.mod_mul, Nat.add_mul_mod_self_left, Nat.add_mul_div_left _ _ (by omega),
        Nat.add_comm (Nat.ofDigits base limbs)]

/-! Dividing by one limb, from the top down. -/

def divSmall (base d : Nat) : List Nat → List Nat × Nat
  | [] => ([],0)
  | l :: limbs =>
      let rest := divSmall base d limbs
      let current := rest.2 * base + l
      (current / d :: rest.1,current % d)

attribute [local simp] divSmall

theorem divSmallLength (base d : Nat) (limbs : List Nat) :
    (divSmall base d limbs).1.length = limbs.length := by
  induction limbs with
  | nil => rfl
  | cons l limbs ih => simp [ih]

theorem divSmallValue (base : Nat) {d : Nat} (pos : 0 < d) (limbs : List Nat) :
    Nat.ofDigits base limbs = d * Nat.ofDigits base (divSmall base d limbs).1 +
      (divSmall base d limbs).2 ∧ (divSmall base d limbs).2 < d := by
  induction limbs with
  | nil => exact ⟨by simp,pos⟩
  | cons l limbs ih =>
    obtain ⟨value,_⟩ := ih
    refine ⟨?_,Nat.mod_lt _ pos⟩
    have split := Nat.div_add_mod ((divSmall base d limbs).2 * base + l) d
    simp only [divSmall, Nat.ofDigits_cons]
    calc l + base * Nat.ofDigits base limbs
        = base * (d * Nat.ofDigits base (divSmall base d limbs).1) +
            ((divSmall base d limbs).2 * base + l) := by rw [value]; ring
      _ = base * (d * Nat.ofDigits base (divSmall base d limbs).1) +
            (d * (((divSmall base d limbs).2 * base + l) / d) +
              ((divSmall base d limbs).2 * base + l) % d) := by rw [split]
      _ = _ := by ring

theorem divSmallQuotient (base : Nat) {d : Nat} (pos : 0 < d) (limbs : List Nat) :
    Nat.ofDigits base (divSmall base d limbs).1 = Nat.ofDigits base limbs / d ∧
      (divSmall base d limbs).2 = Nat.ofDigits base limbs % d := by
  obtain ⟨value,small⟩ := divSmallValue base pos limbs
  constructor
  · rw [value, Nat.mul_add_div pos, Nat.div_eq_of_lt small, Nat.add_zero]
  · rw [value, Nat.mul_add_mod, Nat.mod_eq_of_lt small]

theorem divSmallProper {base d limbs} (pos : 0 < d) (proper : Proper base limbs) :
    Proper base (divSmall base d limbs).1 := by
  induction limbs with
  | nil => exact proper
  | cons l limbs ih =>
    obtain ⟨hl,rest⟩ := properCons.mp proper
    have small := (divSmallValue base pos limbs).2
    refine properCons.mpr ⟨Nat.div_lt_of_lt_mul ?_,ih rest⟩
    calc (divSmall base d limbs).2 * base + l < (divSmall base d limbs).2 * base + base := by omega
      _ = ((divSmall base d limbs).2 + 1) * base := by ring
      _ ≤ d * base := Nat.mul_le_mul_right _ small

/-! A schoolbook product: each row is added where it belongs, its carry running on. -/

def addRow (base a : Nat) : Nat → List Nat → List Nat → List Nat
  | carry, b :: t, p :: product =>
      let current := a * b + p + carry
      current % base :: addRow base a (current / base) t product
  | carry, [], product => addCarry base carry product
  | _, _ :: _, [] => []

attribute [local simp] addRow

theorem addCarryLength (base carry : Nat) (limbs : List Nat) : (addCarry base carry limbs).length = limbs.length := by
  induction limbs generalizing carry with
  | nil => rfl
  | cons l limbs ih =>
    rw [addCarry]
    split
    · rfl
    · simp [ih]

theorem addRowSpec {base a carry t product} (one : 1 < base) (proper : Proper base product)
    (room : t.length ≤ product.length) :
    Proper base (addRow base a carry t product) ∧ (addRow base a carry t product).length = product.length ∧
      Nat.ofDigits base (addRow base a carry t product) =
        (Nat.ofDigits base product + a * Nat.ofDigits base t + carry) % base ^ product.length := by
  induction t generalizing carry product with
  | nil =>
    have none : addRow base a carry [] product = addCarry base carry product := by
      cases product <;> rfl
    rw [none]
    refine ⟨addCarryProper (by omega) proper,addCarryLength base carry product,?_⟩
    rw [addCarryValue one proper]
    simp
  | cons b t ih =>
    cases product with
    | nil => simp at room
    | cons p product =>
      obtain ⟨hp,rest⟩ := properCons.mp proper
      obtain ⟨below,length,value⟩ := @ih ((a * b + p + carry) / base) product rest (by simpa using room)
      refine ⟨properCons.mpr ⟨Nat.mod_lt _ (by omega),below⟩,by simp [length],?_⟩
      have regroup : p + base * Nat.ofDigits base product + a * (b + base * Nat.ofDigits base t) + carry =
          (a * b + p + carry) + base * (Nat.ofDigits base product + a * Nat.ofDigits base t) := by ring
      simp only [addRow, Nat.ofDigits_cons, value, List.length_cons, pow_succ']
      rw [regroup, Nat.mod_mul, Nat.add_mul_mod_self_left, Nat.add_mul_div_left _ _ (by omega),
        Nat.add_comm ((a * b + p + carry) / base)]

def addRows (base : Nat) (long : List Nat) : List Nat → List Nat → List Nat
  | a :: short, out => match addRow base a 0 long out with
      | low :: rest => low :: addRows base long short rest
      | [] => []
  | [], out => out

attribute [local simp] addRows

theorem addRowsSpec {base long short out} (one : 1 < base) (proper : Proper base out)
    (room : short.length + long.length ≤ out.length) :
    Proper base (addRows base long short out) ∧
      Nat.ofDigits base (addRows base long short out) =
        (Nat.ofDigits base out + Nat.ofDigits base short * Nat.ofDigits base long) % base ^ out.length := by
  induction short generalizing out with
  | nil =>
    refine ⟨proper,?_⟩
    simp only [addRows, Nat.ofDigits_nil, Nat.zero_mul, Nat.add_zero]
    exact (Nat.mod_eq_of_lt (Nat.ofDigits_lt_base_pow_length one proper)).symm
  | cons a short ih =>
    obtain ⟨below,length,value⟩ := @addRowSpec base a 0 long out one proper (by simp at room; omega)
    simp only [List.length_cons] at room
    rw [addRows]
    cases row : addRow base a 0 long out with
    | nil =>
      rw [row] at length
      simp at length
      omega
    | cons low rest =>
      rw [row] at below length value
      obtain ⟨hl,tail⟩ := properCons.mp below
      have total : out.length = rest.length + 1 := by rw [← length, List.length_cons]
      obtain ⟨properRest,valueRest⟩ := ih tail (by omega)
      refine ⟨properCons.mpr ⟨hl,properRest⟩,?_⟩
      have split : Nat.ofDigits base (low :: rest) + base * (Nat.ofDigits base short * Nat.ofDigits base long) =
          low + base * (Nat.ofDigits base rest + Nat.ofDigits base short * Nat.ofDigits base long) := by
        rw [Nat.ofDigits_cons]
        ring
      have regroup : Nat.ofDigits base out + Nat.ofDigits base (a :: short) * Nat.ofDigits base long =
          Nat.ofDigits base out + a * Nat.ofDigits base long + 0 +
            base * (Nat.ofDigits base short * Nat.ofDigits base long) := by
        rw [Nat.ofDigits_cons]
        ring
      rw [regroup, ← Nat.mod_add_mod, ← value, split, total, pow_succ', Nat.mod_mul, Nat.add_mul_mod_self_left,
        Nat.mod_eq_of_lt hl, Nat.add_mul_div_left _ _ (by omega), Nat.div_eq_of_lt hl, Nat.zero_add]
      show Nat.ofDigits base (low :: addRows base long short rest) = _
      rw [Nat.ofDigits_cons, valueRest]

/-! Comparing: the longer number is the larger, then the limbs from the top. -/

def compareLimbs (a b : List Nat) : Ordering :=
  (compare a.length b.length).then (compare a.reverse b.reverse)

theorem compareAppendLast (u v : List Nat) (same : u.length = v.length) (a b : Nat) :
    compare (u ++ [a]) (v ++ [b]) = (compare u v).then (compare a b) := by
  induction u generalizing v with
  | nil =>
    cases v with
    | nil => simp [List.compare_cons_cons]
    | cons y v => simp at same
  | cons x u ih =>
    cases v with
    | nil => simp at same
    | cons y v =>
      simp only [List.cons_append, List.compare_cons_cons]
      rw [ih v (by simpa using same), Ordering.then_assoc]

theorem compareSameLength {base a b} (pa : Proper base a) (pb : Proper base b)
    (same : a.length = b.length) :
    compare a.reverse b.reverse = compare (Nat.ofDigits base a) (Nat.ofDigits base b) := by
  induction a generalizing b with
  | nil =>
    have : b = [] := List.eq_nil_of_length_eq_zero same.symm
    subst b
    simp
  | cons x a ih =>
    cases b with
    | nil => simp at same
    | cons y b =>
      obtain ⟨hx,ra⟩ := properCons.mp pa
      obtain ⟨hy,rb⟩ := properCons.mp pb
      have lengths : a.length = b.length := by simpa using same
      rw [List.reverse_cons, List.reverse_cons, compareAppendLast _ _ (by simpa using lengths),
        ih ra rb lengths, Nat.ofDigits_cons, Nat.ofDigits_cons]
      rcases lt_trichotomy (Nat.ofDigits base a) (Nat.ofDigits base b) with lt | eq | gt
      · rw [compare_lt_iff_lt.mpr lt, Ordering.lt_then, eq_comm, compare_lt_iff_lt]
        have := Nat.mul_le_mul_left base (Nat.succ_le_of_lt lt)
        simp only [Nat.succ_eq_add_one, mul_add, mul_one] at this ⊢
        omega
      · rw [compare_eq_iff_eq.mpr eq, Ordering.eq_then, eq]
        simp only [compare, compareOfLessAndEq, Nat.add_lt_add_iff_right,
          Nat.add_right_cancel_iff]
      · rw [compare_gt_iff_gt.mpr gt, Ordering.gt_then, eq_comm, compare_gt_iff_gt]
        have := Nat.mul_le_mul_left base (Nat.succ_le_of_lt gt)
        simp only [Nat.succ_eq_add_one, mul_add, mul_one] at this ⊢
        omega

theorem lengthLe {base a b} (pb : Proper base b) (ta : Trimmed a) (one : 1 < base)
    (le : Nat.ofDigits base a ≤ Nat.ofDigits base b) : a.length ≤ b.length := by
  by_contra longer
  have nonempty : a ≠ [] := by rintro rfl; simp at longer
  have low := valueLower base ta nonempty
  have high := Nat.ofDigits_lt_base_pow_length one pb
  have := Nat.pow_le_pow_right (by omega : 0 < base) (by omega : b.length ≤ a.length - 1)
  omega

theorem compareLimbsValue {base a b} (one : 1 < base) (pa : Proper base a) (pb : Proper base b)
    (ta : Trimmed a) (tb : Trimmed b) :
    compareLimbs a b = compare (Nat.ofDigits base a) (Nat.ofDigits base b) := by
  unfold compareLimbs
  rcases lt_trichotomy a.length b.length with lt | eq | gt
  · have less : Nat.ofDigits base a < Nat.ofDigits base b :=
      lt_of_not_ge fun ge => absurd (lengthLe pa tb one ge) (by omega)
    rw [compare_lt_iff_lt.mpr lt, compare_lt_iff_lt.mpr less]
    rfl
  · rw [compare_eq_iff_eq.mpr eq, Ordering.eq_then, compareSameLength pa pb eq]
  · have less : Nat.ofDigits base b < Nat.ofDigits base a :=
      lt_of_not_ge fun ge => absurd (lengthLe pb ta one ge) (by omega)
    rw [compare_gt_iff_gt.mpr gt, compare_gt_iff_gt.mpr less]
    rfl

end Kimmy.Limbs
