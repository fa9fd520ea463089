import Kimmy.ExactSum

/-!
The decimal operations (`add`, `sub`, `mul`, `div`, `rem` of `decimal/arith.rs`): each is exact
and then rounded once. A zero divisor is the one refusal.
-/
namespace Kimmy.Decimal

namespace Raw

def isZero : Raw → Bool
  | .finite _ c _ => c == 0
  | _ => false

def negated : Raw → Raw
  | .nan => .nan
  | .inf negative => .inf !negative
  | .finite negative c e => .finite (!negative) c e

def isNegative : Raw → Bool
  | .nan => false
  | .inf negative => negative
  | .finite negative _ _ => negative

end Raw

namespace Arith

inductive DivisionByZero where
  | divisionByZero

def add (a b : Raw) : Option Raw := ((ExactSum.new.add a).add b).finishSum

def sub (a b : Raw) : Option Raw := add a b.negated

def mul (a b : Raw) : Option Raw :=
  match a, b with
  | .nan, _ | _, .nan => some .nan
  | .inf _, other | other, .inf _ =>
      if other.isZero then some .nan else some (.inf (a.isNegative != b.isNegative))
  | .finite s c1 e1, .finite t c2 e2 =>
      round (s != t) ((Mag.fromU128 c1).mul (.fromU128 c2)) (e1 + e2) false (e1 + e2)

def div (a b : Raw) : Option (Except DivisionByZero Raw) :=
  if b.isZero then some (.error .divisionByZero)
  else
    match a, b with
    | .finite s c1 e1, .finite t c2 e2 => (divide (s != t) (.fromU128 c1) e1 c2 e2).map .ok
    | .nan, _ | _, .nan => some (.ok .nan)
    | .inf _, .inf _ => some (.ok .nan)
    | .inf s, .finite t _ _ => some (.ok (.inf (s != t)))
    | .finite s _ _, .inf t => some (.ok (finite (s != t) 0 minExponent))

/- `r · 10 ^ n mod cy`, a factor of ten at a time; a zero stops it. -/
def remLoop (cy : Nat) : Nat → Nat → Nat
  | 0, r => r
  | n + 1, r => if r = 0 then r else remLoop cy n (r * 10 % cy)

def rem (a b : Raw) : Except DivisionByZero Raw :=
  if b.isZero then .error .divisionByZero
  else
    match a, b with
    | .finite negative cx ex, .finite _ cy ey =>
        let remainder :=
          if ey ≤ ex then remLoop cy (ex - ey).toNat (cx % cy)
          else
            match (do checked (cy * (← checked (10 ^ (ey - ex).toNat)))) with
            | some m => cx % m
            | none => cx
        .ok (.finite negative remainder (min ex ey))
    | .finite .., .inf _ => .ok a
    | _, _ => .ok .nan

/-! The operands are decoded words, and every answer is packed again. -/

theorem decodeStored (word : Decimal128) : Stored (decodeRaw word) := by
  rw [decodeRaw, decodeRawBits]
  simp only
  have limits : minExponent ≤ maxExponent := by decide
  have clamped (biased : Int) : minExponent ≤ clampExponent biased ∧ clampExponent biased ≤ maxExponent := by
    unfold clampExponent
    omega
  split_ifs with top infinite nan range
  · trivial
  · trivial
  · exact ⟨Nat.zero_le _,clamped _⟩
  · exact ⟨Nat.zero_le _,clamped _⟩
  · have := biasedBound top
    unfold Stored Fits minExponent maxExponent exponentBias
    omega

def termOf (word : Decimal128) : Term := ⟨decodeRaw word,decodeStored word⟩

theorem packStored {r : Raw} (stored : Stored r) : ∃ word, packRaw r = some word ∧ decodeRaw word = r := by
  cases r with
  | nan => exact ⟨_,rfl,by decide⟩
  | inf negative => exact ⟨_,rfl,by cases negative <;> decide⟩
  | finite negative c e => exact ⟨_,if_pos stored,decodeRawPack negative stored⟩

theorem roundedStored {negative : Bool} {x : ℚ} {pref : Int} {r : Raw} (rounded : Rounded negative x pref r) : Stored r := by
  cases rounded with
  | exact closest => exact closest.fits
  | inexact _ _ _ fits => exact fits
  | overflow => trivial

/-! Each operation on finite operands. -/

theorem pairTotal (a b : Term) : total {a,b} = a.value + b.value := by
  simp [total]

theorem addHeld (a b : Term) : Held {a,b} ((ExactSum.new.add a.raw).add b.raw) := by
  have both := heldAdd (heldAdd heldNew a) b
  rwa [Multiset.cons_swap] at both

theorem magnitudeZero {c : Nat} {e : Int} : magnitude c e = 0 ↔ c = 0 := by
  rw [magnitude, mul_eq_zero, or_iff_left (tenNe e), Nat.cast_eq_zero]

/- An exact zero has a negative sign only if both terms are negative zeros. -/
theorem zeroPair {s t : Bool} {c d : Nat} {e f : Int} (first : Fits c e) (second : Fits d f)
    (cancels : Exact.signed s (magnitude c e) + Exact.signed t (magnitude d f) = 0) :
    NegativeZeros {⟨.finite s c e,first⟩,⟨.finite t d f,second⟩} ↔ (s && t) = true := by
  have left := magnitudeNonneg c e
  have right := magnitudeNonneg d f
  rw [Multiset.insert_eq_cons, zerosCons, ← Multiset.cons_zero, zerosCons, Bool.and_eq_true]
  constructor
  · rintro ⟨own,other,_⟩
    exact ⟨(own s c e rfl).2,(other t d f rfl).2⟩
  · rintro ⟨rfl,rfl⟩
    simp only [Exact.signed, if_true] at cancels
    have none : c = 0 := magnitudeZero.mp (by linarith)
    have none' : d = 0 := magnitudeZero.mp (by linarith)
    refine ⟨fun _ _ _ is => ?_,fun _ _ _ is => ?_,fun _ member => absurd member (Multiset.notMem_zero _)⟩
    · cases is
      exact ⟨none,rfl⟩
    · cases is
      exact ⟨none',rfl⟩

theorem addFinite {s t : Bool} {c d : Nat} {e f : Int} (first : Fits c e) (second : Fits d f) :
    ∃ r, add (.finite s c e) (.finite t d f) = some r ∧
      Answers (Exact.signed s (magnitude c e) + Exact.signed t (magnitude d f)) (s && t) (min e f) r := by
  obtain ⟨r,is,sums⟩ := finishSumSpec (addHeld ⟨.finite s c e,first⟩ ⟨.finite t d f,second⟩)
  refine ⟨r,is,?_⟩
  cases sums with
  | nan undefined => simp [Has] at undefined
  | inf _ one => simp [Has] at one
  | empty none => simp at none
  | @finite zeroSign _ _ _ _ zeros answer =>
    have least : leastExponent {⟨.finite s c e,first⟩,⟨.finite t d f,second⟩} = min e f := by
      have := first.2.2
      have := second.2.2
      have : maxExponent ≤ noExponent := by decide
      rw [Multiset.insert_eq_cons, leastCons, ← Multiset.cons_zero, leastCons]
      simp only [Term.exponent?]
      rw [show leastExponent 0 = noExponent from rfl]
      omega
    rw [pairTotal, least] at answer
    change Answers (Exact.signed s (magnitude c e) + Exact.signed t (magnitude d f)) zeroSign (min e f) r at answer
    unfold Answers at answer ⊢
    by_cases cancels : Exact.signed s (magnitude c e) + Exact.signed t (magnitude d f) = 0
    · have sign : zeroSign = (s && t) := Bool.eq_iff_iff.mpr (zeros.trans (zeroPair first second cancels))
      rw [sign] at answer
      exact answer
    · rw [if_neg cancels]
      rwa [if_neg cancels] at answer

theorem mulFinite (s t : Bool) (c d : Nat) (e f : Int) :
    ∃ r, mul (.finite s c e) (.finite t d f) = some r ∧
      Rounded (s != t) (magnitude c e * magnitude d f) (e + f) r := by
  have product : ((Mag.fromU128 c).mul (.fromU128 d)).value = c * d := by
    rw [Mag.mulValue, Mag.fromU128Value, Mag.fromU128Value]
  have value : magnitude c e * magnitude d f = magnitude (c * d) (e + f) := by
    simp only [magnitude]
    rw [zpow_add₀ (by norm_num)]
    push_cast
    ring
  refine roundSpec (s != t) ?_
  rw [product, value]
  refine ⟨le_rfl,?_,by simp,Bool.noConfusion,Or.inl le_rfl,by omega⟩
  rw [magnitude, magnitude]
  exact mul_lt_mul_of_pos_right (by push_cast; linarith) (tenPos _)

theorem divFinite {c d : Nat} {e f : Int} (s t : Bool) (first : Fits c e) (second : Fits d f) (some' : d ≠ 0) :
    ∃ r, div (.finite s c e) (.finite t d f) = some (.ok r) ∧
      Rounded (s != t) (magnitude c e / magnitude d f) (e - f) r := by
  have bound := coefficientBound
  have most := second.1
  have short : Decimal.digits c ≤ 34 := digitsLe.mpr (fitsDigits first)
  obtain ⟨r,is,rounded⟩ := divideSpec (s != t) (.fromU128 c) e f (Nat.pos_of_ne_zero some') (by omega)
    (by rw [Mag.fromU128Value]; omega)
  rw [Mag.fromU128Value] at rounded
  refine ⟨r,?_,rounded⟩
  have divisor : (Raw.finite t d f).isZero = false := by simpa [Raw.isZero] using some'
  rw [div, divisor]
  simp only [Bool.false_eq_true, if_false, is, Option.map_some]

/-! The remainder. -/

theorem remLoopValue (cy : Nat) (n r : Nat) (small : r < cy) : remLoop cy n r = r * 10 ^ n % cy := by
  induction n generalizing r with
  | zero => simp [remLoop, Nat.mod_eq_of_lt small]
  | succ n ih =>
    rw [remLoop]
    split_ifs with zero
    · simp [zero]
    · rw [ih _ (Nat.mod_lt _ (by omega)), Nat.mod_mul_mod, Nat.mul_assoc, ← pow_succ']

theorem remFinite {c d : Nat} {e f : Int} (s t : Bool) (first : Fits c e) (second : Fits d f) (some' : d ≠ 0) :
    ∃ r, rem (.finite s c e) (.finite t d f) = .ok (.finite s r (min e f)) ∧ Fits r (min e f) ∧
      ∃ q : Nat, magnitude c e = q * magnitude d f + magnitude r (min e f) ∧ magnitude r (min e f) < magnitude d f := by
  have pos : 0 < d := Nat.pos_of_ne_zero some'
  have divisor : (Raw.finite t d f).isZero = false := by simpa [Raw.isZero] using some'
  have unit := tenPos (min e f)
  -- over one unit the remainder is that of two integers
  have whole {x y r : Nat} (left : magnitude c e = magnitude x (min e f)) (right : magnitude d f = magnitude y (min e f))
      (positive : 0 < y) (is : r = x % y) :
      ∃ q : Nat, magnitude c e = q * magnitude d f + magnitude r (min e f) ∧ magnitude r (min e f) < magnitude d f := by
    refine ⟨x / y,?_,?_⟩
    · rw [left, right, is, magnitude, magnitude, magnitude, ← mul_assoc, ← add_mul]
      congr 1
      exact_mod_cast (Nat.div_add_mod' x y).symm
    · rw [right, is]
      exact mul_lt_mul_of_pos_right (by exact_mod_cast Nat.mod_lt x positive) unit
  have raise (n : Nat) {g : Int} (order : min e f ≤ g) : magnitude n g = magnitude (n * 10 ^ (g - min e f).toNat) (min e f) := by
    rw [magnitudeShift]
    congr 1
    omega
  have range : minExponent ≤ min e f ∧ min e f ≤ maxExponent := by
    have := first.2
    have := second.2
    omega
  rw [rem, divisor]
  simp only [Bool.false_eq_true, if_false]
  refine ⟨_,rfl,⟨?_,range⟩,whole (raise c (min_le_left _ _)) (raise d (min_le_right _ _)) (by positivity) ?_⟩
  · have := first.1
    have := second.1
    split_ifs with order
    · rw [remLoopValue _ _ _ (Nat.mod_lt _ pos)]
      have := Nat.mod_lt (c % d * 10 ^ (e - f).toNat) pos
      omega
    · split
      · exact (Nat.mod_le _ _).trans first.1
      · exact first.1
  · split_ifs with order
    · rw [remLoopValue _ _ _ (Nat.mod_lt _ pos), min_eq_right order, sub_self, Nat.mod_mul_mod]
      simp
    · have low : min e f = e := min_eq_left (by omega)
      rw [low, sub_self]
      simp only [Int.toNat_zero, pow_zero, Nat.mul_one]
      have power : 0 < 10 ^ (f - e).toNat := by positivity
      have past : c < 2 ^ 128 := lt_trans (fitsDigits first) (by norm_num)
      unfold checked
      by_cases small : 10 ^ (f - e).toNat < 2 ^ 128
      · simp only [small, if_true, Option.bind_eq_bind, Option.bind_some]
        by_cases fits : d * 10 ^ (f - e).toNat < 2 ^ 128
        · simp only [fits, if_true]
        · simp only [fits, if_false]
          rw [Nat.mod_eq_of_lt (by omega)]
      · have wide : 10 ^ (f - e).toNat ≤ d * 10 ^ (f - e).toNat := Nat.le_mul_of_pos_left _ pos
        simp only [small, if_false, Option.bind_eq_bind, Option.bind_none]
        rw [Nat.mod_eq_of_lt (by omega)]

/-! All operands. -/

def Packs (r : Raw) : Prop := ∃ word, packRaw r = some word ∧ decodeRaw word = r

/- The exact result of two finite operands, rounded once; a zero divisor is refused. -/
structure FiniteResults (s : Bool) (c : Nat) (e : Int) (t : Bool) (d : Nat) (f : Int) : Prop where
  sum : ∃ r, add (.finite s c e) (.finite t d f) = some r ∧ Packs r ∧
    Answers (Exact.signed s (magnitude c e) + Exact.signed t (magnitude d f)) (s && t) (min e f) r
  difference : ∃ r, sub (.finite s c e) (.finite t d f) = some r ∧ Packs r ∧
    Answers (Exact.signed s (magnitude c e) - Exact.signed t (magnitude d f)) (s && !t) (min e f) r
  product : ∃ r, mul (.finite s c e) (.finite t d f) = some r ∧ Packs r ∧
    Rounded (s != t) (magnitude c e * magnitude d f) (e + f) r
  quotient : d ≠ 0 → ∃ r, div (.finite s c e) (.finite t d f) = some (.ok r) ∧ Packs r ∧
    Rounded (s != t) (magnitude c e / magnitude d f) (e - f) r
  remainder : d ≠ 0 → ∃ r, rem (.finite s c e) (.finite t d f) = .ok (.finite s r (min e f)) ∧ Packs (.finite s r (min e f)) ∧
    ∃ q : Nat, magnitude c e = q * magnitude d f + magnitude r (min e f) ∧ magnitude r (min e f) < magnitude d f
  refused : d = 0 → div (.finite s c e) (.finite t d f) = some (.error .divisionByZero) ∧
    rem (.finite s c e) (.finite t d f) = .error .divisionByZero

/- A NaN or an infinity among the operands. -/
structure SpecialResults (a b : Raw) : Prop where
  nan : a = .nan ∨ b = .nan → add a b = some .nan ∧ sub a b = some .nan ∧ mul a b = some .nan ∧
    (b.isZero = false → div a b = some (.ok .nan) ∧ rem a b = .ok .nan)
  both : ∀ s t, a = .inf s → b = .inf t → add a b = some (if s = t then .inf s else .nan) ∧
    sub a b = some (if s = t then .nan else .inf s) ∧ mul a b = some (.inf (s != t)) ∧
    div a b = some (.ok .nan) ∧ rem a b = .ok .nan
  left : ∀ s t d f, a = .inf s → b = .finite t d f → add a b = some (.inf s) ∧ sub a b = some (.inf s) ∧
    mul a b = some (if d = 0 then .nan else .inf (s != t)) ∧
    (d ≠ 0 → div a b = some (.ok (.inf (s != t))) ∧ rem a b = .ok .nan)
  right : ∀ s c e t, a = .finite s c e → b = .inf t → add a b = some (.inf t) ∧ sub a b = some (.inf !t) ∧
    mul a b = some (if c = 0 then .nan else .inf (s != t)) ∧
    div a b = some (.ok (.finite (s != t) 0 minExponent)) ∧ rem a b = .ok a

theorem subFinite {s t : Bool} {c d : Nat} {e f : Int} (first : Fits c e) (second : Fits d f) :
    ∃ r, sub (.finite s c e) (.finite t d f) = some r ∧
      Answers (Exact.signed s (magnitude c e) - Exact.signed t (magnitude d f)) (s && !t) (min e f) r := by
  obtain ⟨r,is,answer⟩ := @addFinite s (!t) c d e f first second
  refine ⟨r,is,?_⟩
  have negated : Exact.signed (!t) (magnitude d f) = -Exact.signed t (magnitude d f) := by
    cases t <;> simp [Exact.signed]
  rw [negated, ← sub_eq_add_neg] at answer
  exact answer

theorem finiteResults {s t : Bool} {c d : Nat} {e f : Int} (first : Fits c e) (second : Fits d f) :
    FiniteResults s c e t d f := by
  refine ⟨?_,?_,?_,fun some' => ?_,fun some' => ?_,fun zero => ?_⟩
  · obtain ⟨r,is,answer⟩ := @addFinite s t c d e f first second
    exact ⟨r,is,packStored (roundedStored answer),answer⟩
  · obtain ⟨r,is,answer⟩ := @subFinite s t c d e f first second
    exact ⟨r,is,packStored (roundedStored answer),answer⟩
  · obtain ⟨r,is,rounded⟩ := mulFinite s t c d e f
    exact ⟨r,is,packStored (roundedStored rounded),rounded⟩
  · obtain ⟨r,is,rounded⟩ := divFinite s t first second some'
    exact ⟨r,is,packStored (roundedStored rounded),rounded⟩
  · obtain ⟨r,is,fits,left⟩ := remFinite s t first second some'
    exact ⟨r,is,packStored fits,left⟩
  · rw [zero]
    exact ⟨rfl,rfl⟩

theorem nanResults (r : Raw) : SpecialResults .nan r := by
  refine ⟨fun _ => ⟨?_,?_,?_,fun nonzero => ?_⟩,?_,?_,?_⟩
  · rcases r with _ | (_ | _) | _ <;> rfl
  · rcases r with _ | (_ | _) | _ <;> rfl
  · rcases r with _ | (_ | _) | _ <;> rfl
  · unfold div rem
    rw [nonzero]
    rcases r with _ | _ | _ <;> exact ⟨rfl,rfl⟩
  all_goals simp

theorem overNanResults (r : Raw) : SpecialResults r .nan := by
  refine ⟨fun _ => ⟨?_,?_,?_,fun nonzero => ?_⟩,?_,?_,?_⟩
  · rcases r with _ | (_ | _) | _ <;> rfl
  · rcases r with _ | (_ | _) | _ <;> rfl
  · rcases r with _ | (_ | _) | _ <;> rfl
  · rcases r with _ | (_ | _) | _ <;> exact ⟨rfl,rfl⟩
  all_goals simp

theorem specialResults (a b : Raw) : SpecialResults a b := by
  cases a with
  | nan => exact nanResults b
  | inf s =>
    cases b with
    | nan => exact overNanResults _
    | inf t =>
      refine ⟨by simp,?_,by simp,by simp⟩
      rintro _ _ ⟨⟩ ⟨⟩
      cases s <;> cases t <;> exact ⟨rfl,rfl,rfl,rfl,rfl⟩
    | finite t d f =>
      refine ⟨by simp,by simp,?_,by simp⟩
      rintro _ _ _ _ ⟨⟩ ⟨⟩
      refine ⟨by cases s <;> rfl,by cases s <;> rfl,?_,fun nonzero => ?_⟩
      · simp only [mul, Raw.isZero, beq_iff_eq, Raw.isNegative]
        split_ifs <;> rfl
      · have divisor : (Raw.finite t d f).isZero = false := by simpa [Raw.isZero] using nonzero
        unfold div rem
        rw [divisor]
        exact ⟨rfl,rfl⟩
  | finite s c e =>
    cases b with
    | nan => exact overNanResults _
    | inf t =>
      refine ⟨by simp,by simp,by simp,?_⟩
      rintro _ _ _ _ ⟨⟩ ⟨⟩
      refine ⟨by cases t <;> rfl,by cases t <;> rfl,?_,?_,rfl⟩
      · simp only [mul, Raw.isZero, beq_iff_eq, Raw.isNegative]
        split_ifs <;> rfl
      · rw [← finiteInside _ _ le_rfl (by decide)]
        rfl
    | finite t d f => exact ⟨by simp,by simp,by simp,by simp⟩

theorem decimalOperations (a b : Decimal128) : SpecialResults (decodeRaw a) (decodeRaw b) ∧
    ∀ s c e t d f, decodeRaw a = .finite s c e → decodeRaw b = .finite t d f → FiniteResults s c e t d f := by
  refine ⟨specialResults _ _,fun s c e t d f first second => ?_⟩
  have left := decodeStored a
  have right := decodeStored b
  rw [first] at left
  rw [second] at right
  exact finiteResults left right

/- 1.10 and 1.20. -/
theorem decimalOperationsPrice : FiniteResults false 110 (-2) false 120 (-2) :=
  (decimalOperations (pack false 110 (-2)) (pack false 120 (-2))).2 _ _ _ _ _ _
    (decodeRawPack false (by decide)) (decodeRawPack false (by decide))

end Arith
end Kimmy.Decimal
