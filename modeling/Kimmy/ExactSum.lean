import Kimmy.DecimalRound
import Kimmy.SignedLimbs
import Kimmy.SortedMap
import Kimmy.BigDivision

/-!
Exact sums of decimals (`ExactSum` of `decimal/arith.rs`): signed limbs by position, rounded
once at the end. What is answered depends on the terms as a multiset only, since every part of
the state does: the exact total, the least exponent, the flags and the count.
-/
namespace Kimmy.Decimal.Arith
open Kimmy.Limbs BigInt

/- Position `p` is `10 ^ (19 p)`: a window while the span is narrow, a map beyond. -/
inductive SumLimbs where
  | empty
  | window (base : Int) (limbs : List Int)
  | sparse (map : SortedMap Int Int)

def widest : Int := 16

namespace SumLimbs

def add (s : SumLimbs) (position value : Int) : SumLimbs :=
  if value = 0 then s
  else
    match s with
    | .empty => .window position [value]
    | .window base limbs =>
        let low := min base position
        let high := max (base + limbs.length - 1) position
        if high - low < widest then
          let grown := List.replicate (base - low).toNat 0 ++ limbs
          let needed := (high - low + 1).toNat
          let sized := grown ++ List.replicate (needed - grown.length) 0
          .window low (sized.modify (position - low).toNat (· + value))
        else
          let pairs := (limbs.zipIdx.filter fun x => x.1 ≠ 0).map fun x => (base + x.2,x.1)
          let map := SortedMap.collect pairs
          .sparse (map.insert position ((map.get position).getD 0 + value))
    | .sparse map =>
        let held := (map.get position).getD 0 + value
        if held = 0 then .sparse (map.remove position) else .sparse (map.insert position held)

def span : SumLimbs → Option (Int × Int)
  | .empty => none
  | .window base limbs => some (base,base + limbs.length - 1)
  | .sparse map => do some ((← map.entries.head?).1,(← map.entries.getLast?).1)

def get (s : SumLimbs) (position : Int) : Int :=
  match s with
  | .empty => 0
  | .window base limbs => if position < base then 0 else limbs.getD (position - base).toNat 0
  | .sparse map => (map.get position).getD 0

/-! One limb changes, and the span holds every limb that is not zero. -/

theorem collectWindow (base : Int) (limbs : List Int) (position : Int) :
    ((SortedMap.collect ((limbs.zipIdx.filter fun x => x.1 ≠ 0).map fun x => (base + (x.2 : Int),x.1))).get position).getD 0 =
      (window base limbs).get position := by
  have member {i v : Int} : (i,v) ∈ ((limbs.zipIdx.filter fun x => x.1 ≠ 0).map fun x => (base + (x.2 : Int),x.1)) ↔
      base ≤ i ∧ limbs[(i - base).toNat]? = some v ∧ v ≠ 0 := by
    simp only [List.mem_map, List.mem_filter, Prod.mk.injEq, Prod.exists, List.mem_zipIdx_iff_getElem?,
      decide_eq_true_eq]
    constructor
    · rintro ⟨v',j,⟨held,nonzero⟩,rfl,rfl⟩
      refine ⟨by omega,?_,nonzero⟩
      rw [show (base + (j : Int) - base).toNat = j by omega]
      exact held
    · rintro ⟨least,held,nonzero⟩
      exact ⟨v,(i - base).toNat,⟨held,nonzero⟩,by omega,rfl⟩
  have one (x y : Int) (first : (position,x) ∈ _) (second : (position,y) ∈ _) : x = y :=
    Option.some.inj ((member.mp first).2.1.symm.trans (member.mp second).2.1)
  rw [get]
  cases held : (SortedMap.collect _).get position with
  | some v =>
    obtain ⟨least,limb,_⟩ := member.mp (SortedMap.collectMem held)
    rw [if_neg (by omega), List.getD_eq_getElem?_getD, limb]
  | none =>
    split_ifs with below
    · rfl
    · rw [List.getD_eq_getElem?_getD]
      cases limb : limbs[(position - base).toNat]? with
      | none => rfl
      | some v =>
        by_cases zero : v = 0
        · rw [zero]
          rfl
        · rw [(SortedMap.collectIff one).mpr (member.mpr ⟨by omega,limb,zero⟩)] at held
          cases held

theorem paddedGet (zeros more : Nat) (limbs : List Int) (i : Nat) :
    (List.replicate zeros 0 ++ limbs ++ List.replicate more 0).getD i 0 = if i < zeros then 0 else limbs.getD (i - zeros) 0 := by
  simp only [List.getD_eq_getElem?_getD, List.append_assoc]
  split_ifs with under
  · rw [List.getElem?_append_left (by simpa using under)]
    simp [under]
  · rw [List.getElem?_append_right (by simpa using under), List.length_replicate]
    by_cases inside : i - zeros < limbs.length
    · rw [List.getElem?_append_left inside]
    · rw [List.getElem?_append_right (not_lt.mp inside), List.getElem?_eq_none (not_lt.mp inside), List.getElem?_replicate]
      split_ifs <;> rfl

theorem modifyGet {limbs : List Int} {i : Nat} (inside : i < limbs.length) (value : Int) (j : Nat) :
    (limbs.modify i (· + value)).getD j 0 = limbs.getD j 0 + if j = i then value else 0 := by
  rw [List.getD_eq_getElem?_getD, List.getElem?_modify, List.getD_eq_getElem?_getD]
  by_cases here : j = i
  · subst here
    rw [List.getElem?_eq_getElem inside]
    simp
  · cases limbs[j]? <;> simp [here, Ne.symm here]

theorem windowGrown {base position low high : Int} {limbs : List Int} (low' : low = min base position)
    (high' : high = max (base + limbs.length - 1) position) (value p : Int) :
    (window low ((List.replicate (base - low).toNat (0 : Int) ++ limbs ++ List.replicate
        ((high - low + 1).toNat - (List.replicate (base - low).toNat (0 : Int) ++ limbs).length) 0).modify
          (position - low).toNat (· + value))).get p =
      (window base limbs).get p + if p = position then value else 0 := by
  simp only [get]
  by_cases under : p < low
  · rw [if_pos under, if_pos (by omega), if_neg (by omega), zero_add]
  · rw [if_neg under, modifyGet (by simp; omega), paddedGet]
    congr 1
    · split_ifs with first second second
      · rfl
      · omega
      · omega
      · congr 1
        omega
    · simp only [show (p - low).toNat = (position - low).toNat ↔ p = position by omega]

theorem sparseGet (map : SortedMap Int Int) (position : Int) : (sparse map).get position = (map.get position).getD 0 := rfl

theorem addGet (s : SumLimbs) (position value p : Int) :
    (s.add position value).get p = s.get p + if p = position then value else 0 := by
  unfold add
  by_cases zero : value = 0
  · simp [zero]
  · rw [if_neg zero]
    cases s with
    | empty =>
      simp only [get, zero_add]
      split_ifs with below here here
      · omega
      · rfl
      · simp [here]
      · rw [List.getD_eq_default]
        simp
        omega
    | window base limbs =>
      simp only
      by_cases narrow : max (base + limbs.length - 1) position - min base position < widest
      · rw [if_pos narrow]
        exact windowGrown rfl rfl value p
      · rw [if_neg narrow, sparseGet, SortedMap.getInsert]
        by_cases here : p = position
        · rw [if_pos here, if_pos here, here, Option.getD_some, collectWindow]
        · rw [if_neg here, if_neg here, add_zero, collectWindow]
    | sparse map =>
      simp only
      by_cases none : (map.get position).getD 0 + value = 0
      · rw [if_pos none, sparseGet, sparseGet, SortedMap.getRemove]
        by_cases here : p = position
        · rw [if_pos here, if_pos here, here, none]
          rfl
        · rw [if_neg here, if_neg here, add_zero]
      · rw [if_neg none, sparseGet, sparseGet, SortedMap.getInsert]
        by_cases here : p = position
        · rw [if_pos here, if_pos here, here, Option.getD_some]
        · rw [if_neg here, if_neg here, add_zero]

theorem spanHolds {s : SumLimbs} {p : Int} (nonzero : s.get p ≠ 0) :
    ∃ low high, s.span = some (low,high) ∧ low ≤ p ∧ p ≤ high := by
  cases s with
  | empty => exact absurd rfl nonzero
  | window base limbs =>
    simp only [get] at nonzero
    split_ifs at nonzero with below
    · exact absurd rfl nonzero
    · have inside : (p - base).toNat < limbs.length := by
        by_contra past
        exact nonzero (List.getD_eq_default _ _ (not_lt.mp past))
      exact ⟨base,_,rfl,by omega,by omega⟩
  | sparse map =>
    cases held : map.get p with
    | none => simp [get, held] at nonzero
    | some v =>
      have member : (p,v) ∈ map.entries := SortedMap.memEntries.mpr held
      have sorted := map.sorted
      obtain ⟨first,rest,is⟩ := List.exists_cons_of_ne_nil (List.ne_nil_of_mem member)
      obtain ⟨front,last,is'⟩ : ∃ front last, map.entries = front ++ [last] :=
        ⟨_,_,(List.dropLast_append_getLast (List.ne_nil_of_mem member)).symm⟩
      have least : map.entries.head? = some first := by rw [is]; rfl
      have most : map.entries.getLast? = some last := by rw [is']; simp
      refine ⟨first.1,last.1,by simp [span, least, most],?_,?_⟩
      · rw [is] at member sorted
        rcases List.mem_cons.mp member with here | later
        · rw [← here]
        · exact le_of_lt ((List.pairwise_cons.mp sorted).1 _ later)
      · rw [is'] at member sorted
        rcases List.mem_append.mp member with earlier | here
        · exact le_of_lt ((List.pairwise_append.mp sorted).2.2 _ earlier _ (List.mem_singleton_self _))
        · rw [← List.mem_singleton.mp here]

end SumLimbs

/- `i64::MAX`, the least exponent of no terms. -/
def noExponent : Int := 2 ^ 63 - 1

structure ExactSum where
  limbs : SumLimbs
  minExponent : Int
  allNegativeZero : Bool
  nan : Bool
  positiveInfinity : Bool
  negativeInfinity : Bool
  count : Nat

/- `c1 · 10 ^ e1 / (c2 · 10 ^ e2)` rounded once, for a nonzero `c2`. -/
def divide (negative : Bool) (c1 : Mag) (e1 : Int) (c2 : Nat) (e2 : Int) : Option Raw := do
  let scale := max ((prec : Int) + 1 + Decimal.digits c2 - c1.digits) 0
  let (quotient,remainder) ← (c1.mulPow10 scale.toNat).toBig.divRemU128 c2
  round negative (.fromU128 quotient) (e1 - scale - e2) (remainder != 0) (e1 - e2)

/- `magnitude · 10 ^ e / n` rounded once: the digits kept give 35 of the quotient, the rest is a sticky bit. -/
def mean (negative : Bool) (magnitude : Mag) (e : Int) (n : Nat) : Option Raw :=
  let keep : Int := prec + 1 + Decimal.digits n + 1
  let cut := max (magnitude.digits - keep) 0
  if cut = 0 then divide negative magnitude e n 0
  else do
    let (top,tail) := magnitude.splitDigits cut.toNat
    let (quotient,remainder) ← top.toBig.divRemU128 n
    round negative (.fromU128 quotient) (e + cut) (remainder != 0 || !tail.isZero) e

namespace ExactSum

def new : ExactSum := ⟨.empty,noExponent,true,false,false,false,0⟩

/- `coefficient · 10 ^ offset` is three limbs; `subtract` takes them away. -/
def addLimbs (s : ExactSum) (negative : Bool) (coefficient : Nat) (exponent : Int) (subtract : Bool) : ExactSum :=
  let negative := negative != subtract
  let position := exponent / limbDigits
  let scale := 10 ^ (exponent % limbDigits).toNat
  let l0 := coefficient % limb * scale
  let l1 := coefficient / limb * scale + l0 / limb
  let put (limbs : SumLimbs) (position : Int) (l : Nat) := limbs.add position (if negative then -(l : Int) else l)
  { s with limbs := put (put (put s.limbs position (l0 % limb)) (position + 1) (l1 % limb)) (position + 2) (l1 / limb) }

def add (s : ExactSum) (term : Raw) : ExactSum :=
  let s := { s with count := s.count + 1 }
  match term with
  | .nan => { s with nan := true }
  | .inf true => { s with negativeInfinity := true }
  | .inf false => { s with positiveInfinity := true }
  | .finite negative coefficient exponent =>
      let s :=
        { s with
          minExponent := min s.minExponent exponent
          allNegativeZero := s.allNegativeZero && (coefficient == 0 && negative) }
      s.addLimbs negative coefficient exponent false

def special (s : ExactSum) : Option Raw :=
  if s.nan || (s.positiveInfinity && s.negativeInfinity) then some .nan
  else if s.positiveInfinity || s.negativeInfinity then some (.inf s.negativeInfinity)
  else none

/- The limbs carried into digits, a negative total negated by borrowing, and the limbs above. -/
def carried (values : List Int) : Bool × Mag :=
  let out := carries limb 0 values
  let proper := carriesProper limbPos 0 values
  if out.2 < 0 then
    let low := negate limb 0 out.1
    (true,.ofLimbs (low.1 ++ Nat.digits limb (out.2.natAbs - low.2))
      (properAppend.mpr ⟨(negateSpec proper limbPos (Nat.zero_le 1)).1,Mag.digitsProper _⟩))
  else (false,.ofLimbs (out.1 ++ Nat.digits limb out.2.natAbs) (properAppend.mpr ⟨proper,Mag.digitsProper _⟩))

/- The exact sum of the finite terms: its sign, and its magnitude at the least exponent. -/
def exact (s : ExactSum) : Bool × Mag :=
  match s.limbs.span with
  | none => (false,.zero)
  | some (low,high) =>
      let (negative,magnitude) := carried (placesFrom s.limbs.get low (high - low + 1).toNat)
      let shift := limbDigits * low - s.minExponent
      if 0 ≤ shift then (negative,magnitude.mulPow10 shift.toNat)
      else if !magnitude.isZero then (negative,(magnitude.splitDigits (-shift).toNat).1)
      else (negative,magnitude)

def finishSum (s : ExactSum) : Option Raw :=
  match s.special with
  | some special => some special
  | none =>
      if s.count = 0 then some (finite false 0 0)
      else
        let (negative,magnitude) := s.exact
        if magnitude.isZero then some (finite s.allNegativeZero 0 s.minExponent)
        else round negative magnitude s.minExponent false s.minExponent

/- The exact sum divided by the count, rounded once. -/
def finishAvg (s : ExactSum) : Option Raw :=
  match s.special with
  | some special => some special
  | none =>
      if s.count = 0 then some .nan
      else
        let (negative,magnitude) := s.exact
        if magnitude.isZero then some (finite s.allNegativeZero 0 s.minExponent)
        else mean negative magnitude s.minExponent s.count

/-! The exact total of the limbs. -/

theorem carriedSpec (values : List Int) :
    (carried values).1 = decide (signedValue limb values < 0) ∧
      (carried values).2.value = (signedValue limb values).natAbs := by
  obtain ⟨sign,nonneg,negative⟩ := carriesSign limbOne values
  unfold carried
  simp only
  split_ifs with below
  · refine ⟨(decide_eq_true (sign.mp below)).symm,?_⟩
    rw [Mag.ofLimbsValue]
    exact negative below
  · refine ⟨(decide_eq_false (mt sign.mpr below)).symm,?_⟩
    rw [Mag.ofLimbsValue]
    exact nonneg (not_lt.mp below)

theorem limbTen (p : Int) : (limb : ℚ) ^ p = 10 ^ ((limbDigits : Int) * p) := by
  rw [limbPow, zpow_mul, zpow_natCast]
  push_cast
  rfl

/- Limbs worth a whole number of units of the least exponent are read as that number. -/
theorem exactSpec {s : ExactSum} {x : ℚ} (worth : Worth limb s.limbs.get x) {k : Int}
    (whole : x = k * 10 ^ s.minExponent) : s.exact.1 = decide (k < 0) ∧ s.exact.2.value = k.natAbs := by
  have unit := tenNe s.minExponent
  unfold exact
  cases range : s.limbs.span with
  | none =>
    have zero : x = 0 := by
      refine @worthSum _ _ _ worth ∅ fun p _ => ?_
      by_contra some
      obtain ⟨low,high,is,_⟩ := SumLimbs.spanHolds some
      rw [range] at is
      cases is
    have none : k = 0 := by
      rw [zero] at whole
      have := (mul_eq_zero.mp whole.symm).resolve_right unit
      exact_mod_cast this
    rw [none]
    exact ⟨rfl,rfl⟩
  | some pair =>
    obtain ⟨low,high⟩ := pair
    simp only
    obtain ⟨sign,value⟩ := carriedSpec (placesFrom s.limbs.get low (high - low + 1).toNat)
    have total : x = signedValue limb (placesFrom s.limbs.get low (high - low + 1).toNat) * (limb : ℚ) ^ low := by
      refine worthPlaces limbPos worth fun p some => ?_
      obtain ⟨low',high',is,least,most⟩ := SumLimbs.spanHolds some
      rw [range] at is
      cases is
      omega
    rw [limbTen] at total
    generalize signedValue limb (placesFrom s.limbs.get low (high - low + 1).toNat) = v at *
    generalize carried (placesFrom s.limbs.get low (high - low + 1).toNat) = out at *
    split_ifs with up nonzero
    · have scaled : k = v * 10 ^ (limbDigits * low - s.minExponent).toNat := by
        have : (k : ℚ) = v * 10 ^ (limbDigits * low - s.minExponent).toNat := by
          refine mul_right_cancel₀ unit ?_
          rw [← whole, total, mul_assoc, ← zpow_natCast, ← zpow_add₀ (by norm_num)]
          congr 2
          omega
        exact_mod_cast this
      have power : (0 : Int) < 10 ^ (limbDigits * low - s.minExponent).toNat := by positivity
      constructor
      · rw [sign, scaled, decide_eq_decide, mul_neg_iff]
        constructor
        · exact fun negative => Or.inr ⟨negative,power⟩
        · rintro (⟨_,negative⟩ | ⟨negative,_⟩)
          · omega
          · exact negative
      · rw [Mag.mulPow10Value, value, scaled, Int.natAbs_mul, Int.natAbs_pow]
        rfl
    all_goals
      have scaled : v = k * 10 ^ (-(limbDigits * low - s.minExponent)).toNat := by
        have : (v : ℚ) = k * 10 ^ (-(limbDigits * low - s.minExponent)).toNat := by
          refine mul_right_cancel₀ (tenNe (limbDigits * low)) ?_
          rw [← total, whole, mul_assoc, ← zpow_natCast, ← zpow_add₀ (by norm_num)]
          congr 2
          omega
        exact_mod_cast this
      have power : (0 : Int) < 10 ^ (-(limbDigits * low - s.minExponent)).toNat := by positivity
      have signs : v < 0 ↔ k < 0 := by
        rw [scaled, mul_neg_iff]
        constructor
        · rintro (⟨_,negative⟩ | ⟨negative,_⟩)
          · omega
          · exact negative
        · exact fun negative => Or.inr ⟨negative,power⟩
      refine ⟨by rw [sign, decide_eq_decide]; exact signs,?_⟩
    · rw [Mag.splitDigitsValue, value, scaled, Int.natAbs_mul, Int.natAbs_pow]
      exact Nat.mul_div_cancel _ (by positivity)
    · have zero : out.2.value = 0 := by
        rw [← Mag.isZeroValue]
        simpa using nonzero
      rw [value, Int.natAbs_eq_zero, scaled] at zero
      rw [value, scaled, zero, (mul_eq_zero.mp zero).resolve_right power.ne']

/- A coefficient times a power of ten below the base, cut into three limbs. -/
theorem threeLimbs (base c scale : Nat) :
    let l0 := c % base * scale
    let l1 := c / base * scale + l0 / base
    l0 % base + base * (l1 % base) + base ^ 2 * (l1 / base) = c * scale := by
  simp only
  have first := Nat.mod_add_div (c % base * scale) base
  have second := Nat.mod_add_div (c / base * scale + c % base * scale / base) base
  have whole := Nat.mod_add_div c base
  generalize c % base * scale / base = a at *
  generalize (c % base * scale) % base = b at *
  generalize (c / base * scale + a) / base = u at *
  generalize (c / base * scale + a) % base = w at *
  calc b + base * w + base ^ 2 * u = b + base * (w + base * u) := by ring
    _ = b + base * a + base * (c / base) * scale := by rw [second]; ring
    _ = (c % base + base * (c / base)) * scale := by rw [first]; ring
    _ = c * scale := by rw [whole]

theorem addLimbsWorth {s : ExactSum} {x : ℚ} (worth : Worth limb s.limbs.get x) (negative : Bool) (c : Nat) (e : Int)
    (subtract : Bool) : Worth limb (s.addLimbs negative c e subtract).limbs.get
      (x + Exact.signed (negative != subtract) (magnitude c e)) := by
  unfold addLimbs
  simp only
  have limbs := threeLimbs limb c (10 ^ (e % limbDigits).toNat)
  simp only at limbs
  generalize (c % limb * 10 ^ (e % limbDigits).toNat) % limb = a at *
  generalize c / limb * 10 ^ (e % limbDigits).toNat + c % limb * 10 ^ (e % limbDigits).toNat / limb = l1 at *
  generalize l1 % limb = b at *
  generalize l1 / limb = d at *
  have first := worthAdd worth (SumLimbs.addGet s.limbs (e / limbDigits) (if (negative != subtract) = true then -(a : Int) else a))
  have second := worthAdd first (SumLimbs.addGet _ (e / limbDigits + 1) (if (negative != subtract) = true then -(b : Int) else b))
  have third := worthAdd second (SumLimbs.addGet _ (e / limbDigits + 2) (if (negative != subtract) = true then -(d : Int) else d))
  have nonzero : (limb : ℚ) ≠ 0 := by exact_mod_cast limbPos.ne'
  have value : magnitude c e = (a + b * limb + d * limb ^ 2 : ℚ) * (limb : ℚ) ^ (e / limbDigits) := by
    have place : (10 : ℚ) ^ e = 10 ^ (e % limbDigits).toNat * (limb : ℚ) ^ (e / limbDigits) := by
      rw [limbTen, ← zpow_natCast, ← zpow_add₀ (by norm_num)]
      congr 1
      have := Int.emod_add_mul_ediv e limbDigits
      have := Int.emod_nonneg e (show (limbDigits : Int) ≠ 0 by decide)
      omega
    have cast : ((a + limb * b + limb ^ 2 * d : Nat) : ℚ) = ((c * 10 ^ (e % limbDigits).toNat : Nat) : ℚ) := by rw [limbs]
    push_cast at cast
    rw [magnitude, place, ← mul_assoc, ← cast]
    ring
  convert third using 1
  rw [add_assoc, add_assoc]
  congr 1
  rw [zpow_add₀ nonzero, zpow_add₀ nonzero, zpow_one, zpow_ofNat, value]
  cases negative != subtract
  · simp only [Exact.signed, Bool.false_eq_true, if_false]
    push_cast
    ring
  · simp only [Exact.signed, if_true]
    push_cast
    ring

end ExactSum

/-! Rounding a quotient and a total once. -/

theorem quotientStands {c d : Nat} (pos : 0 < d) (e : Int) {pref : Int} (long : c % d ≠ 0 → 10 ^ 34 ≤ c / d)
    (order : e ≤ pref ∨ 10 ^ 34 ≤ c / d) (near : pref - e < 2 ^ 32) :
    Stands (magnitude c e / d) (c / d) e (c % d != 0) pref := by
  have split := Nat.div_add_mod c d
  have less := Nat.mod_lt c pos
  have positive : (0 : ℚ) < d := by exact_mod_cast pos
  have cast : (c : ℚ) = d * (c / d : Nat) + (c % d : Nat) := by exact_mod_cast split.symm
  have unit : magnitude c e / d = (c / d : Nat) * 10 ^ e + (c % d : Nat) / d * 10 ^ e := by
    rw [magnitude, cast]
    field_simp
  have small : ((c % d : Nat) : ℚ) / d < 1 := by
    rw [div_lt_one positive]
    exact_mod_cast less
  have least : (0 : ℚ) ≤ (c % d : Nat) / d := by positivity
  have ten := tenPos e
  refine ⟨?_,?_,?_,fun sticky => long (by simpa using sticky),order,near⟩
  · rw [unit, magnitude]
    have : 0 ≤ ((c % d : Nat) : ℚ) / d * 10 ^ e := mul_nonneg least ten.le
    linarith
  · rw [unit, magnitude, Nat.cast_add, Nat.cast_one, add_mul, one_mul]
    have : ((c % d : Nat) : ℚ) / d * 10 ^ e < 1 * 10 ^ e := mul_lt_mul_of_pos_right small ten
    linarith
  · rw [unit, magnitude, bne_eq_false_iff_eq]
    constructor
    · intro zero
      rw [zero]
      simp
    · intro same
      have : ((c % d : Nat) : ℚ) / d * 10 ^ e = 0 := by linarith
      have := (div_eq_zero_iff.mp ((mul_eq_zero.mp this).resolve_right ten.ne')).resolve_right positive.ne'
      exact_mod_cast this

theorem divideSpec (negative : Bool) (c1 : Mag) (e1 : Int) {c2 : Nat} (e2 : Int) (pos : 0 < c2) (small : c2 < 2 ^ 128)
    (short : Decimal.digits c1.value ≤ 36 + Decimal.digits c2) :
    ∃ raw, divide negative c1 e1 c2 e2 = some raw ∧
      Rounded negative (magnitude c1.value e1 / magnitude c2 e2) (e1 - e2) raw := by
  have prec' : prec = 34 := rfl
  unfold divide
  simp only [Mag.digitsValue]
  obtain ⟨scale,is⟩ : ∃ scale : Nat, max ((prec : Int) + 1 + Decimal.digits c2 - Decimal.digits c1.value) 0 = scale :=
    ⟨_,(Int.toNat_of_nonneg (le_max_right _ _)).symm⟩
  rw [is, Int.toNat_natCast]
  have value : (c1.mulPow10 scale).toBig.value = c1.value * 10 ^ scale := by rw [Mag.toBigValue, Mag.mulPow10Value]
  have some := digitsPos pos
  have least : 10 ^ (Decimal.digits c2 - 1) ≤ c2 := ltDigits.mp (by omega)
  have wide : 37 + (Decimal.digits c2 - 1) = 36 + Decimal.digits c2 := by omega
  have fits : c1.value * 10 ^ scale / c2 < 2 ^ 128 := by
    have most : c1.value * 10 ^ scale < 10 ^ 37 * 10 ^ (Decimal.digits c2 - 1) := by
      rw [← pow_add, wide]
      rcases Nat.eq_zero_or_pos c1.value with zero | positive
      · rw [zero, Nat.zero_mul]
        positivity
      · rw [← digitsLe, digitsScaled positive]
        omega
    have quotient : c1.value * 10 ^ scale / c2 < 10 ^ 37 := by
      refine Nat.div_lt_of_lt_mul (lt_of_lt_of_le most ?_)
      rw [Nat.mul_comm]
      exact Nat.mul_le_mul_right _ least
    have bound : (10 : Nat) ^ 37 < 2 ^ 128 := by norm_num
    omega
  rw [Big.divRemU128Spec _ pos small (by rw [value]; exact fits), value]
  simp only [Option.bind_eq_bind, Option.bind_some]
  have long (positive : 0 < c1.value) : 10 ^ 34 ≤ c1.value * 10 ^ scale / c2 := by
    rw [Nat.le_div_iff_mul_le pos]
    have longest : 10 ^ (34 + Decimal.digits c2) ≤ c1.value * 10 ^ scale := by
      rw [← ltDigits, digitsScaled positive]
      omega
    refine le_trans (Nat.mul_le_mul_left _ (digitsBound c2).le) ?_
    rw [← pow_add]
    exact longest
  have stands : Stands (magnitude (c1.value * 10 ^ scale) (e1 - scale - e2) / c2) (c1.value * 10 ^ scale / c2)
      (e1 - scale - e2) (c1.value * 10 ^ scale % c2 != 0) (e1 - e2) := by
    refine quotientStands pos _ (fun remains => long (Nat.pos_of_ne_zero fun zero => ?_)) (Or.inl (by omega)) ?_
    · rw [zero, Nat.zero_mul, Nat.zero_mod] at remains
      exact remains rfl
    · have short2 : Decimal.digits c2 ≤ 39 := digitsLe.mpr (lt_trans small (by norm_num))
      omega
  have same : magnitude (c1.value * 10 ^ scale) (e1 - scale - e2) / c2 = magnitude c1.value e1 / magnitude c2 e2 := by
    rw [magnitudeShift, magnitude, magnitude, magnitude, show e1 - (scale : Int) - e2 + scale = e1 - e2 by ring,
      zpow_sub₀ (by norm_num)]
    have := tenNe e2
    have : (c2 : ℚ) ≠ 0 := by exact_mod_cast pos.ne'
    field_simp
  rw [same] at stands
  refine roundSpec negative ?_
  rw [Mag.fromU128Value]
  exact stands

/-! What a sum holds, as a multiset of terms. -/

def Stored : Raw → Prop
  | .finite _ c e => Fits c e
  | _ => True

instance : ∀ r, Decidable (Stored r)
  | .nan => .isTrue trivial
  | .inf _ => .isTrue trivial
  | .finite _ c e => inferInstanceAs (Decidable (Fits c e))

/- A term is a decoded decimal, so a finite one is a pair of the format. -/
structure Term where
  raw : Raw
  stored : Stored raw

namespace Term

def value (t : Term) : ℚ :=
  match t.raw with
  | .finite negative c e => Exact.signed negative (magnitude c e)
  | _ => 0

def exponent? (t : Term) : Option Int :=
  match t.raw with
  | .finite _ _ e => some e
  | _ => none

end Term

def total (terms : Multiset Term) : ℚ := (terms.map Term.value).sum

def leastExponent (terms : Multiset Term) : Int := (terms.filterMap Term.exponent?).fold min noExponent

def Has (r : Raw) (terms : Multiset Term) : Prop := ∃ t ∈ terms, t.raw = r

/- Every finite term is a negative zero. -/
def NegativeZeros (terms : Multiset Term) : Prop :=
  ∀ t ∈ terms, ∀ negative c e, t.raw = .finite negative c e → c = 0 ∧ negative = true

structure Held (terms : Multiset Term) (s : ExactSum) : Prop where
  worth : Worth limb s.limbs.get (total terms)
  least : s.minExponent = leastExponent terms
  zeros : s.allNegativeZero = true ↔ NegativeZeros terms
  nan : s.nan = true ↔ Has .nan terms
  positive : s.positiveInfinity = true ↔ Has (.inf false) terms
  negative : s.negativeInfinity = true ↔ Has (.inf true) terms
  count : s.count = terms.card

theorem totalCons (t : Term) (terms : Multiset Term) : total (t ::ₘ terms) = total terms + t.value := by
  rw [total, Multiset.map_cons, Multiset.sum_cons, add_comm]
  rfl

theorem zerosCons {t : Term} {terms : Multiset Term} : NegativeZeros (t ::ₘ terms) ↔
    (∀ negative c e, t.raw = .finite negative c e → c = 0 ∧ negative = true) ∧ NegativeZeros terms := by
  simp only [NegativeZeros, Multiset.mem_cons, forall_eq_or_imp]

theorem hasCons {r : Raw} {t : Term} {terms : Multiset Term} : Has r (t ::ₘ terms) ↔ t.raw = r ∨ Has r terms := by
  simp [Has, Multiset.mem_cons, or_and_right, exists_or]

theorem leastCons (t : Term) (terms : Multiset Term) :
    leastExponent (t ::ₘ terms) = match t.exponent? with
      | some e => min (leastExponent terms) e
      | none => leastExponent terms := by
  unfold leastExponent
  cases is : t.exponent? with
  | none => rw [Multiset.filterMap_cons_none _ _ is]
  | some e => rw [Multiset.filterMap_cons_some _ _ _ is, Multiset.fold_cons_left, min_comm]

theorem storedExponent {t : Term} {e : Int} (is : t.exponent? = some e) : ∃ c, Fits c e := by
  obtain ⟨r,stored⟩ := t
  cases r with
  | nan | inf => cases is
  | finite negative c f =>
    cases is
    exact ⟨c,stored⟩

theorem leastLe {terms : Multiset Term} {t : Term} (member : t ∈ terms) {e : Int} (is : t.exponent? = some e) :
    leastExponent terms ≤ e := by
  obtain ⟨rest,rfl⟩ := Multiset.exists_cons_of_mem member
  rw [leastCons, is]
  exact min_le_right _ _

theorem leastAttained (terms : Multiset Term) : leastExponent terms ≤ noExponent ∧
    (leastExponent terms = noExponent ∨ ∃ t ∈ terms, t.exponent? = some (leastExponent terms)) := by
  induction terms using Multiset.induction with
  | empty => exact ⟨le_rfl,Or.inl rfl⟩
  | cons t terms ih =>
    obtain ⟨most,attained⟩ := ih
    have carry : leastExponent terms = noExponent ∨
        ∃ t' ∈ t ::ₘ terms, t'.exponent? = some (leastExponent terms) :=
      attained.imp_right fun ⟨t',member,is⟩ => ⟨t',Multiset.mem_cons_of_mem member,is⟩
    rw [leastCons]
    cases own : t.exponent? with
    | none => exact ⟨most,carry⟩
    | some e =>
      simp only
      refine ⟨(min_le_left _ _).trans most,?_⟩
      rcases min_choice (leastExponent terms) e with is | is
      · rw [is]
        exact carry
      · rw [is]
        exact Or.inr ⟨t,Multiset.mem_cons_self _ _,own⟩

theorem heldNew : Held 0 ExactSum.new := by
  refine ⟨worthZero _,rfl,?_,?_,?_,?_,rfl⟩ <;> simp [ExactSum.new, NegativeZeros, Has]

theorem heldAdd {terms : Multiset Term} {s : ExactSum} (held : Held terms s) (t : Term) :
    Held (t ::ₘ terms) (s.add t.raw) := by
  obtain ⟨worth,least,zeros,nan,positive,negative,count⟩ := held
  obtain ⟨r,stored⟩ := t
  -- only the part of the state that the kind of term belongs to moves
  cases r with
  | nan =>
    refine ⟨?_,?_,?_,?_,?_,?_,?_⟩ <;>
      simp [ExactSum.add, totalCons, Term.value, leastCons, Term.exponent?, hasCons, zerosCons, *]
  | inf minus =>
    cases minus <;> refine ⟨?_,?_,?_,?_,?_,?_,?_⟩ <;>
      simp [ExactSum.add, totalCons, Term.value, leastCons, Term.exponent?, hasCons, zerosCons, *]
  | finite minus c e =>
    refine ⟨?_,?_,?_,?_,?_,?_,?_⟩
    · rw [totalCons]
      have := ExactSum.addLimbsWorth worth minus c e false
      rw [Bool.bne_false] at this
      exact this
    · simp [ExactSum.add, ExactSum.addLimbs, leastCons, Term.exponent?, least]
    · simp only [ExactSum.add, ExactSum.addLimbs, zerosCons, Bool.and_eq_true, zeros, beq_iff_eq, Raw.finite.injEq]
      constructor
      · rintro ⟨before,zero,minus⟩
        exact ⟨fun _ _ _ ⟨first,second,_⟩ => ⟨second ▸ zero,first ▸ minus⟩,before⟩
      · rintro ⟨own,before⟩
        exact ⟨before,own minus c e ⟨rfl,rfl,rfl⟩⟩
    all_goals simp [ExactSum.add, ExactSum.addLimbs, hasCons, *]

/-! Answering from the multiset. -/

/- The one rounding of `x`; an exact zero has the sign given. -/
def Answers (x : ℚ) (zeroSign : Bool) (pref : Int) (r : Raw) : Prop :=
  Rounded (if x = 0 then zeroSign else decide (x < 0)) |x| pref r

/- What the terms come to: `x` where all are finite. -/
inductive Finishes (terms : Multiset Term) (empty : Raw) (x : ℚ) : Raw → Prop where
  | nan (undefined : Has .nan terms ∨ Has (.inf false) terms ∧ Has (.inf true) terms) : Finishes terms empty x .nan
  | inf {negative} (number : ¬ Has .nan terms) (one : Has (.inf negative) terms)
      (other : ¬ Has (.inf !negative) terms) : Finishes terms empty x (.inf negative)
  | empty (none : terms = 0) : Finishes terms empty x empty
  | finite {zeroSign r} (some : terms ≠ 0) (number : ¬ Has .nan terms) (bounded : ∀ negative, ¬ Has (.inf negative) terms)
      (zeros : zeroSign = true ↔ NegativeZeros terms) (answer : Answers x zeroSign (leastExponent terms) r) :
      Finishes terms empty x r

def Sums (terms : Multiset Term) : Raw → Prop := Finishes terms (.finite false 0 0) (total terms)

def Averages (terms : Multiset Term) : Raw → Prop := Finishes terms .nan (total terms / terms.card)

theorem zeroAnswers (sign : Bool) (pref : Int) : Answers 0 sign pref (finite sign 0 pref) := by
  rw [Answers, if_pos rfl, abs_zero, finite]
  refine .exact ⟨⟨Nat.zero_le _,le_max_left _ _,?_⟩,by simp [magnitude],fun d f fits _ => clampNearest pref fits.2.1 fits.2.2⟩
  have : minExponent ≤ maxExponent := by decide
  omega

/- Every term is a whole number of units of an exponent below all of theirs. -/
theorem totalWhole {terms : Multiset Term} {m : Int} (below : ∀ t ∈ terms, ∀ e, t.exponent? = some e → m ≤ e) :
    ∃ k : Int, total terms = k * 10 ^ m := by
  induction terms using Multiset.induction with
  | empty => exact ⟨0,by simp [total]⟩
  | cons t terms ih =>
    obtain ⟨k,is⟩ := ih fun t' member => below t' (Multiset.mem_cons_of_mem member)
    obtain ⟨j,own⟩ : ∃ j : Int, t.value = j * 10 ^ m := by
      have least := below t (Multiset.mem_cons_self t terms)
      obtain ⟨r,stored⟩ := t
      cases r with
      | nan | inf => exact ⟨0,by simp [Term.value]⟩
      | finite negative c e =>
        have order := least e rfl
        have shifted : magnitude c e = ((c * 10 ^ (e - m).toNat : Nat) : ℚ) * 10 ^ m := by
          rw [← magnitude, magnitudeShift]
          congr 1
          omega
        refine ⟨if negative then -((c * 10 ^ (e - m).toNat : Nat) : Int) else ((c * 10 ^ (e - m).toNat : Nat) : Int),?_⟩
        simp only [Term.value, shifted]
        cases negative <;> simp [Exact.signed]
    refine ⟨k + j,?_⟩
    rw [totalCons, is, own]
    push_cast
    ring

theorem Mag.ext {a b : Mag} (same : a.value = b.value) : a = b := by
  have lengths : a.limbs.length = b.limbs.length := Nat.le_antisymm
    (lengthLe b.proper a.trimmed limbOne (le_of_eq same)) (lengthLe a.proper b.trimmed limbOne (ge_of_eq same))
  have limbs : a.limbs = b.limbs := Nat.ofDigits_inj_of_len_eq limbOne lengths a.proper b.proper same
  cases a
  cases b
  congr

/- What is answered without adding up. -/
theorem specialNone {terms : Multiset Term} {s : ExactSum} (held : Held terms s) :
    s.special = none ↔ ¬ Has .nan terms ∧ ∀ negative, ¬ Has (.inf negative) terms := by
  rw [← held.nan]
  have both : (∀ negative, ¬ Has (.inf negative) terms) ↔ s.positiveInfinity = false ∧ s.negativeInfinity = false := by
    rw [Bool.forall_bool, ← held.positive, ← held.negative, Bool.not_eq_true, Bool.not_eq_true]
  rw [both, ExactSum.special]
  cases s.nan <;> cases s.positiveInfinity <;> cases s.negativeInfinity <;> simp

theorem specialSome {terms : Multiset Term} {s : ExactSum} (held : Held terms s) {r : Raw} (is : s.special = some r)
    (empty : Raw) (x : ℚ) : Finishes terms empty x r := by
  have nan := held.nan
  have positive := held.positive
  have negative := held.negative
  unfold ExactSum.special at is
  split_ifs at is with undefined infinite
  · cases is
    rw [Bool.or_eq_true, Bool.and_eq_true, nan, positive, negative] at undefined
    exact .nan undefined
  · cases is
    rw [Bool.or_eq_true, Bool.and_eq_true, not_or, not_and, nan, positive, negative] at undefined
    rw [Bool.or_eq_true, positive, negative] at infinite
    cases sign : s.negativeInfinity with
    | true =>
      have has := negative.mp sign
      exact .inf undefined.1 has fun other => undefined.2 other has
    | false =>
      have hasNot : ¬ Has (.inf true) terms := fun has => by
        rw [negative.mpr has] at sign
        cases sign
      exact .inf undefined.1 (infinite.resolve_right hasNot) hasNot

/- Every sum of the same terms answers alike. -/
theorem heldFinish {terms : Multiset Term} {s t : ExactSum} (first : Held terms s) (second : Held terms t) :
    s.finishSum = t.finishSum ∧ s.finishAvg = t.finishAvg := by
  have flag {a b : Bool} {p : Prop} (ha : a = true ↔ p) (hb : b = true ↔ p) : a = b := Bool.eq_iff_iff.mpr (ha.trans hb.symm)
  have special : s.special = t.special := by
    rw [ExactSum.special, ExactSum.special, flag first.nan second.nan, flag first.positive second.positive,
      flag first.negative second.negative]
  have exact' : s.exact = t.exact := by
    obtain ⟨k,whole⟩ := @totalWhole terms (leastExponent terms) fun _ member _ is => leastLe member is
    have left := ExactSum.exactSpec first.worth (by rw [first.least]; exact whole)
    have right := ExactSum.exactSpec second.worth (by rw [second.least]; exact whole)
    exact Prod.ext (left.1.trans right.1.symm) (Mag.ext (left.2.trans right.2.symm))
  have count : s.count = t.count := first.count.trans second.count.symm
  have least : s.minExponent = t.minExponent := first.least.trans second.least.symm
  have zeros := flag first.zeros second.zeros
  constructor
  · unfold ExactSum.finishSum
    rw [special, exact', count, least, zeros]
  · unfold ExactSum.finishAvg
    rw [special, exact', count, least, zeros]

/- The sign and the magnitude that are rounded, and what they say of the total. -/
theorem signedTotal {k : Int} {x : ℚ} {m : Int} (whole : x = k * 10 ^ m) :
    |x| = magnitude k.natAbs m ∧ (x = 0 ↔ k = 0) ∧ (x < 0 ↔ k < 0) := by
  have ten := tenPos m
  refine ⟨?_,?_,?_⟩
  · rw [whole, abs_mul, abs_of_pos ten, magnitude, Nat.cast_natAbs]
    push_cast
    rfl
  · rw [whole, mul_eq_zero]
    constructor
    · rintro (zero | zero)
      · exact_mod_cast zero
      · exact absurd zero ten.ne'
    · intro zero
      exact Or.inl (by exact_mod_cast zero)
  · rw [whole, mul_neg_iff]
    constructor
    · rintro (⟨_,negative⟩ | ⟨negative,_⟩)
      · linarith
      · exact_mod_cast negative
    · intro negative
      exact Or.inr ⟨by exact_mod_cast negative,ten⟩

theorem finishSumSpec {terms : Multiset Term} {s : ExactSum} (held : Held terms s) :
    ∃ r, s.finishSum = some r ∧ Sums terms r := by
  unfold ExactSum.finishSum
  cases special : s.special with
  | some r => exact ⟨r,rfl,specialSome held special _ _⟩
  | none =>
    obtain ⟨number,bounded⟩ := (specialNone held).mp special
    simp only
    rw [held.count]
    by_cases none : terms = 0
    · rw [if_pos (Multiset.card_eq_zero.mpr none)]
      exact ⟨_,rfl,.empty none⟩
    · rw [if_neg (mt Multiset.card_eq_zero.mp none)]
      obtain ⟨k,whole⟩ := @totalWhole terms (leastExponent terms) fun _ member _ is => leastLe member is
      obtain ⟨sign,value⟩ := ExactSum.exactSpec held.worth (by rw [held.least]; exact whole)
      obtain ⟨size,zero,negative⟩ := signedTotal whole
      by_cases cancels : k = 0
      · rw [if_pos ((Mag.isZeroValue _).mpr (by rw [value, cancels]; rfl))]
        refine ⟨_,rfl,.finite none number bounded held.zeros ?_⟩
        rw [zero.mpr cancels, held.least]
        exact zeroAnswers _ _
      · have some : ¬ s.exact.2.isZero = true := by
          rw [Mag.isZeroValue, value]
          omega
        rw [if_neg some, held.least]
        have stands : Stands |total terms| s.exact.2.value (leastExponent terms) false (leastExponent terms) := by
          refine ⟨by rw [value, size],?_,by rw [value, size]; simp,Bool.noConfusion,Or.inl le_rfl,by omega⟩
          rw [value, size, magnitude, magnitude]
          exact mul_lt_mul_of_pos_right (by push_cast; linarith) (tenPos _)
        obtain ⟨r,is,rounded⟩ := roundSpec s.exact.1 stands
        refine ⟨r,is,.finite none number bounded held.zeros ?_⟩
        rw [Answers, if_neg (mt zero.mp cancels)]
        rw [sign] at rounded
        simpa only [negative] using rounded

/- The mean's cut: the digits kept and one bit for the rest decide its rounding. -/
theorem meanStands {c n t : Nat} (pos : 0 < n) (e : Int) (long : 10 ^ 34 ≤ c / 10 ^ t / n) :
    Stands (magnitude c e / n) (c / 10 ^ t / n) (e + t) (c / 10 ^ t % n != 0 || c % 10 ^ t != 0) e := by
  have power : 0 < 10 ^ t := by positivity
  have both : 0 < 10 ^ t * n := Nat.mul_pos power pos
  have stands := @quotientStands c (10 ^ t * n) both e e (fun _ => by rw [← Nat.div_div_eq_div_mul]; exact long) (Or.inl le_rfl) (by omega)
  have same : magnitude c e / ((10 ^ t * n : Nat) : ℚ) * 10 ^ t = magnitude c e / n := by
    have : (n : ℚ) ≠ 0 := by exact_mod_cast pos.ne'
    push_cast
    field_simp
  have raise (d : Nat) : magnitude d e * 10 ^ t = magnitude d (e + t) := by
    rw [magnitude, magnitude, zpow_add₀ (by norm_num), zpow_natCast, mul_assoc]
  have unit : (0 : ℚ) < 10 ^ t := by positivity
  obtain ⟨low,high,exact',_,_,_⟩ := stands
  rw [← Nat.div_div_eq_div_mul] at low high exact'
  refine ⟨?_,?_,?_,fun _ => long,Or.inr long,by omega⟩
  · rw [← same, ← raise]
    exact mul_le_mul_of_nonneg_right low unit.le
  · rw [← same, ← raise]
    exact mul_lt_mul_of_pos_right high unit
  · have parts : (c / 10 ^ t % n != 0 || c % 10 ^ t != 0) = (c % (10 ^ t * n) != 0) := by
      rw [Nat.mod_mul]
      rw [Bool.eq_iff_iff]
      simp only [Bool.or_eq_true, bne_iff_ne]
      constructor
      · rintro (above | below)
        · have := Nat.mul_pos power (Nat.pos_of_ne_zero above)
          omega
        · omega
      · intro some
        by_contra none
        rw [not_or, not_not, not_not] at none
        rw [none.1, none.2] at some
        simp at some
    rw [parts, exact', ← same, ← raise]
    exact (mul_left_inj' unit.ne').symm

theorem meanSpec (negative : Bool) (c : Mag) (e : Int) {n : Nat} (pos : 0 < n) (small : n < 2 ^ 64) :
    ∃ r, mean negative c e n = some r ∧ Rounded negative (magnitude c.value e / n) e r := by
  have prec' : prec = 34 := rfl
  unfold mean
  simp only [Mag.digitsValue]
  split_ifs with whole
  · obtain ⟨r,is,rounded⟩ := divideSpec negative c e 0 pos (lt_trans small (by norm_num)) (by omega)
    refine ⟨r,is,?_⟩
    rw [sub_zero] at rounded
    simpa [magnitude] using rounded
  · obtain ⟨t,is⟩ : ∃ t : Nat, max ((Decimal.digits c.value : Int) - ((prec : Int) + 1 + Decimal.digits n + 1)) 0 = t :=
      ⟨_,(Int.toNat_of_nonneg (le_max_right _ _)).symm⟩
    rw [is] at whole ⊢
    rw [Int.toNat_natCast]
    have length : Decimal.digits c.value = 36 + Decimal.digits n + t := by omega
    have some := digitsPos pos
    have least : 10 ^ (Decimal.digits n - 1) ≤ n := ltDigits.mp (by omega)
    have kept : c.value / 10 ^ t < 10 ^ 37 * 10 ^ (Decimal.digits n - 1) := by
      refine Nat.div_lt_of_lt_mul ?_
      rw [← pow_add, ← pow_add, ← digitsLe]
      omega
    have fits : c.value / 10 ^ t / n < 2 ^ 128 := by
      have quotient : c.value / 10 ^ t / n < 10 ^ 37 := by
        refine Nat.div_lt_of_lt_mul (lt_of_lt_of_le kept ?_)
        rw [Nat.mul_comm]
        exact Nat.mul_le_mul_right _ least
      have bound : (10 : Nat) ^ 37 < 2 ^ 128 := by norm_num
      omega
    have long : 10 ^ 34 ≤ c.value / 10 ^ t / n := by
      rw [Nat.div_div_eq_div_mul, Nat.le_div_iff_mul_le (Nat.mul_pos (by positivity) pos)]
      have longest : 10 ^ (35 + Decimal.digits n + t) ≤ c.value := by
        rw [← ltDigits]
        omega
      refine le_trans ?_ longest
      calc 10 ^ 34 * (10 ^ t * n) ≤ 10 ^ 34 * (10 ^ t * 10 ^ Decimal.digits n) :=
            Nat.mul_le_mul_left _ (Nat.mul_le_mul_left _ (digitsBound n).le)
        _ = 10 ^ (34 + t + Decimal.digits n) := by rw [← Nat.mul_assoc, ← pow_add, ← pow_add]
        _ ≤ 10 ^ (35 + Decimal.digits n + t) := Nat.pow_le_pow_right (by decide) (by omega)
    obtain ⟨_,tail⟩ := c.splitDigitsCut (show 0 < t by omega)
    have sticky : (!(c.splitDigits t).2.isZero) = (c.value % 10 ^ t != 0) := by
      rw [Bool.eq_iff_iff, Bool.not_eq_true', bne_iff_ne, ne_eq, ← tail]
      simp
    have value : (c.splitDigits t).1.toBig.value = c.value / 10 ^ t := by rw [Mag.toBigValue, Mag.splitDigitsValue]
    simp only [sticky]
    rw [Big.divRemU128Spec _ pos (lt_trans small (by norm_num)) (by rw [value]; exact fits), value]
    simp only [Option.bind_eq_bind, Option.bind_some]
    refine roundSpec negative ?_
    rw [Mag.fromU128Value]
    exact meanStands pos e long

theorem finishAvgSpec {terms : Multiset Term} {s : ExactSum} (held : Held terms s) (bound : terms.card < 2 ^ 64) :
    ∃ r, s.finishAvg = some r ∧ Averages terms r := by
  unfold ExactSum.finishAvg
  cases special : s.special with
  | some r => exact ⟨r,rfl,specialSome held special _ _⟩
  | none =>
    obtain ⟨number,bounded⟩ := (specialNone held).mp special
    simp only
    rw [held.count]
    by_cases none : terms = 0
    · rw [if_pos (Multiset.card_eq_zero.mpr none)]
      exact ⟨_,rfl,.empty none⟩
    · have pos : 0 < terms.card := Multiset.card_pos.mpr none
      have positive : (0 : ℚ) < terms.card := by exact_mod_cast pos
      rw [if_neg (mt Multiset.card_eq_zero.mp none)]
      obtain ⟨k,whole⟩ := @totalWhole terms (leastExponent terms) fun _ member _ is => leastLe member is
      obtain ⟨sign,value⟩ := ExactSum.exactSpec held.worth (by rw [held.least]; exact whole)
      obtain ⟨size,zero,negative⟩ := signedTotal whole
      by_cases cancels : k = 0
      · rw [if_pos ((Mag.isZeroValue _).mpr (by rw [value, cancels]; rfl))]
        refine ⟨_,rfl,.finite none number bounded held.zeros ?_⟩
        rw [zero.mpr cancels, zero_div, held.least]
        exact zeroAnswers _ _
      · have some : ¬ s.exact.2.isZero = true := by
          rw [Mag.isZeroValue, value]
          omega
        rw [if_neg some, held.least]
        obtain ⟨r,is,rounded⟩ := meanSpec s.exact.1 s.exact.2 (leastExponent terms) pos bound
        refine ⟨r,is,.finite none number bounded held.zeros ?_⟩
        have below : total terms / terms.card < 0 ↔ k < 0 := by
          rw [div_neg_iff, ← negative]
          constructor
          · rintro (⟨_,less⟩ | ⟨less,_⟩)
            · linarith
            · exact less
          · exact fun less => Or.inr ⟨less,positive⟩
        have nonzero : total terms / terms.card ≠ 0 := fun is =>
          cancels (zero.mp ((div_eq_zero_iff.mp is).resolve_right positive.ne'))
        rw [Answers, if_neg nonzero, abs_div, size, abs_of_pos positive]
        rw [sign, value] at rounded
        simpa only [below] using rounded

end Kimmy.Decimal.Arith
