import Kimmy.ExactSum

/-!
Exact sums that terms can leave (`RunningSum` of `decimal/arith.rs`). The limbs are linear, so
a term leaves by adding its negation; the flags and the least exponent are kept as counts and
as a multiset of exponents, and written into the inner sum after each change.
-/
namespace Kimmy.Decimal.Arith
open Kimmy.Limbs

structure RunningSum where
  inner : ExactSum
  exponents : SortedMap Int Nat
  negativeZeros : Nat
  finite : Nat
  nan : Nat
  positiveInfinity : Nat
  negativeInfinity : Nat

namespace RunningSum

def new : RunningSum := ⟨.new,.empty,0,0,0,0,0⟩

def count (r : RunningSum) : Nat := r.finite + r.nan + r.positiveInfinity + r.negativeInfinity

/- One more, or one less and never below zero. -/
def step (adding : Bool) (n : Nat) : Nat := if adding then n + 1 else n - 1

def stepExponent (adding : Bool) (exponents : SortedMap Int Nat) (exponent : Int) : SortedMap Int Nat :=
  if adding then exponents.insert exponent ((exponents.get exponent).getD 0 + 1)
  else
    match exponents.get exponent with
    | none => exponents
    | some held => if held - 1 = 0 then exponents.remove exponent else exponents.insert exponent (held - 1)

/- The counters a term moves. -/
def moved (r : RunningSum) (term : Raw) (adding : Bool) : RunningSum :=
  match term with
  | .nan => { r with nan := step adding r.nan }
  | .inf true => { r with negativeInfinity := step adding r.negativeInfinity }
  | .inf false => { r with positiveInfinity := step adding r.positiveInfinity }
  | .finite negative coefficient exponent =>
      { r with
        finite := step adding r.finite
        negativeZeros := if coefficient = 0 ∧ negative = true then step adding r.negativeZeros else r.negativeZeros
        exponents := stepExponent adding r.exponents exponent
        inner := r.inner.addLimbs negative coefficient exponent (!adding) }

/- What the counters say, written into the inner sum. -/
def refresh (r : RunningSum) : RunningSum :=
  { r with
    inner :=
      { r.inner with
        nan := decide (0 < r.nan)
        positiveInfinity := decide (0 < r.positiveInfinity)
        negativeInfinity := decide (0 < r.negativeInfinity)
        minExponent := (r.exponents.entries.head?.map Prod.fst).getD noExponent
        allNegativeZero := r.negativeZeros == r.finite
        count := r.count } }

def change (r : RunningSum) (term : Raw) (adding : Bool) : RunningSum := (r.moved term adding).refresh

def add (r : RunningSum) (term : Raw) : RunningSum := r.change term true
def remove (r : RunningSum) (term : Raw) : RunningSum := r.change term false

def finishSum (r : RunningSum) : Option Raw := r.inner.finishSum
def finishAvg (r : RunningSum) : Option Raw := r.inner.finishAvg

end RunningSum

/-! How many of the terms there are of each kind. -/

def tally (p : Raw → Bool) (terms : Multiset Term) : Nat := terms.countP fun t => p t.raw = true

def isNegativeZero : Raw → Bool
  | .finite negative c _ => c == 0 && negative
  | _ => false

def equals (r x : Raw) : Bool := decide (x = r)

def isFinite : Raw → Bool
  | .finite .. => true
  | _ => false

def hasExponent (e : Int) : Raw → Bool
  | .finite _ _ f => decide (e = f)
  | _ => false

theorem tallyCons (p : Raw → Bool) (t : Term) (terms : Multiset Term) :
    tally p (t ::ₘ terms) = tally p terms + (p t.raw).toNat := by
  rw [tally, Multiset.countP_cons]
  cases p t.raw <;> rfl

theorem tallyPos {p : Raw → Bool} {terms : Multiset Term} : 0 < tally p terms ↔ ∃ t ∈ terms, p t.raw = true :=
  Multiset.countP_pos

theorem tallyHas (r : Raw) (terms : Multiset Term) : 0 < tally (equals r) terms ↔ Has r terms := by
  rw [tallyPos]
  simp [equals, Has]

/- All finite terms are negative zeros where as many are. -/
theorem tallyZeros (terms : Multiset Term) : tally isNegativeZero terms ≤ tally isFinite terms ∧
    (tally isNegativeZero terms = tally isFinite terms ↔ NegativeZeros terms) := by
  induction terms using Multiset.induction with
  | empty => simp [tally, NegativeZeros]
  | cons t terms ih =>
    obtain ⟨most,same⟩ := ih
    rw [tallyCons, tallyCons, zerosCons, ← same]
    obtain ⟨r,stored⟩ := t
    cases r with
    | nan | inf => simp [isNegativeZero, isFinite, most]
    | finite negative c e =>
      by_cases zero : c = 0 ∧ negative = true
      · obtain ⟨rfl,rfl⟩ := zero
        simp [isNegativeZero, isFinite, most]
      · have not : isNegativeZero (.finite negative c e) = false := by
          rw [Bool.eq_false_iff, isNegativeZero, ne_eq, Bool.and_eq_true, beq_iff_eq]
          exact zero
        simp only [not, isFinite, Bool.toNat_false, Bool.toNat_true]
        refine ⟨by omega,⟨fun is => by omega,fun held => absurd (held.1 negative c e rfl) zero⟩⟩

theorem tallyAll (terms : Multiset Term) : tally isFinite terms + tally (equals .nan) terms +
    tally (equals (.inf false)) terms + tally (equals (.inf true)) terms = terms.card := by
  induction terms using Multiset.induction with
  | empty => simp [tally]
  | cons t terms ih =>
    rw [tallyCons, tallyCons, tallyCons, tallyCons, Multiset.card_cons, ← ih]
    obtain ⟨r,stored⟩ := t
    cases r with
    | nan => simp [equals, isFinite]; omega
    | inf negative => cases negative <;> simp [equals, isFinite] <;> omega
    | finite => simp [equals, isFinite]; omega

structure Tallied (terms : Multiset Term) (r : RunningSum) : Prop where
  worth : Worth limb r.inner.limbs.get (total terms)
  exponents : ∀ e, r.exponents.get e = if tally (hasExponent e) terms = 0 then none else some (tally (hasExponent e) terms)
  negativeZeros : r.negativeZeros = tally isNegativeZero terms
  finite : r.finite = tally isFinite terms
  nan : r.nan = tally (equals .nan) terms
  positive : r.positiveInfinity = tally (equals (.inf false)) terms
  negative : r.negativeInfinity = tally (equals (.inf true)) terms

theorem talliedNew : Tallied 0 .new := by
  refine ⟨worthZero _,fun e => ?_,?_,?_,?_,?_,?_⟩ <;> simp [RunningSum.new, tally]

/- The least exponent held is that of the terms. -/
theorem leastHeld {terms : Multiset Term} {r : RunningSum} (tallied : Tallied terms r) :
    (r.exponents.entries.head?.map Prod.fst).getD noExponent = leastExponent terms := by
  have held (e : Int) : (∃ n, r.exponents.get e = some n) ↔ ∃ t ∈ terms, t.exponent? = some e := by
    have of : (∃ t ∈ terms, t.exponent? = some e) ↔ 0 < tally (hasExponent e) terms := by
      rw [tallyPos]
      refine exists_congr fun t => and_congr_right fun _ => ?_
      obtain ⟨x,stored⟩ := t
      cases x with
      | nan | inf => simp [Term.exponent?, hasExponent]
      | finite negative c f => simpa [Term.exponent?, hasExponent] using eq_comm
    rw [of, tallied.exponents e]
    split_ifs with none
    · simp [none]
    · simp only [Option.some.injEq, exists_eq', true_iff]
      omega
  obtain ⟨most,attained⟩ := leastAttained terms
  cases first : r.exponents.entries with
  | nil =>
    rcases attained with none | ⟨t,member,is⟩
    · exact none.symm
    · obtain ⟨n,got⟩ := (held _).mpr ⟨t,member,is⟩
      rw [← SortedMap.memEntries, first] at got
      cases got
  | cons pair rest =>
    obtain ⟨e,n⟩ := pair
    have sorted := r.exponents.sorted
    rw [first] at sorted
    have front : r.exponents.get e = some n := by
      rw [← SortedMap.memEntries, first]
      exact List.mem_cons_self
    obtain ⟨t,member,own⟩ := (held e).mp ⟨n,front⟩
    refine le_antisymm ?_ (leastLe member own)
    rcases attained with none | ⟨t',member',is⟩
    · rw [none]
      obtain ⟨c,fits⟩ := storedExponent own
      exact fits.2.2.trans (by decide)
    · obtain ⟨n',got⟩ := (held _).mpr ⟨t',member',is⟩
      rw [← SortedMap.memEntries, first] at got
      rcases List.mem_cons.mp got with here | later
      · exact (congrArg Prod.fst here).ge
      · exact ((List.pairwise_cons.mp sorted).1 _ later).le

theorem refreshHeld {terms : Multiset Term} {r : RunningSum} (tallied : Tallied terms r) :
    Held terms r.refresh.inner ∧ Tallied terms r.refresh := by
  obtain ⟨most,zeros⟩ := tallyZeros terms
  refine ⟨⟨tallied.worth,leastHeld tallied,?_,?_,?_,?_,?_⟩,⟨tallied.worth,tallied.2,tallied.3,tallied.4,tallied.5,tallied.6,tallied.7⟩⟩
  · simp only [RunningSum.refresh, beq_iff_eq, tallied.negativeZeros, tallied.finite]
    exact zeros
  · simp only [RunningSum.refresh, decide_eq_true_eq, tallied.nan]
    exact tallyHas _ _
  · simp only [RunningSum.refresh, decide_eq_true_eq, tallied.positive]
    exact tallyHas _ _
  · simp only [RunningSum.refresh, decide_eq_true_eq, tallied.negative]
    exact tallyHas _ _
  · simp only [RunningSum.refresh, RunningSum.count, tallied.finite, tallied.nan, tallied.positive, tallied.negative]
    exact tallyAll terms

theorem stepExponentGet {exponents : SortedMap Int Nat} {n : Int → Nat}
    (is : ∀ e, exponents.get e = if n e = 0 then none else some (n e)) (e : Int) :
    (∀ f, (RunningSum.stepExponent true exponents e).get f =
      if n f + (decide (f = e)).toNat = 0 then none else some (n f + (decide (f = e)).toNat)) ∧
    (0 < n e → ∀ f, (RunningSum.stepExponent false exponents e).get f =
      if n f - (decide (f = e)).toNat = 0 then none else some (n f - (decide (f = e)).toNat)) := by
  constructor
  · intro f
    simp only [RunningSum.stepExponent, if_true, SortedMap.getInsert, is]
    by_cases here : f = e
    · subst here
      rw [if_pos rfl]
      split_ifs <;> simp_all
    · simp [here]
  · intro some f
    simp only [RunningSum.stepExponent, Bool.false_eq_true, if_false, is e]
    rw [if_neg some.ne']
    simp only
    by_cases here : f = e
    · subst here
      split_ifs with last <;> simp_all
    · have apart : (decide (f = e)).toNat = 0 := by simp [here]
      rw [apart, Nat.sub_zero, ← is f]
      split_ifs with last <;> simp [here]

theorem movedAdd {terms : Multiset Term} {r : RunningSum} (tallied : Tallied terms r) (t : Term) :
    Tallied (t ::ₘ terms) (r.moved t.raw true) := by
  obtain ⟨worth,exponents,negativeZeros,finite,nan,positive,negative⟩ := tallied
  obtain ⟨x,stored⟩ := t
  cases x with
  | nan =>
    refine ⟨?_,fun e => ?_,?_,?_,?_,?_,?_⟩ <;>
      simp [RunningSum.moved, RunningSum.step, totalCons, Term.value, tallyCons, hasExponent, isNegativeZero, isFinite, equals, *]
  | inf minus =>
    cases minus <;> refine ⟨?_,fun e => ?_,?_,?_,?_,?_,?_⟩ <;>
      simp [RunningSum.moved, RunningSum.step, totalCons, Term.value, tallyCons, hasExponent, isNegativeZero, isFinite, equals, *]
  | finite minus c e =>
    refine ⟨?_,fun f => ?_,?_,?_,?_,?_,?_⟩
    · rw [totalCons]
      have := ExactSum.addLimbsWorth worth minus c e (!true)
      rw [Bool.not_true, Bool.bne_false] at this
      exact this
    · rw [tallyCons]
      exact (stepExponentGet exponents e).1 f
    · rw [tallyCons, ← negativeZeros]
      by_cases zero : c = 0 ∧ minus = true
      · obtain ⟨rfl,rfl⟩ := zero
        simp [RunningSum.moved, RunningSum.step, isNegativeZero]
      · have not : isNegativeZero (.finite minus c e) = false := by
          rw [Bool.eq_false_iff, isNegativeZero, ne_eq, Bool.and_eq_true, beq_iff_eq]
          exact zero
        simp [RunningSum.moved, not, zero]
    all_goals simp [RunningSum.moved, RunningSum.step, tallyCons, isFinite, equals, *]

theorem movedRemove {terms : Multiset Term} {r : RunningSum} {t : Term} (tallied : Tallied (t ::ₘ terms) r) :
    Tallied terms (r.moved t.raw false) := by
  obtain ⟨worth,exponents,negativeZeros,finite,nan,positive,negative⟩ := tallied
  obtain ⟨x,stored⟩ := t
  rw [totalCons] at worth
  simp only [tallyCons] at exponents negativeZeros finite nan positive negative
  cases x with
  | nan =>
    refine ⟨?_,fun e => ?_,?_,?_,?_,?_,?_⟩ <;>
      simp_all [RunningSum.moved, RunningSum.step, Term.value, hasExponent, isNegativeZero, isFinite, equals]
  | inf minus =>
    cases minus <;> refine ⟨?_,fun e => ?_,?_,?_,?_,?_,?_⟩ <;>
      simp_all [RunningSum.moved, RunningSum.step, Term.value, hasExponent, isNegativeZero, isFinite, equals]
  | finite minus c e =>
    refine ⟨?_,fun f => ?_,?_,?_,?_,?_,?_⟩
    · have gone := ExactSum.addLimbsWorth worth minus c e (!false)
      have back : total terms + Term.value ⟨.finite minus c e,stored⟩ + Exact.signed (minus != !false) (magnitude c e) =
          total terms := by
        cases minus <;> simp [Term.value, Exact.signed]
      rw [back] at gone
      exact gone
    · have here : 0 < tally (hasExponent e) terms + (hasExponent e (.finite minus c e)).toNat := by simp [hasExponent]
      have less := (stepExponentGet exponents e).2 here f
      simp only [hasExponent, Nat.add_sub_cancel] at less
      exact less
    · by_cases zero : c = 0 ∧ minus = true
      · obtain ⟨rfl,rfl⟩ := zero
        simp [RunningSum.moved, RunningSum.step, negativeZeros, isNegativeZero]
      · have not : isNegativeZero (.finite minus c e) = false := by
          rw [Bool.eq_false_iff, isNegativeZero, ne_eq, Bool.and_eq_true, beq_iff_eq]
          exact zero
        simp [RunningSum.moved, negativeZeros, not, zero]
    all_goals simp_all [RunningSum.moved, RunningSum.step, isFinite, equals]

/- Any sequence of changes in which a removal takes out a term still held, and the terms left. -/
inductive Runs : RunningSum → Multiset Term → Prop where
  | new : Runs .new 0
  | add {r terms} (t : Term) (before : Runs r terms) : Runs (r.add t.raw) (t ::ₘ terms)
  | remove {r terms} (t : Term) (before : Runs r (t ::ₘ terms)) : Runs (r.remove t.raw) terms

theorem runTallied {r : RunningSum} {terms : Multiset Term} (run : Runs r terms) :
    Tallied terms r ∧ Held terms r.inner := by
  induction run with
  | new => exact ⟨talliedNew,heldNew⟩
  | add t _ ih => exact (refreshHeld (movedAdd ih.1 t)).symm
  | remove t _ ih => exact (refreshHeld (movedRemove ih.1)).symm

/- A fresh sum of the terms in some order. -/
def fresh (terms : List Term) : ExactSum := terms.foldl (fun s t => s.add t.raw) .new

theorem freshHeld (terms : List Term) : Held terms (fresh terms) := by
  have general {s : ExactSum} {held : Multiset Term} (before : Held held s) :
      Held (held + terms) (terms.foldl (fun s t => s.add t.raw) s) := by
    induction terms generalizing s held with
    | nil => simpa using before
    | cons t terms ih =>
      rw [← Multiset.cons_coe, Multiset.add_cons, ← Multiset.cons_add]
      exact ih (heldAdd before t)
  have all := general heldNew
  rw [zero_add] at all
  exact all

theorem runningSumFresh {r : RunningSum} {terms : List Term} (run : Runs r terms) :
    r.finishSum = (fresh terms).finishSum ∧ r.finishAvg = (fresh terms).finishAvg ∧
      (∃ sum, r.finishSum = some sum ∧ Sums terms sum) ∧
      (terms.length < 2 ^ 64 → ∃ avg, r.finishAvg = some avg ∧ Averages terms avg) := by
  obtain ⟨_,held⟩ := runTallied run
  obtain ⟨sum,avg⟩ := heldFinish held (freshHeld terms)
  exact ⟨sum,avg,finishSumSpec held,fun bound => finishAvgSpec held bound⟩

/- A negative zero stays after 1.50 has come and gone. -/
theorem runningSumNegativeZero :
    let price : Term := ⟨.finite false 150 (-2),by decide⟩
    let zero : Term := ⟨.finite true 0 (-1),by decide⟩
    let r := ((RunningSum.new.add zero.raw).add price.raw).remove price.raw
    r.finishSum = (fresh [zero]).finishSum ∧ r.finishAvg = (fresh [zero]).finishAvg ∧
      (∃ sum, r.finishSum = some sum ∧ Sums [zero] sum) ∧
      (([zero] : List Term).length < 2 ^ 64 → ∃ avg, r.finishAvg = some avg ∧ Averages [zero] avg) := by
  intro price zero r
  have held : Runs r ([zero] : List Term) := .remove price (.add price (.add zero .new))
  exact runningSumFresh held

end Kimmy.Decimal.Arith
