import Kimmy.DecimalOps
import Kimmy.Window.Ranks

/-!
The slider of sums and averages. Its plain state is settled by the numbers it holds, each field being a count or a sum
of them, and its decimal state answers as a fresh sum of the same terms does.
-/
namespace Kimmy.Window
open Decimal.Arith Decimal

/-! Plain numbers. -/

def isInteger : Bson → Bool
  | .int32 _ | .int64 _ => true
  | _ => false

def isLong : Bson → Bool
  | .int64 _ => true
  | _ => false

def ofDouble (test : UInt64 → Bool) : Bson → Bool
  | .double bits => test bits
  | _ => false

def finiteWord (bits : UInt64) : Bool := fieldOf bits < infinity
def infiniteWord (negative : Bool) (bits : UInt64) : Bool := fieldOf bits = infinity && signOf bits == negative

def finiteDigit (i : Nat) (v : Bson) : Int := if ofDouble finiteWord v then doubleDigit i v else 0

/- What the state is, given the values held. -/
structure Plain.Tally (p : Plain) (held : List Bson) : Prop where
  ints : p.ints = wrap 128 (held.map integerOf).sum
  nInt : p.nInt = held.countP isInteger
  nLong : p.nLong = held.countP isLong
  nDbl : p.nDbl = held.countP (ofDouble finiteWord)
  digits : p.doubles.Keeps fun i => (held.map (finiteDigit i)).sum
  nan : p.nan = held.countP (ofDouble isNan)
  posInf : p.posInf = held.countP (ofDouble (infiniteWord false))
  negInf : p.negInf = held.countP (ofDouble (infiniteWord true))

theorem Plain.tallyNew : new.Tally [] := ⟨rfl,rfl,rfl,rfl,ExactDoubles.zeroKeeps,rfl,rfl,rfl⟩

theorem doublesUnique {s t : ExactDoubles} {exact' : Nat → Int} (first : s.Keeps exact') (second : t.Keeps exact') : s = t := by
  obtain ⟨xs,full⟩ := s
  obtain ⟨ys,full'⟩ := t
  have same : xs = ys := by
    refine List.ext_getElem (full.trans full'.symm) fun i inside inside' => ?_
    have one := first i (full ▸ inside)
    have two := second i (full ▸ inside)
    simp only [List.getD_eq_getElem?_getD, List.getElem?_eq_getElem inside, List.getElem?_eq_getElem inside',
      Option.getD_some] at one two
    exact one.trans two.symm
  subst same
  rfl

theorem Plain.tallyUnique {p q : Plain} {held : List Bson} (first : p.Tally held) (second : q.Tally held) : p = q := by
  have doubles := doublesUnique first.digits second.digits
  cases p
  cases q
  have ints := first.ints.trans second.ints.symm
  have nInt := first.nInt.trans second.nInt.symm
  have nLong := first.nLong.trans second.nLong.symm
  have nDbl := first.nDbl.trans second.nDbl.symm
  have nan := first.nan.trans second.nan.symm
  have posInf := first.posInf.trans second.posInf.symm
  have negInf := first.negInf.trans second.negInf.symm
  simp only at ints nInt nLong nDbl nan posInf negInf doubles
  rw [ints, nInt, nLong, nDbl, nan, posInf, negInf, doubles]

/- The values before and after one of them came in or went out. -/
structure Stepped (v : Bson) (adding : Bool) (held after : List Bson) : Prop where
  total : ∀ f : Bson → Int, (after.map f).sum = (held.map f).sum + signedTerm (!adding) (f v)
  counted : ∀ p : Bson → Bool, after.countP p = if p v then Plain.count adding (held.countP p) else held.countP p

theorem steppedIn (v : Bson) (held : List Bson) : Stepped v true held (held ++ [v]) := by
  refine ⟨fun f => ?_,fun p => ?_⟩
  · rw [List.map_append, List.sum_append, List.map_singleton, List.sum_singleton]
    rfl
  · rw [List.countP_append, List.countP_singleton]
    split_ifs
    · rfl
    · rfl

theorem steppedOut (v : Bson) (held : List Bson) : Stepped v false (v :: held) held := by
  refine ⟨fun f => ?_,fun p => ?_⟩
  · rw [List.map_cons, List.sum_cons, Bool.not_false, signedTerm, if_pos rfl]
    omega
  · rw [List.countP_cons]
    split_ifs
    · exact (Nat.add_sub_cancel ..).symm
    · rfl

theorem noneFinite {held : List Bson} (none : held.countP (ofDouble finiteWord) = 0) (i : Nat) :
    (held.map (finiteDigit i)).sum = 0 := by
  refine List.sum_eq_zero fun x member => ?_
  obtain ⟨v,there,rfl⟩ := List.mem_map.mp member
  exact if_neg (List.countP_eq_zero.mp none v there)

/- A value that the state does not count leaves every sum and every count alone. -/
theorem Plain.Tally.same {p : Plain} {held after : List Bson} {v : Bson} {adding : Bool} (tally : p.Tally held)
    (stepped : Stepped v adding held after) (integer : isInteger v = false) (long : isLong v = false)
    (double : ∀ test, ofDouble test v = false) : p.Tally after := by
  have zero : integerOf v = 0 := by cases v <;> first | rfl | cases integer
  have digit (i : Nat) : finiteDigit i v = 0 := by rw [finiteDigit, double, if_neg Bool.false_ne_true]
  refine ⟨?_,?_,?_,?_,?_,?_,?_,?_⟩
  · rw [stepped.total, zero, signedTermZero, add_zero]
    exact tally.ints
  · rw [stepped.counted, integer]
    exact tally.nInt
  · rw [stepped.counted, long]
    exact tally.nLong
  · rw [stepped.counted, double]
    exact tally.nDbl
  · simp only [stepped.total, digit, signedTermZero, add_zero]
    exact tally.digits
  · rw [stepped.counted, double]
    exact tally.nan
  · rw [stepped.counted, double]
    exact tally.posInf
  · rw [stepped.counted, double]
    exact tally.negInf

/- A double that is counted and not summed. -/
theorem Plain.Tally.special {p q : Plain} {held after : List Bson} {bits : UInt64} {adding : Bool} (tally : p.Tally held)
    (stepped : Stepped (.double bits) adding held after) (large : finiteWord bits = false)
    (same : q.ints = p.ints ∧ q.nInt = p.nInt ∧ q.nLong = p.nLong ∧ q.nDbl = p.nDbl ∧ q.doubles = p.doubles)
    (nan : q.nan = if isNan bits then count adding p.nan else p.nan)
    (posInf : q.posInf = if infiniteWord false bits then count adding p.posInf else p.posInf)
    (negInf : q.negInf = if infiniteWord true bits then count adding p.negInf else p.negInf) : q.Tally after := by
  obtain ⟨ints,nInt,nLong,nDbl,doubles⟩ := same
  have digit (i : Nat) : finiteDigit i (.double bits) = 0 := if_neg (by rw [ofDouble, large]; exact Bool.false_ne_true)
  have zero : integerOf (.double bits) = 0 := rfl
  refine ⟨?_,?_,?_,?_,?_,?_,?_,?_⟩
  · rw [stepped.total, ints, tally.ints, zero, signedTermZero, add_zero]
  · rw [stepped.counted, nInt]
    exact tally.nInt
  · rw [stepped.counted, nLong]
    exact tally.nLong
  · rw [stepped.counted, nDbl, ofDouble, large]
    exact tally.nDbl
  · rw [doubles]
    simp only [stepped.total, digit, signedTermZero, add_zero]
    exact tally.digits
  · rw [stepped.counted, nan, tally.nan]
    rfl
  · rw [stepped.counted, posInf, tally.posInf]
    rfl
  · rw [stepped.counted, negInf, tally.negInf]
    rfl

theorem Plain.Tally.double {p : Plain} {held after : List Bson} {bits : UInt64} {adding : Bool} (tally : p.Tally held)
    (stepped : Stepped (.double bits) adding held after) : (p.apply (.double bits) adding).Tally after := by
  rcases lt_trichotomy (fieldOf bits) infinity with small | top | beyond
  · obtain ⟨x,finite⟩ : Summand (.double bits) := ⟨_,(doubleFinite bits).1 small⟩
    have applied : p.apply (.double bits) adding = p.applyDouble bits adding := by
      unfold Plain.apply
      simp only [if_neg (not_lt.mpr small.le), if_neg small.ne]
    obtain ⟨number,_,digits⟩ := p.applyFields (v := .double bits) ⟨x,finite⟩ adding tally.digits
    have word : finiteWord bits = true := decide_eq_true small
    have notNan : isNan bits = false := decide_eq_false (not_lt.mpr small.le)
    have notInfinite (negative : Bool) : infiniteWord negative bits = false := by
      rw [infiniteWord, decide_eq_false small.ne, Bool.false_and]
    have counts : (p.apply (.double bits) adding).nDbl = after.countP (ofDouble finiteWord) := by
      rw [number, stepped.counted, tally.nDbl, ofDouble, word]
      rfl
    have kept : (p.apply (.double bits) adding).doubles.Keeps fun i => (after.map (finiteDigit i)).sum := by
      have digit (i : Nat) : finiteDigit i (.double bits) = doubleDigit i (.double bits) := if_pos word
      rcases digits with keeps | ⟨_,none,cleared⟩
      · simp only [stepped.total, digit]
        exact keeps
      · rw [cleared]
        simp only [noneFinite (counts.symm.trans none)]
        exact ExactDoubles.zeroKeeps
    rw [applied] at counts kept ⊢
    refine ⟨?_,?_,?_,counts,kept,?_,?_,?_⟩
    · have zero : integerOf (.double bits) = 0 := rfl
      rw [stepped.total, zero, signedTermZero, add_zero]
      exact tally.ints
    · rw [stepped.counted]
      exact tally.nInt
    · rw [stepped.counted]
      exact tally.nLong
    · rw [stepped.counted, ofDouble, notNan]
      exact tally.nan
    · rw [stepped.counted, ofDouble, notInfinite]
      exact tally.posInf
    · rw [stepped.counted, ofDouble, notInfinite]
      exact tally.negInf
  · have large : finiteWord bits = false := decide_eq_false (not_lt.mpr top.ge)
    have notNan : isNan bits = false := decide_eq_false (not_lt.mpr top.le)
    have infinite (negative : Bool) : infiniteWord negative bits = (signOf bits == negative) := by
      rw [infiniteWord, decide_eq_true top, Bool.true_and]
    have applied : p.apply (.double bits) adding =
        if signOf bits then { p with negInf := count adding p.negInf } else { p with posInf := count adding p.posInf } := by
      unfold Plain.apply
      simp only [if_neg (not_lt.mpr top.le), if_pos top]
    rw [applied]
    cases sign : signOf bits with
    | true =>
      refine tally.special stepped large ⟨rfl,rfl,rfl,rfl,rfl⟩ ?_ ?_ ?_
      · rw [notNan]
        rfl
      · rw [infinite, sign]
        rfl
      · rw [infinite, sign]
        rfl
    | false =>
      refine tally.special stepped large ⟨rfl,rfl,rfl,rfl,rfl⟩ ?_ ?_ ?_
      · rw [notNan]
        rfl
      · rw [infinite, sign]
        rfl
      · rw [infinite, sign]
        rfl
  · have large : finiteWord bits = false := decide_eq_false (not_lt.mpr beyond.le)
    have notNumber : isNan bits = true := decide_eq_true beyond
    have notInfinite (negative : Bool) : infiniteWord negative bits = false := by
      rw [infiniteWord, decide_eq_false beyond.ne', Bool.false_and]
    have applied : p.apply (.double bits) adding = { p with nan := count adding p.nan } := by
      unfold Plain.apply
      simp only [if_pos beyond]
    rw [applied]
    refine tally.special stepped large ⟨rfl,rfl,rfl,rfl,rfl⟩ ?_ ?_ ?_
    · rw [notNumber]
      rfl
    · rw [notInfinite]
      rfl
    · rw [notInfinite]
      rfl

theorem Plain.Tally.step {p : Plain} {held after : List Bson} {v : Bson} {adding : Bool} (tally : p.Tally held)
    (stepped : Stepped v adding held after) : (p.apply v adding).Tally after := by
  obtain ⟨ints,nInt,nLong,nDbl,digits,nan,posInf,negInf⟩ := id tally
  have untouched {w : Bson} (none : ∀ i, finiteDigit i w = 0) (steppedHere : Stepped w adding held after) :
      p.doubles.Keeps fun i => (after.map (finiteDigit i)).sum := by
    simp only [steppedHere.total, none, signedTermZero, add_zero]
    exact digits
  cases v with
  | int32 n =>
    refine ⟨?_,?_,?_,?_,untouched (fun _ => rfl) stepped,?_,?_,?_⟩
    · rw [stepped.total, Plain.apply, ints]
      exact Int.bmod_add_bmod
    · rw [stepped.counted, ← nInt]
      rfl
    all_goals
      rw [stepped.counted]
      assumption
  | int64 n =>
    refine ⟨?_,?_,?_,?_,untouched (fun _ => rfl) stepped,?_,?_,?_⟩
    · rw [stepped.total, Plain.apply, ints]
      exact Int.bmod_add_bmod
    · rw [stepped.counted, ← nInt]
      rfl
    · rw [stepped.counted, ← nLong]
      rfl
    all_goals
      rw [stepped.counted]
      assumption
  | double bits => exact tally.double stepped
  | _ => exact tally.same stepped rfl rfl fun _ => rfl

/-! Decimals. -/

theorem wordStored {bits : UInt64} {out : Raw × Bool} (is : fromBinary64 bits = some out) : Stored out.1 := by
  by_cases small : fieldOf bits < infinity
  · obtain ⟨other,pref,there,_,arrives⟩ := fromBinary64Arrives bits small
    cases is.symm.trans there
    exact roundedStored arrives.rounded
  · obtain ⟨field,_,_,_⟩ := Numeric.doubleFields bits
    have range := bits.toNat_lt
    have top : bits.toNat >>> 52 &&& 0x7FF = 0x7FF := by
      rw [field]
      unfold fieldOf infinity at small
      omega
    unfold fromBinary64 at is
    simp only [top, if_true] at is
    cases is
    simp only
    split_ifs
    · trivial
    · trivial

theorem integerStored (n : Int64) : Stored (fromI64 n) := by
  have low := n.le_toInt
  have high := n.toInt_lt
  refine ⟨?_,by decide,by decide⟩
  have bound : n.toInt.natAbs ≤ 2 ^ 63 := by omega
  exact bound.trans (by decide)

theorem decimalTermStored {v : Bson} {raw : Raw} (is : decimalTerm v = some raw) : Stored raw := by
  cases v with
  | int32 n =>
    cases is
    exact integerStored _
  | int64 n =>
    cases is
    exact integerStored n
  | double bits =>
    obtain ⟨out,there,rfl⟩ := Option.map_eq_some_iff.mp is
    exact wordStored there
  | decimal128 d =>
    cases is
    exact decodeStored d
  | _ => cases is

def decimalOf (v : Bson) : Option Term :=
  match is : decimalTerm v with
  | some raw => some ⟨raw,decimalTermStored is⟩
  | none => none

theorem decimalOfRaw (v : Bson) : decimalTerm v = (decimalOf v).map Term.raw := by
  unfold decimalOf
  split
  · rename_i raw is
    exact is
  · rename_i is
    exact is

theorem termIn {sum : RunningSum} {values : List Bson} (runs : Runs sum (values.filterMap decimalOf)) (v : Bson) :
    Runs (SumState.addTerm sum v) ((values ++ [v]).filterMap decimalOf) := by
  rw [SumState.addTerm, decimalOfRaw, List.filterMap_append]
  cases is : decimalOf v with
  | none => simpa [is] using runs
  | some t =>
    have added := Runs.add t runs
    have same : ((values.filterMap decimalOf ++ [v].filterMap decimalOf : List Term) : Multiset Term) =
        t ::ₘ (values.filterMap decimalOf : Multiset Term) := by
      rw [Multiset.cons_coe, Multiset.coe_eq_coe, List.filterMap_cons_some is, List.filterMap_nil]
      exact List.perm_append_singleton ..
    rw [same]
    exact added

theorem termOut {sum : RunningSum} {v : Bson} {values : List Bson} (runs : Runs sum ((v :: values).filterMap decimalOf)) :
    Runs ((decimalTerm v).elim sum sum.remove) (values.filterMap decimalOf) := by
  rw [decimalOfRaw]
  cases is : decimalOf v with
  | none =>
    rw [List.filterMap_cons_none is] at runs
    exact runs
  | some t =>
    rw [List.filterMap_cons_some is] at runs
    exact Runs.remove t runs

section
variable {δ : Type}

structure SumRun (e : Operand δ) (docs : List δ) (st : SumState) (span : Nat × Nat) : Prop where
  readable : Readable e.eval (slice docs span)
  lo : st.lo = span.1
  hi : st.hi = span.2
  plain : st.plain.Tally ((slice docs span).filterMap e.eval)
  decN : st.decN = ((slice docs span).filterMap e.eval).countP isDecimal
  without : st.dec = none → ((slice docs span).filterMap e.eval).countP isDecimal = 0
  runs : ∀ sum, st.dec = some sum → Runs sum (((slice docs span).filterMap e.eval).filterMap decimalOf)

theorem SumRun.empty (e : Operand δ) (docs : List δ) (i : Nat) : SumRun e docs ⟨.new,none,0,i,i⟩ (i,i) := by
  refine ⟨?_,rfl,rfl,?_,?_,?_,fun _ is => by cases is⟩
  · rw [sliceEmpty]
    exact fun _ member => absurd member List.not_mem_nil
  · rw [sliceEmpty]
    exact Plain.tallyNew
  · rw [sliceEmpty]
    rfl
  · rw [sliceEmpty]
    exact fun _ => rfl

/- The numbers already in the window, gathered when a decimal comes. -/
theorem gatheredRuns {e : Operand δ} {docs : List δ} {st : SumState} {span : Nat × Nat} (run : SumRun e docs st span) :
    ∃ sum, st.gathered e docs = some sum ∧ Runs sum (((slice docs span).filterMap e.eval).filterMap decimalOf) := by
  unfold SumState.gathered
  cases is : st.dec with
  | some sum => exact ⟨sum,rfl,run.runs sum is⟩
  | none =>
    have each : ∀ (more : List δ) {seen : List Bson} {sum : RunningSum}, Readable e.eval more →
        Runs sum (seen.filterMap decimalOf) →
        ∃ last, more.foldlM (fun sum doc => (e.eval doc).map (SumState.addTerm sum)) sum = some last ∧
          Runs last ((seen ++ more.filterMap e.eval).filterMap decimalOf) := by
      intro more
      induction more with
      | nil =>
        intro seen sum _ runs
        refine ⟨sum,rfl,?_⟩
        rw [List.filterMap_nil, List.append_nil]
        exact runs
      | cons doc rest ih =>
        intro seen sum readable runs
        obtain ⟨v,value⟩ := Option.isSome_iff_exists.mp (readable doc List.mem_cons_self)
        obtain ⟨last,folded,whole⟩ := ih (fun other member => readable other (List.mem_cons_of_mem doc member)) (termIn runs v)
        refine ⟨last,?_,?_⟩
        · rw [List.foldlM_cons, value]
          exact folded
        · rw [List.filterMap_cons_some value]
          rw [List.append_assoc] at whole
          exact whole
    have whole : (docs.drop st.lo).take (st.hi - st.lo) = slice docs span := by rw [run.lo, run.hi, slice]
    rw [whole]
    exact @each (slice docs span) [] .new run.readable Runs.new

theorem SumRun.add {e : Operand δ} {docs : List δ} {st : SumState} {lo hi : Nat} {doc : δ} {v : Bson}
    (run : SumRun e docs st (lo,hi)) (order : lo ≤ hi) (found : docs[hi]? = some doc) (is : e.eval doc = some v) :
    ∃ next, st.add e docs hi = some next ∧ SumRun e docs next (lo,hi + 1) := by
  have whole : (slice docs (lo,hi + 1)).filterMap e.eval = (slice docs (lo,hi)).filterMap e.eval ++ [v] := by
    rw [sliceSnoc order found, List.filterMap_append, List.filterMap_cons_some is, List.filterMap_nil]
  have readable : Readable e.eval (slice docs (lo,hi + 1)) := by
    rw [sliceSnoc order found]
    exact run.readable.snoc (by rw [is]; rfl)
  have reading := (bindFound found e.eval).trans is
  have stepped := steppedIn v ((slice docs (lo,hi)).filterMap e.eval)
  obtain ⟨gathered,there,runs⟩ := gatheredRuns run
  unfold SumState.add
  rw [reading]
  cases decimal : isDecimal v with
  | true =>
    refine ⟨{ st with dec := some (SumState.addTerm gathered v), decN := st.decN + 1, hi := hi + 1 },?_,?_⟩
    · simp [decimal, there]
    · have uncounted : st.plain.Tally ((slice docs (lo,hi + 1)).filterMap e.eval) := by
        rw [whole]
        cases v with
        | decimal128 d => exact run.plain.same stepped rfl rfl fun _ => rfl
        | _ => cases decimal
      refine ⟨readable,run.lo,rfl,uncounted,?_,nofun,fun sum same => ?_⟩
      · rw [whole, List.countP_append, List.countP_singleton, decimal, run.decN]
        rfl
      · cases same
        rw [whole]
        exact termIn runs v
  | false =>
    refine ⟨{ st with plain := st.plain.apply v true, dec := st.dec.map (SumState.addTerm · v), hi := hi + 1 },?_,?_⟩
    · simp [decimal]
    · refine ⟨readable,run.lo,rfl,?_,?_,fun none => ?_,fun sum same => ?_⟩
      · rw [whole]
        exact run.plain.step stepped
      · rw [whole, List.countP_append, List.countP_singleton, decimal]
        exact run.decN
      · rw [whole, List.countP_append, List.countP_singleton, decimal]
        exact run.without (Option.map_eq_none_iff.mp none)
      · obtain ⟨before,held,rfl⟩ := Option.map_eq_some_iff.mp same
        rw [whole]
        exact termIn (run.runs before held) v

theorem SumRun.remove {e : Operand δ} {docs : List δ} {st : SumState} {lo hi : Nat} (run : SumRun e docs st (lo,hi))
    (order : lo < hi) (inside : hi ≤ docs.length) :
    ∃ next, st.remove e docs lo = some next ∧ SumRun e docs next (lo + 1,hi) := by
  obtain ⟨doc,found⟩ : ∃ doc, docs[lo]? = some doc := ⟨_,List.getElem?_eq_getElem (by omega)⟩
  have cut := sliceCons order found
  obtain ⟨v,is⟩ := Option.isSome_iff_exists.mp (run.readable doc (by rw [cut]; exact List.mem_cons_self))
  have whole : (slice docs (lo,hi)).filterMap e.eval = v :: (slice docs (lo + 1,hi)).filterMap e.eval := by
    rw [cut, List.filterMap_cons_some is]
  have readable : Readable e.eval (slice docs (lo + 1,hi)) := fun other member =>
    run.readable other (by rw [cut]; exact List.mem_cons_of_mem doc member)
  have reading := (bindFound found e.eval).trans is
  have stepped := steppedOut v ((slice docs (lo + 1,hi)).filterMap e.eval)
  have plain := run.plain
  have counted := run.decN
  rw [whole] at plain counted
  have runs : ∀ sum, st.dec.map (fun sum => (decimalTerm v).elim sum sum.remove) = some sum →
      Runs sum (((slice docs (lo + 1,hi)).filterMap e.eval).filterMap decimalOf) := by
    intro sum same
    obtain ⟨before,held,rfl⟩ := Option.map_eq_some_iff.mp same
    have earlier := run.runs before held
    rw [whole] at earlier
    exact termOut earlier
  have without : st.dec.map (fun sum => (decimalTerm v).elim sum sum.remove) = none →
      ((slice docs (lo + 1,hi)).filterMap e.eval).countP isDecimal = 0 := by
    intro absent
    have earlier := run.without (Option.map_eq_none_iff.mp absent)
    rw [whole, List.countP_cons] at earlier
    omega
  rw [List.countP_cons] at counted
  unfold SumState.remove
  rw [reading]
  cases decimal : isDecimal v with
  | true =>
    rw [decimal] at counted
    have uncounted : st.plain.Tally ((slice docs (lo + 1,hi)).filterMap e.eval) := by
      cases v with
      | decimal128 d => exact plain.same stepped rfl rfl fun _ => rfl
      | _ => cases decimal
    refine ⟨{ st with dec := st.dec.map fun sum => (decimalTerm v).elim sum sum.remove, decN := st.decN - 1, lo := lo + 1 },
      ?_,readable,rfl,run.hi,uncounted,?_,without,runs⟩
    · simp [decimal]
    · simp only [if_true] at counted ⊢
      omega
  | false =>
    rw [decimal] at counted
    refine ⟨{ st with
      dec := st.dec.map fun sum => (decimalTerm v).elim sum sum.remove
      plain := st.plain.apply v false
      lo := lo + 1 },?_,readable,rfl,run.hi,plain.step stepped,counted,without,runs⟩
    simp [decimal]

theorem SumRun.value {e : Operand δ} {docs others : List δ} {st other : SumState} {span place : Nat × Nat}
    (run : SumRun e docs st span) (second : SumRun e others other place) (same : slice docs span = slice others place)
    (avg : Bool) : st.value avg = other.value avg := by
  have plain : st.plain = other.plain := Plain.tallyUnique run.plain (same ▸ second.plain)
  have counts : st.decN = other.decN := by rw [run.decN, second.decN, same]
  have absent {st : SumState} (zero : ¬ 0 < st.decN) : st.value avg = some (SumState.plainValue avg st.plain) := by
    unfold SumState.value
    split
    · rw [if_neg zero]
    · rfl
  by_cases some' : 0 < st.decN
  · have here : ∃ sum, st.dec = some sum := by
      refine Option.ne_none_iff_exists'.mp fun none => ?_
      rw [run.decN, run.without none] at some'
      exact absurd some' (lt_irrefl 0)
    have there : ∃ sum, other.dec = some sum := by
      refine Option.ne_none_iff_exists'.mp fun none => ?_
      rw [counts, second.decN, second.without none] at some'
      exact absurd some' (lt_irrefl 0)
    obtain ⟨sum,is⟩ := here
    obtain ⟨sum',is'⟩ := there
    obtain ⟨total,mean,_⟩ := runningSumFresh (run.runs sum is)
    obtain ⟨total',mean',_⟩ := runningSumFresh (second.runs sum' is')
    rw [← same] at total' mean'
    have some'' : 0 < other.decN := counts ▸ some'
    unfold SumState.value
    rw [is, is']
    cases avg with
    | true => simp only [some', some'', if_true, mean, mean']
    | false => simp only [some', some'', if_true, Bool.false_eq_true, if_false, total, total']
  · rw [absent some', absent (counts ▸ some'), plain]

def sumFaithful (e : Operand δ) (avg : Bool) : (sumSlider e avg).Faithful where
  reads doc := (e.eval doc).isSome
  Holds := SumRun e
  start docs := SumRun.empty e docs 0
  starts := rfl
  reset docs _ i := SumRun.empty e docs i
  read run := run.readable
  add {docs st lo hi doc} run order found := by
    have reading := bindFound found e.eval
    cases is : e.eval doc with
    | none =>
      rw [is] at reading
      simp [sumSlider, SumState.add, reading]
    | some v => exact run.add order found is
  remove run order inside := run.remove order inside
  value run second same := run.value second same avg

end

end Kimmy.Window
