import Kimmy.DecimalFormat
import Kimmy.Reader

/-!
What identifies a document (`ids.rs`): the id an `_id` normalises to, its BSON, its stored
key, the nineteen bytes of a decimal id and the form an id is printed in.
-/
namespace Kimmy
open ByteOrder CanonicalCmp KeyEnc
open Reading (unbe unbeBe beUnbe unbeBound)

namespace Decimal

/- Whether a `Decimal128` holds the normalised pair. -/
def representable (coefficient : Nat) (exponent : Int) : Bool :=
  (1 ≤ coefficient && coefficient ≤ maxCoefficient) && coefficient % 10 ≠ 0 && minExponent ≤ exponent &&
    exponent + digits coefficient ≤ maxExponent + 34

/- Every value whose coefficient ends in no zero has one pair. -/
structure Represents (coefficient : Nat) (exponent : Int) : Prop where
  pos : 0 < coefficient
  most : coefficient ≤ maxCoefficient
  core : coefficient % 10 ≠ 0
  low : minExponent ≤ exponent
  high : exponent + digits coefficient ≤ maxExponent + 34

theorem representableIff {c : Nat} {e : Int} : representable c e = true ↔ Represents c e := by
  simp only [representable, Bool.and_eq_true, decide_eq_true_eq]
  constructor
  · rintro ⟨⟨⟨⟨pos,most⟩,core⟩,low⟩,high⟩
    exact ⟨pos,most,core,low,high⟩
  · rintro ⟨pos,most,core,low,high⟩
    exact ⟨⟨⟨⟨pos,most⟩,core⟩,low⟩,high⟩

theorem normalizedCore {c : Nat} (pos : 0 < c) (e : Int) : (normalized c e).1 % 10 ≠ 0 := by
  induction c using Nat.strong_induction_on generalizing e with
  | _ c ih =>
    rw [normalized]
    split_ifs with more
    · exact ih (c / 10) (by omega) (by omega) (e + 1)
    · exact fun whole => more ⟨pos,whole⟩

/- Zeros put after a normalised coefficient are exactly those that normalising takes off. -/
theorem normalizedScale {c : Nat} (core : c % 10 ≠ 0) (e : Int) (n : Nat) :
    normalized (c * 10 ^ n) e = (c,e + n) := by
  induction n generalizing e with
  | zero =>
    rw [normalized, if_neg]
    · simp
    · simp [core]
  | succ n ih =>
    have pos : 0 < c := by omega
    have ten : c * 10 ^ (n + 1) = c * 10 ^ n * 10 := by rw [pow_succ, mul_assoc]
    rw [normalized, ten, if_pos ⟨by positivity,Nat.mul_mod_left _ _⟩, Nat.mul_div_left _ (by decide), ih]
    simp only [Prod.mk.injEq, true_and]
    push_cast
    ring

theorem normalizedRepresents {c : Nat} {e : Int} (canonical : Canonical c e) :
    Represents (normalized c e).1 (normalized c e).2 := by
  obtain ⟨n,scaled,raised⟩ := normalizedSpec canonical.1 e
  obtain ⟨pos,most,low,high⟩ := canonical
  have core := normalizedCore pos e
  generalize (normalized c e).1 = c' at *
  have small : c < 10 ^ 34 := lt_of_le_of_lt most coefficientBound.1
  have positive : 0 < c' := by omega
  have fewer : c' ≤ c := by
    rw [scaled]
    exact Nat.le_mul_of_pos_right _ (by positivity)
  have length : digits c' + n ≤ 34 := by
    rw [← digitsScaled positive, ← scaled, digitsLe]
    exact small
  exact ⟨positive,by omega,core,by omega,by omega⟩

/- A normalised pair has one value, and its value has no other normalised pair. -/
theorem magnitudeInjective {c d : Nat} {e f : Int} (coreC : c % 10 ≠ 0) (coreD : d % 10 ≠ 0)
    (same : magnitude c e = magnitude d f) : c = d ∧ e = f := by
  wlog order : e ≤ f generalizing c d e f
  · obtain ⟨first,second⟩ := this coreD coreC same.symm (by omega)
    exact ⟨first.symm,second.symm⟩
  obtain ⟨n,rfl⟩ : ∃ n : Nat, f = e + n := ⟨(f - e).toNat,by omega⟩
  have ten : (10 : ℚ) ^ e ≠ 0 := zpow_ne_zero _ (by norm_num)
  rw [← magnitudeShift, magnitude, magnitude] at same
  have scaled : c = d * 10 ^ n := by exact_mod_cast mul_right_cancel₀ ten same
  cases n with
  | zero => simpa using scaled
  | succ n =>
    refine absurd ?_ coreC
    rw [scaled, pow_succ, ← mul_assoc]
    exact Nat.mul_mod_left _ _

/- Packing a pair that a `Decimal128` holds gives one that reads back as the pair. -/
theorem packRepresents (negative : Bool) {c : Nat} {e : Int} (rep : Represents c e) :
    ∃ word d f, packPadded negative c e = some word ∧ decode word = .finite negative d f ∧
      normalized d f = (c,e) := by
  obtain ⟨pos,most,core,low,high⟩ := rep
  generalize pads : (e - maxExponent).toNat = pad
  have fits : c * 10 ^ pad < 10 ^ 34 := by
    rw [← digitsLe, digitsScaled pos]
    have short : digits c ≤ 34 := by
      rw [digitsLe]
      exact lt_of_le_of_lt most coefficientBound.1
    omega
  have bound := coefficientBound
  have scale : 10 ^ pad ≤ c * 10 ^ pad := Nat.le_mul_of_pos_left _ pos
  have canonical : Canonical (c * 10 ^ pad) (min e maxExponent) := by
    refine ⟨by positivity,?_,?_,min_le_right _ _⟩
    · unfold maxCoefficient
      omega
    · unfold minExponent maxExponent at *
      omega
  refine ⟨_,_,_,?_,decodePack canonical,?_⟩
  · simp only [packPadded, pads, checked, Option.bind_eq_bind]
    rw [if_pos (by omega), Option.bind_some, if_pos (by omega), Option.bind_some]
    exact if_pos ⟨canonical.1,canonical.2.1,canonical.2.2.1⟩
  · rw [normalizedScale core]
    congr 1
    omega

end Decimal

/-! Which ids there are: `Decimal128Id` is built from a normalised decimal or from its bytes only. -/

namespace DocId
open Decimal

def IsId (id : DocId) : Prop := ∃ value, tryFromBson value = some id

/- A decimal id is the normal form of a value that is no `i64`. -/
structure IsDecimal (id : Decimal128Id) : Prop where
  represents : Represents id.coefficient id.exponent
  other : id.asI64 = none

theorem raisedComplete {c n : Nat} (pos : 0 < c) (bound : c * 10 ^ n ≤ 2 ^ 63) :
    Decimal128Id.raised c n = some (c * 10 ^ n) := by
  induction n generalizing c with
  | zero => simp [Decimal128Id.raised]
  | succ n ih =>
    have split : c * 10 ^ (n + 1) = c * 10 * 10 ^ n := by rw [pow_succ', mul_assoc]
    rw [split] at bound ⊢
    have small : c * 10 ≤ c * 10 * 10 ^ n := Nat.le_mul_of_pos_right _ (by positivity)
    simp only [Decimal128Id.raised, checked, Option.bind_eq_bind]
    rw [if_pos (by omega), Option.bind_some, if_neg (by omega)]
    exact ih (by omega) bound

/- Every integer in range is found: a coefficient that ends in no zero has no fraction to shed. -/
theorem asI64Complete {id : Decimal128Id} (pos : 0 < id.coefficient) (core : id.coefficient % 10 ≠ 0) {v : Int64}
    (worth : (v.toInt : ℚ) = Exact.signed id.negative (magnitude id.coefficient id.exponent)) :
    id.asI64 ≠ none := by
  obtain ⟨negative, e, c⟩ := id
  simp only at pos core worth
  have least := v.le_toInt
  have most := v.toInt_lt
  have size : (v.toInt.natAbs : ℚ) = magnitude c e := by
    have positive : 0 < magnitude c e := mul_pos (by exact_mod_cast pos) (zpow_pos (by norm_num) e)
    rw [Nat.cast_natAbs, Int.cast_abs, worth]
    cases negative with
    | false => exact abs_of_pos positive
    | true =>
      rw [Exact.signed, if_pos rfl, abs_neg]
      exact abs_of_pos positive
  have whole : ¬ e < 0 := by
    intro fraction
    obtain ⟨n,rfl⟩ : ∃ n : Nat, e = -((n : Int) + 1) := ⟨(-e - 1).toNat,by omega⟩
    have scaled : magnitude (v.toInt.natAbs * 10 ^ (n + 1)) (-((n : Int) + 1)) = magnitude c (-((n : Int) + 1)) := by
      rw [← size, magnitudeShift, magnitude]
      push_cast
      simp
    have ten : (10 : ℚ) ^ (-((n : Int) + 1)) ≠ 0 := zpow_ne_zero _ (by norm_num)
    have is : v.toInt.natAbs * 10 ^ (n + 1) = c := by
      rw [magnitude, magnitude] at scaled
      exact_mod_cast mul_right_cancel₀ ten scaled
    rw [← is, pow_succ, ← mul_assoc] at core
    exact core (Nat.mul_mod_left _ _)
  have value : v.toInt.natAbs = c * 10 ^ e.toNat := by
    have : magnitude c e = ((c * 10 ^ e.toNat : Nat) : ℚ) := by
      rw [magnitude]
      push_cast
      rw [← zpow_natCast, Int.toNat_of_nonneg (by omega)]
    rw [this] at size
    exact_mod_cast size
  have raised := raisedComplete (n := e.toNat) pos (by omega)
  simp only [Decimal128Id.asI64, if_neg whole, raised, Option.bind_eq_bind, Option.bind_some]
  cases negative with
  | false =>
    have nonneg : 0 ≤ v.toInt := by
      have : (0 : ℚ) ≤ v.toInt := by
        rw [worth, ← size]
        exact Nat.cast_nonneg _
      exact_mod_cast this
    rw [if_neg (by decide), if_pos (by omega)]
    exact Option.some_ne_none _
  | true =>
    rw [if_pos rfl]
    split_ifs with extreme
    · exact Option.some_ne_none _
    · exact Option.some_ne_none _
    · omega

theorem isDecimalOf {id : Decimal128Id} (is : IsId (.decimal128 id)) : IsDecimal id := by
  obtain ⟨value,is⟩ := is
  cases value with
  | decimal128 word =>
    simp only [tryFromBson] at is
    cases read : decode word with
    | finite negative c e =>
      rw [read] at is
      simp only [Option.some.injEq] at is
      split at is
      · cases is
      · rename_i other
        cases is
        exact ⟨normalizedRepresents (decodeCanonical read),other⟩
    | zero | nan | negInfinity | posInfinity =>
      rw [read] at is
      cases is
  | _ => cases is

/- Back to BSON and in again, for the normal form of any decimal. -/
theorem decimalBack {id : Decimal128Id} (is : IsDecimal id) :
    ∃ word c e, (DocId.decimal128 id).toBson = some (.decimal128 word) ∧ decode word = .finite id.negative c e ∧
      magnitude c e = magnitude id.coefficient id.exponent ∧ tryFromBson (.decimal128 word) = some (.decimal128 id) := by
  obtain ⟨word,c,e,packed,read,normal⟩ := packRepresents id.negative is.represents
  obtain ⟨n,scaled,raised⟩ := normalizedSpec (decodeCanonical read).1 e
  rw [normal] at scaled raised
  simp only at scaled raised
  refine ⟨word,c,e,?_,read,?_,?_⟩
  · simp only [toBson, Decimal128Id.toDecimal128, packed, Option.map_some]
  · rw [raised, ← magnitudeShift, ← scaled]
  · simp only [tryFromBson, read, normal]
    rw [is.other]

theorem backAgain {id : DocId} (is : IsId id) : ∃ b, id.toBson = some b ∧ tryFromBson b = some id := by
  cases id with
  | decimal128 id =>
    obtain ⟨word,_,_,made,_,_,again⟩ := decimalBack (isDecimalOf is)
    exact ⟨_,made,again⟩
  | _ => exact ⟨_,rfl,rfl⟩

/-! One value, one id: the canonical order tells ids apart. -/

theorem signedInjective {s t : Bool} {x y : ℚ} (posX : 0 < x) (posY : 0 < y)
    (same : Exact.signed s x = Exact.signed t y) : s = t ∧ x = y := by
  cases s <;> cases t <;> simp only [Exact.signed, if_true, Bool.false_eq_true, if_false] at same
  · exact ⟨rfl,same⟩
  · linarith
  · linarith
  · exact ⟨rfl,by linarith⟩

/- An integer and a decimal id are never worth the same. -/
theorem integerApart {v : Int64} {id : Decimal128Id} (is : IsDecimal id) {word : Decimal128} {c : Nat} {e : Int}
    (read : decode word = .finite id.negative c e)
    (worth : magnitude c e = magnitude id.coefficient id.exponent) :
    canonicalCmp (.int64 v) (.decimal128 word) ≠ .eq := by
  intro same
  rw [KeyOrder.canonicalCmpExact rfl (decimalRead read), Exact.cmp, compare_eq_iff_eq, worth] at same
  exact asI64Complete is.represents.pos is.represents.core same is.other

theorem decimalsApart {i j : Decimal128Id} (isI : IsDecimal i) (isJ : IsDecimal j) {b c : Bson}
    (madeI : (DocId.decimal128 i).toBson = some b) (madeJ : (DocId.decimal128 j).toBson = some c)
    (same : canonicalCmp b c = .eq) : i = j := by
  obtain ⟨v,cv,ev,madeV,readV,worthV,_⟩ := decimalBack isI
  obtain ⟨w,cw,ew,madeW,readW,worthW,_⟩ := decimalBack isJ
  rw [madeI] at madeV
  rw [madeJ] at madeW
  cases madeV
  cases madeW
  rw [KeyOrder.canonicalCmpExact (decimalRead readV) (decimalRead readW), Exact.cmp, compare_eq_iff_eq] at same
  obtain ⟨sign,size⟩ := signedInjective (magnitudePos (decodeCanonical readV)) (magnitudePos (decodeCanonical readW)) same
  rw [worthV, worthW] at size
  obtain ⟨coefficient,exponent⟩ := magnitudeInjective isI.represents.core isJ.represents.core size
  obtain ⟨ni, ei, ci⟩ := i
  obtain ⟨nj, ej, cj⟩ := j
  simp only at sign coefficient exponent
  rw [sign, coefficient, exponent]

/- The type group an id is filed in. -/
def rank : DocId → UInt8
  | .objectId _ => 0x70
  | .string _ => 0x30
  | .int64 _ | .decimal128 _ => 0x20
  | .binary _ _ => 0x60

theorem toBsonRank {id : DocId} {b : Bson} (made : id.toBson = some b) : typeRank b = id.rank := by
  cases id with
  | decimal128 id =>
    simp only [toBson, Option.map_eq_some_iff] at made
    obtain ⟨word,_,rfl⟩ := made
    rfl
  | _ =>
    cases made
    rfl

theorem toBsonInjective {i j : DocId} (isI : IsId i) (isJ : IsId j) {b c : Bson} (madeI : i.toBson = some b)
    (madeJ : j.toBson = some c) (same : canonicalCmp b c = .eq) : i = j := by
  have ranks : i.rank = j.rank := by
    rw [← toBsonRank madeI, ← toBsonRank madeJ]
    exact KeyOrder.rankSame same
  cases i with
  | objectId x =>
    cases j with
    | objectId y =>
      cases madeI
      cases madeJ
      have bytes : x.toList = y.toList := Std.LawfulEqOrd.compare_eq_iff_eq.mp same
      rw [Vector.toList_inj.mp bytes]
    | _ => exact absurd ranks (by simp [rank])
  | string s =>
    cases j with
    | string t =>
      cases madeI
      cases madeJ
      rw [asBytesInj (Std.LawfulEqOrd.compare_eq_iff_eq.mp same)]
    | _ => exact absurd ranks (by simp [rank])
  | binary s x =>
    cases j with
    | binary t y =>
      cases madeI
      cases madeJ
      obtain ⟨_,rest⟩ := Ordering.then_eq_eq.mp same
      obtain ⟨subtype,bytes⟩ := Ordering.then_eq_eq.mp rest
      rw [Std.LawfulEqOrd.compare_eq_iff_eq.mp subtype]
      obtain ⟨xs, _⟩ := x
      obtain ⟨ys, _⟩ := y
      cases Std.LawfulEqOrd.compare_eq_iff_eq.mp bytes
      rfl
    | _ => exact absurd ranks (by simp [rank])
  | int64 v =>
    cases j with
    | int64 w =>
      cases madeI
      cases madeJ
      rw [KeyOrder.canonicalCmpExact rfl rfl, Exact.cmp, compare_eq_iff_eq] at same
      have integers : v.toInt = w.toInt := by exact_mod_cast same
      rw [Int64.toInt_inj.mp integers]
    | decimal128 j =>
      obtain ⟨word,c,e,madeW,read,worth,_⟩ := decimalBack (isDecimalOf isJ)
      cases madeI
      rw [madeJ] at madeW
      cases madeW
      exact absurd same (integerApart (isDecimalOf isJ) read worth)
    | _ => exact absurd ranks (by simp [rank])
  | decimal128 i =>
    cases j with
    | int64 w =>
      obtain ⟨word,c,e,madeV,read,worth,_⟩ := decimalBack (isDecimalOf isI)
      cases madeJ
      rw [madeI] at madeV
      cases madeV
      rw [KeyOrder.cmpSwap, Ordering.swap_eq_eq] at same
      exact absurd same (integerApart (isDecimalOf isI) read worth)
    | decimal128 j => rw [decimalsApart (isDecimalOf isI) (isDecimalOf isJ) madeI madeJ same]
    | _ => exact absurd ranks (by simp [rank])

theorem cmpEqSymm {x y : Bson} (same : canonicalCmp x y = .eq) : canonicalCmp y x = .eq := by
  rw [KeyOrder.cmpSwap, same]
  rfl

theorem sameId {v w : Bson} {i j : DocId} (isV : tryFromBson v = some i) (isW : tryFromBson w = some j) :
    i = j ↔ canonicalCmp v w = .eq := by
  obtain ⟨b,madeI,sameV⟩ := toBsonSame isV
  obtain ⟨c,madeJ,sameW⟩ := toBsonSame isW
  constructor
  · rintro rfl
    rw [madeI] at madeJ
    cases madeJ
    exact (KeyOrder.cmpCongr sameV w).trans (cmpEqSymm sameW)
  · intro same
    refine toBsonInjective ⟨v,isV⟩ ⟨w,isW⟩ madeI madeJ ?_
    rw [← KeyOrder.cmpCongr sameV, KeyOrder.cmpCongr same, sameW]

/- The key a document of this id is stored under. -/
def storedKey (id : DocId) : Option Bytes := do encode (← id.toBson)

theorem storedKeyInjective {i j : DocId} (isI : IsId i) (isJ : IsId j) :
    ∃ ki kj, i.storedKey = some ki ∧ j.storedKey = some kj ∧ (ki = kj → i = j) := by
  obtain ⟨b,madeI,_⟩ := backAgain isI
  obtain ⟨c,madeJ,_⟩ := backAgain isJ
  obtain ⟨ki,kj,keyI,keyJ,agree⟩ := KeyOrder.keysAgree b c
  refine ⟨ki,kj,?_,?_,fun same => toBsonInjective isI isJ madeI madeJ (agree.mp same)⟩
  · simp only [storedKey, madeI, Option.bind_eq_bind, Option.bind_some, keyI]
  · simp only [storedKey, madeJ, Option.bind_eq_bind, Option.bind_some, keyJ]

end DocId

/-! The nineteen bytes of a decimal id: its sign, its exponent and its coefficient. -/

namespace Decimal128Id
open Decimal

def decimal128IdLen : Nat := 19

/- `i16::from_be_bytes`, after the bytes are read as a natural. -/
def signed16 (word : Nat) : Int := if word < 2 ^ 15 then word else word - 2 ^ 16

def toBytes (id : Decimal128Id) : Bytes :=
  UInt8.ofNat id.negative.toNat :: (be 2 (id.exponent % 2 ^ 16).toNat ++ be 16 id.coefficient)

def readSign (sign : UInt8) : Option Bool :=
  if sign = 0 then some false else if sign = 1 then some true else none

def fromBytes (bytes : Bytes) : Option Decimal128Id :=
  if bytes.length ≠ decimal128IdLen then none
  else do
    let negative ← readSign (bytes.headD 0)
    let id : Decimal128Id := ⟨negative,signed16 (unbe ((bytes.drop 1).take 2)),unbe (bytes.drop 3)⟩
    if representable id.coefficient id.exponent && id.asI64.isNone then some id else none

theorem signedBack {e : Int} (low : -(2 ^ 15) ≤ e) (high : e < 2 ^ 15) : signed16 (e % 2 ^ 16).toNat = e := by
  unfold signed16
  split_ifs <;> omega

theorem signedRange {n : Nat} (small : n < 2 ^ 16) : ((signed16 n) % 2 ^ 16).toNat = n := by
  unfold signed16
  split_ifs <;> omega

theorem signBack (negative : Bool) : readSign (UInt8.ofNat negative.toNat) = some negative := by
  cases negative <;> rfl

theorem signRead {sign : UInt8} {negative : Bool} (read : readSign sign = some negative) :
    UInt8.ofNat negative.toNat = sign := by
  unfold readSign at read
  split_ifs at read with no yes
  · cases read
    exact no.symm
  · cases read
    exact yes.symm

/- What is read is the normal form of a decimal, and what is written reads back. -/
theorem fromBytesIff (bytes : Bytes) (id : Decimal128Id) :
    fromBytes bytes = some id ↔ DocId.IsDecimal id ∧ toBytes id = bytes := by
  constructor
  · intro read
    unfold fromBytes at read
    split_ifs at read with long
    simp only [Option.bind_eq_bind] at read
    obtain ⟨negative,sign,read⟩ := Option.bind_eq_some_iff.mp read
    split_ifs at read with holds
    cases read
    rw [Bool.and_eq_true, representableIff, Option.isNone_iff_eq_none] at holds
    refine ⟨⟨holds.1,holds.2⟩,?_⟩
    obtain ⟨first,a,b,rest,rfl⟩ : ∃ first a b rest, bytes = first :: a :: b :: rest := by
      rcases bytes with _ | ⟨first, _ | ⟨a, _ | ⟨b, rest⟩⟩⟩
      · exact absurd long (by decide)
      · exact absurd long (by simp [decimal128IdLen])
      · exact absurd long (by simp [decimal128IdLen])
      · exact ⟨first,a,b,rest,rfl⟩
    have sixteen : rest.length = 16 := by
      simp only [decimal128IdLen, List.length_cons, not_not] at long
      omega
    simp only [List.headD_cons] at sign
    have two : unbe [a,b] < 2 ^ 16 := by simpa using unbeBound [a,b]
    simp only [toBytes, List.drop_succ_cons, List.drop_zero, List.take_succ_cons, List.take_zero]
    rw [signRead sign, signedRange two, show be 2 (unbe [a,b]) = [a,b] from beUnbe [a,b], ← sixteen, beUnbe]
    rfl
  · rintro ⟨is,rfl⟩
    obtain ⟨rep,other⟩ := is
    obtain ⟨negative, e, c⟩ := id
    simp only at rep
    obtain ⟨pos,most,core,low,high⟩ := rep
    have bound := coefficientBound
    have fits : c < 256 ^ 16 := by omega
    have exponent : (e % 2 ^ 16).toNat < 256 ^ 2 := by omega
    have long : (toBytes ⟨negative,e,c⟩).length = decimal128IdLen := by
      simp [toBytes, beLength, decimal128IdLen]
    have middle : ((toBytes ⟨negative,e,c⟩).drop 1).take 2 = be 2 (e % 2 ^ 16).toNat := by
      simp [toBytes, beLength]
    have last : (toBytes ⟨negative,e,c⟩).drop 3 = be 16 c := by
      simp [toBytes, beLength]
    have within : -(2 ^ 15) ≤ e ∧ e < 2 ^ 15 := by
      unfold minExponent maxExponent at *
      omega
    rw [fromBytes, if_neg (by simp [long]), middle, last, unbeBe exponent, unbeBe fits, signedBack within.1 within.2]
    simp only [toBytes, List.headD_cons, signBack, Option.bind_eq_bind, Option.bind_some]
    rw [if_pos]
    rw [Bool.and_eq_true, representableIff, Option.isNone_iff_eq_none]
    exact ⟨⟨pos,most,core,low,high⟩,other⟩

end Decimal128Id

/-! The printed form, as the characters `Display` writes. -/

def natText (n : Nat) : List Char := Nat.toDigits 10 n

def intText (i : Int) : List Char := if i < 0 then '-' :: natText i.natAbs else natText i.natAbs

/- `{:+}`. -/
def plusText (i : Int) : List Char := (if i < 0 then '-' else '+') :: natText i.natAbs

/- `{:02x}`. -/
def hexText (b : UInt8) : List Char := [Nat.digitChar (b.toNat / 16),Nat.digitChar (b.toNat % 16)]

/- `Display` of an `ObjectId` is the driver's: its twelve bytes in lowercase hex. -/
structure OidDisplay where
  text : Vector UInt8 12 → List Char
  injective : ∀ x y, text x = text y → x = y
  width : ∀ x, (text x).length = 24
  alphabet : ∀ x, ∀ c ∈ text x, c ∈ "0123456789abcdef".toList

def Decimal128Id.display (id : Decimal128Id) : List Char :=
  let digits := natText id.coefficient
  let adjusted := id.exponent + digits.length - 1
  (if id.negative then ['-'] else []) ++ (digits.take 1 ++ if 1 < digits.length then '.' :: digits.drop 1 else []) ++
    'E' :: plusText adjusted

/- `bin(subtype {subtype:#04x}, {} bytes)`. -/
def binaryDisplay (subtype : UInt8) (length : Nat) : List Char :=
  ['b','i','n','(','s','u','b','t','y','p','e',' ','0','x'] ++ (hexText subtype ++
    ([',',' '] ++ (natText length ++ [' ','b','y','t','e','s',')'])))

def DocId.display (oid : OidDisplay) : DocId → List Char
  | .objectId bytes => oid.text bytes
  | .string text => text.toList
  | .int64 value => intText value.toInt
  | .binary subtype bytes => binaryDisplay subtype bytes.bytes.length
  | .decimal128 id => id.display

namespace DocId

theorem natTextInjective {m n : Nat} (same : natText m = natText n) : m = n := by
  have read := congrArg (Nat.ofDigitChars 10 · 0) same
  simpa [natText] using read

theorem natTextLacks {c : Char} (other : c.isDigit = false) (n : Nat) : c ∉ natText n := by
  intro member
  rw [Nat.isDigit_of_mem_toDigits (by decide) (by decide) member] at other
  cases other

theorem intTextLacks {c : Char} (other : c.isDigit = false) (plain : c ≠ '-') (i : Int) : c ∉ intText i := by
  unfold intText
  split_ifs
  · exact List.not_mem_cons_of_ne_of_not_mem plain (natTextLacks other _)
  · exact natTextLacks other _

theorem intTextInjective {i j : Int} (same : intText i = intText j) : i = j := by
  have minus (n : Nat) : '-' ∉ natText n := natTextLacks (by decide) n
  unfold intText at same
  split_ifs at same with below less less
  · have size := natTextInjective (List.cons.inj same).2
    omega
  · exact absurd (same ▸ List.mem_cons_self) (minus j.natAbs)
  · exact absurd (same ▸ List.mem_cons_self) (minus i.natAbs)
  · have size := natTextInjective same
    omega

theorem intTextShort (v : Int64) : (intText v.toInt).length < 24 := by
  have low := v.le_toInt
  have high := v.toInt_lt
  have digits : (natText v.toInt.natAbs).length ≤ 20 := by
    rw [natText, Nat.length_toDigits_le_iff (by decide) (by decide)]
    omega
  unfold intText
  split_ifs
  · rw [List.length_cons]
    omega
  · omega

theorem plusTextInjective {i j : Int} (same : plusText i = plusText j) : i = j := by
  unfold plusText at same
  obtain ⟨sign,digits⟩ := List.cons.inj same
  have size := natTextInjective digits
  split_ifs at sign with below less less
  · omega
  · exact absurd sign (by decide)
  · exact absurd sign (by decide)
  · omega

theorem digitCharInjective : ∀ a < 16, ∀ b < 16, Nat.digitChar a = Nat.digitChar b → a = b := by decide

theorem hexTextInjective {b c : UInt8} (same : hexText b = hexText c) : b = c := by
  have hb := b.toNat_lt
  have hc := c.toNat_lt
  simp only [hexText, List.cons.injEq, and_true] at same
  have high := digitCharInjective _ (by omega) _ (by omega) same.1
  have low := digitCharInjective _ (by omega) _ (by omega) same.2
  rw [← UInt8.toNat_inj]
  omega

theorem splitAround {α : Type} {mark : α} : ∀ {a b x y : List α}, mark ∉ a → mark ∉ b →
    a ++ mark :: x = b ++ mark :: y → a = b ∧ x = y := by
  intro a
  induction a with
  | nil =>
    intro b x y _ lacks same
    cases b with
    | nil => exact ⟨rfl,(List.cons.inj same).2⟩
    | cons c b =>
      refine absurd ?_ lacks
      rw [(List.cons.inj same).1]
      exact List.mem_cons_self
  | cons d a ih =>
    intro b x y lacksA lacksB same
    cases b with
    | nil =>
      refine absurd ?_ lacksA
      rw [← (List.cons.inj same).1]
      exact List.mem_cons_self
    | cons c b =>
      obtain ⟨first,rest⟩ := List.cons.inj same
      obtain ⟨head,tail⟩ := ih (fun h => lacksA (List.mem_cons_of_mem _ h)) (fun h => lacksB (List.mem_cons_of_mem _ h)) rest
      exact ⟨by rw [first, head],tail⟩

/- The digits with a point after the first. -/
theorem pointedInjective {x y : List Char}
    (same : (x.take 1 ++ if 1 < x.length then '.' :: x.drop 1 else []) =
      y.take 1 ++ if 1 < y.length then '.' :: y.drop 1 else []) (lastX : x ≠ []) (lastY : y ≠ []) : x = y := by
  rcases x with _ | ⟨c, _ | ⟨c', x⟩⟩
  · exact absurd rfl lastX
  · rcases y with _ | ⟨d, _ | ⟨d', y⟩⟩
    · exact absurd rfl lastY
    · simpa using same
    · simp at same
  · rcases y with _ | ⟨d, _ | ⟨d', y⟩⟩
    · exact absurd rfl lastY
    · simp at same
    · simpa using same

theorem pointedLacks {c : Char} (other : c.isDigit = false) (point : c ≠ '.') (n : Nat) :
    c ∉ (natText n).take 1 ++ if 1 < (natText n).length then '.' :: (natText n).drop 1 else [] := by
  have lacks := natTextLacks other n
  rw [List.mem_append, not_or]
  refine ⟨fun member => lacks (List.mem_of_mem_take member),?_⟩
  split_ifs
  · exact List.not_mem_cons_of_ne_of_not_mem point fun member => lacks (List.mem_of_mem_drop member)
  · exact List.not_mem_nil

theorem decimalTextInjective {i j : Decimal128Id} (same : i.display = j.display) : i = j := by
  obtain ⟨ni, ei, ci⟩ := i
  obtain ⟨nj, ej, cj⟩ := j
  simp only [Decimal128Id.display] at same
  have noMark (negative : Bool) (n : Nat) : 'E' ∉ (if negative then ['-'] else []) ++
      ((natText n).take 1 ++ if 1 < (natText n).length then '.' :: (natText n).drop 1 else []) := by
    rw [List.mem_append, not_or]
    exact ⟨by cases negative <;> decide,pointedLacks (by decide) (by decide) n⟩
  have noMinus (n : Nat) := pointedLacks (c := '-') (by decide) (by decide) n
  obtain ⟨front,back⟩ := splitAround (noMark ni ci) (noMark nj cj) same
  have adjusted := plusTextInjective back
  -- a sign is not a digit, so the signs agree and the digits after them do
  have parts : ni = nj ∧ natText ci = natText cj := by
    cases ni <;> cases nj
    · exact ⟨rfl,pointedInjective front Nat.toDigits_ne_nil Nat.toDigits_ne_nil⟩
    · exact absurd (front ▸ List.mem_cons_self) (noMinus ci)
    · exact absurd (front ▸ List.mem_cons_self) (noMinus cj)
    · exact ⟨rfl,pointedInjective (List.cons.inj front).2 Nat.toDigits_ne_nil Nat.toDigits_ne_nil⟩
  rw [parts.2] at adjusted
  have exponents : ei = ej := by omega
  rw [parts.1, natTextInjective parts.2, exponents]

theorem decimalTextMark (id : Decimal128Id) : 'E' ∈ id.display := by
  simp [Decimal128Id.display]

theorem decimalTextLacks (id : Decimal128Id) : '(' ∉ id.display := by
  simp only [Decimal128Id.display, List.mem_append, List.mem_cons, not_or]
  refine ⟨⟨by cases id.negative <;> decide,?_⟩,by decide,?_⟩
  · have lacks := pointedLacks (c := '(') (by decide) (by decide) id.coefficient
    rwa [List.mem_append, not_or] at lacks
  · unfold plusText
    refine List.not_mem_cons_of_ne_of_not_mem ?_ (natTextLacks (by decide) _)
    split_ifs <;> decide

theorem binaryTextMark (subtype : UInt8) (length : Nat) : '(' ∈ binaryDisplay subtype length := by
  simp [binaryDisplay]

theorem binaryText {s t : UInt8} {m n : Nat} (same : binaryDisplay s m = binaryDisplay t n) : s = t ∧ m = n := by
  simp only [binaryDisplay, List.append_cancel_left_eq] at same
  obtain ⟨subtype,rest⟩ := List.append_inj same rfl
  simp only [List.append_cancel_left_eq, List.append_cancel_right_eq] at rest
  exact ⟨hexTextInjective subtype,natTextInjective rest⟩

/- What two ids that print alike have in common. -/
def Alike (i j : DocId) : Prop :=
  i = j ∨ (∃ text, i = .string text) ∨ (∃ text, j = .string text) ∨
    ∃ subtype x y, i = .binary subtype x ∧ j = .binary subtype y ∧ x.bytes.length = y.bytes.length

/- A character of one text that the other lacks tells the two apart. -/
theorem apart {x y : List Char} (c : Char) (here : c ∈ x) (lacks : c ∉ y) : x ≠ y := by
  rintro rfl
  exact lacks here

theorem displayAlike (oid : OidDisplay) {i j : DocId} (same : i.display oid = j.display oid) : Alike i j := by
  have hex {c : Char} (other : c ∉ "0123456789abcdef".toList) (x : Vector UInt8 12) : c ∉ oid.text x :=
    fun member => other (oid.alphabet x c member)
  cases i with
  | string text => exact Or.inr (Or.inl ⟨text,rfl⟩)
  | objectId x =>
    cases j with
    | string text => exact Or.inr (Or.inr (Or.inl ⟨text,rfl⟩))
    | objectId y => exact Or.inl (by rw [oid.injective x y same])
    | int64 w =>
      have short := intTextShort w
      have long := oid.width x
      rw [show oid.text x = intText w.toInt from same] at long
      omega
    | binary t y => exact absurd same.symm (apart '(' (binaryTextMark t _) (hex (by decide) x))
    | decimal128 j => exact absurd same.symm (apart 'E' (decimalTextMark j) (hex (by decide) x))
  | int64 v =>
    cases j with
    | string text => exact Or.inr (Or.inr (Or.inl ⟨text,rfl⟩))
    | objectId y =>
      have short := intTextShort v
      have long := oid.width y
      rw [← show intText v.toInt = oid.text y from same] at long
      omega
    | int64 w => exact Or.inl (by rw [Int64.toInt_inj.mp (intTextInjective same)])
    | binary t y =>
      exact absurd same.symm (apart '(' (binaryTextMark t _) (intTextLacks (by decide) (by decide) _))
    | decimal128 j =>
      exact absurd same.symm (apart 'E' (decimalTextMark j) (intTextLacks (by decide) (by decide) _))
  | binary s x =>
    cases j with
    | string text => exact Or.inr (Or.inr (Or.inl ⟨text,rfl⟩))
    | objectId y => exact absurd same (apart '(' (binaryTextMark s _) (hex (by decide) y))
    | int64 w => exact absurd same (apart '(' (binaryTextMark s _) (intTextLacks (by decide) (by decide) _))
    | binary t y =>
      obtain ⟨rfl,length⟩ := binaryText same
      exact Or.inr (Or.inr (Or.inr ⟨s,x,y,rfl,rfl,length⟩))
    | decimal128 j => exact absurd same (apart '(' (binaryTextMark s _) (decimalTextLacks j))
  | decimal128 i =>
    cases j with
    | string text => exact Or.inr (Or.inr (Or.inl ⟨text,rfl⟩))
    | objectId y => exact absurd same (apart 'E' (decimalTextMark i) (hex (by decide) y))
    | int64 w => exact absurd same (apart 'E' (decimalTextMark i) (intTextLacks (by decide) (by decide) _))
    | binary t y => exact absurd same.symm (apart '(' (binaryTextMark t _) (decimalTextLacks i))
    | decimal128 j => exact Or.inl (by rw [decimalTextInjective same])

/- One value is one id, through BSON, the stored key and the bytes; its text names it among the ids that are
neither strings nor binaries. -/
theorem identifies (oid : OidDisplay) :
    (∀ v w i j, tryFromBson v = some i → tryFromBson w = some j → (i = j ↔ canonicalCmp v w = .eq)) ∧
    (∀ id, IsId id → ∃ b, id.toBson = some b ∧ tryFromBson b = some id) ∧
    (∀ bytes, (Decimal128Id.fromBytes bytes).isSome = true ↔ ∃ id, IsId (.decimal128 id) ∧ id.toBytes = bytes) ∧
    (∀ id, IsId (.decimal128 id) → id.toBytes.length = Decimal128Id.decimal128IdLen ∧
      Decimal128Id.fromBytes id.toBytes = some id) ∧
    (∀ i j, IsId i → IsId j → i ≠ j →
      ∃ ki kj, i.storedKey = some ki ∧ j.storedKey = some kj ∧ ki ≠ kj) ∧
    ∀ i j : DocId, i.display oid = j.display oid → Alike i j := by
  have known {id : Decimal128Id} (is : IsDecimal id) : IsId (.decimal128 id) := by
    obtain ⟨word,_,_,_,_,_,again⟩ := decimalBack is
    exact ⟨_,again⟩
  have written {id : Decimal128Id} (is : IsId (.decimal128 id)) : Decimal128Id.fromBytes id.toBytes = some id :=
    (Decimal128Id.fromBytesIff _ id).mpr ⟨isDecimalOf is,rfl⟩
  refine ⟨fun v w i j => sameId,fun id => backAgain,fun bytes => ?_,fun id is => ⟨?_,written is⟩,
    fun i j isI isJ differ => ?_,fun i j => displayAlike oid⟩
  · constructor
    · intro read
      obtain ⟨id,read⟩ := Option.isSome_iff_exists.mp read
      obtain ⟨is,wrote⟩ := (Decimal128Id.fromBytesIff bytes id).mp read
      exact ⟨id,known is,wrote⟩
    · rintro ⟨id,is,rfl⟩
      rw [written is]
      rfl
  · simp [Decimal128Id.toBytes, beLength, Decimal128Id.decimal128IdLen]
  · obtain ⟨ki,kj,keyI,keyJ,same⟩ := storedKeyInjective isI isJ
    exact ⟨ki,kj,keyI,keyJ,fun keys => differ (same keys)⟩

theorem hexTextsInjective : ∀ {x y : List UInt8}, x.flatMap hexText = y.flatMap hexText → x = y := by
  intro x
  induction x with
  | nil =>
    intro y same
    cases y with
    | nil => rfl
    | cons => simp [hexText] at same
  | cons b x ih =>
    intro y same
    cases y with
    | nil => simp [hexText] at same
    | cons c y =>
      rw [List.flatMap_cons, List.flatMap_cons] at same
      obtain ⟨first,rest⟩ := List.append_inj same rfl
      rw [hexTextInjective first, ih rest]

theorem digitCharAlphabet : ∀ n < 16, Nat.digitChar n ∈ "0123456789abcdef".toList := by decide

def hexDisplay : OidDisplay where
  text := fun bytes => bytes.toList.flatMap hexText
  injective := fun _ _ same => Vector.toList_inj.mp (hexTextsInjective same)
  width := by
    intro x
    have two (bytes : List UInt8) : (bytes.flatMap hexText).length = 2 * bytes.length := by
      induction bytes with
      | nil => rfl
      | cons b bytes ih =>
        rw [List.flatMap_cons, List.length_append, ih, List.length_cons]
        simp only [hexText, List.length_cons, List.length_nil]
        omega
    rw [two, Vector.length_toList]
  alphabet := by
    intro x c member
    obtain ⟨b,_,digit⟩ := List.mem_flatMap.mp member
    have byte := b.toNat_lt
    simp only [hexText, List.mem_cons, List.not_mem_nil, or_false] at digit
    rcases digit with rfl | rfl
    · exact digitCharAlphabet _ (by omega)
    · exact digitCharAlphabet _ (by omega)

/- `5` as an `int32` and as the decimal `5E0` are one id, equal in the canonical order. -/
theorem fiveIdentified :
    tryFromBson (.decimal128 0x30400000000000000000000000000005#128) = tryFromBson (.int32 5) ∧
      canonicalCmp (.int32 5) (.decimal128 0x30400000000000000000000000000005#128) = .eq := by
  have whole : tryFromBson (.decimal128 0x30400000000000000000000000000005#128) = some (.int64 5) := by
    have read : Decimal.decode 0x30400000000000000000000000000005#128 = .finite false 5 0 := by decide
    have normal : Decimal.normalized 5 0 = (5,0) := by
      rw [Decimal.normalized]
      rfl
    simp only [tryFromBson, read, normal]
    rfl
  exact ⟨whole,((identifies hexDisplay).1 _ _ _ _ rfl whole).mp rfl⟩

/- A string prints as it is, so it can print as another id does; and a decimal id takes nineteen bytes. -/
theorem stringPrintsAlike : (∃ i j : DocId, IsId i ∧ IsId j ∧ i ≠ j ∧ i.display hexDisplay = j.display hexDisplay) ∧
    ∃ id, IsId (.decimal128 id) ∧ id.toBytes.length ≠ 16 := by
  have half : tryFromBson (.decimal128 0x303E0000000000000000000000000005#128) = some (.decimal128 ⟨false,-1,5⟩) := by
    have read : Decimal.decode 0x303E0000000000000000000000000005#128 = .finite false 5 (-1) := by decide
    have normal : Decimal.normalized 5 (-1) = (5,-1) := by
      rw [Decimal.normalized]
      rfl
    simp only [tryFromBson, read, normal]
    rfl
  exact ⟨⟨.string "5",.int64 5,⟨.string "5",rfl⟩,⟨.int64 5,rfl⟩,by simp,by decide⟩,_,⟨_,half⟩,by decide⟩

end DocId
end Kimmy
