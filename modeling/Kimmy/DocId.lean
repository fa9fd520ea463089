import Kimmy.Store.Document

/-!
The ids of documents (`ids.rs`): an `_id` is normalised before it is keyed, so that every
spelling of one number is one document.
-/
namespace Kimmy
open ByteOrder CanonicalCmp KeyEnc

namespace Decimal

/- Trailing zeros of the coefficient are moved into the exponent. -/
def normalized (coefficient : Nat) (exponent : Int) : Nat × Int :=
  if 0 < coefficient ∧ coefficient % 10 = 0 then normalized (coefficient / 10) (exponent + 1)
  else (coefficient,exponent)
termination_by coefficient
decreasing_by omega

def packBits (negative : Bool) (coefficient : Nat) (exponent : Int) : Nat :=
  (negative.toNat <<< 127) ||| ((exponent + exponentBias).toNat <<< 113) ||| coefficient

def pack (negative : Bool) (coefficient : Nat) (exponent : Int) : Decimal128 :=
  BitVec.ofNat 128 (packBits negative coefficient exponent)

def checked (value : Nat) : Option Nat := if value < 2 ^ 128 then some value else none

/- An exponent above the range is brought back by padding the coefficient with zeros. -/
def packPadded (negative : Bool) (coefficient : Nat) (exponent : Int) : Option Decimal128 := do
  let scale ← checked (10 ^ (exponent - maxExponent).toNat)
  let coefficient ← checked (coefficient * scale)
  let exponent := min exponent maxExponent
  if 1 ≤ coefficient ∧ coefficient ≤ maxCoefficient ∧ minExponent ≤ exponent then
    some (pack negative coefficient exponent)
  else none

end Decimal

structure Decimal128Id where
  negative : Bool
  exponent : Int
  coefficient : Nat

namespace Decimal128Id

/- The loop that multiplies the exponent out, given up past `2^63`. -/
def raised (magnitude : Nat) : Nat → Option Nat
  | 0 => some magnitude
  | more + 1 => do
      let next ← Decimal.checked (magnitude * 10)
      if 2 ^ 63 < next then none else raised next more

def asI64 (id : Decimal128Id) : Option Int64 := do
  if id.exponent < 0 then none
  else
    let magnitude ← raised id.coefficient id.exponent.toNat
    if id.negative then
      if magnitude = 2 ^ 63 then some Int64.minValue
      else if magnitude < 2 ^ 63 then some (Int64.ofInt (-magnitude)) else none
    else if magnitude < 2 ^ 63 then some (Int64.ofInt magnitude) else none

def toDecimal128 (id : Decimal128Id) : Option Decimal128 :=
  Decimal.packPadded id.negative id.coefficient id.exponent

end Decimal128Id

inductive DocId where
  | objectId (bytes : Vector UInt8 12)
  | string (text : String)
  | int64 (value : Int64)
  | binary (subtype : UInt8) (bytes : Blob)
  | decimal128 (id : Decimal128Id)

namespace DocId

/- `none` for a type that is no primary key; a whole decimal in range is an integer. -/
def tryFromBson : Bson → Option DocId
  | .objectId bytes => some (.objectId bytes)
  | .string text => some (.string text)
  | .int32 value => some (.int64 value.toInt64)
  | .int64 value => some (.int64 value)
  | .binary subtype bytes => some (.binary subtype bytes)
  | .decimal128 word => match Decimal.decode word with
      | .zero => some (.int64 0)
      | .finite negative coefficient exponent =>
          let pair := Decimal.normalized coefficient exponent
          let id : Decimal128Id := ⟨negative,pair.2,pair.1⟩
          some (match id.asI64 with
            | some value => .int64 value
            | none => .decimal128 id)
      | .nan | .negInfinity | .posInfinity => none
  | _ => none

/- `none` is the panic of an id that no decimal holds. -/
def toBson : DocId → Option Bson
  | .objectId bytes => some (.objectId bytes)
  | .string text => some (.string text)
  | .int64 value => some (.int64 value)
  | .binary subtype bytes => some (.binary subtype bytes)
  | .decimal128 id => id.toDecimal128.map .decimal128

end DocId

/- The key of the document whose `_id` is `value`. -/
def idKey (value : Bson) : Option Bytes := do
  let id ← DocId.tryFromBson value
  encode (← id.toBson)

def idField : String := "_id"

/- `doc_key` of `extract_id`. -/
def Document.docKey (doc : Document) : Option Bytes := (doc.get idField).bind idKey

/-! Normalising and packing keep the value. -/

namespace Decimal

theorem normalizedSpec {c : Nat} (pos : 0 < c) (e : Int) :
    ∃ n : Nat, c = (normalized c e).1 * 10 ^ n ∧ (normalized c e).2 = e + n := by
  induction c using Nat.strong_induction_on generalizing e with
  | _ c ih =>
    rw [normalized]
    split_ifs with more
    · have small : c / 10 < c := by omega
      obtain ⟨n,scaled,raised⟩ := ih (c / 10) small (by omega) (e + 1)
      refine ⟨n + 1,?_,by rw [raised]; push_cast; ring⟩
      rw [pow_succ, ← mul_assoc, ← scaled]
      omega
    · exact ⟨0,by simp,by simp⟩

theorem magnitudeShift (c : Nat) (e : Int) (n : Nat) : magnitude (c * 10 ^ n) e = magnitude c (e + n) := by
  unfold magnitude
  rw [zpow_add₀ (by norm_num), zpow_natCast]
  push_cast
  ring

theorem packBitsSum (negative : Bool) {c : Nat} {e : Int} (most : c ≤ maxCoefficient) (low : minExponent ≤ e)
    (high : e ≤ maxExponent) :
    packBits negative c e = negative.toNat * 2 ^ 127 + ((e + exponentBias).toNat * 2 ^ 113 + c) ∧
      (e + exponentBias).toNat < 0x3000 ∧ c < 2 ^ 113 := by
  have small : c < 2 ^ 113 := by
    have := coefficientBound
    omega
  have biased : (e + exponentBias).toNat < 0x3000 := by
    unfold minExponent maxExponent exponentBias at *
    omega
  have field : (e + exponentBias).toNat <<< 113 ||| c = (e + exponentBias).toNat * 2 ^ 113 + c := by
    rw [← Nat.shiftLeft_add_eq_or_of_lt small, Nat.shiftLeft_eq]
  have fits : (e + exponentBias).toNat * 2 ^ 113 + c < 2 ^ 127 := by omega
  refine ⟨?_,biased,small⟩
  rw [packBits, Nat.or_assoc, field, ← Nat.shiftLeft_add_eq_or_of_lt fits, Nat.shiftLeft_eq]

/- The fields of a packed word, as both decoders read them. -/
theorem packFields (negative : Bool) {c : Nat} {e : Int} (most : c ≤ maxCoefficient) (low : minExponent ≤ e)
    (high : e ≤ maxExponent) :
    ((pack negative c e).toNat >>> 125) &&& 0b11 ≠ 0b11 ∧
      (((pack negative c e).toNat >>> 113) &&& 0x3FFF : Nat) = e + exponentBias ∧
      (pack negative c e).toNat &&& (2 ^ 113 - 1) = c ∧ ((pack negative c e).toNat >>> 127 == 1) = negative := by
  obtain ⟨sum,biased,small⟩ := packBitsSum negative most low high
  have sign : negative.toNat ≤ 1 := by cases negative <;> decide
  have word : (pack negative c e).toNat = packBits negative c e := by
    rw [pack, BitVec.toNat_ofNat, Nat.mod_eq_of_lt]
    omega
  have nonneg : 0 ≤ e + exponentBias := by
    unfold minExponent exponentBias at *
    omega
  rw [word]
  simp only [Nat.shiftRight_eq_div_pow]
  rw [Nat.and_two_pow_sub_one_eq_mod _ 2, Nat.and_two_pow_sub_one_eq_mod _ 14, Nat.and_two_pow_sub_one_eq_mod _ 113]
  refine ⟨by omega,by omega,by omega,?_⟩
  have read : packBits negative c e / 2 ^ 127 = negative.toNat := by omega
  rw [read]
  cases negative <;> rfl

theorem decodePack {negative : Bool} {c : Nat} {e : Int} (canonical : Canonical c e) :
    decode (pack negative c e) = .finite negative c e := by
  obtain ⟨pos,most,low,high⟩ := canonical
  obtain ⟨top,field,coefficient,sign⟩ := packFields negative most low high
  rw [decode, decodeBits]
  simp only
  rw [if_neg top, coefficient, if_neg (by omega), sign, field, add_sub_cancel_right]

/- Padding a normalised pair that came from a decimal always fits, and keeps its value. -/
theorem packPaddedSpec (negative : Bool) {c : Nat} {e : Int} (canonical : Canonical c e) :
    ∃ word d f, packPadded negative (normalized c e).1 (normalized c e).2 = some word ∧
      decode word = .finite negative d f ∧ magnitude d f = magnitude c e := by
  obtain ⟨n,scaled,raised⟩ := normalizedSpec canonical.1 e
  obtain ⟨pos,most,low,high⟩ := canonical
  generalize normalized c e = pair at *
  obtain ⟨c', e'⟩ := pair
  simp only at scaled raised
  subst scaled raised
  have core : 0 < c' := Nat.pos_of_mul_pos_right pos
  -- the padding is at most the zeros that were taken off
  obtain ⟨rest,split⟩ : ∃ rest, n = (e + n - maxExponent).toNat + rest := ⟨n - (e + n - maxExponent).toNat,by omega⟩
  generalize pads : (e + n - maxExponent).toNat = pad at *
  have padded : c' * 10 ^ pad ≤ c' * 10 ^ n :=
    Nat.mul_le_mul_left _ (Nat.pow_le_pow_right (by decide) (by omega))
  have bound := coefficientBound
  have scale : 10 ^ pad < 2 ^ 128 := by
    have : 10 ^ pad ≤ c' * 10 ^ pad := Nat.le_mul_of_pos_left _ core
    omega
  have canonical : Canonical (c' * 10 ^ pad) (min (e + n) maxExponent) := by
    refine ⟨Nat.mul_pos core (by positivity),by omega,?_,min_le_right _ _⟩
    unfold minExponent maxExponent at *
    omega
  refine ⟨_,_,_,?_,decodePack canonical,?_⟩
  · simp only [packPadded, pads, checked]
    rw [if_pos scale]
    simp only [Option.bind_eq_bind, Option.bind_some]
    rw [if_pos (by omega)]
    simp only [Option.bind_some]
    rw [if_pos ⟨canonical.1,canonical.2.1,canonical.2.2.1⟩]
  · rw [magnitudeShift, magnitudeShift]
    congr 1
    omega

end Decimal

/-! An id is worth what it was made from. -/

namespace DocId
open Decimal

theorem raisedSpec {c m n : Nat} (is : Decimal128Id.raised c n = some m) : m = c * 10 ^ n := by
  induction n generalizing c with
  | zero => simpa [Decimal128Id.raised] using is.symm
  | succ n ih =>
    simp only [Decimal128Id.raised, checked, Option.bind_eq_bind] at is
    split_ifs at is with small
    · simp only [Option.bind_some, Option.ite_none_left_eq_some] at is
      rw [ih is.2, pow_succ]
      ring
    · cases is

theorem asI64Spec {id : Decimal128Id} {v : Int64} (is : id.asI64 = some v) :
    (v.toInt : ℚ) = Exact.signed id.negative (magnitude id.coefficient id.exponent) := by
  obtain ⟨negative, e, c⟩ := id
  have worth {m : Nat} (whole : ¬ e < 0) (raised : Decimal128Id.raised c e.toNat = some m) : magnitude c e = (m : ℚ) := by
    rw [raisedSpec raised, magnitude]
    push_cast
    rw [← zpow_natCast, Int.toNat_of_nonneg (by omega)]
  cases negative with
  | false =>
    simp only [Decimal128Id.asI64, Option.bind_eq_bind, Bool.false_eq_true, if_false, Option.ite_none_left_eq_some] at is
    obtain ⟨m,raised,last⟩ := Option.bind_eq_some_iff.mp is.2
    rw [worth is.1 raised]
    split_ifs at last with small
    cases last
    rw [Int64.toInt_ofInt_of_le (by omega) (by omega)]
    simp [Exact.signed]
  | true =>
    simp only [Decimal128Id.asI64, Option.bind_eq_bind, if_true, Option.ite_none_left_eq_some] at is
    obtain ⟨m,raised,last⟩ := Option.bind_eq_some_iff.mp is.2
    rw [worth is.1 raised]
    split_ifs at last with least small
    · cases last
      rw [least]
      simp [Exact.signed]
    · cases last
      rw [Int64.toInt_ofInt_of_le (by omega) (by omega)]
      simp [Exact.signed]

/- Two numbers of one value are equal in the canonical order. -/
theorem numbersEqual {a b : Bson} {x : Exact} (readA : Exact.ofBson a = some x) (readB : Exact.ofBson b = some x) :
    canonicalCmp a b = .eq := by
  rw [KeyOrder.canonicalCmpExact readA readB]
  cases x <;> simp [Exact.cmp, Std.ReflOrd.compare_self]

theorem decimalRead {word : Decimal128} {negative : Bool} {c : Nat} {e : Int}
    (read : decode word = .finite negative c e) :
    Exact.ofBson (.decimal128 word) = some (.finite (Exact.signed negative (magnitude c e))) := by
  rw [Exact.ofBson, ← Number.decodeValue, read]
  rfl

theorem toBsonSame {v : Bson} {id : DocId} (is : tryFromBson v = some id) :
    ∃ b, id.toBson = some b ∧ canonicalCmp v b = .eq := by
  have refl := KeyOrder.cmpRefl
  cases v with
  | objectId | string | int64 | binary =>
    cases is
    exact ⟨_,rfl,refl _⟩
  | int32 value =>
    cases is
    exact ⟨_,rfl,numbersEqual rfl (by rw [Exact.ofBson, Int32.toInt_toInt64])⟩
  | decimal128 word =>
    simp only [tryFromBson] at is
    cases read : decode word with
    | zero =>
      rw [read] at is
      cases is
      refine ⟨_,rfl,numbersEqual (x := .finite 0) ?_ ?_⟩
      · rw [Exact.ofBson, ← Number.decodeValue, read]
        rfl
      · simp [Exact.ofBson]
    | finite negative c e =>
      rw [read] at is
      simp only [Option.some.injEq] at is
      obtain ⟨word',d,f,packed,again,same⟩ := packPaddedSpec negative (decodeCanonical read)
      obtain ⟨n,scaled,raised⟩ := normalizedSpec (decodeCanonical read).1 e
      split at is
      · rename_i value whole
        subst is
        refine ⟨_,rfl,numbersEqual (decimalRead read) ?_⟩
        have worth := asI64Spec whole
        simp only at worth
        have kept : magnitude (normalized c e).1 (normalized c e).2 = magnitude c e := by
          rw [raised, ← magnitudeShift, ← scaled]
        rw [kept] at worth
        rw [Exact.ofBson, worth]
      · subst is
        refine ⟨.decimal128 word',?_,numbersEqual (decimalRead read) ?_⟩
        · simp only [toBson, Decimal128Id.toDecimal128]
          rw [packed]
          rfl
        · rw [decimalRead again, same]
    | nan | negInfinity | posInfinity =>
      rw [read] at is
      cases is
  | _ => cases is

end DocId

/- Every id has a key, and equal ids have one key: spelling does not matter. -/
theorem idKeyTotal {v : Bson} (valid : (DocId.tryFromBson v).isSome) : ∃ k, idKey v = some k ∧ encode v = some k := by
  obtain ⟨id,is⟩ := Option.isSome_iff_exists.mp valid
  obtain ⟨b,made,same⟩ := DocId.toBsonSame is
  obtain ⟨kv,kb,keyV,keyB,agree⟩ := KeyOrder.keysAgree v b
  refine ⟨kv,?_,keyV⟩
  rw [agree.mpr same]
  simp only [idKey, is, Option.bind_eq_bind, Option.bind_some, made, keyB]

theorem idKeyEncodes {v : Bson} {k : Bytes} (key : idKey v = some k) : encode v = some k := by
  simp only [idKey, Option.bind_eq_bind] at key
  obtain ⟨id,is,_⟩ := Option.bind_eq_some_iff.mp key
  obtain ⟨k',key',encoded⟩ := idKeyTotal (v := v) (by rw [is]; rfl)
  simp only [idKey, Option.bind_eq_bind] at key'
  rw [encoded, ← key', ← key]

end Kimmy
