import Kimmy.SignedLimbs
import Kimmy.Binary64
import Kimmy.Store.Document

/-!
The exact sum of doubles and integers that a window slides (`window_acc.rs`): one integer in units
of the least double, in 68 digits of 32 bits that are carried only when the sum is read, and rounded
once then. A term leaves by the digits that it came with, so what is held is exact.
-/
namespace Kimmy.Window
open Limbs BigInt
open Decimal.Arith (infinity signOf fieldOf fieldValue overflowAt NearestField NearestDouble)

/- A signed machine word after an operation that may leave its range. -/
def wrap (width : Nat) (n : Int) : Int := Int.bmod n (2 ^ width)

def signedTerm (negative : Bool) (n : Int) : Int := if negative then -n else n

structure ExactDoubles where
  digits : List Int
  full : digits.length = 68

namespace ExactDoubles

def zero : ExactDoubles := ⟨List.replicate 68 0,List.length_replicate⟩

/- `digits[i] += n`. -/
def bump (s : ExactDoubles) (i : Nat) (n : Int) : ExactDoubles :=
  ⟨s.digits.modify i fun d => wrap 64 (d + n),(List.length_modify _ _ _).trans s.full⟩

/- Add, or take away, `magnitude * 2 ^ shift` units. -/
def addShifted (s : ExactDoubles) (magnitude shift : Nat) (negative : Bool) : ExactDoubles :=
  if magnitude = 0 then s
  else
    let piece := (magnitude % 2 ^ 32) <<< (shift % 32)
    let low := s.bump (shift / 32) (signedTerm negative (piece % 2 ^ 32 : Nat))
    let both := low.bump (shift / 32 + 1) (signedTerm negative (piece / 2 ^ 32 : Nat))
    both.addShifted (magnitude / 2 ^ 32) (shift + 32) negative
  termination_by magnitude
  decreasing_by omega

/- A normal double has its leading bit and a shift of one less than its exponent field. -/
def add (s : ExactDoubles) (bits : UInt64) : ExactDoubles :=
  let exponent := bits.toNat / 2 ^ 52 % 2 ^ 11
  let fraction := bits.toNat % 2 ^ 52
  if exponent = 0 then s.addShifted fraction 0 (signOf bits)
  else s.addShifted (2 ^ 52 + fraction) (exponent - 1) (signOf bits)

def addInteger (s : ExactDoubles) (n : Int) : ExactDoubles := s.addShifted n.natAbs 1074 (decide (n < 0))

end ExactDoubles

/- `iter().rposition(|l| *l != 0)`. -/
def lastNonzero : List Nat → Option Nat
  | [] => none
  | l :: limbs => match lastNonzero limbs with
      | some i => some (i + 1)
      | none => if l ≠ 0 then some 0 else none

/- `len` bits from bit `start` up, out of four limbs. -/
def bitsAt (limbs : List Nat) (start len : Nat) : Nat :=
  let first := start / 32
  let window := limbs.getD first 0 + limbs.getD (first + 1) 0 * 2 ^ 32 + limbs.getD (first + 2) 0 * 2 ^ 64 +
    limbs.getD (first + 3) 0 * 2 ^ 96
  window / 2 ^ (start % 32) % 2 ^ len

/- Whether anything lies below the bit. -/
def stickyBelow (limbs : List Nat) (guard : Nat) : Bool :=
  (limbs.take (guard / 32)).any (fun l => l ≠ 0) ||
    (guard % 32 ≠ 0 && limbs.getD (guard / 32) 0 % 2 ^ (guard % 32) ≠ 0)

/- The field of a coefficient of 53 bits: the leading bit at position `p` has a biased exponent of `p - 51`. -/
def fieldAt (rounded : Nat × Nat) : Nat :=
  if 2047 ≤ rounded.2 - 51 then infinity else (rounded.2 - 51) * 2 ^ 52 + rounded.1 % 2 ^ 52

/- The magnitude of the nearest double. Up to 53 bits are a subnormal or one of the smallest normals, whose
field is the number of units itself. -/
def roundToDouble (limbs : List Nat) : Nat :=
  match lastNonzero limbs with
  | none => 0
  | some top =>
      let highest := top * 32 + 31 - leadingZeros 32 (limbs.getD top 0)
      if highest < 53 then bitsAt limbs 0 53
      else
        let mantissa := bitsAt limbs (highest - 52) 53
        let guard := highest - 53
        fieldAt (if bitsAt limbs guard 1 = 1 ∧ (stickyBelow limbs guard ∨ mantissa % 2 = 1) then
          if mantissa + 1 = 2 ^ 53 then ((mantissa + 1) / 2,highest + 1) else (mantissa + 1,highest)
        else (mantissa,highest))

/- The two's complement, limb by limb. -/
def complement : Nat → List Nat → List Nat
  | _, [] => []
  | up, l :: limbs => (2 ^ 32 - 1 - l + up) % 2 ^ 32 :: complement ((2 ^ 32 - 1 - l + up) / 2 ^ 32) limbs

namespace ExactDoubles

/- Rounded once, to nearest even; past the largest double, an infinity. -/
def value (s : ExactDoubles) : UInt64 :=
  let (limbs,carry) := carries (2 ^ 32) 0 s.digits
  if 0 < carry then .ofNat infinity
  else if carry < 0 then .ofNat (2 ^ 63 ||| roundToDouble (complement 1 limbs))
  else .ofNat (roundToDouble limbs)

def valueWith (s : ExactDoubles) (ints : Int) : UInt64 := (s.addInteger ints).value

end ExactDoubles

/-! The numbers of a window. -/

structure Plain where
  ints : Int
  nInt : Nat
  nLong : Nat
  doubles : ExactDoubles
  nDbl : Nat
  nan : Nat
  posInf : Nat
  negInf : Nat

namespace Plain

def new : Plain := ⟨0,0,0,.zero,0,0,0,0⟩

/- A count, which never goes below zero. -/
def count (adding : Bool) (n : Nat) : Nat := if adding then n + 1 else n - 1

def negated (bits : UInt64) : UInt64 := bits ^^^ 0x8000000000000000

/- The rounding dust of doubles that have all left is forgotten. -/
def applyDouble (p : Plain) (bits : UInt64) (adding : Bool) : Plain :=
  let doubles := p.doubles.add (if adding then bits else negated bits)
  let n := count adding p.nDbl
  { p with nDbl := n, doubles := if n = 0 then .zero else doubles }

def apply (p : Plain) (v : Bson) (adding : Bool) : Plain :=
  match v with
  | .int32 n => { p with ints := wrap 128 (p.ints + signedTerm (!adding) n.toInt), nInt := count adding p.nInt }
  | .int64 n => { p with
      ints := wrap 128 (p.ints + signedTerm (!adding) n.toInt)
      nInt := count adding p.nInt
      nLong := count adding p.nLong }
  | .double bits =>
      if infinity < fieldOf bits then { p with nan := count adding p.nan }
      else if fieldOf bits = infinity then
        if signOf bits then { p with negInf := count adding p.negInf } else { p with posInf := count adding p.posInf }
      else p.applyDouble bits adding
  | _ => p

end Plain

end Kimmy.Window
