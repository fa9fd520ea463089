import Kimmy.CmpNumbers

/-!
The body of a finite number's key (`keyenc/number.rs`): exponent, first 128 bits of the
binary expansion, and whether any later bit is set. A decimal's window comes from one of
two tables of powers of five, or from exact integer arithmetic where a table could be
wrong; the mark has a closed form. `IsBody` says what all of them compute.
-/
namespace Kimmy.KeyNumber
open BigInt Limbs Decimal

structure Body where
  exp : Int
  window : Nat
  inexact : Bool
  deriving DecidableEq, Repr

def binary (exp : Int) (mantissa : Nat) : Body := ⟨exp,mantissa <<< 64,false⟩

def log2FiveLo : Nat := 42832013323943160825
def log2FiveHi : Nat := log2FiveLo + 1

def ceilLog2Pow5 (k : Nat) : Nat := (k * log2FiveHi + 2 ^ 64 - 1) >>> 64

/-! The exactness mark. -/

def integerTailNonzero (c e : Nat) : Bool :=
  let exactUpTo := 128 + trailingZeros 128 c
  let log2C := 127 - leadingZeros 128 c
  let lowest := log2C + (e * log2FiveLo) >>> 64 + 1
  let highest := log2C + ceilLog2Pow5 e + 1
  if highest ≤ exactUpTo then false
  else if lowest > exactUpTo then true
  else decide (((Big.fromU128 c).mulPow5 e).bitLen > exactUpTo)

def inexact (c : Nat) (e : Int) : Bool :=
  if 0 ≤ e then integerTailNonzero c e.toNat
  else
    let q := e.natAbs
    if 49 ≤ q then true
    else
      let power := 5 ^ q
      if c % power ≠ 0 then true
      else integerTailNonzero (c / power) 0

/-! The window, exactly. -/

def exactBody (c : Nat) (e : Int) : Body :=
  let n := Big.fromU128 c
  let (n,exp,divides) : Big × Int × Bool :=
    if 0 ≤ e then
      let n := n.mulPow5 e.toNat
      (n,n.bitLen - 1 + e,true)
    else
      let q := e.natAbs
      let lengthC := 128 - leadingZeros 128 c
      let k := 129 + ceilLog2Pow5 q + 1 - lengthC
      let n := (n.shl k).divPow5 q
      (n.1,n.1.bitLen - 1 - q - k,n.2)
  let (top,restZero) := n.topBits 2 128
  ⟨exp,top.getD 0 0 ||| top.getD 1 0 <<< 64,!(divides && restZero)⟩

def exactWindow (c : Nat) (e : Int) : Int × Nat :=
  let exact := exactBody c e
  (exact.exp,exact.window)

/-! The window from a table entry. -/

def narrowLimbs : Nat := 3
def wideLimbs : Nat := 6

structure Pow5 where
  mantissa : List Nat
  shift : Int

def Pow5.of (limbs : Nat) (value : Big) (scale : Nat) : Pow5 :=
  let width := 64 * limbs
  ⟨(value.topBits limbs width).1,value.bitLen - width - scale⟩

/- The entry at index `e` of the table of powers, the loop's multiplications done `e` times. -/
def positivePower (limbs e : Nat) : Pow5 :=
  Pow5.of limbs ((fun power : Big => power.mulSmall 5)^[e] (Big.fromU128 1)) 0

def reciprocalWidth (limbs : Nat) : Nat := 14341 + 64 * limbs + 64

/- The entry at index `q − 1` of the table of reciprocals, after `q` divisions. -/
def negativePower (limbs q : Nat) : Pow5 :=
  let width := reciprocalWidth limbs
  Pow5.of limbs ((fun reciprocal : Big => (reciprocal.divSmall 5).1)^[q] ((Big.fromU128 1).shl width)) width

def entry (limbs : Nat) (e : Int) : Pow5 :=
  if 0 ≤ e then positivePower limbs e.toNat else negativePower limbs e.natAbs

def narrow (e : Int) : Pow5 := entry narrowLimbs e
def wide (e : Int) : Pow5 := entry wideLimbs e

/- `c · t` in two limbs more than `t` has: a row for each half of `c`. -/
def mulWide (c : Nat) (t : List Nat) : List Nat :=
  match mulRow word (c % word) 0 t (List.replicate (t.length + 2) 0) with
  | [] => []
  | low :: product => low :: mulRow word (c / word % word) 0 t product

def leadingZerosTop : List Nat → Nat
  | [] => 0
  | limb :: below => if limb = 0 then 64 + leadingZerosTop below else BigInt.leadingZeros 64 limb

def leadingZeros (n : List Nat) : Nat := leadingZerosTop n.reverse

def bitsFrom (n : List Nat) (cut : Nat) : Nat :=
  let whole := cut / 64
  let part := cut % 64
  let low := n.getD whole 0 ||| n.getD (whole + 1) 0 <<< 64
  if part = 0 then low else low >>> part ||| n.getD (whole + 2) 0 <<< (128 - part) % 2 ^ 128

def add (n : List Nat) (v : Nat) : List Nat := addCarry word v n

def windowFrom (c : Nat) (e : Int) (power : Pow5) : Option (Int × Nat) :=
  let product := mulWide c power.mantissa
  let length := 64 * product.length - leadingZeros product
  let cut := length - 128
  let window := bitsFrom product cut
  if bitsFrom (add product (c - 1)) cut ≠ window then none
  else some (length - 1 + power.shift + e,window)

def fastWindow (c : Nat) (e : Int) : Option (Int × Nat) := windowFrom c e (narrow e)
def wideWindow (c : Nat) (e : Int) : Option (Int × Nat) := windowFrom c e (wide e)

def decimal (c : Nat) (e : Int) : Body :=
  let inexact := inexact c e
  let (exp,window) :=
    if e < 0 ∧ inexact = false then exactWindow c e
    else ((fastWindow c e).or (wideWindow c e)).getD (exactWindow c e)
  ⟨exp,window,inexact⟩

/-! `head` is the first `n` bits of `y`, which is `len` bits long before its point. -/

structure Head (y : ℚ) (n : Nat) (len : Int) (head : Nat) : Prop where
  low : (2 : ℚ) ^ (len - 1) ≤ y
  high : y < 2 ^ len
  floor : head * (2 : ℚ) ^ (len - n) ≤ y
  next : y < (head + 1) * (2 : ℚ) ^ (len - n)

def IsBody (x : ℚ) (exp : Int) (window : Nat) : Prop := Head x 128 (exp + 1) window

theorem twoPos (k : Int) : (0 : ℚ) < 2 ^ k := zpow_pos (by norm_num) k

theorem twoAdd (a b : Int) : (2 : ℚ) ^ a * 2 ^ b = 2 ^ (a + b) := (zpow_add₀ (by norm_num) a b).symm

theorem twoLtIff {a b : Int} : (2 : ℚ) ^ a < 2 ^ b ↔ a < b := zpow_lt_zpow_iff_right₀ (by norm_num)

namespace Head
variable {y : ℚ} {n : Nat} {len : Int} {head : Nat}

theorem scale (h : Head y n len head) (k : Int) : Head (y * 2 ^ k) n (len + k) head := by
  have at' (j : Int) : (2 : ℚ) ^ (len + k - j) = 2 ^ (len - j) * 2 ^ k := by
    rw [twoAdd]; congr 1; ring
  have pos := twoPos k
  refine ⟨?_,?_,?_,?_⟩
  · rw [at']; exact mul_le_mul_of_nonneg_right h.low pos.le
  · rw [← twoAdd]; exact mul_lt_mul_of_pos_right h.high pos
  · rw [at', ← mul_assoc]; exact mul_le_mul_of_nonneg_right h.floor pos.le
  · rw [at', ← mul_assoc]; exact mul_lt_mul_of_pos_right h.next pos

theorem range (h : Head y n len head) (some : 0 < n) : 2 ^ (n - 1) ≤ head ∧ head < 2 ^ n := by
  have top : (head : ℚ) * 2 ^ (len - n) < 2 ^ (n : Int) * 2 ^ (len - n) := by
    rw [twoAdd, add_sub_cancel]
    exact lt_of_le_of_lt h.floor h.high
  have bottom : (2 : ℚ) ^ ((n - 1 : Nat) : Int) * 2 ^ (len - n) < (head + 1) * 2 ^ (len - n) := by
    rw [twoAdd, show ((n - 1 : Nat) : Int) + (len - n) = len - 1 by omega]
    exact lt_of_le_of_lt h.low h.next
  have above := lt_of_mul_lt_mul_right top (twoPos _).le
  have below := lt_of_mul_lt_mul_right bottom (twoPos _).le
  rw [zpow_natCast] at above below
  exact ⟨Nat.lt_succ_iff.mp (by exact_mod_cast below),by exact_mod_cast above⟩

theorem unique {len' : Int} {head' : Nat} (h : Head y n len head) (h' : Head y n len' head') :
    len = len' ∧ head = head' := by
  have one := twoLtIff.mp (lt_of_le_of_lt h.low h'.high)
  have two := twoLtIff.mp (lt_of_le_of_lt h'.low h.high)
  obtain rfl : len = len' := by omega
  have lower := lt_of_mul_lt_mul_right (lt_of_le_of_lt h.floor h'.next) (twoPos _).le
  have upper := lt_of_mul_lt_mul_right (lt_of_le_of_lt h'.floor h.next) (twoPos _).le
  have lower' : head < head' + 1 := by exact_mod_cast lower
  have upper' : head' < head + 1 := by exact_mod_cast upper
  exact ⟨rfl,by omega⟩

end Head

/- The top bits of an integer are the head of any value it is the floor of, provided that
it has that many bits or is the value itself. -/
theorem topBitsHead (b : Big) {L n : Nat} {y : ℚ} (fits : n ≤ 64 * L) (nonzero : 0 < b.value)
    (floor : (b.value : ℚ) ≤ y) (next : y < b.value + 1) (enough : n ≤ b.bitLen ∨ y = b.value) :
    Head y n b.bitLen (Nat.ofDigits word (b.topBits L n).1) := by
  obtain ⟨present,least,most⟩ := bitLengthSpec nonzero
  rw [← Big.bitLenValue] at present least most
  have whole : (b.value : ℚ) + 1 ≤ 2 ^ (b.bitLen : Int) := by
    rw [zpow_natCast]; exact_mod_cast most
  have low : (2 : ℚ) ^ ((b.bitLen : Int) - 1) ≤ y := by
    rw [show (b.bitLen : Int) - 1 = (b.bitLen - 1 : Nat) by omega, zpow_natCast]
    exact le_trans (by exact_mod_cast least) floor
  refine ⟨low,lt_of_lt_of_le next whole,?_,?_⟩
  all_goals rcases Nat.lt_or_ge n b.bitLen with long | short
  · rw [(b.topBitsLong fits long).1, show (b.bitLen : Int) - n = (b.bitLen - n : Nat) by omega,
      zpow_natCast]
    refine le_trans ?_ floor
    exact_mod_cast Nat.div_mul_le_self _ _
  · rw [(b.topBitsShort short).1]
    push_cast
    rw [mul_assoc, ← zpow_natCast, twoAdd, show ((n - b.bitLen : Nat) : Int) + (b.bitLen - n) = 0 by omega]
    simpa using floor
  · rw [(b.topBitsLong fits long).1, show (b.bitLen : Int) - n = (b.bitLen - n : Nat) by omega,
      zpow_natCast]
    refine lt_of_lt_of_le next ?_
    rw [mul_comm]
    exact_mod_cast Nat.lt_mul_div_succ b.value (by positivity : 0 < 2 ^ (b.bitLen - n))
  · rw [(b.topBitsShort short).1]
    push_cast
    rw [add_mul, mul_assoc, ← zpow_natCast, twoAdd,
      show ((n - b.bitLen : Nat) : Int) + (b.bitLen - n) = 0 by omega, zpow_zero, mul_one, one_mul]
    rcases enough with enough | same
    · rwa [show (b.bitLen : Int) - n = 0 by omega, zpow_zero]
    · rw [same]
      exact lt_add_of_pos_right _ (twoPos _)

theorem topBitsProper (b : Big) (L n : Nat) : Proper word (b.topBits L n).1 := by
  simp only [Big.topBits]
  split
  · exact properAppend.mpr ⟨(b.shl _).proper,properReplicateZero wordPos _⟩
  · intro l m
    obtain ⟨i,_,rfl⟩ := List.mem_map.mp m
    rw [Big.shrLimbValue b.proper (Nat.mod_lt _ (by decide))]
    exact Nat.mod_lt _ wordPos

/- Two limbs read as one `u128`. -/
theorem twoLimbs {limbs} (proper : Proper word limbs) (i : Nat) :
    limbs.getD i 0 ||| limbs.getD (i + 1) 0 <<< 64 = Nat.ofDigits word limbs / word ^ i % 2 ^ 128 := by
  have low : limbs.getD i 0 < 2 ^ 64 := by
    rw [limbAt proper]; exact Nat.mod_lt _ wordPos
  rw [Nat.or_comm, ← Nat.shiftLeft_add_eq_or_of_lt low, Nat.shiftLeft_eq, limbAt proper, limbAt proper,
    show 2 ^ 128 = word * word by decide, Nat.mod_mul, pow_succ, ← Nat.div_div_eq_div_mul, word]
  ring

/-! The exact path. -/

theorem ceilLog2Pow5Eq (k : Nat) : ceilLog2Pow5 k = PowerOfFive.ceilLog2 k := Nat.shiftRight_eq_div_pow _ _

theorem magnitudeNonneg (c e : Nat) : magnitude c e = (c * 5 ^ e : Nat) * (2 : ℚ) ^ (e : Int) := by
  rw [magnitude, zpow_natCast, zpow_natCast, Number.powTwoFive]
  push_cast
  ring

theorem magnitudeNeg (c q : Nat) : magnitude c (-q) = (c : ℚ) / 5 ^ q * 2 ^ (-(q : Int)) := by
  rw [magnitude, zpow_neg, zpow_neg, zpow_natCast, zpow_natCast, Number.powTwoFive]
  field_simp

theorem coefficientSmall {c e} (h : Canonical c e) : c < 2 ^ 113 := by
  have := h.2.1
  have := coefficientBound
  omega

theorem windowHead (b : Big) {y : ℚ} {len : Int} (h : Head y 128 len (Nat.ofDigits word (b.topBits 2 128).1)) :
    (b.topBits 2 128).1.getD 0 0 ||| (b.topBits 2 128).1.getD 1 0 <<< 64 =
      Nat.ofDigits word (b.topBits 2 128).1 := by
  rw [twoLimbs (topBitsProper b 2 128) 0, pow_zero, Nat.div_one, Nat.mod_eq_of_lt (h.range (by decide)).2]

/- The dividend is shifted far enough that the quotient keeps 130 bits. -/
theorem exactShift {c q : Nat} (pos : 0 < c) (small : c < 2 ^ 113) (hq : q < 12655) :
    2 ^ 129 ≤ c * 2 ^ (129 + ceilLog2Pow5 q + 1 - (128 - BigInt.leadingZeros 128 c)) / 5 ^ q := by
  obtain ⟨present,least,most⟩ := bitLengthSpec pos
  have width : bitLength c ≤ 113 := bitLengthLe.mpr small
  have above := PowerOfFive.ceilLog2Ge hq
  rw [ceilLog2Pow5Eq, BigInt.leadingZeros]
  rw [Nat.le_div_iff_mul_le (by positivity)]
  calc 2 ^ 129 * 5 ^ q ≤ 2 ^ 129 * 2 ^ PowerOfFive.ceilLog2 q := Nat.mul_le_mul_left _ above
    _ = 2 ^ (bitLength c - 1) * 2 ^ (129 + PowerOfFive.ceilLog2 q + 1 - (128 - (128 - bitLength c))) := by
        rw [← pow_add, ← pow_add]; congr 1; omega
    _ ≤ _ := Nat.mul_le_mul_right _ least

theorem exactWindowBody {c e} (h : Canonical c e) :
    IsBody (magnitude c e) (exactWindow c e).1 (exactWindow c e).2 := by
  have small := coefficientSmall h
  have wide : c < 2 ^ 128 := lt_trans small (by decide)
  rcases le_or_gt 0 e with sign | sign
  · obtain ⟨e,rfl⟩ := Int.eq_ofNat_of_zero_le sign
    simp only [exactWindow, exactBody, if_pos sign, Int.toNat_natCast]
    have total : ((Big.fromU128 c).mulPow5 e).value = c * 5 ^ e := by
      rw [Big.mulPow5Value, Big.fromU128Value wide]
    generalize (Big.fromU128 c).mulPow5 e = n at *
    have whole : Head (n.value : ℚ) 128 n.bitLen _ := topBitsHead n (L := 2) (by decide)
      (by rw [total]; have := h.1; positivity) le_rfl (lt_add_one _) (.inr rfl)
    rw [windowHead n whole, IsBody, magnitudeNonneg, ← total,
      show (n.bitLen : Int) - 1 + e + 1 = n.bitLen + e by ring]
    exact whole.scale e
  · obtain ⟨q,rfl⟩ : ∃ q : Nat, e = -q := ⟨e.natAbs,by omega⟩
    have hq : q < 12655 := by
      have := h.2.2.1
      unfold minExponent at this
      omega
    have enough := exactShift h.1 small hq
    simp only [exactWindow, exactBody, if_neg (not_le.mpr sign), Int.natAbs_neg, Int.natAbs_natCast]
    generalize 129 + ceilLog2Pow5 q + 1 - (128 - BigInt.leadingZeros 128 c) = k at *
    have total : (((Big.fromU128 c).shl k).divPow5 q).1.value = c * 2 ^ k / 5 ^ q := by
      rw [(Big.divPow5Spec _ q).1, Big.shlValue, Big.fromU128Value wide]
    generalize (((Big.fromU128 c).shl k).divPow5 q).1 = n at *
    rw [← total] at enough
    have floor : (n.value : ℚ) ≤ (c : ℚ) / 5 ^ q * 2 ^ (k : Int) ∧
        (c : ℚ) / 5 ^ q * 2 ^ (k : Int) < n.value + 1 := by
      rw [total, zpow_natCast, div_mul_eq_mul_div, le_div_iff₀ (by positivity), div_lt_iff₀ (by positivity)]
      constructor
      · exact_mod_cast Nat.div_mul_le_self _ _
      · rw [mul_comm _ ((5 : ℚ) ^ q)]
        exact_mod_cast Nat.lt_mul_div_succ (c * 2 ^ k) (by positivity : 0 < 5 ^ q)
    have bits : 128 ≤ n.bitLen := by
      rw [Big.bitLenValue]
      have := (ltBitLength (n := n.value) (k := 129)).mpr enough
      omega
    have whole := topBitsHead n (L := 2) (by decide) (lt_of_lt_of_le (by decide) enough) floor.1 floor.2
      (.inl bits)
    have value : magnitude c (-q) = (c : ℚ) / 5 ^ q * 2 ^ (k : Int) * 2 ^ (-(q : Int) - k) := by
      rw [magnitudeNeg, mul_assoc, twoAdd]
      congr 2
      ring
    rw [windowHead n whole, IsBody, value,
      show (n.bitLen : Int) - 1 - q - k + 1 = n.bitLen + (-(q : Int) - k) by ring]
    exact whole.scale _

/-! A table entry and the window it gives. -/

structure Entry (five : ℚ) (limbs : List Nat) (shift : Int) : Prop where
  proper : Proper word limbs
  large : 2 ^ 128 ≤ Nat.ofDigits word limbs
  floor : Nat.ofDigits word limbs * (2 : ℚ) ^ shift ≤ five
  next : five < (Nat.ofDigits word limbs + 1) * (2 : ℚ) ^ shift

theorem headOf {b : Big} {limbs : Nat} {y : ℚ} (scale : Nat)
    (h : Head y (64 * limbs) b.bitLen (Nat.ofDigits word (b.topBits limbs (64 * limbs)).1)) :
    Head (y * 2 ^ (-(scale : Int))) (64 * limbs) ((Pow5.of limbs b scale).shift + (64 * limbs : Nat))
      (Nat.ofDigits word (Pow5.of limbs b scale).mantissa) := by
  have shift : (Pow5.of limbs b scale).shift + (64 * limbs : Nat) = b.bitLen + -(scale : Int) := by
    simp only [Pow5.of]
    push_cast
    ring
  rw [shift]
  exact h.scale _

theorem positivePowerHead (limbs e : Nat) :
    Head ((5 : ℚ) ^ e) (64 * limbs) ((positivePower limbs e).shift + (64 * limbs : Nat))
      (Nat.ofDigits word (positivePower limbs e).mantissa) := by
  have power (n : Nat) : ((fun power : Big => power.mulSmall 5)^[n] (Big.fromU128 1)).value = 5 ^ n := by
    induction n with
    | zero => exact Big.fromU128Value (by decide)
    | succ n ih => rw [Function.iterate_succ_apply', Big.mulSmallValue _ (by decide), ih, pow_succ]
  have head := topBitsHead ((fun power : Big => power.mulSmall 5)^[e] (Big.fromU128 1)) (L := limbs)
    (n := 64 * limbs) (y := (5 : ℚ) ^ e) le_rfl (by rw [power]; positivity) (by rw [power]; push_cast; rfl)
    (by rw [power]; push_cast; exact lt_add_one _) (.inr (by rw [power]; push_cast; rfl))
  simpa [positivePower] using headOf 0 head

theorem negativePowerHead {q : Nat} (limbs : Nat) (hq : q ≤ 6176) :
    Head (((5 : ℚ) ^ q)⁻¹) (64 * limbs) ((negativePower limbs q).shift + (64 * limbs : Nat))
      (Nat.ofDigits word (negativePower limbs q).mantissa) := by
  have reciprocal (width n : Nat) :
      ((fun reciprocal : Big => (reciprocal.divSmall 5).1)^[n] ((Big.fromU128 1).shl width)).value =
        2 ^ width / 5 ^ n := by
    induction n with
    | zero => rw [Function.iterate_zero_apply, Big.shlValue, Big.fromU128Value (by decide)]; simp
    | succ n ih =>
      rw [Function.iterate_succ_apply', (Big.divSmallSpec _ (by decide)).1, ih, Nat.div_div_eq_div_mul,
        pow_succ]
  have room : 2 ^ (64 * limbs) ≤ 2 ^ reciprocalWidth limbs / 5 ^ q := by
    have power : 5 ^ q ≤ 2 ^ 14341 :=
      (Nat.pow_le_pow_right (by decide) hq).trans (by decide +kernel : 5 ^ 6176 ≤ 2 ^ 14341)
    rw [Nat.le_div_iff_mul_le (by positivity), reciprocalWidth]
    calc 2 ^ (64 * limbs) * 5 ^ q ≤ 2 ^ (64 * limbs) * 2 ^ 14341 := Nat.mul_le_mul_left _ power
      _ ≤ _ := by rw [← pow_add]; exact Nat.pow_le_pow_right (by decide) (by omega)
  simp only [negativePower]
  have value := reciprocal (reciprocalWidth limbs) q
  generalize ((fun reciprocal : Big => (reciprocal.divSmall 5).1)^[q]
    ((Big.fromU128 1).shl (reciprocalWidth limbs))) = b at *
  rw [← value] at room
  have bits : 64 * limbs ≤ b.bitLen := by
    rw [Big.bitLenValue]
    exact (ltBitLength.mpr room).le
  have head := topBitsHead b (L := limbs) (n := 64 * limbs) (y := 2 ^ reciprocalWidth limbs / 5 ^ q) le_rfl
    (lt_of_lt_of_le (by positivity) room)
    (by rw [value, le_div_iff₀ (by positivity)]; exact_mod_cast Nat.div_mul_le_self _ _)
    (by rw [value, div_lt_iff₀ (by positivity), mul_comm _ ((5 : ℚ) ^ q)]
        exact_mod_cast Nat.lt_mul_div_succ _ (by positivity : 0 < 5 ^ q))
    (.inl bits)
  have scaled : (2 : ℚ) ^ reciprocalWidth limbs / 5 ^ q * 2 ^ (-(reciprocalWidth limbs : Int)) = (5 ^ q)⁻¹ := by
    rw [zpow_neg, zpow_natCast]
    field_simp
  rw [← scaled]
  exact headOf _ head

/- An entry is the head of its power of five, in as many bits as its limbs have. -/
theorem entryHead {e : Int} (limbs : Nat) (low : minExponent ≤ e) :
    Head ((5 : ℚ) ^ e) (64 * limbs) ((entry limbs e).shift + (64 * limbs : Nat))
      (Nat.ofDigits word (entry limbs e).mantissa) := by
  rcases le_or_gt 0 e with sign | sign
  · obtain ⟨e,rfl⟩ := Int.eq_ofNat_of_zero_le sign
    simp only [entry, if_pos sign, Int.toNat_natCast, zpow_natCast]
    exact positivePowerHead limbs e
  · obtain ⟨q,rfl⟩ : ∃ q : Nat, e = -q := ⟨e.natAbs,by omega⟩
    unfold minExponent at low
    simp only [entry, if_neg (not_le.mpr sign), Int.natAbs_neg, Int.natAbs_natCast, zpow_neg, zpow_natCast]
    exact negativePowerHead limbs (by omega)

theorem entryProper (limbs : Nat) (e : Int) : Proper word (entry limbs e).mantissa := by
  unfold entry
  split <;> exact topBitsProper _ _ _

theorem entrySpec {limbs : Nat} {e : Int} (many : 3 ≤ limbs) (low : minExponent ≤ e) :
    Entry ((5 : ℚ) ^ e) (entry limbs e).mantissa (entry limbs e).shift := by
  have head := entryHead limbs low
  have floor := head.floor
  have next := head.next
  rw [add_sub_cancel_right] at floor next
  refine ⟨entryProper limbs e,le_trans ?_ (head.range (by omega)).1,floor,next⟩
  exact Nat.pow_le_pow_right (by decide) (by omega)

theorem mulWideSpec {c : Nat} {t} (hc : c < 2 ^ 128) (proper : Proper word t) :
    Proper word (mulWide c t) ∧ (mulWide c t).length = t.length + 2 ∧
      Nat.ofDigits word (mulWide c t) = c * Nat.ofDigits word t := by
  have half : c / word < word := Nat.div_lt_of_lt_mul (by rwa [word, ← pow_add])
  obtain ⟨row,first,long,properRow,value⟩ := mulRowSpec 0 [0] (Nat.mod_lt c wordPos) wordPos
    proper (properReplicateZero wordPos t.length) (List.length_replicate)
  have zeros : List.replicate (t.length + 2) 0 = List.replicate t.length 0 ++ 0 :: [0] := by
    rw [List.replicate_add]; rfl
  cases row with
  | nil => simp at long
  | cons low row =>
    obtain ⟨hlow,properRow⟩ := properCons.mp properRow
    obtain ⟨second,again,longer,properSecond,valueSecond⟩ := mulRowSpec 0 []
      (Nat.mod_lt (c / word) wordPos) wordPos proper properRow (by simpa using long)
    have result : mulWide c t = low :: second := by
      rw [mulWide, zeros, first]
      simp only [List.cons_append]
      rw [again, List.append_nil]
    rw [result]
    refine ⟨properCons.mpr ⟨hlow,properSecond⟩,by simp [longer],?_⟩
    have split := Nat.mod_add_div c word
    rw [Nat.ofDigits_cons] at value
    rw [Nat.ofDigits_cons, valueSecond, Nat.mod_eq_of_lt half]
    rw [Nat.ofDigits_replicate_zero] at value
    linear_combination value + Nat.ofDigits word t * split

theorem leadingZerosSpec {n} (proper : Proper word n) :
    64 * n.length - leadingZeros n = bitLength (Nat.ofDigits word n) := by
  have top (m : List Nat) (proper : Proper word m.reverse) :
      leadingZerosTop m ≤ 64 * m.length ∧
        64 * m.length - leadingZerosTop m = bitLength (Nat.ofDigits word m.reverse) := by
    induction m with
    | nil => exact ⟨le_rfl,rfl⟩
    | cons limb below ih =>
      rw [List.reverse_cons] at proper ⊢
      obtain ⟨lower,last⟩ := properAppend.mp proper
      rw [leadingZerosTop, List.length_cons]
      split
      · rename_i zero
        obtain ⟨bound,value⟩ := ih lower
        rw [zero, Nat.ofDigits_append]
        simp only [Nat.ofDigits_singleton, mul_zero, add_zero]
        omega
      · rename_i nonzero
        have small : bitLength limb ≤ 64 := bitLengthLe.mpr (last limb (by simp))
        rw [bitLengthTop proper nonzero, List.length_reverse, BigInt.leadingZeros]
        omega
  have := (top n.reverse (by rwa [List.reverse_reverse])).2
  rwa [List.reverse_reverse, List.length_reverse] at this

theorem bitsFromSpec {n} (proper : Proper word n) (cut : Nat) :
    bitsFrom n cut = Nat.ofDigits word n / 2 ^ cut % 2 ^ 128 := by
  have parts : 2 ^ cut = word ^ (cut / 64) * 2 ^ (cut % 64) := by
    rw [word, ← pow_mul, ← pow_add, Nat.div_add_mod]
  have hp : cut % 64 < 64 := Nat.mod_lt _ (by decide)
  simp only [bitsFrom]
  rw [parts, ← Nat.div_div_eq_div_mul, twoLimbs proper, limbAt proper]
  have above : Nat.ofDigits word n / word ^ (cut / 64 + 2) =
      Nat.ofDigits word n / word ^ (cut / 64) / 2 ^ 128 := by
    rw [Nat.div_div_eq_div_mul, pow_add]; rfl
  rw [above]
  generalize Nat.ofDigits word n / word ^ (cut / 64) = x
  split
  · rename_i none
    rw [none, pow_zero, Nat.div_one]
  · have divides : 2 ^ (cut % 64) ∣ word := Nat.pow_dvd_pow 2 hp.le
    exact shiftJoin (by omega) x _ (Nat.mod_mod_of_dvd _ divides)

theorem carryFree {P c cut : Nat} (pos : 0 < c) (small : c < 2 ^ 113)
    (same : (P + (c - 1)) / 2 ^ cut % 2 ^ 128 = P / 2 ^ cut % 2 ^ 128) :
    P + c ≤ (P / 2 ^ cut + 1) * 2 ^ cut := by
  have scale : 0 < 2 ^ cut := by positivity
  have below : P / 2 ^ cut ≤ (P + (c - 1)) / 2 ^ cut := Nat.div_le_div_right (Nat.le_add_right _ _)
  have above : (P + (c - 1)) / 2 ^ cut ≤ P / 2 ^ cut + 2 ^ 113 := by
    rw [← Nat.add_mul_div_right _ _ scale]
    refine Nat.div_le_div_right (Nat.add_le_add_left ?_ _)
    calc c - 1 ≤ 2 ^ 113 * 1 := by omega
      _ ≤ _ := Nat.mul_le_mul_left _ scale
  have equal : (P + (c - 1)) / 2 ^ cut = P / 2 ^ cut := by omega
  have last := Nat.lt_mul_div_succ (P + (c - 1)) scale
  rw [equal, mul_comm] at last
  omega

theorem productHead {P c : Nat} {y : ℚ} (large : 2 ^ 128 ≤ P) (floor : (P : ℚ) ≤ y)
    (next : y < (P + c : Nat))
    (free : P + c ≤ (P / 2 ^ (bitLength P - 128) + 1) * 2 ^ (bitLength P - 128)) :
    Head y 128 (bitLength P) (P / 2 ^ (bitLength P - 128)) := by
  obtain ⟨_,least,most⟩ := bitLengthSpec (lt_of_lt_of_le (by decide) large)
  have length : 128 < bitLength P := ltBitLength.mpr large
  have top : P / 2 ^ (bitLength P - 128) < 2 ^ 128 := by
    refine Nat.div_lt_of_lt_mul ?_
    rwa [← pow_add, Nat.sub_add_cancel length.le]
  have cut : (bitLength P : Int) - (128 : Nat) = (bitLength P - 128 : Nat) := by omega
  refine ⟨?_,?_,?_,?_⟩
  · rw [show (bitLength P : Int) - 1 = (bitLength P - 1 : Nat) by omega, zpow_natCast]
    exact le_trans (by exact_mod_cast least) floor
  · rw [zpow_natCast]
    refine lt_of_lt_of_le next ?_
    have : P + c ≤ 2 ^ bitLength P := by
      calc P + c ≤ _ := free
        _ ≤ 2 ^ 128 * 2 ^ (bitLength P - 128) := Nat.mul_le_mul_right _ top
        _ = _ := by rw [← pow_add, Nat.add_sub_cancel' length.le]
    exact_mod_cast this
  · rw [cut, zpow_natCast]
    refine le_trans ?_ floor
    exact_mod_cast Nat.div_mul_le_self _ _
  · rw [cut, zpow_natCast]
    refine lt_of_lt_of_le next ?_
    exact_mod_cast free

/- The window over numbers: the top of the product, unless `c − 1` more changes it. -/
theorem windowFromValue {c : Nat} {e : Int} {power : Pow5} (pos : 0 < c) (small : c < 2 ^ 113)
    (proper : Proper word power.mantissa) (large : 2 ^ 128 ≤ Nat.ofDigits word power.mantissa) :
    let P := c * Nat.ofDigits word power.mantissa
    let cut := bitLength P - 128
    windowFrom c e power =
      if (P + (c - 1)) / 2 ^ cut % 2 ^ 128 ≠ P / 2 ^ cut % 2 ^ 128 then none
      else some (bitLength P - 1 + power.shift + e,P / 2 ^ cut) := by
  obtain ⟨proper',length,value⟩ := mulWideSpec (lt_trans small (by decide)) proper
  simp only [windowFrom, leadingZerosSpec proper', bitsFromSpec proper', add,
    bitsFromSpec (addCarryProper wordPos proper'), addCarryValue wordOne proper', value]
  have size := Nat.ofDigits_lt_base_pow_length wordOne proper
  generalize Nat.ofDigits word power.mantissa = m at *
  have room : c * m + (c - 1) < word ^ (mulWide c power.mantissa).length := by
    rw [length, pow_add]
    calc c * m + (c - 1) < c * m + c := by omega
      _ = c * (m + 1) := by ring
      _ ≤ 2 ^ 113 * word ^ power.mantissa.length := Nat.mul_le_mul small.le size
      _ ≤ _ := by rw [mul_comm]; exact Nat.mul_le_mul_left _ (by decide)
  have product : 2 ^ 128 ≤ c * m := large.trans (Nat.le_mul_of_pos_left m pos)
  have length : 128 < bitLength (c * m) := ltBitLength.mpr product
  have whole : c * m / 2 ^ (bitLength (c * m) - 128) < 2 ^ 128 := by
    refine Nat.div_lt_of_lt_mul ?_
    rw [← pow_add, Nat.sub_add_cancel length.le]
    exact bitLengthLe.mp le_rfl
  rw [Nat.mod_eq_of_lt room, Nat.mod_eq_of_lt whole]

/- Adding anything below `c` to the product leaves its window, so the entry's error does. -/
theorem windowFromBody {c : Nat} {e : Int} {power : Pow5} {exp : Int} {window : Nat} (h : Canonical c e)
    (entry : Entry ((5 : ℚ) ^ e) power.mantissa power.shift)
    (found : windowFrom c e power = some (exp,window)) : IsBody (magnitude c e) exp window := by
  have small := coefficientSmall h
  simp only [windowFromValue h.1 small entry.proper entry.large] at found
  have large := entry.large
  have floor := entry.floor
  have next := entry.next
  generalize Nat.ofDigits word power.mantissa = m at *
  have product : 2 ^ 128 ≤ c * m := large.trans (Nat.le_mul_of_pos_left m h.1)
  split at found
  · cases found
  rename_i same
  rw [ne_eq, not_not] at same
  simp only [Option.some.injEq, Prod.mk.injEq] at found
  obtain ⟨rfl,rfl⟩ := found
  have positive : (0 : ℚ) < c := by exact_mod_cast h.1
  have unscale := twoPos (-power.shift)
  have undo (n : ℚ) : n * 2 ^ power.shift * 2 ^ (-power.shift) = n := by
    rw [mul_assoc, twoAdd, add_neg_cancel, zpow_zero, mul_one]
  have head := productHead (y := c * ((5 : ℚ) ^ e * 2 ^ (-power.shift))) product
    (by
      have := mul_le_mul_of_nonneg_left (mul_le_mul_of_nonneg_right floor unscale.le) positive.le
      rw [undo] at this
      exact_mod_cast this)
    (by
      have := mul_lt_mul_of_pos_left (mul_lt_mul_of_pos_right next unscale) positive
      rw [undo] at this
      push_cast
      linarith)
    (carryFree h.1 small same)
  have total : magnitude c e = c * ((5 : ℚ) ^ e * 2 ^ (-power.shift)) * 2 ^ (power.shift + e) := by
    have five : (10 : ℚ) ^ e = 5 ^ e * 2 ^ e := by rw [← mul_zpow]; norm_num
    rw [magnitude, five, mul_assoc, mul_assoc, twoAdd]
    congr 3
    ring
  rw [IsBody, total, show (bitLength (c * m) : Int) - 1 + power.shift + e + 1 =
    bitLength (c * m) + (power.shift + e) by ring]
  exact head.scale _

/-! The closed form of the mark. -/

theorem lengthBounds {c e : Nat} (pos : 0 < c) (small : c < 2 ^ 128) (he : e < 12655) :
    127 - BigInt.leadingZeros 128 c + (e * log2FiveLo) >>> 64 + 1 ≤ bitLength (c * 5 ^ e) ∧
      bitLength (c * 5 ^ e) ≤ 127 - BigInt.leadingZeros 128 c + ceilLog2Pow5 e + 1 := by
  obtain ⟨present,least,most⟩ := bitLengthSpec pos
  have width : bitLength c ≤ 128 := bitLengthLe.mpr small
  have log2C : 127 - BigInt.leadingZeros 128 c = bitLength c - 1 := by
    unfold BigInt.leadingZeros; omega
  have floor : (e * log2FiveLo) >>> 64 = PowerOfFive.floorLog2 e := Nat.shiftRight_eq_div_pow _ _
  rw [log2C, floor, ceilLog2Pow5Eq]
  constructor
  · refine ltBitLength.mpr ?_
    rw [pow_add]
    exact Nat.mul_le_mul least (PowerOfFive.floorLog2Le he)
  · refine bitLengthLe.mpr ?_
    rw [show bitLength c - 1 + PowerOfFive.ceilLog2 e + 1 = bitLength c + PowerOfFive.ceilLog2 e by omega, pow_add]
    exact Nat.mul_lt_mul_of_lt_of_le most (PowerOfFive.ceilLog2Ge he) (by positivity)

theorem integerTailSpec {c e : Nat} (pos : 0 < c) (small : c < 2 ^ 128) (he : e < 12655) :
    integerTailNonzero c e = true ↔ ¬ 2 ^ (bitLength (c * 5 ^ e) - 128) ∣ c * 5 ^ e := by
  obtain ⟨lowest,highest⟩ := lengthBounds pos small he
  have odd (k : Nat) : 2 ^ k ∣ c * 5 ^ e ↔ k ≤ trailingZeros 128 c := by
    rw [← dvdTrailingZeros pos small]
    exact (Nat.Coprime.pow k e (by decide : Nat.Coprime 2 5)).dvd_mul_right
  rw [odd]
  simp only [integerTailNonzero]
  split
  · simp only [Bool.false_eq_true, false_iff]
    omega
  · split
    · simp only [true_iff]
      omega
    · rw [Big.bitLenValue, Big.mulPow5Value, Big.fromU128Value small, decide_eq_true_eq]
      omega

theorem headLength {N : Nat} {n head : Nat} {len : Int} (h : Head (N : ℚ) n len head) :
    len = bitLength N ∧ 0 < N := by
  have pos : 0 < N := by
    have := lt_of_lt_of_le (twoPos _) h.low
    exact_mod_cast this
  obtain ⟨present,least,most⟩ := bitLengthSpec pos
  have low : (2 : ℚ) ^ ((bitLength N - 1 : Nat) : Int) ≤ N := by rw [zpow_natCast]; exact_mod_cast least
  have high : (N : ℚ) < 2 ^ (bitLength N : Int) := by rw [zpow_natCast]; exact_mod_cast most
  have one := twoLtIff.mp (lt_of_le_of_lt low h.high)
  have two := twoLtIff.mp (lt_of_le_of_lt h.low high)
  exact ⟨by omega,pos⟩

theorem headExact {N n head : Nat} {len : Int} (h : Head (N : ℚ) n len head) :
    head * (2 : ℚ) ^ (len - n) = N ↔ 2 ^ (bitLength N - n) ∣ N := by
  obtain ⟨rfl,pos⟩ := headLength h
  have floor := h.floor
  have next := h.next
  rcases Nat.lt_or_ge n (bitLength N) with long | short
  · rw [show (bitLength N : Int) - n = (bitLength N - n : Nat) by omega, zpow_natCast] at floor next ⊢
    constructor
    · intro same
      exact ⟨head,by rw [mul_comm]; exact_mod_cast same.symm⟩
    · rintro ⟨k,hk⟩
      have below : head * 2 ^ (bitLength N - n) ≤ N := by exact_mod_cast floor
      have above : N < (head + 1) * 2 ^ (bitLength N - n) := by exact_mod_cast next
      have scale : 0 < 2 ^ (bitLength N - n) := by positivity
      have most : k < head + 1 := by
        refine Nat.lt_of_mul_lt_mul_right (a := 2 ^ (bitLength N - n)) ?_
        rwa [mul_comm k, ← hk]
      have least : head ≤ k := by
        refine Nat.le_of_mul_le_mul_right ?_ scale
        rwa [mul_comm k, ← hk]
      obtain rfl : head = k := by omega
      rw [mul_comm]
      exact_mod_cast hk.symm
  · rw [Nat.sub_eq_zero_of_le short, pow_zero]
    refine iff_of_true ?_ (one_dvd _)
    have cancel : (2 : ℚ) ^ ((bitLength N : Int) - n) * 2 ^ (n - bitLength N) = 1 := by
      rw [← zpow_natCast, twoAdd, show (bitLength N : Int) - n + (n - bitLength N : Nat) = 0 by omega, zpow_zero]
    have pos : (0 : ℚ) < 2 ^ (n - bitLength N) := by positivity
    have below := mul_le_mul_of_nonneg_right floor pos.le
    have above := mul_lt_mul_of_pos_right next pos
    rw [mul_assoc, cancel, mul_one] at below above
    have least : head ≤ N * 2 ^ (n - bitLength N) := by exact_mod_cast below
    have most : N * 2 ^ (n - bitLength N) < head + 1 := by exact_mod_cast above
    have same : head = N * 2 ^ (n - bitLength N) := by omega
    rw [same]
    push_cast
    linear_combination (N : ℚ) * cancel

/- An expansion that ends makes the power of five divide the coefficient. -/
theorem endsDvd {c q w : Nat} {j : Int} (same : (w : ℚ) * 2 ^ j = c / 5 ^ q) : 5 ^ q ∣ c := by
  have five : (5 : ℚ) ^ q ≠ 0 := by positivity
  rw [eq_div_iff five] at same
  have coprime : Nat.Coprime (5 ^ q) (2 ^ j.natAbs) := Nat.Coprime.pow _ _ (by decide)
  refine coprime.dvd_of_dvd_mul_right ?_
  rcases Int.natAbs_eq j with h | h
  · refine Dvd.dvd.mul_right ⟨w * 2 ^ j.natAbs,?_⟩ _
    rw [h, zpow_natCast] at same
    have whole : w * 2 ^ j.natAbs * 5 ^ q = c := by exact_mod_cast same
    rw [← whole, mul_comm]
  · refine ⟨w,?_⟩
    rw [h, zpow_neg, zpow_natCast] at same
    have whole : (w * 5 ^ q : Nat) = (c * 2 ^ j.natAbs : Nat) := by
      have : (w : ℚ) * 5 ^ q = c * 2 ^ j.natAbs := by
        rw [← same]; field_simp
      exact_mod_cast this
    rw [← whole, mul_comm]

theorem inexactSpec {c e exp window} (h : Canonical c e) (body : IsBody (magnitude c e) exp window) :
    inexact c e = true ↔ window * (2 : ℚ) ^ (exp + 1 - 128) ≠ magnitude c e := by
  have small := coefficientSmall h
  have low := h.2.2.1
  have high := h.2.2.2
  unfold minExponent at low
  unfold maxExponent at high
  -- the head of the value without its power of two
  have plain (y : ℚ) (k : Int) (hy : magnitude c e = y * 2 ^ k) :
      Head y 128 (exp + 1 - k) window ∧ (window * (2 : ℚ) ^ (exp + 1 - 128) = magnitude c e ↔
        window * (2 : ℚ) ^ (exp + 1 - k - (128 : Nat)) = y) := by
    have moved := body.scale (-k)
    rw [hy, mul_assoc, twoAdd, add_neg_cancel, zpow_zero, mul_one, ← sub_eq_add_neg] at moved
    refine ⟨moved,?_⟩
    have split : (2 : ℚ) ^ (exp + 1 - 128) = 2 ^ (exp + 1 - k - (128 : Nat)) * 2 ^ k := by
      rw [twoAdd]; congr 1; push_cast; ring
    rw [hy, split, ← mul_assoc, mul_left_inj' (twoPos k).ne']
  rcases le_or_gt 0 e with sign | sign
  · obtain ⟨e,rfl⟩ := Int.eq_ofNat_of_zero_le sign
    obtain ⟨head,same⟩ := plain _ _ (magnitudeNonneg c e)
    rw [inexact, if_pos sign, Int.toNat_natCast, integerTailSpec h.1 (lt_trans small (by decide)) (by omega),
      ne_eq, same, headExact head]
  · obtain ⟨q,rfl⟩ : ∃ q : Nat, e = -q := ⟨e.natAbs,by omega⟩
    obtain ⟨head,same⟩ := plain _ _ (magnitudeNeg c q)
    rw [ne_eq, same]
    simp only [inexact, if_neg (not_le.mpr sign), Int.natAbs_neg, Int.natAbs_natCast]
    by_cases divides : 5 ^ q ∣ c
    · have short : ¬ 49 ≤ q := fun long => by
        have := Nat.le_of_dvd h.1 divides
        have := Nat.pow_le_pow_right (by decide : 0 < 5) long
        have : 2 ^ 113 ≤ 5 ^ 49 := by decide
        omega
      have quotient : (c : ℚ) / 5 ^ q = (c / 5 ^ q : Nat) := by
        obtain ⟨k,rfl⟩ := divides
        rw [Nat.mul_div_cancel_left _ (by positivity)]
        push_cast
        exact mul_div_cancel_left₀ _ (by positivity)
      have pos : 0 < c / 5 ^ q := Nat.div_pos (Nat.le_of_dvd h.1 divides) (by positivity)
      have less : c / 5 ^ q ≤ c := Nat.div_le_self _ _
      rw [quotient] at head ⊢
      rw [if_neg short, Nat.mod_eq_zero_of_dvd divides, if_neg (by simp),
        integerTailSpec pos (by omega) (by decide), pow_zero, mul_one, headExact head]
    · have inexact : ¬ (window : ℚ) * 2 ^ (exp + 1 - -(q : Int) - (128 : Nat)) = c / 5 ^ q :=
        fun ends => divides (endsDvd ends)
      have rest : c % 5 ^ q ≠ 0 := fun zero => divides (Nat.dvd_of_mod_eq_zero zero)
      rw [if_pos rest, ite_self]
      exact iff_of_true rfl inexact

/-! Every route gives the body of the value. -/

theorem decimalBody {c e} (h : Canonical c e) :
    IsBody (magnitude c e) (decimal c e).exp (decimal c e).window ∧ (decimal c e).inexact = inexact c e := by
  refine ⟨?_,rfl⟩
  simp only [decimal]
  split
  · exact exactWindowBody h
  · cases narrowFound : fastWindow c e with
    | some pair => exact windowFromBody h (entrySpec (by decide) h.2.2.1) narrowFound
    | none =>
      cases wideFound : wideWindow c e with
      | some pair => exact windowFromBody h (entrySpec (by decide) h.2.2.1) wideFound
      | none => exact exactWindowBody h

theorem binaryWindow (exp : Int) (m : Nat) :
    ((m <<< 64 : Nat) : ℚ) * 2 ^ (exp + 1 - (128 : Nat)) = Numeric.binaryValue exp m := by
  rw [Nat.shiftLeft_eq, Numeric.binaryValue, Nat.cast_mul, Nat.cast_pow, Nat.cast_ofNat, mul_assoc,
    ← zpow_natCast (2 : ℚ) 64, twoAdd]
  congr 2
  omega

theorem binaryBody {exp m} (h : Numeric.Normal exp m) :
    IsBody (Numeric.binaryValue exp m) (binary exp m).exp (binary exp m).window := by
  obtain ⟨low,high⟩ := Number.binaryRange h
  have window := binaryWindow exp m
  refine ⟨by simpa [binary] using low,high,window.le,?_⟩
  rw [add_mul, one_mul]
  refine lt_of_eq_of_lt ?_ (lt_add_of_pos_right _ (twoPos _))
  exact window.symm

/- The exponents of the format stay inside the key's 16-bit field. -/
theorem expField {c e exp window} (h : Canonical c e) (body : IsBody (magnitude c e) exp window) :
    -32768 ≤ exp ∧ exp < 32768 := by
  have sixteen (n : Nat) : (10 : ℚ) ^ n ≤ 2 ^ ((4 * n : Nat) : Int) := by
    rw [zpow_natCast, pow_mul]
    exact pow_le_pow_left₀ (by norm_num) (by norm_num) n
  have ten {a b : Int} (le : a ≤ b) : (10 : ℚ) ^ a ≤ 10 ^ b := zpow_le_zpow_right₀ (by norm_num) le
  have most : magnitude c e < 2 ^ ((4 * 6145 : Nat) : Int) := by
    refine lt_of_lt_of_le ?_ (sixteen 6145)
    have small : (c : ℚ) < 10 ^ 34 := by exact_mod_cast lt_of_le_of_lt h.2.1 coefficientBound.1
    calc magnitude c e < 10 ^ 34 * 10 ^ e := mul_lt_mul_of_pos_right small (zpow_pos (by norm_num) e)
      _ ≤ 10 ^ 34 * 10 ^ maxExponent := mul_le_mul_of_nonneg_left (ten h.2.2.2) (by positivity)
      _ = 10 ^ 6145 := by
        rw [← zpow_natCast, ← zpow_natCast, ← zpow_add₀ (by norm_num)]
        rfl
  have least : (2 : ℚ) ^ (-((4 * 6176 : Nat) : Int)) ≤ magnitude c e := by
    have one : (1 : ℚ) ≤ c := by exact_mod_cast h.1
    calc (2 : ℚ) ^ (-((4 * 6176 : Nat) : Int)) ≤ (10 ^ 6176)⁻¹ := by
          rw [zpow_neg]; exact inv_anti₀ (by positivity) (sixteen 6176)
      _ = 10 ^ minExponent := by rw [minExponent, zpow_neg]; rfl
      _ ≤ 10 ^ e := ten h.2.2.1
      _ ≤ magnitude c e := le_mul_of_one_le_left (zpow_pos (by norm_num) e).le one
  have above := twoLtIff.mp (lt_of_le_of_lt body.low most)
  have below := twoLtIff.mp (lt_of_le_of_lt least body.high)
  constructor <;> omega

/-! Bodies compare as their values do. -/

structure Keyed (x : ℚ) (b : Body) : Prop where
  body : IsBody x b.exp b.window
  mark : b.inexact = true ↔ b.window * (2 : ℚ) ^ (b.exp + 1 - 128) ≠ x
  field : -32768 ≤ b.exp ∧ b.exp < 32768
  -- only a decimal's expansion runs past the window
  long : b.inexact = true → ∃ c e, Canonical c e ∧ x = magnitude c e

theorem decimalKeyed {c e} (h : Canonical c e) : Keyed (magnitude c e) (decimal c e) := by
  obtain ⟨body,mark⟩ := decimalBody h
  exact ⟨body,by rw [mark]; exact inexactSpec h body,expField h body,fun _ => ⟨c,e,h,rfl⟩⟩

theorem binaryKeyed {exp m} (h : Numeric.Normal exp m) : Keyed (Numeric.binaryValue exp m) (binary exp m) := by
  have range := h.2.2
  refine ⟨binaryBody h,?_,?_,fun inexact => absurd inexact (by simp [binary])⟩
  · have exact := binaryWindow exp m
    simp only [binary, Bool.false_eq_true, ne_eq, false_iff, not_not]
    exact exact
  · simp only [binary]
    omega

def Body.cmp (a b : Body) : Ordering :=
  (compare a.exp b.exp).then ((compare a.window b.window).then (compare a.inexact b.inexact))

/- Two decimals of one binade lie further apart than the windows can hide. -/
theorem decimalsApart {c e d f} {exp : Int} (hc : Canonical c e) (hd : Canonical d f)
    (low : (2 : ℚ) ^ exp ≤ magnitude c e) (less : magnitude c e < magnitude d f) :
    magnitude c e + 2 ^ (exp - 127) ≤ magnitude d f := by
  have unit : (0 : ℚ) < 10 ^ min e f := zpow_pos (by norm_num) _
  -- both are multiples of the finer quantum
  have multiple (n : Nat) (k : Int) (le : min e f ≤ k) :
      magnitude n k = (n * 10 ^ (k - min e f).toNat : Nat) * (10 : ℚ) ^ min e f := by
    rw [magnitude, Nat.cast_mul, Nat.cast_pow, Nat.cast_ofNat, mul_assoc, ← zpow_natCast,
      ← zpow_add₀ (by norm_num)]
    congr 2
    omega
  have gap : magnitude c e + 10 ^ min e f ≤ magnitude d f := by
    rw [multiple c e (min_le_left e f), multiple d f (min_le_right e f)] at less ⊢
    have := lt_of_mul_lt_mul_right less unit.le
    have step : c * 10 ^ (e - min e f).toNat + 1 ≤ d * 10 ^ (f - min e f).toNat := by exact_mod_cast this
    have scaled := mul_le_mul_of_nonneg_right
      (show ((c * 10 ^ (e - min e f).toNat + 1 : Nat) : ℚ) ≤ (d * 10 ^ (f - min e f).toNat : Nat) by
        exact_mod_cast step) unit.le
    rwa [Nat.cast_succ, add_mul, one_mul] at scaled
  -- one of them has fewer than 2^113 of those quanta
  have bounded {n : Nat} {k : Int} (h : Canonical n k) (here : k = min e f) :
      magnitude n k < 2 ^ (113 : Int) * 10 ^ min e f := by
    have small : (n : ℚ) < 2 ^ (113 : Int) := by exact_mod_cast coefficientSmall h
    rw [magnitude, here]
    exact mul_lt_mul_of_pos_right small unit
  have binade : (2 : ℚ) ^ exp < 2 ^ (113 : Int) * 10 ^ min e f := by
    rcases le_total e f with first | first
    · exact lt_of_le_of_lt low (bounded hc (min_eq_left first).symm)
    · exact lt_of_le_of_lt low (less.trans (bounded hd (min_eq_right first).symm))
  have quantum : (2 : ℚ) ^ (exp - 127) ≤ 10 ^ min e f := by
    have split : (2 : ℚ) ^ exp = 2 ^ (113 : Int) * 2 ^ (exp - 113) := by rw [twoAdd]; congr 1; ring
    rw [split] at binade
    have finer : (2 : ℚ) ^ (exp - 127) ≤ 2 ^ (exp - 113) := zpow_le_zpow_right₀ (by norm_num) (by omega)
    exact finer.trans (lt_of_mul_lt_mul_left binade (twoPos _).le).le
  linarith

theorem sameWindow {c e d f} {exp : Int} {window : Nat} (hc : Canonical c e) (hd : Canonical d f)
    (first : IsBody (magnitude c e) exp window) (second : IsBody (magnitude d f) exp window) :
    ¬ magnitude c e < magnitude d f := by
  intro less
  have low := first.low
  rw [add_sub_cancel_right] at low
  have apart := decimalsApart hc hd low less
  have floor := first.floor
  have next := second.next
  rw [show exp + 1 - (128 : Nat) = exp - 127 by push_cast; ring] at floor next
  linarith

section order
variable {x y : ℚ} {a b : Body}

theorem Keyed.whole (h : Keyed x a) (exact : a.inexact = false) :
    a.window * (2 : ℚ) ^ (a.exp + 1 - 128) = x := by
  by_contra differ
  rw [h.mark.mpr differ] at exact
  contradiction

theorem Keyed.ltOfExp (hx : Keyed x a) (hy : Keyed y b) (h : a.exp < b.exp) : x < y := by
  refine lt_of_lt_of_le hx.body.high (le_trans ?_ hy.body.low)
  exact zpow_le_zpow_right₀ (by norm_num) (by omega)

theorem Keyed.ltOfWindow (hx : Keyed x a) (hy : Keyed y b) (same : a.exp = b.exp)
    (h : a.window < b.window) : x < y := by
  have next := hx.body.next
  rw [same] at next
  refine lt_of_lt_of_le next (le_trans ?_ hy.body.floor)
  exact mul_le_mul_of_nonneg_right (by exact_mod_cast h) (twoPos _).le

theorem Keyed.ltOfMark (hx : Keyed x a) (hy : Keyed y b) (same : a.exp = b.exp)
    (window : a.window = b.window) (exact : a.inexact = false) (inexact : b.inexact = true) : x < y := by
  rw [← hx.whole exact, same, window]
  exact lt_of_le_of_ne hy.body.floor (hy.mark.mp inexact)

theorem Keyed.eqOfMark (hx : Keyed x a) (hy : Keyed y b) (same : a.exp = b.exp)
    (window : a.window = b.window) (marks : a.inexact = b.inexact) : x = y := by
  cases mark : a.inexact with
  | false => rw [← hx.whole mark, ← hy.whole (marks ▸ mark), same, window]
  | true =>
    obtain ⟨c,e,hc,rfl⟩ := hx.long mark
    obtain ⟨d,f,hd,rfl⟩ := hy.long (marks ▸ mark)
    have second : IsBody (magnitude d f) a.exp a.window := by rw [same, window]; exact hy.body
    exact le_antisymm (not_lt.mp (sameWindow hd hc second hx.body))
      (not_lt.mp (sameWindow hc hd hx.body second))

theorem bodyCmp (hx : Keyed x a) (hy : Keyed y b) : a.cmp b = compare x y := by
  unfold Body.cmp
  rcases lt_trichotomy a.exp b.exp with less | same | greater
  · rw [compare_lt_iff_lt.mpr less, compare_lt_iff_lt.mpr (hx.ltOfExp hy less)]
    rfl
  · rw [compare_eq_iff_eq.mpr same, Ordering.eq_then]
    rcases lt_trichotomy a.window b.window with less | window | greater
    · rw [compare_lt_iff_lt.mpr less, compare_lt_iff_lt.mpr (hx.ltOfWindow hy same less)]
      rfl
    · rw [compare_eq_iff_eq.mpr window, Ordering.eq_then]
      rcases lt_trichotomy a.inexact b.inexact with less | marks | greater
      · obtain ⟨exact,inexact⟩ := Bool.lt_iff.mp less
        rw [compare_lt_iff_lt.mpr less, compare_lt_iff_lt.mpr (hx.ltOfMark hy same window exact inexact)]
      · rw [compare_eq_iff_eq.mpr marks, compare_eq_iff_eq.mpr (hx.eqOfMark hy same window marks)]
      · obtain ⟨exact,inexact⟩ := Bool.lt_iff.mp greater
        rw [compare_gt_iff_gt.mpr greater,
          compare_gt_iff_gt.mpr (hy.ltOfMark hx same.symm window.symm exact inexact)]
    · rw [compare_gt_iff_gt.mpr greater, compare_gt_iff_gt.mpr (hy.ltOfWindow hx same.symm greater)]
      rfl
  · rw [compare_gt_iff_gt.mpr greater, compare_gt_iff_gt.mpr (hy.ltOfExp hx greater)]
    rfl

end order

end Kimmy.KeyNumber
