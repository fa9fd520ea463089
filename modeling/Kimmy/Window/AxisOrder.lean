import Kimmy.KeyOrder
import Kimmy.Window.Ends

/-!
The axis of a sorted partition is sorted, and moving along it by a distance keeps the order: numbers are read as the
nearest double, a sum of doubles is rounded to the nearest one, and rounding never turns an order round.
-/
namespace Kimmy.Window
open Decimal.Arith Decimal CanonicalCmp

/-! Rounding keeps the order. -/

theorem fieldValueStrict {m n : Nat} (below : m < n) : fieldValue m < fieldValue n := by
  unfold fieldValue
  have points := FloatGrid.pointStrict 52 below
  exact mul_lt_mul_of_pos_right (Nat.cast_lt.mpr points) (KeyNumber.twoPos _)

theorem evenField {bits : UInt64} (even : bits.toNat % 2 = 0) : fieldOf bits % 2 = 0 := by
  unfold fieldOf
  omega

theorem nearestRange {negative : Bool} {x : ℚ} {bits : UInt64} (near : NearestDouble negative x bits) :
    fieldOf bits ≤ infinity ∧ (overflowAt ≤ x → fieldOf bits = infinity) ∧ (x < overflowAt → fieldOf bits < infinity) := by
  have top (large : overflowAt ≤ x) : fieldOf bits = infinity := by
    have is := near.overflow large
    have range := bits.toNat_lt
    unfold Exact.double at is
    simp only at is
    unfold fieldOf infinity
    split_ifs at is with high nan sign
    all_goals omega
  have small (low : x < overflowAt) : fieldOf bits < infinity := by
    obtain ⟨y,is,_⟩ := near.nearest low
    exact (finiteField is).1
  refine ⟨?_,top,small⟩
  rcases le_or_gt overflowAt x with large | low
  · exact (top large).le
  · exact (small low).le

theorem closerAbove {x low high : ℚ} (order : low < high) (close : |x - high| ≤ |x - low|) : (low + high) / 2 ≤ x := by
  by_contra under
  rw [not_le] at under
  rw [abs_of_nonpos (by linarith)] at close
  rcases abs_cases (x - low) with ⟨is,_⟩ | ⟨is,_⟩ <;> linarith

theorem closerBelow {x low high : ℚ} (order : low < high) (close : |x - low| ≤ |x - high|) : x ≤ (low + high) / 2 := by
  by_contra above
  rw [not_le] at above
  rw [abs_of_nonneg (a := x - low) (by linarith)] at close
  rcases abs_cases (x - high) with ⟨is,_⟩ | ⟨is,_⟩ <;> linarith

theorem nearestFields {negative : Bool} {x y : ℚ} {b c : UInt64} (first : NearestDouble negative x b)
    (second : NearestDouble negative y c) (order : x ≤ y) : fieldOf b ≤ fieldOf c := by
  by_contra reversed
  rw [not_le] at reversed
  obtain ⟨rangeB,_,smallB⟩ := nearestRange first
  obtain ⟨_,topC,smallC⟩ := nearestRange second
  rcases le_or_gt overflowAt y with large | low
  · have top := topC large
    omega
  · have small := smallB (order.trans_lt low)
    obtain ⟨_,isB,bestB⟩ := first.nearest (order.trans_lt low)
    obtain ⟨_,isC,bestC⟩ := second.nearest low
    obtain ⟨_,rfl⟩ := finiteField isB
    obtain ⟨_,rfl⟩ := finiteField isC
    rw [first.sign] at isB bestB
    rw [second.sign] at isC bestC
    have below := fieldValueStrict reversed
    obtain ⟨closeB,tieB⟩ := bestB c _ isC
    obtain ⟨closeC,tieC⟩ := bestC b _ isB
    rw [signedDistance, signedDistance] at closeB tieB closeC tieC
    have half : x = (fieldValue (fieldOf b) + fieldValue (fieldOf c)) / 2 ∧ y = x := by
      have above := closerAbove below closeB
      have under := closerBelow below closeC
      constructor <;> linarith
    obtain ⟨middle,rfl⟩ := half
    have same : |y - fieldValue (fieldOf b)| = |y - fieldValue (fieldOf c)| := le_antisymm closeB closeC
    have apart : Exact.signed negative (fieldValue (fieldOf c)) ≠ Exact.signed negative (fieldValue (fieldOf b)) := by
      cases negative <;> simp [Exact.signed, below.ne]
    have evenB := evenField (tieB same apart)
    have evenC := evenField (tieC same.symm apart.symm)
    -- both are even, so another double lies strictly between them, and nearer
    have inside : fieldOf c + 1 < fieldOf b := by omega
    obtain ⟨sign,field,_⟩ := wordFields negative (show fieldOf c + 1 ≤ infinity by omega)
    have finite := (doubleFinite (.ofNat ((if negative then 2 ^ 63 else 0) ||| (fieldOf c + 1)))).1 (by omega)
    rw [sign, field] at finite
    have closer := (bestB _ _ finite).1
    rw [signedDistance, signedDistance] at closer
    have low := fieldValueStrict (Nat.lt_succ_self (fieldOf c))
    have high := closerAbove (fieldValueStrict inside) closer
    have up := fieldValueStrict inside
    linarith

theorem nearestZero {negative : Bool} {bits : UInt64} (near : NearestDouble negative 0 bits) : fieldOf bits = 0 := by
  have none : fieldValue 0 = 0 := by simp [fieldValue, FloatGrid.point]
  have positive : 0 < overflowAt := by
    rw [overflowAt]
    exact mul_pos (by norm_num) (KeyNumber.twoPos _)
  obtain ⟨_,is,best⟩ := near.nearest positive
  obtain ⟨_,rfl⟩ := finiteField is
  obtain ⟨sign,field,_⟩ := wordFields negative (Nat.zero_le infinity)
  have zero := (doubleFinite (.ofNat ((if negative then 2 ^ 63 else 0) ||| 0))).1 (by rw [field]; decide)
  rw [sign, field] at zero
  have close := (best _ _ zero).1
  rw [near.sign, signedDistance, signedDistance, none, sub_zero, abs_zero, zero_sub, abs_neg] at close
  by_contra other
  have more := fieldValueStrict (Nat.pos_of_ne_zero other)
  rw [none] at more
  rw [abs_of_pos more] at close
  linarith

/-! A number and the double it is read as. -/

def ReadAs (x : Exact) (bits : UInt64) : Prop :=
  match x with
  | .nan => isNan bits = true
  | .negInfinity => orderOf bits = -infinity
  | .finite q => ∃ negative size, q = Exact.signed negative size ∧ 0 ≤ size ∧ NearestDouble negative size bits
  | .posInfinity => orderOf bits = infinity

theorem nearestOrder {s t : Bool} {x y : ℚ} {b c : UInt64} (sizeX : 0 ≤ x) (sizeY : 0 ≤ y) (first : NearestDouble s x b)
    (second : NearestDouble t y c) (order : Exact.signed s x ≤ Exact.signed t y) : orderOf b ≤ orderOf c := by
  unfold orderOf
  rw [first.sign, second.sign]
  cases s with
  | false =>
    cases t with
    | false =>
      have fields := nearestFields first second order
      simp only [signedTerm, Bool.false_eq_true, if_false]
      omega
    | true =>
      simp only [Exact.signed, Bool.false_eq_true, if_false, if_true] at order
      obtain rfl : x = 0 := by linarith
      obtain rfl : y = 0 := by linarith
      rw [nearestZero first, nearestZero second]
      decide
  | true =>
    cases t with
    | false =>
      simp only [signedTerm, Bool.false_eq_true, if_false, if_true]
      omega
    | true =>
      have fields := nearestFields second first (neg_le_neg_iff.mp order)
      simp only [signedTerm, if_true]
      omega

theorem nearestBounds {negative : Bool} {x : ℚ} {bits : UInt64} (near : NearestDouble negative x bits) :
    -(infinity : Int) ≤ orderOf bits ∧ orderOf bits ≤ infinity := by
  have range := (nearestRange near).1
  unfold orderOf signedTerm
  split_ifs <;> omega

theorem readOrder {x y : Exact} {b c : UInt64} (first : ReadAs x b) (second : ReadAs y c) (number : isNan b = false)
    (other : isNan c = false) (order : (x.cmp y).isLE) : orderOf b ≤ orderOf c := by
  cases x with
  | nan => exact absurd (number.symm.trans first) (by decide)
  | negInfinity =>
    cases y with
    | nan => exact absurd (other.symm.trans second) (by decide)
    | negInfinity => exact (first.trans second.symm).le
    | finite q =>
      obtain ⟨_,_,_,_,near⟩ := second
      exact first.le.trans (nearestBounds near).1
    | posInfinity =>
      rw [show orderOf b = _ from first, show orderOf c = _ from second]
      decide
  | finite p =>
    cases y with
    | nan => exact absurd (other.symm.trans second) (by decide)
    | negInfinity => exact absurd order (by simp [Exact.cmp, Exact.rank]; decide)
    | finite q =>
      obtain ⟨s,size,rfl,nonneg,near⟩ := first
      obtain ⟨t,size',rfl,nonneg',near'⟩ := second
      exact nearestOrder nonneg nonneg' near near' (compare_le_iff_le.mp (Ordering.isLE_iff_ne_gt.mp order))
    | posInfinity =>
      obtain ⟨_,_,_,_,near⟩ := first
      exact (nearestBounds near).2.trans second.ge
  | posInfinity =>
    cases y with
    | nan => exact absurd (other.symm.trans second) (by decide)
    | negInfinity => exact absurd order (by simp [Exact.cmp, Exact.rank]; decide)
    | finite q => exact absurd order (by simp [Exact.cmp, Exact.rank]; decide)
    | posInfinity => exact (first.trans second.symm).le

/-! Each kind of number. -/

theorem ofTotalRead {total : Int} (room : total.natAbs < (2 ^ 32) ^ 68) :
    ReadAs (.finite (total * 2 ^ (-1074 : Int))) (ofTotal total) := by
  have near := ofTotalNearest room
  have scale := KeyNumber.twoPos (-1074)
  refine ⟨_,_,?_,mul_nonneg (Nat.cast_nonneg _) scale.le,near⟩
  rcases lt_or_ge total 0 with negative | nonneg
  · have abs : (total.natAbs : ℚ) = -total := by
      rw [Nat.cast_natAbs, abs_of_neg negative, Int.cast_neg]
    rw [decide_eq_true negative, abs]
    simp [Exact.signed]
  · have abs : (total.natAbs : ℚ) = total := by
      rw [Nat.cast_natAbs, abs_of_nonneg nonneg]
    rw [decide_eq_false (not_lt.mpr nonneg), abs]
    simp [Exact.signed]

theorem integerRead {n : Int} (fits : n.natAbs < 2 ^ 64) : ReadAs (.finite n) (ofTotal (n * 2 ^ 1074)) := by
  have size : (n * 2 ^ 1074).natAbs = n.natAbs * 2 ^ 1074 := by
    rw [Int.natAbs_mul, Int.natAbs_pow, show (2 : Int).natAbs = 2 from rfl]
  have room : (n * 2 ^ 1074).natAbs < (2 ^ 32) ^ 68 := by
    rw [size, ← roomFor, Nat.mul_comm]
    refine Nat.mul_lt_mul_of_le_of_lt ?_ fits (by positivity)
    rw [← pow_mul]
    exact Nat.pow_le_pow_right (by decide) (by decide)
  have read := ofTotalRead room
  have scaled : ((n * 2 ^ 1074 : Int) : ℚ) * 2 ^ (-1074 : Int) = n := by
    rw [Int.cast_mul, Int.cast_pow, Int.cast_ofNat, mul_assoc, ← zpow_natCast, ← zpow_add₀ (by norm_num)]
    norm_num
  rw [scaled] at read
  exact read

theorem doubleRead (bits : UInt64) : ReadAs (Exact.double bits) bits := by
  rcases lt_trichotomy (fieldOf bits) infinity with small | top | nan
  · have is := (doubleFinite bits).1 small
    rw [is]
    refine ⟨_,_,rfl,fieldValueNonneg _,rfl,fun large => ?_,fun _ => ⟨_,is,fun other z _ => ?_⟩⟩
    · have most := fieldValueBound small
      have unit := KeyNumber.twoPos 971
      rw [overflowSplit] at large
      generalize (2 : ℚ) ^ (971 : Int) = u at *
      linarith
    · rw [sub_self, abs_zero]
      refine ⟨abs_nonneg _,fun same differ => absurd ?_ differ⟩
      exact (sub_eq_zero.mp (abs_eq_zero.mp same.symm)).symm
  · rw [doubleInfinite top]
    cases sign : signOf bits with
    | false => simp [ReadAs, orderOf, signedTerm, sign, top]
    | true => simp [ReadAs, orderOf, signedTerm, sign, top]
  · have range := bits.toNat_lt
    have is : Exact.double bits = .nan := by
      unfold fieldOf infinity at nan
      unfold Exact.double
      simp only
      rw [if_pos (by omega), if_pos (by omega)]
    rw [is]
    exact decide_eq_true nan

theorem decodeRawValue (word : Decimal128) : Exact.decimal word = match decodeRaw word with
    | .nan => .nan
    | .inf negative => if negative then .negInfinity else .posInfinity
    | .finite negative c e => .finite (Exact.signed negative (magnitude c e)) := by
  rw [← Number.decodeValue]
  simp only [decode, decodeBits, decodeRaw, decodeRawBits]
  cases word.toNat >>> 127 == 1 <;> split_ifs <;> simp_all [Number.decimalValue, magnitude, Exact.signed]

theorem decimalRead (word : Decimal128) : ReadAs (Exact.decimal word) (toBinary64 (decodeRaw word)) := by
  rw [decodeRawValue]
  have stored := decodeStored word
  cases is : decodeRaw word with
  | nan => exact show isNan (toBinary64 .nan) = true by decide
  | inf negative =>
    cases negative with
    | false => exact show orderOf (toBinary64 (.inf false)) = infinity by decide
    | true => exact show orderOf (toBinary64 (.inf true)) = -infinity by decide
  | finite negative c e =>
    rw [is] at stored
    refine ⟨negative,magnitude c e,rfl,?_,toBinary64Nearest negative stored⟩
    exact mul_nonneg (Nat.cast_nonneg _) (tenPos e).le

theorem numericRead {v : Bson} {bits : UInt64} (is : numeric v = some bits) : ∃ x, Exact.ofBson v = some x ∧ ReadAs x bits := by
  cases v with
  | int32 n =>
    cases is
    have low := n.le_toInt
    have high := n.toInt_lt
    exact ⟨_,rfl,integerRead (by omega)⟩
  | int64 n =>
    cases is
    have low := n.le_toInt
    have high := n.toInt_lt
    exact ⟨_,rfl,integerRead (by omega)⟩
  | double bits =>
    cases is
    exact ⟨_,rfl,doubleRead bits⟩
  | decimal128 word =>
    cases is
    exact ⟨_,rfl,decimalRead word⟩
  | _ => cases is

theorem numericOrder {u v : Bson} {b c : UInt64} (readU : numeric u = some b) (readV : numeric v = some c)
    (number : isNan b = false) (other : isNan c = false) (order : (canonicalCmp u v).isLE) : orderOf b ≤ orderOf c := by
  obtain ⟨x,isX,asX⟩ := numericRead readU
  obtain ⟨y,isY,asY⟩ := numericRead readV
  rw [KeyOrder.canonicalCmpExact isX isY] at order
  exact readOrder asX asY number other order

/-! Moving along the axis. -/

theorem unitsRoom (bits : UInt64) : unitsOf bits < (2 ^ 32) ^ 66 := by
  have below := FloatGrid.pointUnits 52 (fieldOf bits)
  have field : fieldOf bits < 2 ^ 63 := Nat.mod_lt _ (by decide)
  have unit : FloatGrid.unit 52 (fieldOf bits) ≤ 2 ^ (2047 : Nat) := by
    unfold FloatGrid.unit
    exact Nat.pow_le_pow_right (by decide) (by omega)
  refine lt_of_lt_of_le below ?_
  calc 2 ^ (52 + 1) * FloatGrid.unit 52 (fieldOf bits) ≤ 2 ^ (52 + 1) * 2 ^ (2047 : Nat) := Nat.mul_le_mul_left _ unit
    _ = 2 ^ (52 + 1 + 2047) := (pow_add _ _ _).symm
    _ ≤ 2 ^ (32 * 66) := Nat.pow_le_pow_right (by decide) (by decide)
    _ = (2 ^ 32) ^ 66 := pow_mul _ _ _

theorem signedRoom (x offset : UInt64) : (signedUnits x + signedUnits offset).natAbs < (2 ^ 32) ^ 68 := by
  have first := unitsRoom x
  have second := unitsRoom offset
  have double : (2 ^ 32) ^ 66 * 2 ≤ (2 ^ 32) ^ 68 := by
    rw [← roomFor]
    exact Nat.mul_le_mul_left _ (by decide)
  unfold signedUnits signedTerm
  generalize (2 ^ 32) ^ 66 = room at *
  generalize (2 ^ 32) ^ 68 = top at *
  split_ifs <;> omega

/- Finite doubles are in the order of what they are worth. -/
theorem unitsOrder {x y : UInt64} (order : orderOf x ≤ orderOf y) : signedUnits x ≤ signedUnits y := by
  have points {m n : Nat} (below : m ≤ n) : FloatGrid.point 52 m ≤ FloatGrid.point 52 n :=
    (FloatGrid.pointStrict 52).monotone below
  unfold orderOf at order
  unfold signedUnits unitsOf
  have none : FloatGrid.point 52 0 = 0 := by simp [FloatGrid.point]
  generalize signOf x = s at *
  generalize signOf y = t at *
  cases s with
  | false =>
    cases t with
    | false =>
      have := points (Int.ofNat_le.mp order)
      simp only [signedTerm, Bool.false_eq_true, if_false]
      omega
    | true =>
      simp only [signedTerm, Bool.false_eq_true, if_false, if_true] at order ⊢
      rw [show fieldOf x = 0 by omega, show fieldOf y = 0 by omega, none]
      decide
  | true =>
    cases t with
    | false =>
      simp only [signedTerm, Bool.false_eq_true, if_false, if_true]
      omega
    | true =>
      simp only [signedTerm, if_true] at order ⊢
      have := points (show fieldOf y ≤ fieldOf x by omega)
      omega

theorem notNan {x : ℚ} {bits : UInt64} (read : ReadAs (.finite x) bits) : isNan bits = false := by
  obtain ⟨_,_,_,_,near⟩ := read
  exact decide_eq_false (not_lt.mpr (nearestRange near).1)

theorem plusBounds {x : UInt64} (number : isNan x = false) (offset : UInt64) :
    -(infinity : Int) ≤ orderOf (plus x offset) ∧ orderOf (plus x offset) ≤ infinity := by
  unfold plus
  split_ifs with small
  · obtain ⟨_,_,_,_,near⟩ := ofTotalRead (signedRoom x offset)
    exact nearestBounds near
  · have most := not_lt.mp (of_decide_eq_false number)
    unfold orderOf signedTerm
    split_ifs <;> omega

theorem finiteOrder (x : UInt64) : fieldOf x < infinity ↔ -(infinity : Int) < orderOf x ∧ orderOf x < infinity := by
  unfold orderOf signedTerm
  split_ifs <;> omega

theorem plusOrder {x y : UInt64} (number : isNan x = false) (other : isNan y = false) (offset : UInt64)
    (order : orderOf x ≤ orderOf y) : orderOf (plus x offset) ≤ orderOf (plus y offset) := by
  have first := plusBounds number offset
  have second := plusBounds other offset
  by_cases smallX : fieldOf x < infinity
  · by_cases smallY : fieldOf y < infinity
    · have readX := ofTotalRead (signedRoom x offset)
      have readY := ofTotalRead (signedRoom y offset)
      rw [plus, plus, if_pos smallX, if_pos smallY]
      refine readOrder readX readY (notNan readX) (notNan readY) (Ordering.isLE_iff_ne_gt.mpr (compare_le_iff_le.mpr ?_))
      refine mul_le_mul_of_nonneg_right ?_ (KeyNumber.twoPos (-1074)).le
      exact_mod_cast Int.add_le_add_right (unitsOrder order) _
    · -- an infinity stays where it is
      rw [show plus y offset = y from if_neg smallY] at second ⊢
      rw [finiteOrder] at smallX smallY
      omega
  · rw [show plus x offset = x from if_neg smallX] at first ⊢
    by_cases smallY : fieldOf y < infinity
    · rw [finiteOrder] at smallX smallY
      omega
    · rw [show plus y offset = y from if_neg smallY]
      exact order

/-! The axis of a partition. -/

/- What the documents hold, as numbers or as dates. -/
def Numbers (found : List (Option Bson)) (nums : List UInt64) : Prop :=
  List.Forall₂ (fun v x => v.bind numeric = some x ∧ isNan x = false) found nums

def Dates (found : List (Option Bson)) (dates : List Int) : Prop :=
  List.Forall₂ (fun v d => ∃ t, v = some (.dateTime t) ∧ t.toInt = d) found dates

theorem axisRead : ∀ {found : List (Option Bson)} {nums : List UInt64} {dates : List Int},
    found.foldlM axisStep ([],[]) = some (nums,dates) → dates = [] ∧ Numbers found nums ∨ nums = [] ∧ Dates found dates := by
  intro found
  induction found using List.reverseRecOn with
  | nil =>
    intro nums dates is
    cases is
    exact Or.inl ⟨rfl,.nil⟩
  | append_singleton rest v ih =>
    intro nums dates is
    rw [List.foldlM_append] at is
    obtain ⟨⟨first,second⟩,before,after⟩ := Option.bind_eq_some_iff.mp is
    have held := ih before
    rw [List.foldlM_cons] at after
    obtain ⟨out,step,last⟩ := Option.bind_eq_some_iff.mp after
    cases last
    unfold axisStep at step
    split at step
    · -- a date after dates alone
      rename_i t
      split_ifs at step with empty
      obtain ⟨rfl,rfl⟩ := Prod.mk.inj (Option.some.inj step)
      have none := List.isEmpty_iff.mp empty
      have dates : Dates rest second := by
        rcases held with ⟨rfl,numbers⟩ | ⟨_,dates⟩
        · rw [show first = [] from none] at numbers
          rw [List.forall₂_nil_right_iff.mp numbers]
          exact .nil
        · exact dates
      exact Or.inr ⟨none,List.rel_append dates (.cons ⟨t,rfl,rfl⟩ .nil)⟩
    · -- a number after numbers alone
      split_ifs at step with empty
      split at step
      · rename_i x number
        split_ifs at step with nan
        obtain ⟨rfl,rfl⟩ := Prod.mk.inj (Option.some.inj step)
        have none := List.isEmpty_iff.mp empty
        have numbers : Numbers rest first := by
          rcases held with ⟨_,numbers⟩ | ⟨rfl,dates⟩
          · exact numbers
          · rw [show second = [] from none] at dates
            rw [List.forall₂_nil_right_iff.mp dates]
            exact .nil
        exact Or.inl ⟨none,List.rel_append numbers (.cons ⟨number,by simpa using nan⟩ .nil)⟩
      · cases step

def Axis.Reads (found : List (Option Bson)) : Axis → Prop
  | .num nums => Numbers found nums
  | .date dates => Dates found dates

theorem rangeAxisRead {found : List (Option Bson)} {unit : Option DateUnit} {axis : Axis}
    (is : rangeAxis found unit = some axis) : axis.Reads found := by
  obtain ⟨⟨nums,dates⟩,read,made⟩ := Option.bind_eq_some_iff.mp is
  simp only at made
  have held := axisRead read
  split_ifs at made with empty numeric
  · cases made
    have none := List.isEmpty_iff.mp empty
    rcases held with ⟨_,numbers⟩ | ⟨rfl,dates⟩
    · exact numbers
    · rw [none] at dates
      rw [List.forall₂_nil_right_iff.mp dates]
      exact .nil
  · cases made
    rcases held with ⟨none,_⟩ | ⟨_,dates⟩
    · exact absurd (List.isEmpty_iff.mpr none) empty
    · exact dates

/- The partition as the stage sorts it: by the one field, going up, a missing value being null. -/
def Sorted (found : List (Option Bson)) : Prop :=
  found.Pairwise fun u v => (canonicalCmp (u.getD .null) (v.getD .null)).isLE

/- What holds of each two in order holds of each two read from them. -/
theorem readPairwise {α β : Type} {R : α → β → Prop} {P : α → α → Prop} {Q : β → β → Prop}
    (keeps : ∀ {a b x y}, R a x → R b y → P a b → Q x y) {as : List α} {xs : List β} (read : List.Forall₂ R as xs)
    (pairs : as.Pairwise P) : xs.Pairwise Q := by
  induction read with
  | nil => exact .nil
  | @cons a x as xs here later ih =>
    obtain ⟨first,others⟩ := List.pairwise_cons.mp pairs
    refine .cons ?_ (ih others)
    clear ih others pairs
    induction later with
    | nil => nofun
    | cons next _ ih =>
      intro y member
      rcases List.mem_cons.mp member with rfl | inside
      · exact keeps here next (first _ List.mem_cons_self)
      · exact ih (fun b member => first b (List.mem_cons_of_mem _ member)) y inside

theorem numbersSorted {found : List (Option Bson)} {nums : List UInt64} (sorted : Sorted found)
    (numbers : Numbers found nums) : nums.Pairwise fun x y => orderOf x ≤ orderOf y := by
  refine readPairwise (fun first second order => ?_) numbers sorted
  obtain ⟨isX,numberX⟩ := first
  obtain ⟨isY,numberY⟩ := second
  obtain ⟨u,rfl,readX⟩ := Option.bind_eq_some_iff.mp isX
  obtain ⟨v,rfl,readY⟩ := Option.bind_eq_some_iff.mp isY
  exact numericOrder readX readY numberX numberY order

theorem cmpDates (t t' : Int64) : canonicalCmp (.dateTime t) (.dateTime t') = compare t.toInt t'.toInt := by
  unfold canonicalCmp
  rfl

theorem datesSorted {found : List (Option Bson)} {dates : List Int} (sorted : Sorted found)
    (read : Dates found dates) : dates.Pairwise (· ≤ ·) := by
  refine readPairwise (fun first second order => ?_) read sorted
  obtain ⟨t,rfl,rfl⟩ := first
  obtain ⟨t',rfl,rfl⟩ := second
  rw [Option.getD_some, Option.getD_some, cmpDates] at order
  exact compare_le_iff_le.mp (Ordering.isLE_iff_ne_gt.mp order)

end Kimmy.Window
