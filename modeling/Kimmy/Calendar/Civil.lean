import Kimmy.Bins
import Kimmy.Window.Ends

/-!
The civil calendar (`expr/dates.rs`). Counting years from March puts the leap day last, so that a year starts a whole
number of days after the ones before it and its months start at fixed days of it. The first days of the months are
a grid over the day numbers: the civil date of a day is its month there and how far into it the day is.
-/
namespace Kimmy.Calendar
open Window (daysFromCivilWide civilFromDays isLeap daysInMonth)

/-! Years and months from March. -/

/- Days before the year, from the first of March of year nought. -/
def yearStart (y : Int) : Int := 365 * y + y / 4 - y / 100 + y / 400

/- Days before the month, from the first of March. -/
def monthStart (mp : Int) : Int := (153 * mp + 2) / 5

theorem yearNext (y : Int) : yearStart (y + 1) = yearStart y + 365 + if isLeap (y + 1) then 1 else 0 := by
  unfold yearStart isLeap
  by_cases four : (y + 1) % 4 = 0 <;> by_cases hundred : (y + 1) % 100 = 0 <;> by_cases cycle : (y + 1) % 400 = 0 <;>
    simp only [four, hundred, cycle, beq_iff_eq, bne_iff_ne, Bool.or_eq_true, Bool.and_eq_true, ne_eq, not_true_eq_false,
      not_false_eq_true, and_true, and_false, or_true, or_false, if_true, if_false] <;>
    omega

/- The year of the cycle of four hundred, of the day of it. -/
def yearOf (doe : Int) : Int := (doe - doe / 1460 + doe / 36524 - doe / 146096) / 365

theorem yearOfMono {a b : Int} (low : a ≤ b) : yearOf a ≤ yearOf b := by
  unfold yearOf
  refine Int.ediv_le_ediv (by norm_num) ?_
  have four : ∀ x : Int, x / 146096 = x / 36524 / 4 := fun x => by omega
  have slow : ∀ {x y n : Int}, x ≤ y → n = 1460 ∨ n = 4 → x - x / n ≤ y - y / n := by
    rintro x y n below (rfl | rfl) <;> omega
  have days := slow low (.inl rfl)
  have cycles := slow (Int.ediv_le_ediv (show 0 < 36524 by norm_num) low) (.inr rfl)
  rw [four, four]
  linarith

theorem yearTable : ∀ y ∈ List.range 400, yearOf (yearStart y) = y ∧ yearOf (yearStart (y + 1) - 1) = y := by
  decide +kernel

theorem yearOfCycle {doe : Int} (low : 0 ≤ doe) (high : doe < 146097) :
    0 ≤ yearOf doe ∧ yearOf doe < 400 ∧ yearStart (yearOf doe) ≤ doe ∧ doe < yearStart (yearOf doe + 1) := by
  have first : 0 ≤ yearOf doe := yearOfMono low
  have last : yearOf doe < 400 := by
    have := yearOfMono (show doe ≤ 146096 by omega)
    have most : yearOf 146096 = 399 := by decide
    omega
  have table : ∀ y : Int, 0 ≤ y → y < 400 → yearOf (yearStart y) = y ∧ yearOf (yearStart (y + 1) - 1) = y := by
    intro y above below
    have entry := yearTable y.toNat (List.mem_range.mpr (by omega))
    rwa [Int.toNat_of_nonneg above] at entry
  refine ⟨first,last,?_,?_⟩
  · by_contra before
    rcases Int.lt_or_le 0 (yearOf doe) with later | none
    · have earlier := (table (yearOf doe - 1) (by omega) (by omega)).2
      have back := yearOfMono (show doe ≤ yearStart (yearOf doe - 1 + 1) - 1 by rw [sub_add_cancel]; omega)
      omega
    · have zero : yearOf doe = 0 := by omega
      rw [zero] at before
      exact before (le_trans (by decide) low)
  · by_contra after
    rcases Int.lt_or_le (yearOf doe) 399 with earlier | none
    · have next := (table (yearOf doe + 1) (by omega) (by omega)).1
      have further := yearOfMono (show yearStart (yearOf doe + 1) ≤ doe by omega)
      omega
    · have is : yearOf doe = 399 := by omega
      rw [is] at after
      have cycle : yearStart (399 + 1) = 146097 := by decide
      omega

/-! The first days of the months. -/

/- Months are counted from January of year nought. -/
def monthOf (y m : Int) : Int := 12 * y + (m - 1)

def firstDay (month : Int) : Int := yearStart ((month - 2) / 12) + monthStart ((month - 2) % 12) - 719468

/- The month a day is in. -/
def monthAt (z : Int) : Int := monthOf (civilFromDays z).1 (civilFromDays z).2.1

/- Every month but February is as long in every year. -/
theorem monthLength (y : Int) {mp : Int} (low : 0 ≤ mp) (high : mp < 11) :
    daysInMonth y ((mp + 2) % 12 + 1) = monthStart (mp + 1) - monthStart mp := by
  interval_cases mp <;> rfl

theorem february (y : Int) : daysInMonth y 2 = 28 + if isLeap y then 1 else 0 := by
  have short : (2 : Int) ∉ [1,3,5,7,8,10,12] ∧ (2 : Int) ∉ [4,6,9,11] := by decide
  unfold daysInMonth
  rw [if_neg short.1, if_neg short.2]
  split_ifs <;> rfl

theorem firstDayNext (month : Int) : firstDay (month + 1) = firstDay month + daysInMonth (month / 12) (month % 12 + 1) := by
  have within : 0 ≤ (month - 2) % 12 ∧ (month - 2) % 12 < 12 := by omega
  unfold firstDay
  rcases Int.lt_or_le ((month - 2) % 12) 11 with before | last
  · have next : (month + 1 - 2) / 12 = (month - 2) / 12 ∧ (month + 1 - 2) % 12 = (month - 2) % 12 + 1 := by omega
    have length := monthLength (month / 12) within.1 before
    rw [show ((month - 2) % 12 + 2) % 12 = month % 12 by omega] at length
    rw [next.1, next.2, length]
    omega
  · -- February is the last month from March, and as long as its year leaves it.
    have here : (month - 2) / 12 = month / 12 - 1 ∧ (month - 2) % 12 = 11 ∧ month % 12 + 1 = 2 := by omega
    have next : (month + 1 - 2) / 12 = month / 12 - 1 + 1 ∧ (month + 1 - 2) % 12 = 0 := by omega
    have fixed : monthStart 0 = 0 ∧ monthStart 11 = 337 := by decide
    rw [here.1, here.2.1, here.2.2, next.1, next.2, yearNext, sub_add_cancel, february, fixed.1, fixed.2]
    omega

theorem monthPositive (y m : Int) : 28 ≤ daysInMonth y m ∧ daysInMonth y m ≤ 31 := by
  unfold daysInMonth
  split_ifs <;> omega

theorem firstDayMono : StrictMono firstDay := by
  refine strictMono_int_of_lt_succ fun month => ?_
  rw [firstDayNext]
  have := monthPositive (month / 12) (month % 12 + 1)
  omega

/- A day number, from the month of its date and how far into it the day is. -/
theorem daysFromMonth {y m : Int} (d : Int) (low : 1 ≤ m) (high : m ≤ 12) :
    daysFromCivilWide y m d = firstDay (monthOf y m) + (d - 1) := by
  have cycle : ∀ y : Int, y / 400 * 146097 + (y % 400 * 365 + y % 400 / 4 - y % 400 / 100) = yearStart y := by
    intro y
    unfold yearStart
    omega
  unfold daysFromCivilWide firstDay monthOf
  simp only
  split_ifs with early
  · have year : (12 * y + (m - 1) - 2) / 12 = y - 1 := by omega
    have month : (12 * y + (m - 1) - 2) % 12 = (m + 9) % 12 := by omega
    have sum := cycle (y - 1)
    rw [year, month, monthStart]
    omega
  · have year : (12 * y + (m - 1) - 2) / 12 = y := by omega
    have month : (12 * y + (m - 1) - 2) % 12 = (m + 9) % 12 := by omega
    have sum := cycle y
    rw [year, month, monthStart]
    omega

/-! The civil date of a day. -/

/- A date the calendar has. -/
def Valid (date : Int × Int × Int) : Prop :=
  1 ≤ date.2.1 ∧ date.2.1 ≤ 12 ∧ 1 ≤ date.2.2 ∧ date.2.2 ≤ daysInMonth date.1 date.2.1

/- The year and month from March that a day is in, and how far into the year it is. -/
structure FromMarch (z y mp doy : Int) : Prop where
  day : yearStart y + doy - 719468 = z
  inYear : z < yearStart (y + 1) - 719468
  month : 0 ≤ mp ∧ mp ≤ 11
  start : monthStart mp ≤ doy
  finish : doy < monthStart (mp + 1)

/- The civil date of a day of a year from March. -/
def civilOf (y doy : Int) : Int × Int × Int :=
  let mp := (5 * doy + 2) / 153
  let m := if mp < 10 then mp + 3 else mp - 9
  (if m ≤ 2 then y + 1 else y,m,doy - monthStart mp + 1)

theorem civilEq (z : Int) : civilFromDays z =
    civilOf (yearOf ((z + 719468) % 146097) + (z + 719468) / 146097 * 400)
      ((z + 719468) % 146097 - (365 * yearOf ((z + 719468) % 146097) + yearOf ((z + 719468) % 146097) / 4 -
        yearOf ((z + 719468) % 146097) / 100)) := rfl

theorem civilFromMarch (z : Int) : ∃ y mp doy, FromMarch z y mp doy ∧
    civilFromDays z = (if mp < 10 then y else y + 1,if mp < 10 then mp + 3 else mp - 9,doy - monthStart mp + 1) := by
  have cycle : ∀ era yoe : Int, era * 146097 + yearStart yoe = yearStart (yoe + era * 400) := by
    intro era yoe
    unfold yearStart
    omega
  obtain ⟨low,high,start,finish⟩ := yearOfCycle (Int.emod_nonneg (z + 719468) (by norm_num))
    (Int.emod_lt_of_pos (z + 719468) (show (0 : Int) < 146097 by norm_num))
  have parts := Int.mul_ediv_add_emod (z + 719468) 146097
  have civil := civilEq z
  generalize (z + 719468) % 146097 = doe at *
  generalize (z + 719468) / 146097 = era at *
  generalize yearOf doe = yoe at *
  have own : 365 * yoe + yoe / 4 - yoe / 100 = yearStart yoe := by
    unfold yearStart
    omega
  have length : yearStart (yoe + 1) - yearStart yoe ≤ 366 := by
    rw [yearNext]
    split_ifs <;> omega
  have here := cycle era yoe
  have next := cycle era (yoe + 1)
  rw [own] at civil
  generalize is : doe - yearStart yoe = doy at civil
  have month : 0 ≤ (5 * doy + 2) / 153 ∧ (5 * doy + 2) / 153 ≤ 11 := by omega
  refine ⟨yoe + era * 400,(5 * doy + 2) / 153,doy,⟨by omega,?_,month,?_,?_⟩,?_⟩
  · rw [show yoe + era * 400 + 1 = yoe + 1 + era * 400 by ring]
    omega
  · unfold monthStart
    omega
  · unfold monthStart
    omega
  · rw [civil, civilOf]
    simp only [Prod.mk.injEq, and_true]
    split_ifs <;> first | trivial | omega

theorem civilSpec (z : Int) : 1 ≤ (civilFromDays z).2.1 ∧ (civilFromDays z).2.1 ≤ 12 ∧
    firstDay (monthAt z) + ((civilFromDays z).2.2 - 1) = z ∧ z < firstDay (monthAt z + 1) ∧ 1 ≤ (civilFromDays z).2.2 := by
  obtain ⟨y,mp,doy,⟨day,inYear,month,start,finish⟩,civil⟩ := civilFromMarch z
  have number : monthAt z = 12 * y + mp + 2 := by
    unfold monthAt monthOf
    rw [civil]
    dsimp only
    split_ifs <;> omega
  have first : firstDay (monthAt z) = yearStart y + monthStart mp - 719468 := by
    unfold firstDay
    rw [number, show (12 * y + mp + 2 - 2) / 12 = y by omega, show (12 * y + mp + 2 - 2) % 12 = mp by omega]
  have beyond : z < firstDay (monthAt z + 1) := by
    unfold firstDay
    rw [number]
    rcases Int.lt_or_le mp 11 with before | last
    · rw [show (12 * y + mp + 2 + 1 - 2) / 12 = y by omega, show (12 * y + mp + 2 + 1 - 2) % 12 = mp + 1 by omega]
      omega
    · rw [show (12 * y + mp + 2 + 1 - 2) / 12 = y + 1 by omega, show (12 * y + mp + 2 + 1 - 2) % 12 = 0 by omega]
      have zero : monthStart 0 = 0 := by decide
      omega
  rw [first, civil]
  refine ⟨?_,?_,by dsimp only; omega,beyond,by dsimp only; omega⟩
  · dsimp only
    split_ifs <;> omega
  · dsimp only
    split_ifs <;> omega

/- The first days of the months and the month of a day. -/
theorem monthGrid : GaloisConnection firstDay monthAt := by
  intro month z
  obtain ⟨_,_,day,beyond,inside⟩ := civilSpec z
  constructor
  · intro low
    exact Int.lt_add_one_iff.mp (firstDayMono.lt_iff_lt.mp (lt_of_le_of_lt low beyond))
  · intro low
    have := firstDayMono.monotone low
    omega

theorem civilValid (z : Int) : Valid (civilFromDays z) := by
  obtain ⟨low,high,day,beyond,inside⟩ := civilSpec z
  have number : monthAt z / 12 = (civilFromDays z).1 ∧ monthAt z % 12 + 1 = (civilFromDays z).2.1 := by
    unfold monthAt monthOf
    omega
  rw [firstDayNext, number.1, number.2] at beyond
  exact ⟨low,high,inside,by omega⟩

/- The two conversions are inverse to each other. -/
theorem daysOfCivil (z : Int) : daysFromCivilWide (civilFromDays z).1 (civilFromDays z).2.1 (civilFromDays z).2.2 = z := by
  obtain ⟨low,high,day,_,_⟩ := civilSpec z
  rw [daysFromMonth _ low high]
  exact day

theorem civilOfDays {y m d : Int} (valid : Valid (y,m,d)) : civilFromDays (daysFromCivilWide y m d) = (y,m,d) := by
  obtain ⟨low,high,first,last⟩ : 1 ≤ m ∧ m ≤ 12 ∧ 1 ≤ d ∧ d ≤ daysInMonth y m := valid
  have number : monthOf y m / 12 = y ∧ monthOf y m % 12 + 1 = m := by
    unfold monthOf
    omega
  have next := firstDayNext (monthOf y m)
  rw [number.1, number.2] at next
  rw [daysFromMonth d low high]
  generalize is : firstDay (monthOf y m) + (d - 1) = z
  have within : monthAt z = monthOf y m := by
    refine le_antisymm ?_ ((monthGrid _ _).mp (by omega))
    refine Int.lt_add_one_iff.mp (lt_of_not_ge fun above => ?_)
    have := (monthGrid _ _).mpr above
    omega
  obtain ⟨low',high',day,_,_⟩ := civilSpec z
  rw [within] at day
  have same : monthOf (civilFromDays z).1 (civilFromDays z).2.1 = monthOf y m := within
  unfold monthOf at same
  refine Prod.ext ?_ (Prod.ext ?_ ?_)
  · show (civilFromDays z).1 = y
    omega
  · show (civilFromDays z).2.1 = m
    omega
  · show (civilFromDays z).2.2 = d
    omega

/- Dates in the order of the calendar. -/
def Earlier (a b : Int × Int × Int) : Prop :=
  monthOf a.1 a.2.1 < monthOf b.1 b.2.1 ∨ monthOf a.1 a.2.1 = monthOf b.1 b.2.1 ∧ a.2.2 < b.2.2

theorem civilMono (a b : Int) : a < b ↔ Earlier (civilFromDays a) (civilFromDays b) := by
  have first : ∀ z, monthOf (civilFromDays z).1 (civilFromDays z).2.1 = monthAt z := fun z => rfl
  obtain ⟨_,_,day,beyond,inside⟩ := civilSpec a
  obtain ⟨_,_,day',beyond',inside'⟩ := civilSpec b
  unfold Earlier
  rw [first, first]
  constructor
  · intro less
    rcases lt_or_eq_of_le (monthGrid.monotone_u (le_of_lt less)) with before | same
    · exact .inl before
    · refine .inr ⟨same,?_⟩
      rw [same] at day
      omega
  · rintro (before | ⟨same,less⟩)
    · have := firstDayMono.monotone (Int.add_one_le_iff.mpr before)
      omega
    · rw [same] at day
      omega

end Kimmy.Calendar
