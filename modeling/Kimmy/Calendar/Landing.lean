import Kimmy.Calendar.Truncated

/-!
The ISO week of a date, the date that so many months on is, and with the truncation what the calendar keeps.
-/
namespace Kimmy.Calendar
open Window (DateUnit dayMs daysFromCivilWide civilFromDays daysInMonth)
open Bins (Between)

/-! The ISO week. -/

theorem yearLength (y : Int) : firstDay (monthOf (y + 1) 1) ≤ firstDay (monthOf y 1) + 366 := by
  have next := yearNext (y - 1)
  have place : ∀ y : Int, (monthOf y 1 - 2) / 12 = y - 1 ∧ (monthOf y 1 - 2) % 12 = 10 := by
    intro y
    unfold monthOf
    omega
  unfold firstDay
  rw [(place y).1, (place y).2, (place (y + 1)).1, (place (y + 1)).2, show y + 1 - 1 = y - 1 + 1 by ring, next]
  split_ifs <;> omega

/- How far into its year a day is. -/
theorem intoYear (z : Int) : daysFromCivilWide (civilFromDays z).1 1 1 ≤ z ∧ z < daysFromCivilWide (civilFromDays z).1 1 1 + 366 := by
  obtain ⟨low,high,_,_,_⟩ := civilSpec z
  have first := monthFirst (civilFromDays z).1 1 (by omega) (by omega) rfl
  have number : monthAt z = monthOf (civilFromDays z).1 (civilFromDays z).2.1 := rfl
  have length := yearLength (civilFromDays z).1
  rw [first]
  constructor
  · exact (monthGrid _ _).mpr (by rw [number]; unfold monthOf; omega)
  · refine lt_of_lt_of_le ?_ length
    by_contra beyond
    have month := (monthGrid _ _).mp (not_lt.mp beyond)
    rw [number] at month
    unfold monthOf at month
    omega

/- The days a date can be on. -/
theorem dateDays (date : Date) : -106751991168 ≤ date.ms / dayMs ∧ date.ms / dayMs ≤ 106751991167 := by
  have fits := date.fits
  have length : dayMs = 86400000 := by decide
  rw [length]
  omega

theorem saturateFits {n : Int} (low : -2 ^ 63 ≤ n) (high : n < 2 ^ 63) : (Date.saturate n).ms = n := by
  unfold Date.saturate
  simp only
  omega

/- The Thursday of the week. -/
def thursday (days : Int) : Int := days - (isoDow days - 1) + 3

theorem isoWeek (zone : Zone) (date : Date) :
    (Parts.of zone date).iso.1 = (civilFromDays (thursday (Parts.of zone date).days)).1 ∧
      (Parts.of zone date).iso.2 = (thursday (Parts.of zone date).days -
        daysFromCivilWide (civilFromDays (thursday (Parts.of zone date).days)).1 1 1) / 7 + 1 := by
  refine ⟨rfl,?_⟩
  obtain ⟨low,high⟩ := intoYear (thursday (Parts.of zone date).days)
  have days := dateDays (wallClock zone date)
  rw [← (wallClockParts zone date).2.1] at days
  have near : thursday (Parts.of zone date).days - (Parts.of zone date).days ≤ 3 ∧
      -3 ≤ thursday (Parts.of zone date).days - (Parts.of zone date).days := by
    unfold thursday isoDow
    omega
  show (thursday (Parts.of zone date).days - daysFromCivil (civilFromDays (thursday (Parts.of zone date).days)).1 1 1).tdiv 7 + 1 = _
  unfold daysFromCivil
  rw [saturateFits (by omega) (by omega), Int.tdiv_eq_ediv_of_nonneg (by omega)]

theorem isoRange (zone : Zone) (date : Date) : 1 ≤ (Parts.of zone date).iso.2 ∧ (Parts.of zone date).iso.2 ≤ 53 := by
  obtain ⟨low,high⟩ := intoYear (thursday (Parts.of zone date).days)
  rw [(isoWeek zone date).2]
  omega

theorem isoDetermines {zone zone' : Zone} {date date' : Date} (week : (Parts.of zone date).iso = (Parts.of zone' date').iso)
    (weekday : isoDow (Parts.of zone date).days = isoDow (Parts.of zone' date').days) :
    (Parts.of zone date).days = (Parts.of zone' date').days := by
  have year : (civilFromDays (thursday (Parts.of zone date).days)).1 = (civilFromDays (thursday (Parts.of zone' date').days)).1 :=
    congrArg (fun iso => iso.1) week
  have number := congrArg Prod.snd week
  rw [(isoWeek zone date).2, (isoWeek zone' date').2, year] at number
  -- Two Thursdays in one week of one year are less than a week apart.
  have same : thursday (Parts.of zone date).days = thursday (Parts.of zone' date').days := by
    unfold thursday isoDow at number ⊢
    omega
  unfold thursday at same
  omega

/-! Adding months. -/

/- The months in a unit. -/
def monthsIn : DateUnit → Option Int
  | .year => some 12
  | .quarter => some 3
  | .month => some 1
  | _ => none

/- The month so many units on from the month a wall clock is in. -/
def monthOn (zone : Zone) (start : Date) (amount per : Int) : Int := monthAt ((wallClock zone start).ms / dayMs) + amount * per

/- The day of that month. -/
def dayOn (zone : Zone) (start : Date) (amount per : Int) : Int :=
  min (civilFromDays ((wallClock zone start).ms / dayMs)).2.2
    (daysInMonth (monthOn zone start amount per / 12) (monthOn zone start amount per % 12 + 1))

/- The start of the wall clock's day there. -/
def landing (zone : Zone) (start : Date) (amount per : Int) : Int :=
  daysFromCivilWide (monthOn zone start amount per / 12) (monthOn zone start amount per % 12 + 1) (dayOn zone start amount per)

theorem addedMonths {unit : DateUnit} {per : Int} (months : monthsIn unit = some per) (start : Date) (amount : Int) (zone : Zone)
    (op : String) : addUnits start unit amount zone op =
      if 292000000 < (monthOn zone start amount per / 12).natAbs then .error (overflow op) else
      (Date.orError (overflow op)
        (Date.tryFrom (landing zone start amount per * dayMs + (wallClock zone start).ms % dayMs))).map zone.localToUtc := by
  obtain ⟨clock,_,civil⟩ := wallClockParts zone start
  have number : monthOn zone start amount per =
      (Parts.of zone start).year * 12 + ((Parts.of zone start).month - 1) + amount * per := by
    unfold monthOn
    rw [(partsMonth zone start).1]
    ring
  have day : (civilFromDays ((wallClock zone start).ms / dayMs)).2.2 = (Parts.of zone start).day :=
    congrArg (fun c => c.2.2) civil.symm
  unfold landing dayOn
  rw [number, day, ← clock]
  cases unit with
  | year | quarter | month =>
    cases months
    unfold addUnits
    simp only [DateUnit.fixedMs, Zone.localToUtcKeeping]
    split_ifs with far
    · cases found : Date.tryFrom (_ / 12) with
      | none => rfl
      | some year =>
        show (if 292000000 < year.ms.natAbs then _ else _) = _
        rw [if_pos (by rw [tryFromSome.mp found]; exact far)]
        rfl
    · rw [tryFromSome.mpr (show (⟨_,by omega⟩ : Date).ms = _ from rfl)]
      show (if 292000000 < _ then _ else _) = _
      rw [if_neg far]
      show (do
        let clock ← Date.orError (overflow op) (Date.tryFrom _)
        Except.ok (zone.localToUtc clock)) = _
      cases Date.tryFrom (_ * dayMs + _) <;> rfl
  | week | day | hour | minute | second | millisecond => cases months

section
variable {unit : DateUnit} {per : Int} {start : Date} {amount : Int} {zone : Zone} {op : String}

theorem dayOnValid (zone : Zone) (start : Date) (amount per : Int) :
    Valid (monthOn zone start amount per / 12,monthOn zone start amount per % 12 + 1,dayOn zone start amount per) := by
  have positive := monthPositive (monthOn zone start amount per / 12) (monthOn zone start amount per % 12 + 1)
  have day := (civilValid ((wallClock zone start).ms / dayMs)).2.2.1
  refine ⟨?_,?_,le_min day (by omega),min_le_right _ _⟩ <;> simp only <;> omega

theorem todRange (clock : Int) : 0 ≤ clock % dayMs ∧ clock % dayMs < dayMs :=
  ⟨Int.emod_nonneg _ (by decide),Int.emod_lt_of_pos _ (by decide)⟩

theorem monthsLand (months : monthsIn unit = some per) {r : Date} (done : addUnits start unit amount zone op = .ok r) :
    ∃ clock : Date, r = zone.localToUtc clock ∧ clock.ms % dayMs = (wallClock zone start).ms % dayMs ∧
      civilFromDays (clock.ms / dayMs) =
        (monthOn zone start amount per / 12,monthOn zone start amount per % 12 + 1,dayOn zone start amount per) := by
  rw [addedMonths months] at done
  split_ifs at done
  cases found : Date.tryFrom (landing zone start amount per * dayMs + (wallClock zone start).ms % dayMs) with
  | none =>
    rw [found] at done
    cases done
  | some clock =>
    rw [found] at done
    cases done
    have is := tryFromSome.mp found
    obtain ⟨low,high⟩ := todRange (wallClock zone start).ms
    refine ⟨clock,rfl,?_,?_⟩
    · rw [is, Int.mul_add_emod_self_right, Int.emod_emod_of_dvd _ dvd_rfl]
    · rw [is, Int.add_comm, Int.add_mul_ediv_right _ _ (by decide), Int.ediv_eq_zero_of_lt low high, zero_add]
      exact civilOfDays (dayOnValid zone start amount per)

/- Near enough to year zero there is always an answer. -/
theorem monthsAnswer (months : monthsIn unit = some per) (near : (monthOn zone start amount per / 12).natAbs ≤ 292000000) :
    ∃ r, addUnits start unit amount zone op = .ok r := by
  have valid := dayOnValid zone start amount per
  obtain ⟨low,high⟩ := todRange (wallClock zone start).ms
  have length : dayMs = 86400000 := by decide
  have days : -106751991167 ≤ landing zone start amount per ∧ landing zone start amount per ≤ 106751991166 := by
    have dayLow := valid.2.2.1
    have dayHigh := valid.2.2.2
    have most := (monthPositive (monthOn zone start amount per / 12) (monthOn zone start amount per % 12 + 1)).2
    simp only at dayLow dayHigh
    unfold landing
    rw [daysFromMonth _ valid.1 valid.2.1]
    unfold firstDay monthOf yearStart monthStart
    simp only
    omega
  have fits : -2 ^ 63 ≤ landing zone start amount per * dayMs + (wallClock zone start).ms % dayMs ∧
      landing zone start amount per * dayMs + (wallClock zone start).ms % dayMs < 2 ^ 63 := by
    rw [length] at high low ⊢
    omega
  rw [addedMonths months, if_neg (by omega), tryFromSome.mpr (show (⟨_,fits⟩ : Date).ms = _ from rfl)]
  exact ⟨_,rfl⟩

end

/-! What the calendar keeps. -/

/- Truncating goes back to the start of the bin. -/
structure Floors (unit : DateUnit) (bin : ℕ+) (weekStart : Fin 7) (zone : Zone) : Prop where
  again : ∀ date r, truncUnits date unit bin zone weekStart = .ok r → truncUnits r unit bin zone weekStart = .ok r
  before : ∀ date r, truncUnits date unit bin zone weekStart = .ok r → r.ms ≤ date.ms
  monotone : ∀ date date' r r', truncUnits date unit bin zone weekStart = .ok r →
    truncUnits date' unit bin zone weekStart = .ok r' → date.ms ≤ date'.ms → r.ms ≤ r'.ms
  alike : ∀ date date' r r', truncUnits date unit bin zone weekStart = .ok r →
    truncUnits date' unit bin zone weekStart = .ok r' →
      (r = r' ↔ ¬Between (binStart unit bin weekStart) (reading unit zone date) (reading unit zone date'))

theorem floors (unit : DateUnit) (bin : ℕ+) (weekStart : Fin 7) (zone : Zone) : Floors unit bin weekStart zone where
  again := fun _ _ => truncatedAgain
  before := fun _ _ => truncatedBefore
  monotone := fun _ _ _ _ => truncatedMono
  alike := fun _ _ _ _ => truncatedAlike

/- The day of a date. -/
def Date.day (date : Date) : Int := date.ms / dayMs

theorem civilDay (date : Date) :
    daysFromCivil (civilFromDays date.day).1 (civilFromDays date.day).2.1 (civilFromDays date.day).2.2 = date.day := by
  have days := dateDays date
  unfold daysFromCivil
  rw [daysOfCivil]
  exact saturateFits (by unfold Date.day; omega) (by unfold Date.day; omega)

theorem dayCivil {y m d : Int} {date : Date} (valid : Valid (y,m,d)) (is : daysFromCivil y m d = date.day) :
    civilFromDays date.day = (y,m,d) := by
  have days := dateDays date
  have wide : daysFromCivilWide y m d = date.day := by
    unfold daysFromCivil Date.saturate at is
    unfold Date.day at is ⊢
    simp only at is
    omega
  rw [← wide]
  exact civilOfDays valid

/- A moment read in a zone: the wall clock a number of months on from that of a date. -/
structure Lands (zone : Zone) (start : Date) (n : Int) (r : Date) : Prop where
  clock : ∃ clock : Date, r = zone.localToUtc clock ∧ clock.ms % dayMs = (wallClock zone start).ms % dayMs ∧
    monthAt clock.day = monthAt (wallClock zone start).day + n ∧
    (civilFromDays clock.day).2.2 = min (civilFromDays (wallClock zone start).day).2.2
      (daysInMonth (civilFromDays clock.day).1 (civilFromDays clock.day).2.1)

theorem lands {unit : DateUnit} {per : Int} (months : monthsIn unit = some per) {start r : Date} {amount : Int} {zone : Zone}
    {op : String} (done : addUnits start unit amount zone op = .ok r) : Lands zone start (amount * per) r := by
  obtain ⟨clock,is,tod,civil⟩ := monthsLand months done
  refine ⟨clock,is,tod,?_,?_⟩
  · unfold monthAt monthOf Date.day
    rw [civil]
    show 12 * (monthOn zone start amount per / 12) + (monthOn zone start amount per % 12 + 1 - 1) = monthOn zone start amount per
    omega
  · unfold Date.day
    rw [civil]
    rfl

theorem calendarKeeps :
    (∀ date : Date, Valid (civilFromDays date.day) ∧
      daysFromCivil (civilFromDays date.day).1 (civilFromDays date.day).2.1 (civilFromDays date.day).2.2 = date.day) ∧
    (∀ (y m d : Int) (date : Date), Valid (y,m,d) → daysFromCivil y m d = date.day → civilFromDays date.day = (y,m,d)) ∧
    (∀ date date' : Date, date.day < date'.day ↔ Earlier (civilFromDays date.day) (civilFromDays date'.day)) ∧
    (∀ unit bin weekStart zone, Floors unit bin weekStart zone) ∧
    (∀ zone date, 1 ≤ (Parts.of zone date).iso.2 ∧ (Parts.of zone date).iso.2 ≤ 53) ∧
    (∀ zone zone' date date', (Parts.of zone date).iso = (Parts.of zone' date').iso →
      isoDow (Parts.of zone date).days = isoDow (Parts.of zone' date').days →
      (Parts.of zone date).days = (Parts.of zone' date').days) ∧
    (∀ unit per, monthsIn unit = some per → ∀ start amount zone op,
      ((monthOn zone start amount per / 12).natAbs ≤ 292000000 → ∃ r, addUnits start unit amount zone op = .ok r) ∧
      ∀ r, addUnits start unit amount zone op = .ok r → Lands zone start (amount * per) r) := by
  refine ⟨fun date => ⟨civilValid _,civilDay date⟩,fun y m d date => dayCivil,fun date date' => civilMono _ _,floors,isoRange,
    fun _ _ _ _ => isoDetermines,fun unit per months start amount zone op => ⟨monthsAnswer months,fun r => lands months⟩⟩

/- At the last date the clock of a zone to the east has stopped, and months back it shows another time of day. -/
theorem stoppedClock : ∃ r, addUnits ⟨2 ^ 63 - 1,by decide⟩ .month (-4000000) (.fixed 3600) "$dateAdd" = .ok r ∧
    (r.ms + 3600 * 1000) % dayMs ≠ (2 ^ 63 - 1 + 3600 * 1000) % dayMs :=
  ⟨⟨9212853052851175807,by decide⟩,by rfl,by decide⟩

end Kimmy.Calendar
