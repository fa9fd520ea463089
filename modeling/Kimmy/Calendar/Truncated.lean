import Kimmy.Calendar.Units
import Kimmy.Traverse

/-!
Truncating a date. The starts of a unit, counted from the start of 2000, are a grid on the wall clock; bins of several
units are a coarser one, and a date goes back to the start of its bin.
-/
namespace Kimmy.Calendar
open Window (DateUnit dayMs daysFromCivilWide civilFromDays daysInMonth)
open Bins (Between)

/-! Offsets. -/

/- The offset of a zone in milliseconds. -/
def Zone.shift : Zone → Int
  | .utc => 0
  | .fixed seconds => seconds.toInt * 1000

theorem shiftBound (zone : Zone) : -2 ^ 31 * 1000 ≤ zone.shift ∧ zone.shift < 2 ^ 31 * 1000 := by
  cases zone with
  | utc => decide
  | fixed seconds =>
    have low := Int32.le_toInt seconds
    have high := Int32.toInt_lt seconds
    show _ ≤ seconds.toInt * 1000 ∧ seconds.toInt * 1000 < _
    constructor <;> omega

theorem offsetShift (zone : Zone) (utc : Date) : zone.offsetAt utc * 1000 = zone.shift := by
  cases zone <;> rfl

theorem saturateSelf (date : Date) : Date.saturate date.ms = date := by
  obtain ⟨ms,fits⟩ := date
  unfold Date.saturate
  congr 1
  simp only
  omega

theorem instantEq (zone : Zone) (clock : Date) : zone.localToUtc clock = .saturate (clock.ms - zone.shift) := by
  cases zone with
  | utc =>
    show clock = .saturate (clock.ms - 0)
    rw [sub_zero, saturateSelf]
  | fixed seconds => rfl

/- The wall clock of a date, as the calendar units read it. -/
def wallClock (zone : Zone) (date : Date) : Date := .saturate (date.ms + zone.shift)

theorem wallClockParts (zone : Zone) (date : Date) :
    Date.saturate (date.ms + (Parts.of zone date).offset * 1000) = wallClock zone date ∧
      (Parts.of zone date).days = (wallClock zone date).ms / dayMs ∧
      ((Parts.of zone date).year,(Parts.of zone date).month,(Parts.of zone date).day) =
        civilFromDays ((wallClock zone date).ms / dayMs) := by
  have same : Date.saturate (date.ms + zone.offsetAt date * 1000) = wallClock zone date := by
    rw [offsetShift]
    rfl
  refine ⟨same,?_,?_⟩
  · show (Date.saturate (date.ms + zone.offsetAt date * 1000)).ms / dayMs = _
    rw [same]
  · show civilFromDays ((Date.saturate (date.ms + zone.offsetAt date * 1000)).ms / dayMs) = _
    rw [same]

theorem wallClockMono {zone : Zone} {date date' : Date} (low : date.ms ≤ date'.ms) :
    (wallClock zone date).ms ≤ (wallClock zone date').ms := by
  unfold wallClock Date.saturate
  simp only
  omega

/-! The starts of the units. -/

/- The first such day of the week on or after the start of 2000. -/
def weekOrigin (weekStart : Fin 7) : Int := daysTo2000 + (weekStart.val - dowSunday0 daysTo2000) % 7

/- Where the units start on the wall clock, counted from the reference date. -/
def unitStart (unit : DateUnit) (weekStart : Fin 7) (k : Int) : Int :=
  match unit with
  | .year => daysFromCivilWide (2000 + k) 1 1 * dayMs
  | .quarter => daysFromCivilWide (2000 + k / 4) (k % 4 * 3 + 1) 1 * dayMs
  | .month => daysFromCivilWide (2000 + k / 12) (k % 12 + 1) 1 * dayMs
  | .week => (weekOrigin weekStart + k * 7) * dayMs
  | .day => (daysTo2000 + k) * dayMs
  | .hour => daysTo2000 * dayMs + k * 3600000
  | .minute => daysTo2000 * dayMs + k * 60000
  | .second => daysTo2000 * dayMs + k * 1000
  | .millisecond => daysTo2000 * dayMs + k

/- The unit a wall clock is in. -/
def unitAt (unit : DateUnit) (weekStart : Fin 7) (clock : Int) : Int :=
  match unit with
  | .year => (monthAt (clock / dayMs) - 24000) / 12
  | .quarter => (monthAt (clock / dayMs) - 24000) / 3
  | .month => monthAt (clock / dayMs) - 24000
  | .week => (clock / dayMs - weekOrigin weekStart) / 7
  | .day => clock / dayMs - daysTo2000
  | .hour => (clock - daysTo2000 * dayMs) / 3600000
  | .minute => (clock - daysTo2000 * dayMs) / 60000
  | .second => (clock - daysTo2000 * dayMs) / 1000
  | .millisecond => clock - daysTo2000 * dayMs

theorem dayGrid : GaloisConnection (fun day => day * dayMs) fun clock => clock / dayMs := by
  intro day clock
  exact (Int.le_ediv_iff_mul_le (by decide)).symm

theorem instantGrid : GaloisConnection (fun k : Int => k) fun clock : Int => clock := fun _ _ => Iff.rfl

theorem monthFirst {n : Int} (y m : Int) (low : 1 ≤ m) (high : m ≤ 12) (is : monthOf y m = n) :
    daysFromCivilWide y m 1 = firstDay n := by
  rw [daysFromMonth 1 low high, is]
  omega

theorem unitGrid (unit : DateUnit) (weekStart : Fin 7) : GaloisConnection (unitStart unit weekStart) (unitAt unit weekStart) := by
  have months := monthGrid.compose dayGrid
  have same : ∀ {start start' place place' : Int → Int}, GaloisConnection start place → (∀ k, start' k = start k) →
      (∀ clock, place' clock = place clock) → GaloisConnection start' place' := by
    intro start start' place place' grid starts places k clock
    rw [starts, places]
    exact grid k clock
  cases unit with
  | year =>
    refine same (Bins.binned months 24000 (show (0 : Int) < 12 by decide)) (fun k => ?_) fun clock => rfl
    exact congrArg (· * dayMs) (monthFirst _ 1 (by omega) (by omega) (by unfold monthOf; omega))
  | quarter =>
    refine same (Bins.binned months 24000 (show (0 : Int) < 3 by decide)) (fun k => ?_) fun clock => rfl
    exact congrArg (· * dayMs) (monthFirst _ _ (by omega) (by omega) (by unfold monthOf; omega))
  | month =>
    refine same (Bins.binned months 24000 (show (0 : Int) < 1 by decide)) (fun k => ?_) fun clock => ?_
    · exact congrArg (· * dayMs) (monthFirst _ _ (by omega) (by omega) (by unfold monthOf; omega))
    · exact (Int.ediv_one _).symm
  | week => exact same (Bins.binned dayGrid _ (show (0 : Int) < 7 by decide)) (fun k => rfl) fun clock => rfl
  | day =>
    refine same (Bins.binned dayGrid daysTo2000 (show (0 : Int) < 1 by decide)) (fun k => ?_) fun clock => ?_
    · show (daysTo2000 + k) * dayMs = (daysTo2000 + k * 1) * dayMs
      rw [mul_one]
    · exact (Int.ediv_one _).symm
  | hour => exact same (Bins.binned instantGrid _ (show (0 : Int) < 3600000 by decide)) (fun k => rfl) fun clock => rfl
  | minute => exact same (Bins.binned instantGrid _ (show (0 : Int) < 60000 by decide)) (fun k => rfl) fun clock => rfl
  | second => exact same (Bins.binned instantGrid _ (show (0 : Int) < 1000 by decide)) (fun k => rfl) fun clock => rfl
  | millisecond =>
    refine same (Bins.binned instantGrid (daysTo2000 * dayMs) (show (0 : Int) < 1 by decide)) (fun k => ?_) fun clock => ?_
    · show daysTo2000 * dayMs + k = daysTo2000 * dayMs + k * 1
      rw [mul_one]
    · exact (Int.ediv_one _).symm

/-! Bins. -/

section
variable (unit : DateUnit) (bin : ℕ+) (weekStart : Fin 7)

def binStart (k : Int) : Int := unitStart unit weekStart (k * (bin : Nat))

def binAt (clock : Int) : Int := unitAt unit weekStart clock / (bin : Nat)

theorem binGrid : GaloisConnection (binStart unit bin weekStart) (binAt unit bin weekStart) := by
  have positive : (0 : Int) < (bin : Nat) := by exact_mod_cast bin.pos
  have coarse := Bins.binned (unitGrid unit weekStart) 0 positive
  intro k clock
  have both := coarse k clock
  simp only [zero_add, sub_zero] at both
  exact both

/-! What truncating does. -/

/- What a unit reads of a date: a bin of a fixed length reads the date itself, moved by the offset. -/
def reading (zone : Zone) (date : Date) : Int :=
  match unit.fixedMs with
  | some _ => date.ms + zone.shift
  | none => (wallClock zone date).ms

end

theorem tryFromSome {n : Int} {date : Date} : Date.tryFrom n = some date ↔ date.ms = n := by
  unfold Date.tryFrom
  constructor
  · intro found
    split_ifs at found
    cases found
    rfl
  · rintro rfl
    rw [dif_pos date.fits]

theorem orErrorOk {text : String} {n : Int} {date : Date} (found : Date.orError text (Date.tryFrom n) = .ok date) : date.ms = n := by
  cases is : Date.tryFrom n with
  | none =>
    rw [is] at found
    cases found
  | some own =>
    rw [is] at found
    cases found
    exact tryFromSome.mp is

theorem fixedBins {unit : DateUnit} {len : Int} (fixed : unit.fixedMs = some len) (weekStart : Fin 7) :
    0 < len ∧ (∀ k, unitStart unit weekStart k = daysTo2000 * dayMs + k * len) ∧
      ∀ clock, unitAt unit weekStart clock = (clock - daysTo2000 * dayMs) / len := by
  cases unit with
  | hour | minute | second =>
    cases fixed
    exact ⟨by decide,fun _ => rfl,fun _ => rfl⟩
  | millisecond =>
    cases fixed
    exact ⟨by decide,fun k => by rw [mul_one]; rfl,fun clock => (Int.ediv_one _).symm⟩
  | year | quarter | month | week | day => cases fixed

theorem originInstant (zone : Zone) : (zone.localToUtc ⟨daysTo2000 * dayMs,by decide⟩).ms = daysTo2000 * dayMs - zone.shift := by
  have bound := shiftBound zone
  rw [instantEq]
  show max _ (min (daysTo2000 * dayMs - zone.shift) _) = _
  have start : daysTo2000 * dayMs = 946684800000 := by decide
  rw [start]
  omega

/- Bins of a fixed length. The answer depends on the bin alone. -/
theorem fixedCut {unit : DateUnit} {len : Int} (fixed : unit.fixedMs = some len) (bin : ℕ+) (weekStart : Fin 7) (zone : Zone)
    (date : Date) : truncUnits date unit bin zone weekStart =
      if 2 ^ 63 - 1 < len * (bin : Nat) then .error "dateTrunc overflowed" else
      Date.orError "dateTrunc overflowed"
        (Date.tryFrom (binStart unit bin weekStart (binAt unit bin weekStart (reading unit zone date)) - zone.shift)) := by
  obtain ⟨positive,starts,places⟩ := fixedBins fixed weekStart
  have size : (0 : Int) < len * (bin : Nat) := Int.mul_pos positive (by exact_mod_cast bin.pos)
  have start : date.ms - (date.ms - (daysTo2000 * dayMs - zone.shift)) % (len * (bin : Nat)) =
      binStart unit bin weekStart (binAt unit bin weekStart (reading unit zone date)) - zone.shift := by
    have whole := Int.mul_ediv_add_emod (date.ms - (daysTo2000 * dayMs - zone.shift)) (len * (bin : Nat))
    unfold binStart binAt reading
    rw [starts, places, fixed]
    simp only
    rw [show date.ms + zone.shift - daysTo2000 * dayMs = date.ms - (daysTo2000 * dayMs - zone.shift) by ring,
      Int.ediv_ediv_of_nonneg (le_of_lt positive)]
    linarith
  simp only [truncUnits, fixed, truncBins, originInstant]
  split_ifs with large
  · rfl
  · rw [start]

/- Whether the year a bin starts in is a 64-bit number. -/
def yearFits (unit : DateUnit) (bin : ℕ+) (k : Int) : Bool :=
  match unit with
  | .year => (Date.tryFrom (2000 + k * (bin : Nat))).isSome
  | .quarter => (Date.tryFrom (2000 + k * (bin : Nat) / 4)).isSome
  | .month => (Date.tryFrom (2000 + k * (bin : Nat) / 12)).isSome
  | _ => true

/- What is made of the start of a bin. -/
def instantOf (zone : Zone) (start : Int) : Except String Date :=
  (Date.orError "dateTrunc overflowed" (Date.tryFrom start)).map zone.localToUtc

/- The units that are made from a year refuse one that does not fit. -/
theorem yearThen {zone : Zone} {n start : Int} {rest : Int → Except String Int} (is : rest n = .ok start) :
    (do
      let y ← (Date.orError "dateTrunc unsupported binSize value" (Date.tryFrom n)).map Date.ms
      let days ← rest y
      let clock ← Date.orError "dateTrunc overflowed" (Date.tryFrom (days * dayMs))
      Except.ok (zone.localToUtc clock)) =
        if (Date.tryFrom n).isSome then instantOf zone (start * dayMs) else .error "dateTrunc unsupported binSize value" := by
  cases found : Date.tryFrom n with
  | none => rfl
  | some year =>
    have own := tryFromSome.mp found
    show (do
      let days ← rest year.ms
      let clock ← Date.orError "dateTrunc overflowed" (Date.tryFrom (days * dayMs))
      Except.ok (zone.localToUtc clock)) = instantOf zone (start * dayMs)
    rw [own, is]
    unfold instantOf
    show (do
      let clock ← Date.orError "dateTrunc overflowed" (Date.tryFrom (start * dayMs))
      Except.ok (zone.localToUtc clock)) = _
    cases Date.tryFrom (start * dayMs) <;> rfl

theorem partsMonth (zone : Zone) (date : Date) : monthAt ((wallClock zone date).ms / dayMs) =
    12 * (Parts.of zone date).year + ((Parts.of zone date).month - 1) ∧
      1 ≤ (Parts.of zone date).month ∧ (Parts.of zone date).month ≤ 12 := by
  obtain ⟨_,_,civil⟩ := wallClockParts zone date
  have spec := civilSpec ((wallClock zone date).ms / dayMs)
  unfold monthAt monthOf
  rw [← civil] at spec ⊢
  exact ⟨rfl,spec.1,spec.2.1⟩

/- Bins of days and of longer units. The answer depends on the bin alone here too. -/
theorem calendarCut {unit : DateUnit} (calendar : unit.fixedMs = none) (bin : ℕ+) (weekStart : Fin 7) (zone : Zone)
    (date : Date) : truncUnits date unit bin zone weekStart =
      if mostBins unit < (bin : Nat) then .error "dateTrunc unsupported binSize value" else
      if yearFits unit bin (binAt unit bin weekStart (reading unit zone date)) then
        instantOf zone (binStart unit bin weekStart (binAt unit bin weekStart (reading unit zone date)))
      else .error "dateTrunc unsupported binSize value" := by
  obtain ⟨number,low,high⟩ := partsMonth zone date
  have days := (wallClockParts zone date).2.1
  have read : reading unit zone date = (wallClock zone date).ms := by
    unfold reading
    rw [calendar]
  have plain : ∀ start : Int, (do
      let clock ← Date.orError "dateTrunc overflowed" (Date.tryFrom (start * dayMs))
      Except.ok (zone.localToUtc clock)) = instantOf zone (start * dayMs) := by
    intro start
    unfold instantOf
    cases Date.tryFrom (start * dayMs) <;> rfl
  rw [read]
  generalize (wallClock zone date).ms = clock at number days
  have positive : (0 : Int) < (bin : Nat) := by exact_mod_cast bin.pos
  by_cases large : mostBins unit < (bin : Nat)
  · simp only [truncUnits, calendar]
    rw [if_pos large, if_pos large]
  rw [if_neg large]
  cases unit with
  | year =>
    simp only [truncUnits, DateUnit.fixedMs]
    rw [if_neg large]
    have index : binAt .year bin weekStart clock * (bin : Nat) = floorBin (bin : Nat) ((Parts.of zone date).year - 2000) := by
      unfold binAt unitAt floorBin
      dsimp only
      rw [number, show (12 * (Parts.of zone date).year + ((Parts.of zone date).month - 1) - 24000) / 12 =
        (Parts.of zone date).year - 2000 by omega]
    unfold yearFits binStart unitStart
    dsimp only
    rw [index]
    exact @yearThen zone _ _ (fun y => .ok (daysFromCivilWide y 1 1)) rfl
  | quarter =>
    simp only [truncUnits, DateUnit.fixedMs]
    rw [if_neg large]
    have index : binAt .quarter bin weekStart clock * (bin : Nat) =
        floorBin (bin : Nat) (((Parts.of zone date).year - 2000) * 4 + ((Parts.of zone date).month - 1) / 3) := by
      unfold binAt unitAt floorBin
      dsimp only
      rw [number, show (12 * (Parts.of zone date).year + ((Parts.of zone date).month - 1) - 24000) / 3 =
        ((Parts.of zone date).year - 2000) * 4 + ((Parts.of zone date).month - 1) / 3 by omega]
    unfold yearFits binStart unitStart
    dsimp only
    rw [index]
    exact @yearThen zone _ _ (fun y => .ok (daysFromCivilWide y (floorBin (bin : Nat) _ % 4 * 3 + 1) 1)) rfl
  | month =>
    simp only [truncUnits, DateUnit.fixedMs]
    rw [if_neg large]
    have index : binAt .month bin weekStart clock * (bin : Nat) =
        floorBin (bin : Nat) (((Parts.of zone date).year - 2000) * 12 + ((Parts.of zone date).month - 1)) := by
      unfold binAt unitAt floorBin
      dsimp only
      rw [number, show 12 * (Parts.of zone date).year + ((Parts.of zone date).month - 1) - 24000 =
        ((Parts.of zone date).year - 2000) * 12 + ((Parts.of zone date).month - 1) by omega]
    unfold yearFits binStart unitStart
    dsimp only
    rw [index]
    exact @yearThen zone _ _ (fun y => .ok (daysFromCivilWide y (floorBin (bin : Nat) _ % 12 + 1) 1)) rfl
  | week =>
    simp only [truncUnits, DateUnit.fixedMs]
    rw [if_neg large]
    -- The start of the week is a whole number of weeks from the origin.
    have weeks : weekStartDay (Parts.of zone date).days weekStart.val - weekOrigin weekStart =
        7 * ((clock / dayMs - weekOrigin weekStart) / 7) := by
      unfold weekStartDay weekOrigin dowSunday0 daysTo2000
      rw [days]
      have := weekStart.isLt
      omega
    have start : weekOrigin weekStart + (weekStartDay (Parts.of zone date).days weekStart.val - weekOrigin weekStart) /
        (7 * (bin : Nat)) * (7 * (bin : Nat)) = weekOrigin weekStart + binAt .week bin weekStart clock * (bin : Nat) * 7 := by
      unfold binAt unitAt
      dsimp only
      rw [weeks, ← Int.ediv_ediv_of_nonneg (by norm_num), Int.mul_ediv_cancel_left _ (by norm_num)]
      ring
    unfold yearFits binStart unitStart
    dsimp only
    rw [if_pos rfl, ← start]
    exact plain _
  | day =>
    simp only [truncUnits, DateUnit.fixedMs]
    rw [if_neg large]
    unfold yearFits binStart unitStart
    dsimp only
    rw [if_pos rfl, days]
    exact plain _
  | hour | minute | second | millisecond => cases calendar

/-! The four properties. -/

theorem dayMultiple {unit : DateUnit} (calendar : unit.fixedMs = none) (bin : ℕ+) (weekStart : Fin 7) (k : Int) :
    dayMs ∣ binStart unit bin weekStart k := by
  unfold binStart unitStart
  cases unit with
  | year | quarter | month | week | day => exact Int.dvd_mul_left ..
  | hour | minute | second | millisecond => cases calendar

section
variable {unit : DateUnit} {bin : ℕ+} {weekStart : Fin 7} {zone : Zone}

/- An answer is the start of the bin of what is read, moved back and stopped at the least date. -/
theorem truncated {date r : Date} (done : truncUnits date unit bin zone weekStart = .ok r) :
    r.ms = max (-2 ^ 63) (binStart unit bin weekStart (binAt unit bin weekStart (reading unit zone date)) - zone.shift) ∧
      reading unit zone date ≤ date.ms + zone.shift ∧
      (unit.fixedMs = none → binStart unit bin weekStart (binAt unit bin weekStart (reading unit zone date)) < 2 ^ 63) ∧
      (unit.fixedMs ≠ none → reading unit zone date = date.ms + zone.shift ∧
        -2 ^ 63 ≤ binStart unit bin weekStart (binAt unit bin weekStart (reading unit zone date)) - zone.shift) := by
  have low := (binGrid unit bin weekStart).l_u_le (reading unit zone date)
  have bound := shiftBound zone
  cases kind : unit.fixedMs with
  | some len =>
    have read : reading unit zone date = date.ms + zone.shift := by
      unfold reading
      rw [kind]
    rw [fixedCut kind] at done
    split_ifs at done
    cases found : Date.tryFrom (binStart unit bin weekStart (binAt unit bin weekStart (reading unit zone date)) - zone.shift) with
    | none =>
      rw [found] at done
      cases done
    | some start =>
      rw [found] at done
      cases done
      have is := tryFromSome.mp found
      have fits := r.fits
      refine ⟨by omega,le_of_eq read,nofun,fun _ => ⟨read,by omega⟩⟩
  | none =>
    have read : reading unit zone date = (wallClock zone date).ms := by
      unfold reading
      rw [kind]
    rw [calendarCut kind] at done
    split_ifs at done
    unfold instantOf at done
    cases found : Date.tryFrom (binStart unit bin weekStart (binAt unit bin weekStart (reading unit zone date))) with
    | none =>
      rw [found] at done
      cases done
    | some start =>
      rw [found] at done
      cases done
      have is := tryFromSome.mp found
      have fits := start.fits
      have multiple := dayMultiple kind bin weekStart (binAt unit bin weekStart (reading unit zone date))
      -- The least date is no midnight, so a clock stopped there has no start that fits.
      have before : (wallClock zone date).ms ≤ date.ms + zone.shift := by
        by_contra above
        have least : (wallClock zone date).ms = -2 ^ 63 := by
          have own := date.fits
          unfold wallClock Date.saturate at above ⊢
          simp only at above ⊢
          omega
        have start : binStart unit bin weekStart (binAt unit bin weekStart (reading unit zone date)) = -2 ^ 63 := by omega
        rw [start] at multiple
        exact absurd multiple (by decide)
      have own := date.fits
      have high : (wallClock zone date).ms - zone.shift < 2 ^ 63 := by omega
      refine ⟨?_,read ▸ before,fun _ => by omega,fun no => absurd rfl no⟩
      rw [instantEq]
      show max _ (min (start.ms - zone.shift) _) = _
      omega

theorem readingMono {date date' : Date} (low : date.ms ≤ date'.ms) : reading unit zone date ≤ reading unit zone date' := by
  unfold reading
  cases unit.fixedMs with
  | some _ => exact Int.add_le_add_right low _
  | none => exact wallClockMono low

/- An answer depends on the bin alone. -/
theorem binAnswer {date date' : Date}
    (same : binAt unit bin weekStart (reading unit zone date) = binAt unit bin weekStart (reading unit zone date')) :
    truncUnits date unit bin zone weekStart = truncUnits date' unit bin zone weekStart := by
  cases kind : unit.fixedMs with
  | some _ => rw [fixedCut kind, fixedCut kind, same]
  | none => rw [calendarCut kind, calendarCut kind, same]

/- A date no earlier than the start of a bin reads as no earlier. -/
theorem startRead {date r other : Date} (done : truncUnits date unit bin zone weekStart = .ok r)
    (from' : binStart unit bin weekStart (binAt unit bin weekStart (reading unit zone date)) ≤ other.ms + zone.shift) :
    binStart unit bin weekStart (binAt unit bin weekStart (reading unit zone date)) ≤ reading unit zone other := by
  obtain ⟨_,_,calendar,_⟩ := truncated done
  generalize binStart unit bin weekStart (binAt unit bin weekStart (reading unit zone date)) = start at from' calendar
  unfold reading
  cases kind : unit.fixedMs with
  | some _ => exact from'
  | none =>
    have high := calendar kind
    show start ≤ max (-2 ^ 63) (min (other.ms + zone.shift) (2 ^ 63 - 1))
    omega

theorem truncatedBefore {date r : Date} (done : truncUnits date unit bin zone weekStart = .ok r) : r.ms ≤ date.ms := by
  obtain ⟨is,before,_,_⟩ := truncated done
  have low := (binGrid unit bin weekStart).l_u_le (reading unit zone date)
  have own := date.fits
  omega

theorem truncatedMono {date date' r r' : Date} (done : truncUnits date unit bin zone weekStart = .ok r)
    (done' : truncUnits date' unit bin zone weekStart = .ok r') (low : date.ms ≤ date'.ms) : r.ms ≤ r'.ms := by
  rw [(truncated done).1, (truncated done').1]
  have grid := binGrid unit bin weekStart
  exact max_le_max_left _ (Int.sub_le_sub_right (grid.monotone_l (grid.monotone_u (readingMono low))) _)

theorem truncatedAgain {date r : Date} (done : truncUnits date unit bin zone weekStart = .ok r) :
    truncUnits r unit bin zone weekStart = .ok r := by
  have grid := binGrid unit bin weekStart
  obtain ⟨is,_,_,_⟩ := truncated done
  have from' : binStart unit bin weekStart (binAt unit bin weekStart (reading unit zone date)) ≤ reading unit zone r :=
    startRead done (by omega)
  have same : binAt unit bin weekStart (reading unit zone r) = binAt unit bin weekStart (reading unit zone date) :=
    le_antisymm (grid.monotone_u (readingMono (truncatedBefore done))) ((grid _ _).mp from')
  rw [binAnswer same]
  exact done

theorem truncatedAlike {date date' r r' : Date} (done : truncUnits date unit bin zone weekStart = .ok r)
    (done' : truncUnits date' unit bin zone weekStart = .ok r') :
    r = r' ↔ ¬Between (binStart unit bin weekStart) (reading unit zone date) (reading unit zone date') := by
  have grid := binGrid unit bin weekStart
  rw [← Bins.floorAlike grid]
  -- Where both answers stop at the least date, both dates read as no earlier than the later start.
  have back : ∀ {a b q : Date}, truncUnits a unit bin zone weekStart = .ok q → truncUnits b unit bin zone weekStart = .ok q →
      binStart unit bin weekStart (binAt unit bin weekStart (reading unit zone b)) ≤
        binStart unit bin weekStart (binAt unit bin weekStart (reading unit zone a)) := by
    intro a b q first second
    have one := (truncated first).1
    have two := (truncated second).1
    have own := a.fits
    by_contra above
    exact above (grid.monotone_l ((grid _ _).mp (startRead second (by omega))))
  constructor
  · rintro rfl
    exact le_antisymm (back done' done) (back done done')
  · intro same
    have one := (truncated done).1
    have two := (truncated done').1
    rw [same, ← two] at one
    obtain ⟨ms,fits⟩ := r
    obtain ⟨ms',fits'⟩ := r'
    cases one
    rfl

end

end Kimmy.Calendar
