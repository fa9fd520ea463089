import Kimmy.Calendar.Civil

/-!
Adding units to dates and truncating dates to bins of units (`expr/dates.rs`, `expr/tz.rs`), in UTC and in zones of a
fixed offset. A date is a 64-bit count of milliseconds. The calendar units work on the wall clock, the date moved by
the offset, which stops at the ends of the 64-bit counts, and so does the instant read back from it.
-/
namespace Kimmy.Calendar
open Window (DateUnit dayMs daysFromCivilWide civilFromDays daysInMonth)

structure Date where
  ms : Int
  fits : -2 ^ 63 ≤ ms ∧ ms < 2 ^ 63
  deriving DecidableEq

namespace Date

/- `i64::try_from`. -/
def tryFrom (n : Int) : Option Date := if fits : -2 ^ 63 ≤ n ∧ n < 2 ^ 63 then some ⟨n,fits⟩ else none

/- `ok_or_else`. -/
def orError (text : String) : Option Date → Except String Date
  | some date => .ok date
  | none => .error text

def saturate (n : Int) : Date := ⟨max (-2 ^ 63) (min n (2 ^ 63 - 1)),by omega⟩

end Date

/-! Zones. -/

/- Seconds east of UTC. -/
inductive Zone where
  | utc
  | fixed (seconds : Int32)

namespace Zone

def offsetAt (zone : Zone) (_utc : Date) : Int :=
  match zone with
  | .utc => 0
  | .fixed seconds => seconds.toInt

/- `resolve`; neither kind of zone has a wall clock that happens twice, so nothing turns on the offset kept. -/
def localToUtc (zone : Zone) (clock : Date) : Date :=
  match zone with
  | .utc => clock
  | .fixed seconds => .saturate (clock.ms - seconds.toInt * 1000)

def localToUtcKeeping (zone : Zone) (clock : Date) (_offset : Int) : Date := zone.localToUtc clock

end Zone

/-! A date read in a zone. -/

/- `days_from_civil`, which stops at the ends of `i64`. -/
def daysFromCivil (y m d : Int) : Int := (Date.saturate (daysFromCivilWide y m d)).ms

/- Monday is 1. -/
def isoDow (days : Int) : Int := (days + 3) % 7 + 1

/- Sunday is 0. -/
def dowSunday0 (days : Int) : Int := (days + 4) % 7

structure Parts where
  year : Int
  month : Int
  day : Int
  days : Int
  offset : Int

namespace Parts

def ofLocal (clock : Date) (offset : Int) : Parts :=
  let days := clock.ms / dayMs
  let (year,month,day) := civilFromDays days
  ⟨year,month,day,days,offset⟩

def of (zone : Zone) (utc : Date) : Parts :=
  let offset := zone.offsetAt utc
  ofLocal (.saturate (utc.ms + offset * 1000)) offset

/- The year and number of the ISO week. -/
def iso (parts : Parts) : Int × Int :=
  let thursday := parts.days - (isoDow parts.days - 1) + 3
  let year := (civilFromDays thursday).1
  (year,(thursday - daysFromCivil year 1 1).tdiv 7 + 1)

end Parts

/-! Adding. -/

def overflow (op : String) : String := "Overflow occurred when computing " ++ op

def addUnits (start : Date) (unit : DateUnit) (amount : Int) (zone : Zone) (op : String) : Except String Date :=
  let fitting (n : Int) : Except String Date := Date.orError (overflow op) (Date.tryFrom n)
  match unit.fixedMs with
  | some len => fitting (start.ms + amount * len)
  | none => do
      let p := Parts.of zone start
      let tod := (Date.saturate (start.ms + p.offset * 1000)).ms % dayMs
      let localDays ← match unit with
        | .week => .ok (p.days + amount * 7)
        | .day => .ok (p.days + amount)
        | unit => do
            let per := match unit with
              | .year => 12
              | .quarter => 3
              | _ => 1
            let months := p.year * 12 + (p.month - 1) + amount * per
            let year ← fitting (months / 12)
            let month := months % 12 + 1
            if 292000000 < year.ms.natAbs then .error (overflow op)
            else .ok (daysFromCivilWide year.ms month (min p.day (daysInMonth year.ms month)))
      let clock ← fitting (localDays * dayMs + tod)
      .ok (zone.localToUtcKeeping clock p.offset)

/-! Truncating. -/

def daysTo2000 : Int := 10957

def weekStartDay (days weekStart : Int) : Int := days - (dowSunday0 days - weekStart) % 7

/- Bins of a fixed length are cut in UTC, from the instant the clock of the zone read the start of 2000. -/
def truncBins (utc : Date) (len bin : Int) (zone : Zone) : Option Date :=
  let size := len * bin
  if 2 ^ 63 - 1 < size then none else
  let origin := zone.localToUtc ⟨daysTo2000 * dayMs,by decide⟩
  let into := (utc.ms - origin.ms) % size
  Date.tryFrom (utc.ms - into)

/- The most units of a kind, each as short as it gets, that a 64-bit count holds. -/
def mostBins (unit : DateUnit) : Int :=
  let shortest := match unit with
    | .year => 365 * dayMs
    | .quarter => 90 * dayMs
    | .month => 28 * dayMs
    | .week => 7 * dayMs
    | _ => dayMs
  (2 ^ 63 - 1) / shortest

def floorBin (bin n : Int) : Int := n / bin * bin

def truncUnits (date : Date) (unit : DateUnit) (bin : ℕ+) (zone : Zone) (weekStart : Fin 7) : Except String Date :=
  let overflowed := "dateTrunc overflowed"
  let bin : Int := (bin : Nat)
  match unit.fixedMs with
  | some len => Date.orError overflowed (truncBins date len bin zone)
  | none =>
      let unsupported := "dateTrunc unsupported binSize value"
      if mostBins unit < bin then .error unsupported else
      let p := Parts.of zone date
      let yearOf (n : Int) : Except String Int := (Date.orError unsupported (Date.tryFrom n)).map Date.ms
      do
      let days ← match unit with
        | .year => do
            let y ← yearOf (2000 + floorBin bin (p.year - 2000))
            .ok (daysFromCivilWide y 1 1)
        | .quarter => do
            let q := floorBin bin ((p.year - 2000) * 4 + (p.month - 1) / 3)
            let y ← yearOf (2000 + q / 4)
            .ok (daysFromCivilWide y (q % 4 * 3 + 1) 1)
        | .month => do
            let m := floorBin bin ((p.year - 2000) * 12 + (p.month - 1))
            let y ← yearOf (2000 + m / 12)
            .ok (daysFromCivilWide y (m % 12 + 1) 1)
        | .week =>
            -- Counted from the first such day on or after the start of 2000.
            let origin := daysTo2000 + (weekStart.val - dowSunday0 daysTo2000) % 7
            let start := weekStartDay p.days weekStart.val
            let width := 7 * bin
            .ok (origin + (start - origin) / width * width)
        | _ => .ok (daysTo2000 + (p.days - daysTo2000) / bin * bin)
      let clock ← Date.orError overflowed (Date.tryFrom (days * dayMs))
      .ok (zone.localToUtc clock)

end Kimmy.Calendar
