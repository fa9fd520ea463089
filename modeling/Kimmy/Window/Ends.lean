import Kimmy.Window.ExactSums

/-!
Where the windows of a partition start and end (`window.rs`): the sort field read as an axis of numbers or of
dates, the bounds of a window, and for each document the run of positions its window covers. Dates are moved by
whole units, a month, quarter or year on the calendar (`expr/dates.rs`).
-/
namespace Kimmy.Window
open Decimal.Arith Decimal

/-! Dates. -/

def dayMs : Int := 86400000

inductive DateUnit where
  | year | quarter | month | week | day | hour | minute | second | millisecond
  deriving DecidableEq

/- The units that are elapsed time in every zone. -/
def DateUnit.fixedMs : DateUnit → Option Int
  | .hour => some 3600000
  | .minute => some 60000
  | .second => some 1000
  | .millisecond => some 1
  | _ => none

/- The length of a unit in UTC; a month, a quarter and a year have none. -/
def unitMillis : DateUnit → Option Int
  | .week => some (7 * dayMs)
  | .day => some dayMs
  | .hour => some 3600000
  | .minute => some 60000
  | .second => some 1000
  | .millisecond => some 1
  | _ => none

/- `i64::try_from`. -/
def fits64 (n : Int) : Option Int := if -2 ^ 63 ≤ n ∧ n < 2 ^ 63 then some n else none

def daysFromCivilWide (y m d : Int) : Int :=
  let y := if m ≤ 2 then y - 1 else y
  let era := y / 400
  let yoe := y % 400
  let mp := (m + 9) % 12
  let doy := (153 * mp + 2) / 5 + d - 1
  let doe := yoe * 365 + yoe / 4 - yoe / 100 + doy
  era * 146097 + doe - 719468

def civilFromDays (z : Int) : Int × Int × Int :=
  let z := z + 719468
  let era := z / 146097
  let doe := z % 146097
  let yoe := (doe - doe / 1460 + doe / 36524 - doe / 146096) / 365
  let y := yoe + era * 400
  let doy := doe - (365 * yoe + yoe / 4 - yoe / 100)
  let mp := (5 * doy + 2) / 153
  let d := doy - (153 * mp + 2) / 5 + 1
  let m := if mp < 10 then mp + 3 else mp - 9
  (if m ≤ 2 then y + 1 else y,m,d)

def isLeap (y : Int) : Bool := (y % 4 == 0 && y % 100 != 0) || y % 400 == 0

def daysInMonth (y m : Int) : Int :=
  if m ∈ [1,3,5,7,8,10,12] then 31 else if m ∈ [4,6,9,11] then 30 else if isLeap y then 29 else 28

/- In UTC, where the local reading is the date itself. `none` is an overflow. -/
def addUnits (start : Int) (unit : DateUnit) (amount : Int) : Option Int :=
  match unit.fixedMs with
  | some len => fits64 (start + amount * len)
  | none => do
      let days := start / dayMs
      let tod := start % dayMs
      let (year,month,day) := civilFromDays days
      let localDays ← match unit with
        | .week => some (days + amount * 7)
        | .day => some (days + amount)
        | unit => do
            let per := match unit with
              | .year => 12
              | .quarter => 3
              | _ => 1
            let months := year * 12 + (month - 1) + amount * per
            let year ← fits64 (months / 12)
            let month := months % 12 + 1
            if 292000000 < year.natAbs then none
            else some (daysFromCivilWide year month (min day (daysInMonth year month)))
      fits64 (localDays * dayMs + tod)

def addToDate (start : Int) (unit : DateUnit) (amount : Int) : Option Int := addUnits start unit amount

/-! Doubles on the axis. -/

/- A finite double in units of the smallest subnormal. -/
def signedUnits (bits : UInt64) : Int := signedTerm (signOf bits) (unitsOf bits)

/- The comparison of doubles that are not NaN: by sign and then by the rest of the word, the two zeros equal. -/
def orderOf (bits : UInt64) : Int := signedTerm (signOf bits) (fieldOf bits)

def isNan (bits : UInt64) : Bool := infinity < fieldOf bits

/- `x + offset` for an offset that is finite. -/
def plus (x offset : UInt64) : UInt64 :=
  if fieldOf x < infinity then ofTotal (signedUnits x + signedUnits offset) else x

/- `as i64` saturates. -/
def saturate64 (n : Int) : Int := max (-2 ^ 63) (min n (2 ^ 63 - 1))

def toward (bits : UInt64) : Int := saturate64 (signedTerm (signOf bits) (unitsOf bits / 2 ^ 1074 : Nat))

/- `round` and then `as i64`: halves go away from zero. -/
def rounded (bits : UInt64) : Int :=
  saturate64 (signedTerm (signOf bits) ((2 * unitsOf bits + 2 ^ 1074) / 2 ^ 1075 : Nat))

def shiftDate (start : Int) (offset : UInt64) (unit : DateUnit) : Option Int :=
  match unitMillis unit with
  | some len => addToDate start .millisecond (rounded (ofTotal (signedUnits offset * len)))
  | none => addToDate start unit (toward offset)

/- A numeric operand as a double. -/
def numeric : Bson → Option UInt64
  | .int32 n => some (ofTotal (n.toInt * 2 ^ 1074))
  | .int64 n => some (ofTotal (n.toInt * 2 ^ 1074))
  | .double bits => some bits
  | .decimal128 d => some (toBinary64 (decodeRaw d))
  | _ => none

/-! The axis. -/

inductive Axis where
  | num (v : List UInt64)
  | date (v : List Int)

/- One document more: all numbers, none of them NaN, or all dates. -/
def axisStep (read : List UInt64 × List Int) (found : Option Bson) : Option (List UInt64 × List Int) :=
  match found with
  | some (.dateTime d) => if read.1.isEmpty then some (read.1,read.2 ++ [d.toInt]) else none
  | other =>
      if read.2.isEmpty then
        match other.bind numeric with
        | some x => if isNan x then none else some (read.1 ++ [x],read.2)
        | none => none
      else none

/- What the documents hold at the sort field; a `unit` is for dates. -/
def rangeAxis (found : List (Option Bson)) (unit : Option DateUnit) : Option Axis := do
  let (nums,dates) ← found.foldlM axisStep ([],[])
  if dates.isEmpty then if unit.isSome then none else some (.num nums)
  else some (.date dates)

/-! Bounds. -/

inductive RangeBound where
  | unbounded
  | current
  | offset (x : UInt64)

/- The bounds of a window (`Window`) as the parser leaves them: an offset is finite. -/
inductive Bounds where
  | whole
  | documents (lo hi : Option Int)
  | range (lo hi : RangeBound) (unit : Option DateUnit)

/- `partition_point` of a slice that is partitioned by the predicate. -/
def partitionPoint {α : Type} (v : List α) (p : α → Bool) : Nat := (v.takeWhile p).length

def clamp (n : Nat) (v : Int) : Nat := (max 0 (min v n)).toNat

/- The two ends of one document's window, the second never before the first. -/
def spanOf (s e : Nat) : Nat × Nat := (s,max e s)

def lowEnd {α : Type} (v : List α) (i : Nat) (below : α → α → Bool) (move : α → UInt64 → Option α) :
    RangeBound → Option Nat
  | .unbounded => some 0
  | .current => some i
  | .offset l => do
      let x ← v[i]?
      let t ← move x l
      some (partitionPoint v fun x => below x t)

def highEnd {α : Type} (v : List α) (i : Nat) (below : α → α → Bool) (move : α → UInt64 → Option α) :
    RangeBound → Option Nat
  | .unbounded => some v.length
  | .current => some (i + 1)
  | .offset h => do
      let x ← v[i]?
      let t ← move x h
      some (partitionPoint v fun x => !below t x)

def rangeEnds {α : Type} (v : List α) (below : α → α → Bool) (move : α → UInt64 → Option α) (lo hi : RangeBound) :
    Option (List (Nat × Nat)) :=
  (List.range v.length).mapM fun i => do
    let s ← lowEnd v i below move lo
    let e ← highEnd v i below move hi
    some (spanOf s e)

/- For each position, the half-open run of the partition its window covers. `found` is what each document holds at
the sort field; a range over dates needs a `unit`. -/
def endpoints (window : Bounds) (found : List (Option Bson)) : Option (List (Nat × Nat)) :=
  let n := found.length
  match window with
  | .whole => some (List.replicate n (0,n))
  | .documents lo hi => some ((List.range n).map fun (i : Nat) =>
      spanOf (lo.elim 0 fun l => clamp n (i + l)) (hi.elim n fun h => clamp n (i + h + 1)))
  | .range lo hi unit => do
      match ← rangeAxis found unit with
      | .num v => rangeEnds v (fun x t => orderOf x < orderOf t) (fun x l => some (plus x l)) lo hi
      | .date v =>
          let unit ← unit
          rangeEnds v (fun x t => x < t) (fun x l => shiftDate x l unit) lo hi

end Kimmy.Window
