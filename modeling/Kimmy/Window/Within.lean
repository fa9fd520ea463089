import Kimmy.Traverse
import Kimmy.Window.AxisOrder
import Kimmy.Window.Slides

/-!
Which documents lie in a window, said of their positions and of their sort values, and that the ends of the window
are the ends of that run.
-/
namespace Kimmy.Window
open Slider

/-! Sort values. -/

inductive SortValue where
  | num (x : UInt64)
  | date (d : Int)

namespace SortValue

def of : Option Bson → Option SortValue
  | some (.dateTime d) => some (.date d.toInt)
  | other => (other.bind numeric).map .num

def less : SortValue → SortValue → Bool
  | .num x, .num y => orderOf x < orderOf y
  | .date x, .date y => x < y
  | _, _ => false

/- A distance away: a number, or so many units of time. -/
def away (unit : Option DateUnit) (offset : UInt64) : SortValue → Option SortValue
  | .num x => some (.num (plus x offset))
  | .date d => do
      let unit ← unit
      (shiftDate d offset unit).map .date

end SortValue

def sortValue (found : List (Option Bson)) (p : Nat) : Option SortValue := found[p]?.bind SortValue.of

/- The sort value of document `i`, a distance away, against the one of document `p`. -/
def compared (found : List (Option Bson)) (unit : Option DateUnit) (offset : UInt64) (i p : Nat)
    (test : SortValue → SortValue → Bool) : Bool :=
  match (sortValue found i).bind (SortValue.away unit offset), sortValue found p with
  | some t, some y => test t y
  | _, _ => false

/-! Windows. -/

namespace Bounds

/- Document `p` lies before the window of document `i`. -/
def before (window : Bounds) (found : List (Option Bson)) (i p : Nat) : Bool :=
  match window with
  | .whole | .documents none _ | .range .unbounded _ _ => false
  | .documents (some lo) _ => (p : Int) < i + lo
  | .range .current _ _ => p < i
  | .range (.offset l) _ unit => compared found unit l i p fun t y => y.less t

/- Document `p` lies past the window of document `i`. -/
def past (window : Bounds) (found : List (Option Bson)) (i p : Nat) : Bool :=
  match window with
  | .whole | .documents _ none | .range _ .unbounded _ => false
  | .documents _ (some hi) => (i : Int) + hi < p
  | .range _ .current _ => i < p
  | .range _ (.offset h) unit => compared found unit h i p fun t y => t.less y

def within (window : Bounds) (found : List (Option Bson)) (i p : Nat) : Bool :=
  !window.before found i p && !window.past found i p

/- The documents in the window of document `i`, in their order. -/
def docsWithin {δ : Type} (window : Bounds) (found : List (Option Bson)) (docs : List δ) (i : Nat) : List δ :=
  (docs.zipIdx.filter fun x => window.within found i x.2).map Prod.fst

end Bounds

/-! The ends of a run. -/

/- A run of positions against the two tests it is to be read off from. -/
structure Bounded (n : Nat) (span : Nat × Nat) (before past : Nat → Bool) : Prop where
  fits : Fits n span
  low : ∀ p < n, p < span.1 ↔ before p = true
  high : ∀ p < n, p < span.2 ↔ before p = true ∨ past p = false

theorem boundedSpan {n s e : Nat} {before past : Nat → Bool} (start : s ≤ n) (stop : e ≤ n)
    (low : ∀ p < n, p < s ↔ before p = true) (high : ∀ p < n, p < e ↔ past p = false) :
    Bounded n (spanOf s e) before past := by
  refine ⟨⟨le_max_right _ _,max_le stop start⟩,low,fun p inside => ?_⟩
  show p < max e s ↔ _
  rw [lt_max_iff, high p inside, low p inside, or_comm]

theorem partitionSpec {α : Type} {v : List α} {test : α → Bool} (split : v.Pairwise fun x y => test y → test x) :
    ∀ {p : Nat} {x : α}, v[p]? = some x → (p < partitionPoint v test ↔ test x = true) := by
  unfold partitionPoint
  induction v with
  | nil => nofun
  | cons first rest ih =>
    obtain ⟨down,others⟩ := List.pairwise_cons.mp split
    intro p x found
    cases good : test first with
    | false =>
      rw [List.takeWhile_cons_of_neg (by simp [good]), List.length_nil]
      have bad : test x = false := by
        rcases List.mem_cons.mp (List.mem_of_getElem? found) with rfl | later
        · exact good
        · by_contra other
          exact absurd (down x later (by simpa using other)) (by simp [good])
      simp [bad]
    | true =>
      rw [List.takeWhile_cons_of_pos good, List.length_cons]
      cases p with
      | zero =>
        cases found
        simp [good]
      | succ p =>
        rw [Nat.succ_lt_succ_iff]
        exact ih others found

theorem partitionShort {α : Type} (v : List α) (test : α → Bool) : partitionPoint v test ≤ v.length :=
  (List.takeWhile_prefix test).length_le

/-! An axis and what is read from it. -/

/- Values of one kind, sorted by a key. -/
structure Reading {α : Type} (found : List (Option Bson)) (unit : Option DateUnit) (v : List α) (below : α → α → Bool)
    (move : α → UInt64 → Option α) (wrap : α → SortValue) (key : α → Int) : Prop where
  value : ∀ p : Nat, sortValue found p = v[p]?.map wrap
  less : ∀ x y, (wrap x).less (wrap y) = below x y
  away : ∀ x offset, (wrap x).away unit offset = (move x offset).map wrap
  below : ∀ x y, below x y = decide (key x < key y)
  sorted : v.Pairwise fun x y => key x ≤ key y

section
variable {α : Type} {found : List (Option Bson)} {unit : Option DateUnit} {v : List α} {below : α → α → Bool}
variable {move : α → UInt64 → Option α} {wrap : α → SortValue} {key : α → Int}

theorem Reading.compared (reading : Reading found unit v below move wrap key) {offset : UInt64} {i p : Nat} {x t y : α}
    (hereX : v[i]? = some x) (moved : move x offset = some t) (hereY : v[p]? = some y) (test : SortValue → SortValue → Bool) :
    compared found unit offset i p test = test (wrap t) (wrap y) := by
  unfold Window.compared
  rw [reading.value, reading.value, hereX, hereY]
  simp only [Option.map_some, Option.bind_some, reading.away, moved]

theorem lowEndSpec (reading : Reading found unit v below move wrap key) {lo hi : RangeBound} {i s : Nat} (inside : i < v.length)
    (is : lowEnd v i below move lo = some s) :
    s ≤ v.length ∧ ∀ p < v.length, p < s ↔ (Bounds.range lo hi unit).before found i p = true := by
  cases lo with
  | unbounded =>
    cases is
    exact ⟨Nat.zero_le _,fun p _ => by simp [Bounds.before]⟩
  | current =>
    cases is
    exact ⟨inside.le,fun p _ => by simp [Bounds.before]⟩
  | offset l =>
    obtain ⟨x,here,step⟩ := Option.bind_eq_some_iff.mp is
    obtain ⟨t,moved,made⟩ := Option.bind_eq_some_iff.mp step
    cases made
    refine ⟨partitionShort _ _,fun p short => ?_⟩
    have there := List.getElem?_eq_getElem short
    rw [Bounds.before, reading.compared here moved there, reading.less, partitionSpec ?_ there]
    refine reading.sorted.imp fun order later => ?_
    rw [reading.below, decide_eq_true_eq] at later ⊢
    exact order.trans_lt later

theorem highEndSpec (reading : Reading found unit v below move wrap key) {lo hi : RangeBound} {i e : Nat} (inside : i < v.length)
    (is : highEnd v i below move hi = some e) :
    e ≤ v.length ∧ ∀ p < v.length, p < e ↔ (Bounds.range lo hi unit).past found i p = false := by
  cases hi with
  | unbounded =>
    cases is
    exact ⟨le_rfl,fun p short => by simp [Bounds.past, short]⟩
  | current =>
    cases is
    exact ⟨inside,fun p _ => by simp [Bounds.past]⟩
  | offset h =>
    obtain ⟨x,here,step⟩ := Option.bind_eq_some_iff.mp is
    obtain ⟨t,moved,made⟩ := Option.bind_eq_some_iff.mp step
    cases made
    refine ⟨partitionShort _ _,fun p short => ?_⟩
    have there := List.getElem?_eq_getElem short
    rw [Bounds.past, reading.compared here moved there, reading.less, partitionSpec ?_ there, Bool.not_eq_true']
    refine reading.sorted.imp fun order later => ?_
    rw [reading.below, Bool.not_eq_true', decide_eq_false_iff_not, not_lt] at later ⊢
    exact order.trans later

theorem rangeEndsSpec (reading : Reading found unit v below move wrap key) {lo hi : RangeBound} {ends : List (Nat × Nat)}
    (is : rangeEnds v below move lo hi = some ends) : ends.length = v.length ∧ ∀ i span, ends[i]? = some span →
      Bounded v.length span ((Bounds.range lo hi unit).before found i) ((Bounds.range lo hi unit).past found i) := by
  refine ⟨?_,fun i span there => ?_⟩
  · rw [← (Traverse.mappedPairs.mp is).length_eq, List.length_range]
  · obtain ⟨j,at',made⟩ := Traverse.mappedAt is there
    obtain ⟨inside,rfl⟩ := List.getElem?_eq_some_iff.mp at'
    rw [List.length_range] at inside
    rw [List.getElem_range] at made
    obtain ⟨s,low,made⟩ := Option.bind_eq_some_iff.mp made
    obtain ⟨e,high,made⟩ := Option.bind_eq_some_iff.mp made
    cases made
    obtain ⟨start,lows⟩ := lowEndSpec reading inside low
    obtain ⟨stop,highs⟩ := highEndSpec reading inside high
    exact boundedSpan start stop lows highs

end

theorem sortValueAt {α : Type} {R : Option Bson → α → Prop} {wrap : α → SortValue}
    (read : ∀ {v x}, R v x → SortValue.of v = some (wrap x)) {found : List (Option Bson)} {xs : List α}
    (pairs : List.Forall₂ R found xs) (p : Nat) : sortValue found p = xs[p]?.map wrap := by
  unfold sortValue
  induction pairs generalizing p with
  | nil => rfl
  | cons here _ ih =>
    cases p with
    | zero => exact read here
    | succ p => exact ih p

theorem numbersReading {found : List (Option Bson)} {nums : List UInt64} (unit : Option DateUnit) (sorted : Sorted found)
    (numbers : Numbers found nums) : Reading found unit nums (fun x t => orderOf x < orderOf t)
      (fun x l => some (plus x l)) .num orderOf := by
  refine ⟨sortValueAt (fun is => ?_) numbers,fun _ _ => rfl,fun _ _ => rfl,fun _ _ => rfl,numbersSorted sorted numbers⟩
  obtain ⟨is,_⟩ := is
  obtain ⟨v,rfl,read⟩ := Option.bind_eq_some_iff.mp is
  cases v with
  | dateTime d => cases read
  | _ => exact congrArg (Option.map SortValue.num) is

theorem datesReading {found : List (Option Bson)} {dates : List Int} (unit : DateUnit) (sorted : Sorted found)
    (read : Dates found dates) : Reading found (some unit) dates (fun x t => x < t) (fun x l => shiftDate x l unit)
      .date id := by
  refine ⟨sortValueAt (fun is => ?_) read,fun _ _ => rfl,fun _ _ => rfl,fun _ _ => rfl,datesSorted sorted read⟩
  obtain ⟨t,rfl,rfl⟩ := is
  rfl

/-! The ends of every window. -/

theorem clampSpec (n : Nat) (v : Int) : clamp n v ≤ n ∧ ∀ p < n, p < clamp n v ↔ (p : Int) < v := by
  unfold clamp
  exact ⟨by omega,fun p _ => by omega⟩

theorem endpointsSpec {window : Bounds} {found : List (Option Bson)} {ends : List (Nat × Nat)} (sorted : Sorted found)
    (is : endpoints window found = some ends) : ends.length = found.length ∧ ∀ i span, ends[i]? = some span →
      Bounded found.length span (window.before found i) (window.past found i) := by
  cases window with
  | whole =>
    cases is
    refine ⟨List.length_replicate,fun i span there => ?_⟩
    obtain rfl := List.eq_of_mem_replicate (List.mem_of_getElem? there)
    exact ⟨⟨Nat.zero_le _,le_rfl⟩,fun p _ => by simp [Bounds.before],fun p short => by simp [Bounds.past, short]⟩
  | documents lo hi =>
    cases is
    refine ⟨by simp,fun i span there => ?_⟩
    rw [List.getElem?_map, Option.map_eq_some_iff] at there
    obtain ⟨j,at',rfl⟩ := there
    obtain ⟨inside,rfl⟩ := List.getElem?_eq_some_iff.mp at'
    rw [List.getElem_range]
    refine boundedSpan ?_ ?_ ?_ ?_
    · cases lo with
      | none => exact Nat.zero_le _
      | some l => exact (clampSpec _ _).1
    · cases hi with
      | none => exact le_rfl
      | some h => exact (clampSpec _ _).1
    · intro p short
      cases lo with
      | none => simp [Bounds.before]
      | some l => simpa [Bounds.before] using (clampSpec _ _).2 p short
    · intro p short
      cases hi with
      | none => simpa [Bounds.past] using short
      | some h =>
        rw [show (some h).elim _ _ = clamp found.length (i + h + 1) from rfl, (clampSpec _ _).2 p short]
        simp [Bounds.past]
  | range lo hi unit =>
    obtain ⟨axis,read,made⟩ := Option.bind_eq_some_iff.mp is
    have reads := rangeAxisRead read
    cases axis with
    | num nums =>
      rw [show found.length = nums.length from reads.length_eq]
      exact rangeEndsSpec (numbersReading unit sorted reads) made
    | date dates =>
      obtain ⟨unit,rfl,made⟩ := Option.bind_eq_some_iff.mp made
      rw [show found.length = dates.length from reads.length_eq]
      exact rangeEndsSpec (datesReading unit sorted reads) made

end Kimmy.Window
