import Kimmy.Query.Densify

/-!
The life of one partition's grid, in integers: what has been put out, and where the cursor stands. One step of the
cursor, one document met, and then the loops that take such steps.
-/
namespace Kimmy.Query.Densify
open CanonicalCmp StableSort

/-! Integers. -/

def intOf : Bson → Option Int
  | .int32 n => some n.toInt
  | .int64 n => some n.toInt
  | _ => none

theorem intExact {v : Bson} {n : Int} (is : intOf v = some n) : Exact.ofBson v = some (.finite n) := by
  cases v with
  | int32 m =>
    cases is
    rfl
  | int64 m =>
    cases is
    rfl
  | _ => cases is

theorem cmpInts {a b : Bson} {m n : Int} (isA : intOf a = some m) (isB : intOf b = some n) :
    canonicalCmp a b = compare m n := by
  rw [KeyOrder.canonicalCmpExact (intExact isA) (intExact isB)]
  show compare (m : ℚ) (n : ℚ) = compare m n
  rcases lt_trichotomy m n with less | rfl | more
  · rw [compare_lt_iff_lt.mpr less, compare_lt_iff_lt]
    exact_mod_cast less
  · rw [compare_eq_iff_eq.mpr rfl, compare_eq_iff_eq.mpr rfl]
  · rw [compare_gt_iff_gt.mpr more, compare_gt_iff_gt]
    exact_mod_cast more

theorem intRoom {v : Bson} {n : Int} (is : intOf v = some n) : -2 ^ 63 ≤ n ∧ n < 2 ^ 63 := by
  cases v with
  | int32 m =>
    cases is
    have low := m.le_toInt
    have high := m.toInt_lt
    omega
  | int64 m =>
    cases is
    exact ⟨m.le_toInt,m.toInt_lt⟩
  | _ => cases is

theorem checkedAddSpec (a b : Int) : (∃ v, checkedAdd a b = some v ∧ intOf v = some (a + b)) ∨
    checkedAdd a b = none ∧ (a + b < -2 ^ 63 ∨ 2 ^ 63 ≤ a + b) := by
  unfold checkedAdd
  split_ifs with fits
  · refine .inl ⟨_,rfl,?_⟩
    show some (Int64.ofInt (a + b)).toInt = _
    rw [Int64.toInt_ofInt_of_le fits.1 fits.2]
  · exact .inr ⟨rfl,by omega⟩

/- One step on, or past what a word can hold. -/
theorem afterInt {grid : Grid} {base : Bson} {s n : Int} (step : grid.step.integer = some s) (positive : 0 < s)
    (is : intOf base = some n) : (∃ v, grid.after base = .ok (some v) ∧ intOf v = some (n + s)) ∨
      grid.after base = .ok none ∧ 2 ^ 63 ≤ n + s := by
  have room := intRoom is
  have checked {a b : Int} (isA : a = n) (isB : b = s) : (∃ v, checkedAdd a b = some v ∧ intOf v = some (n + s)) ∨
      checkedAdd a b = none ∧ 2 ^ 63 ≤ n + s := by
    subst isA isB
    exact (checkedAddSpec a b).imp id fun ⟨full,out⟩ => ⟨full,by omega⟩
  have wrap {r : Option Bson} : (∃ v, r = some v ∧ intOf v = some (n + s)) ∨ r = none ∧ 2 ^ 63 ≤ n + s →
      (∃ v, (Except.ok r : Except Failure _) = .ok (some v) ∧ intOf v = some (n + s)) ∨
        (Except.ok r : Except Failure _) = .ok none ∧ 2 ^ 63 ≤ n + s := by
    rintro (⟨v,rfl,value⟩ | ⟨rfl,past⟩)
    · exact .inl ⟨v,rfl,value⟩
    · exact .inr ⟨rfl,past⟩
  obtain ⟨kind,elsewhere⟩ := grid
  cases base with
  | int32 b =>
    cases is
    cases kind with
    | int32 t =>
      cases step
      have low := b.le_toInt
      have high := b.toInt_lt
      have low' := t.le_toInt
      have high' := t.toInt_lt
      refine .inl ⟨_,rfl,?_⟩
      split_ifs with fits
      · show some (Int32.ofInt _).toInt = _
        rw [Int32.toInt_ofInt_of_le fits.1 fits.2]
      · show some (Int64.ofInt _).toInt = _
        rw [Int64.toInt_ofInt_of_le (by omega) (by omega)]
    | int64 t =>
      cases step
      exact wrap (checked rfl rfl)
    | double => cases step
  | int64 b =>
    cases is
    cases kind with
    | int32 t =>
      cases step
      exact wrap (checked rfl rfl)
    | int64 t =>
      cases step
      exact wrap (checked rfl rfl)
    | double => cases step
  | _ => cases is

/-! What has been put out for one partition. -/

inductive Emit where
  | doc (row : Row)
  | generated (part : Nat) (value : Bson)

def Emit.part : Emit → Nat
  | .doc row => row.part
  | .generated part _ => part

def Emit.row : Emit → Option Row
  | .doc row => some row
  | .generated .. => none

def Emit.point : Emit → Option Bson
  | .doc _ => none
  | .generated _ value => some value

/- Integers are read off values that are integers. -/
def at' (v : Bson) : Int := (intOf v).getD 0

def Emit.at' : Emit → Int
  | .doc row => Densify.at' row.value
  | .generated _ value => Densify.at' value

def rowsIn (plan : List Emit) : List Row := plan.filterMap Emit.row

def pointsIn (plan : List Emit) : List Int := (plan.filterMap Emit.point).map at'

def valuesOf (rows : List Row) : List Int := rows.map fun row => at' row.value

theorem rowsAppend (a b : List Emit) : rowsIn (a ++ b) = rowsIn a ++ rowsIn b := List.filterMap_append ..

theorem pointsAppend (a b : List Emit) : pointsIn (a ++ b) = pointsIn a ++ pointsIn b := by
  rw [pointsIn, List.filterMap_append, List.map_append]
  rfl

theorem pointAt {plan : List Emit} {g : Int} (member : g ∈ pointsIn plan) : ∃ e ∈ plan, e.at' = g := by
  obtain ⟨v,held,rfl⟩ := List.mem_map.mp member
  obtain ⟨e,inside,is⟩ := List.mem_filterMap.mp held
  cases e with
  | doc => cases is
  | generated part value =>
    cases is
    exact ⟨_,inside,rfl⟩

theorem valueAt {plan : List Emit} {v : Int} (member : v ∈ valuesOf (rowsIn plan)) : ∃ e ∈ plan, e.at' = v := by
  obtain ⟨row,held,rfl⟩ := List.mem_map.mp member
  obtain ⟨e,inside,is⟩ := List.mem_filterMap.mp held
  cases e with
  | generated => cases is
  | doc row =>
    cases is
    exact ⟨_,inside,rfl⟩

/- A range, and the step of its grid. -/
structure Range where
  lo : Int
  hi : Int
  inclusive : Bool
  step : Int
  positive : 0 < step
  room : hi < 2 ^ 63

namespace Range
variable (r : Range)

def OnGrid (g : Int) : Prop := ∃ k : Nat, g = r.lo + k * r.step

def Within (g : Int) : Prop := g < r.hi ∨ r.inclusive = true ∧ g = r.hi

instance (g : Int) : Decidable (r.Within g) := inferInstanceAs (Decidable (_ ∨ _))

variable {r}

theorem OnGrid.least {g : Int} (grid : r.OnGrid g) : r.lo ≤ g := by
  obtain ⟨k,rfl⟩ := grid
  have := Int.mul_nonneg (Int.natCast_nonneg k) r.positive.le
  omega

theorem OnGrid.next {g : Int} (grid : r.OnGrid g) : r.OnGrid (g + r.step) := by
  obtain ⟨k,rfl⟩ := grid
  exact ⟨k + 1,by push_cast; ring⟩

/- Nothing of the grid lies between a point and the next. -/
theorem OnGrid.spaced {g c : Int} (first : r.OnGrid g) (second : r.OnGrid c) (less : g < c + r.step) : g ≤ c := by
  obtain ⟨k,rfl⟩ := first
  obtain ⟨j,rfl⟩ := second
  have step := r.positive
  by_contra more
  have above : (j : Int) < k := by
    by_contra low
    have := Int.mul_le_mul_of_nonneg_right (not_lt.mp low) step.le
    omega
  have := Int.mul_le_mul_of_nonneg_right (Int.add_one_le_iff.mpr above) step.le
  rw [Int.add_mul, Int.one_mul] at this
  omega

theorem Within.low {g h : Int} (within : r.Within g) (low : h ≤ g) : r.Within h := by
  rcases within with less | ⟨inclusive,rfl⟩
  · exact .inl (lt_of_le_of_lt low less)
  · exact (lt_or_eq_of_le low).imp id fun same => ⟨inclusive,same⟩

theorem Within.top {g : Int} (within : r.Within g) : g ≤ r.hi := by
  rcases within with less | ⟨_,same⟩
  · exact less.le
  · exact same.le

end Range

/- Where the cursor stands: a point of the grid, or past it all. -/
structure Kept (r : Range) (c : Int) (done : Bool) (rows : List Row) (plan : List Emit) : Prop where
  grid : r.OnGrid c
  docs : rowsIn plan = rows
  order : plan.Pairwise fun x y => x.at' ≤ y.at'
  points : ∀ g, g ∈ pointsIn plan ↔ r.OnGrid g ∧ r.Within g ∧ (done = true ∨ g < c) ∧ g ∉ valuesOf rows
  once : (pointsIn plan).Pairwise (· < ·)
  live : done = false → r.Within c → ∀ e ∈ plan, e.at' < c

theorem keptNil (r : Range) : Kept r r.lo false [] [] := by
  refine ⟨⟨0,by simp⟩,rfl,.nil,fun g => ⟨nofun,?_⟩,.nil,nofun⟩
  rintro ⟨grid,_,done | below,_⟩
  · cases done
  · exact absurd grid.least (by omega)

section
variable {r : Range} {c : Int} {rows : List Row} {plan : List Emit}

/- After one step, or past the last one that a word holds. -/
structure Stepped (r : Range) (c next : Int) (done : Bool) : Prop where
  goes : done = false → next = c + r.step
  full : done = true → next = c ∧ 2 ^ 63 ≤ c + r.step

theorem Stepped.grid {next : Int} {done : Bool} (stepped : Stepped r c next done) (grid : r.OnGrid c) : r.OnGrid next := by
  cases done with
  | false =>
    rw [stepped.goes rfl]
    exact grid.next
  | true =>
    rw [(stepped.full rfl).1]
    exact grid

/- What it has passed is what it had, and the point it was on. -/
theorem Stepped.passed {next : Int} {done : Bool} (stepped : Stepped r c next done) (grid : r.OnGrid c) {g : Int} (inside : r.OnGrid g)
    (within : r.Within g) : (done = true ∨ g < next) ↔ g ≤ c := by
  have step := r.positive
  have top := within.top
  have room := r.room
  cases done with
  | false =>
    rw [stepped.goes rfl]
    simp only [Bool.false_eq_true, false_or]
    exact ⟨fun less => inside.spaced grid less,fun low => by omega⟩
  | true =>
    have full := (stepped.full rfl).2
    exact iff_of_true (.inl rfl) (inside.spaced grid (by omega))

/- The point is generated. -/
theorem Kept.generate (kept : Kept r c false rows plan) (within : r.Within c) {value : Bson} (is : intOf value = some c) {part : Nat}
    {next : Int} {done : Bool} (stepped : Stepped r c next done) :
    Kept r next done rows (plan ++ [.generated part value]) := by
  have below := kept.live rfl within
  have here : at' value = c := by rw [at', is]; rfl
  have added : pointsIn [.generated part value] = [c] := by simp [pointsIn, Emit.point, here]
  have absent : c ∉ valuesOf rows := fun member => by
    rw [← kept.docs] at member
    obtain ⟨e,held,same⟩ := valueAt member
    have := below e held
    omega
  refine ⟨stepped.grid kept.grid,?_,?_,fun g => ?_,?_,fun going inside e member => ?_⟩
  · rw [rowsAppend, kept.docs]
    exact List.append_nil _
  · refine List.pairwise_append.mpr ⟨kept.order,List.pairwise_singleton ..,fun x first y second => ?_⟩
    rw [List.mem_singleton.mp second]
    show _ ≤ at' value
    have := below x first
    omega
  · rw [pointsAppend, added, List.mem_append, List.mem_singleton, kept.points]
    constructor
    · rintro (⟨grid,inside,passed,fresh⟩ | rfl)
      · refine ⟨grid,inside,(stepped.passed kept.grid grid inside).mpr ?_,fresh⟩
        simp only [Bool.false_eq_true, false_or] at passed
        omega
      · exact ⟨kept.grid,within,(stepped.passed kept.grid kept.grid within).mpr le_rfl,absent⟩
    · rintro ⟨grid,inside,passed,fresh⟩
      rcases lt_or_eq_of_le ((stepped.passed kept.grid grid inside).mp passed) with less | same
      · exact .inl ⟨grid,inside,.inr less,fresh⟩
      · exact .inr same
  · rw [pointsAppend, added]
    refine List.pairwise_append.mpr ⟨kept.once,List.pairwise_singleton ..,fun x first y second => ?_⟩
    rw [List.mem_singleton.mp second]
    obtain ⟨e,held,rfl⟩ := pointAt first
    exact below e held
  · have step := r.positive
    rw [stepped.goes going]
    rcases List.mem_append.mp member with old | new
    · have := below e old
      omega
    · rw [List.mem_singleton.mp new]
      show at' value < _
      omega

/- A document is put out: it is not below what was, nor on a point that was generated. -/
theorem Kept.meet {done : Bool} (kept : Kept r c done rows plan) {row : Row} (above : ∀ e ∈ plan, e.at' ≤ at' row.value)
    (off : at' row.value ∉ pointsIn plan) {next : Int} {done' : Bool} (grid : r.OnGrid next)
    (passed : ∀ g, r.OnGrid g → r.Within g → g ≠ at' row.value → ((done' = true ∨ g < next) ↔ (done = true ∨ g < c)))
    (live : done' = false → r.Within next → at' row.value < next) :
    Kept r next done' (rows ++ [row]) (plan ++ [.doc row]) := by
  have none : pointsIn [.doc row] = [] := rfl
  have values : valuesOf (rows ++ [row]) = valuesOf rows ++ [at' row.value] := List.map_append
  refine ⟨grid,?_,?_,fun g => ?_,?_,fun going inside e member => ?_⟩
  · rw [rowsAppend, kept.docs]
    rfl
  · refine List.pairwise_append.mpr ⟨kept.order,List.pairwise_singleton ..,fun x first y second => ?_⟩
    rw [List.mem_singleton.mp second]
    exact above x first
  · rw [pointsAppend, none, List.append_nil, values, List.mem_append, List.mem_singleton, not_or]
    by_cases same : g = at' row.value
    · rw [same]
      exact iff_of_false off fun ⟨_,_,_,_,other⟩ => other rfl
    · rw [kept.points]
      constructor
      · rintro ⟨grid,inside,before,fresh⟩
        exact ⟨grid,inside,(passed g grid inside same).mpr before,fresh,same⟩
      · rintro ⟨grid,inside,before,fresh,_⟩
        exact ⟨grid,inside,(passed g grid inside same).mp before,fresh⟩
  · rw [pointsAppend, none, List.append_nil]
    exact kept.once
  · have past := live going inside
    rcases List.mem_append.mp member with old | new
    · exact (above e old).trans_lt past
    · rw [List.mem_singleton.mp new]
      exact past

end

/-! The loops. -/

def feed {σ : Type} (sink : Sink σ) (s : σ) : Emit → Except Failure σ
  | .doc row => sink.doc s row
  | .generated part value => sink.generated s part value

theorem feedDoc {σ : Type} (sink : Sink σ) (row : Row) (s : σ) : [Emit.doc row].foldlM (feed sink) s = sink.doc s row := by
  rw [List.foldlM_cons]
  exact bind_pure _

/- The computation puts out the plan and leaves `a`, whatever the sink is. -/
def Emits {α : Type} (f : (σ : Type) → Sink σ → σ → Except Failure (α × σ)) (plan : List Emit) (a : α) : Prop :=
  ∀ σ sink s, f σ sink s = plan.foldlM (feed sink) s >>= fun s => .ok (a,s)

/- A span and a cursor that hold integers. -/
structure Reads (grid : Grid) (span : Span) (r : Range) : Prop where
  step : grid.step.integer = some r.step
  lo : intOf span.lo = some r.lo
  hi : intOf span.hi = some r.hi
  inclusive : span.inclusive = r.inclusive

section
variable {grid : Grid} {span : Span} {r : Range} {rows : List Row} {plan : List Emit}

theorem containsInt (reads : Reads grid span r) {g : Bson} {c : Int} (is : intOf g = some c) : span.contains g = decide (r.Within c) := by
  unfold Span.contains Range.Within
  rw [cmpInts is reads.hi, reads.inclusive]
  rcases lt_trichotomy c r.hi with less | same | more
  · rw [compare_lt_iff_lt.mpr less]
    simp [less]
  · rw [compare_eq_iff_eq.mpr same]
    simp [same]
  · rw [compare_gt_iff_gt.mpr more]
    simp [more.ne', more.not_gt]

theorem afterStepped (reads : Reads grid span r) {cursor : Cursor} {c : Int} (is : intOf cursor.next = some c)
    (going : cursor.done = false) : ∃ cursor' c', Stepped r c c' cursor'.done ∧ intOf cursor'.next = some c' ∧
      ∀ {β : Type} (f : Cursor → Except Failure β),
        (grid.after cursor.next >>= fun x => match x with
          | some next => f { cursor with next }
          | none => f { cursor with done := true }) = f cursor' := by
  rcases afterInt reads.step r.positive is with ⟨v,after,value⟩ | ⟨after,full⟩
  · refine ⟨{ cursor with next := v },c + r.step,⟨fun _ => rfl,fun done => ?_⟩,value,fun f => by rw [after]; rfl⟩
    rw [going] at done
    cases done
  · exact ⟨{ cursor with done := true },c,⟨nofun,fun _ => ⟨rfl,full⟩⟩,is,fun f => by rw [after]; rfl⟩

/- Where catching up ends, and what it has put out. -/
structure CaughtUp (r : Range) (rows : List Row) (plan : List Emit) (before : Option Bson) (part : Nat) (gens : List Emit)
    (cursor : Cursor) (c : Int) : Prop where
  reads : intOf cursor.next = some c
  kept : Kept r c cursor.done rows (plan ++ gens)
  mine : ∀ e ∈ gens, e.part = part
  below : ∀ e ∈ gens, ∀ v ∈ before, e.at' < at' v
  docless : rowsIn gens = []
  stops : cursor.done = true ∨ ¬r.Within c ∨ ∃ v ∈ before, at' v ≤ c

theorem geInt {a b : Bson} {m n : Int} (isA : intOf a = some m) (isB : intOf b = some n) :
    (canonicalCmp a b).isGE = decide (n ≤ m) := by
  rw [cmpInts isA isB, Bool.eq_iff_iff, decide_eq_true_eq]
  exact Ordering.isGE_iff_ne_lt.trans (not_congr compare_lt_iff_lt |>.trans not_lt)

theorem catchUpKept (reads : Reads grid span r) {before : Option Bson} (integers : ∀ v ∈ before, (intOf v).isSome) (part : Nat) :
    ∀ (left : Nat) (cursor : Cursor) (c : Int) (plan : List Emit), intOf cursor.next = some c →
      Kept r c cursor.done rows plan → 1 ≤ left → (cursor.done = false → r.hi - c + 2 ≤ left) →
      ∃ gens cursor' c', CaughtUp r rows plan before part gens cursor' c' ∧
        Emits (fun _ sink s => catchUpFor grid sink span before part left cursor s) gens cursor' := by
  intro left
  induction left with
  | zero => exact fun cursor c plan is kept some => absurd some (by omega)
  | succ left ih =>
    intro cursor c plan is kept _ enough
    -- nothing more is put out
    have stop (stops : cursor.done = true ∨ ¬r.Within c ∨ ∃ v ∈ before, at' v ≤ c)
        (ends : ∀ (σ : Type) (sink : Sink σ) (s : σ), catchUpFor grid sink span before part (left + 1) cursor s = .ok (cursor,s)) :
        ∃ gens cursor' c', CaughtUp r rows plan before part gens cursor' c' ∧
          Emits (fun _ sink s => catchUpFor grid sink span before part (left + 1) cursor s) gens cursor' :=
      ⟨[],cursor,c,⟨is,by rwa [List.append_nil],nofun,nofun,rfl,stops⟩,ends⟩
    by_cases spent : cursor.done = true ∨ ¬r.Within c
    · have test : (cursor.done || !span.contains cursor.next) = true := by
        rw [containsInt reads is]
        simpa using spent
      exact stop (spent.imp id .inl) fun σ sink s => by rw [catchUpFor, if_pos test]
    · obtain ⟨going,within⟩ := not_or.mp spent
      have going := Bool.not_eq_true _ ▸ going
      have within := not_not.mp within
      have test : ¬(cursor.done || !span.contains cursor.next) = true := by
        rw [containsInt reads is]
        simp [going, within]
      by_cases reached : ∃ v ∈ before, at' v ≤ c
      · have held : (before.any fun v => (canonicalCmp cursor.next v).isGE) = true := by
          obtain ⟨v,rfl,low⟩ := reached
          obtain ⟨n,isV⟩ := Option.isSome_iff_exists.mp (integers v rfl)
          rw [at', isV] at low
          rw [Option.any_some, geInt is isV]
          exact decide_eq_true low
        exact stop (.inr (.inr reached)) fun σ sink s => by rw [catchUpFor, if_neg test, if_pos held]
      · have held : ¬(before.any fun v => (canonicalCmp cursor.next v).isGE) = true := by
          cases before with
          | none => exact Bool.false_ne_true
          | some v =>
            obtain ⟨n,isV⟩ := Option.isSome_iff_exists.mp (integers v rfl)
            rw [Option.any_some, geInt is isV, decide_eq_true_eq]
            exact fun low => reached ⟨v,rfl,by rw [at', isV]; exact low⟩
        have top := within.top
        have step := r.positive
        have enough := enough going
        obtain ⟨cursor',c',stepped,is',run⟩ := afterStepped reads is going
        rw [going] at kept
        have more (going' : cursor'.done = false) : r.hi - c' + 2 ≤ left := by
          rw [stepped.goes going']
          omega
        obtain ⟨gens,last,d,caught,emits⟩ := ih cursor' c' (plan ++ [.generated part cursor.next]) is'
          (kept.generate within is stepped) (by omega) more
        have here : at' cursor.next = c := by rw [at', is]; rfl
        refine ⟨.generated part cursor.next :: gens,last,d,⟨caught.reads,?_,fun e member => ?_,fun e member v held => ?_,
          caught.docless,caught.stops⟩,fun σ sink s => ?_⟩
        · rw [List.append_cons]
          exact caught.kept
        · rcases List.mem_cons.mp member with rfl | later
          · rfl
          · exact caught.mine e later
        · rcases List.mem_cons.mp member with rfl | later
          · show at' cursor.next < _
            by_contra low
            exact reached ⟨v,held,by omega⟩
          · exact caught.below e later v held
        · show catchUpFor grid sink span before part (left + 1) cursor s = _
          rw [catchUpFor, if_neg test, if_neg held, List.foldlM_cons, bind_assoc]
          refine congrArg _ (funext fun s => ?_)
          exact (run fun cursor => catchUpFor grid sink span before part left cursor s).trans (emits σ sink s)

/- A document moves the cursor off the point it sits on. -/
theorem passKept (reads : Reads grid span r) {cursor : Cursor} {c : Int} {value : Bson} {v : Int} (is : intOf cursor.next = some c)
    (isV : intOf value = some v) (left : Nat) : ∃ cursor' c', intOf cursor'.next = some c' ∧
      passFor grid value (left + 2) cursor = .ok cursor' ∧
      (cursor.done = false ∧ c = v ∧ Stepped r c c' cursor'.done ∨
        cursor' = cursor ∧ c' = c ∧ (cursor.done = true ∨ c ≠ v)) := by
  have stays {cursor : Cursor} {c : Int} (is : intOf cursor.next = some c) (off : cursor.done = true ∨ c ≠ v) (left : Nat) :
      passFor grid value (left + 1) cursor = .ok cursor := by
    have test : ¬(!cursor.done && canonicalCmp cursor.next value == .eq) = true := by
      rw [cmpInts is isV]
      rcases off with done | other
      · simp [done]
      · simp [other]
    rw [passFor, if_neg test]
  by_cases on : cursor.done = false ∧ c = v
  · obtain ⟨going,rfl⟩ := on
    have test : (!cursor.done && canonicalCmp cursor.next value == .eq) = true := by
      rw [cmpInts is isV]
      simp [going]
    obtain ⟨cursor',c',stepped,is',run⟩ := afterStepped reads is going
    have step := r.positive
    have off : cursor'.done = true ∨ c' ≠ c := by
      cases done : cursor'.done with
      | true => exact .inl rfl
      | false =>
        rw [stepped.goes done]
        exact .inr (by omega)
    refine ⟨cursor',c',is',?_,.inl ⟨going,rfl,stepped⟩⟩
    rw [passFor, if_pos test]
    exact (run (passFor grid value (left + 1))).trans (stays is' off left)
  · have off : cursor.done = true ∨ c ≠ v := by
      rcases not_and_or.mp on with done | other
      · exact .inl (Bool.eq_true_of_not_eq_false done)
      · exact .inr other
    exact ⟨cursor,c,is,stays is off (left + 1),.inr ⟨rfl,rfl,off⟩⟩

/- What taking one document leaves of its partition. -/
structure Taken (r : Range) (rows : List Row) (plan : List Emit) (row : Row) (emits : List Emit) (cursor : Cursor) (c : Int) : Prop where
  reads : intOf cursor.next = some c
  kept : Kept r c cursor.done (rows ++ [row]) (plan ++ emits)
  mine : ∀ e ∈ emits, e.part = row.part
  most : ∀ e ∈ emits, e.at' ≤ at' row.value
  below : ∀ g ∈ pointsIn emits, g < at' row.value
  docs : rowsIn emits = [row]

/- One document of a partition whose cursor stands. -/
def takeOne {σ : Type} (grid : Grid) (sink : Sink σ) (span : Span) (cursor : Cursor) (row : Row) (s : σ) : Except Failure (Cursor × σ) := do
  if (canonicalCmp row.value span.lo).isGE then
    let (cursor,s) ← catchUp grid sink span (some row.value) row.part cursor s
    let cursor ← pass grid row.value cursor
    let s ← sink.doc s row
    .ok (cursor,s)
  else
    let s ← sink.doc s row
    .ok (cursor,s)

theorem takeKept (reads : Reads grid span r) {cursor : Cursor} {c v : Int} {row : Row} (is : intOf cursor.next = some c)
    (isV : intOf row.value = some v) (kept : Kept r c cursor.done rows plan) (above : ∀ e ∈ plan, e.at' ≤ v)
    (off : ∀ g ∈ pointsIn plan, g < v) : ∃ emits cursor' c', Taken r rows plan row emits cursor' c' ∧
      Emits (fun _ sink s => takeOne grid sink span cursor row s) emits cursor' := by
  have here : at' row.value = v := by rw [at', isV]; rfl
  by_cases low : r.lo ≤ v
  · have test : (canonicalCmp row.value span.lo).isGE = true := by
      rw [geInt isV reads.lo]
      exact decide_eq_true low
    have integers : ∀ v ∈ some row.value, (intOf v).isSome := fun w member => by
      rw [← Option.mem_some_iff.mp member, isV]
      rfl
    have far : cursor.done = false → r.hi - c + 2 ≤ (rounds : Nat) := fun _ => by
      have room := intRoom is
      have top := r.room
      rw [rounds]
      omega
    obtain ⟨gens,mid,d,caught,emits⟩ := catchUpKept reads integers row.part rounds cursor c plan is kept (by decide) far
    obtain ⟨last,e,isLast,passes,how⟩ := passKept reads caught.reads isV (2 ^ 64)
    have mine : ∀ x ∈ plan ++ gens, x.at' ≤ at' row.value := by
      intro x member
      rcases List.mem_append.mp member with old | new
      · rw [here]
        exact above x old
      · exact (caught.below x new row.value rfl).le
    have under : ∀ g ∈ pointsIn gens, g < at' row.value := by
      intro g member
      obtain ⟨x,held,rfl⟩ := pointAt member
      exact caught.below x held row.value rfl
    have clear : at' row.value ∉ pointsIn (plan ++ gens) := by
      rw [pointsAppend, List.mem_append, not_or]
      exact ⟨fun member => by have := off _ member; omega,fun member => lt_irrefl _ (under _ member)⟩
    have final : Kept r e last.done (rows ++ [row]) (plan ++ gens ++ [.doc row]) := by
      rcases how with ⟨going,rfl,stepped⟩ | ⟨rfl,rfl,moved⟩
      · -- the cursor was on the document
        have kept' := caught.kept
        rw [going] at kept'
        refine kept'.meet mine clear (stepped.grid kept'.grid) (fun g grid inside other => ?_) fun going' inside => ?_
        · rw [stepped.passed kept'.grid grid inside]
          simp only [Bool.false_eq_true, false_or]
          omega
        · have := stepped.goes going'
          have := r.positive
          omega
      · refine caught.kept.meet mine clear caught.kept.grid (fun g _ _ _ => Iff.rfl) fun going inside => ?_
        rcases caught.stops with done | out | ⟨w,member,past⟩
        · rw [going] at done
          cases done
        · exact absurd inside out
        · rw [← Option.mem_some_iff.mp member] at past
          rcases moved with done | other
          · rw [going] at done
            cases done
          · omega
    refine ⟨gens ++ [.doc row],last,e,⟨isLast,?_,fun x member => ?_,fun x member => ?_,fun g member => ?_,?_⟩,fun σ sink s => ?_⟩
    · rw [← List.append_assoc]
      exact final
    · rcases List.mem_append.mp member with gen | doc
      · exact caught.mine x gen
      · rw [List.mem_singleton.mp doc]
        rfl
    · rcases List.mem_append.mp member with gen | doc
      · exact (caught.below x gen row.value rfl).le
      · rw [List.mem_singleton.mp doc]
        exact le_rfl
    · rw [pointsAppend, List.mem_append] at member
      rcases member with gen | doc
      · exact under g gen
      · cases doc
    · rw [rowsAppend, caught.docless]
      rfl
    · have run : catchUp grid sink span (some row.value) row.part cursor s = _ := emits σ sink s
      have passed : pass grid row.value mid = .ok last := passes
      show takeOne grid sink span cursor row s = _
      rw [takeOne, if_pos test, run, List.foldlM_append, bind_assoc, bind_assoc]
      refine congrArg _ (funext fun s => ?_)
      show (pass grid row.value mid >>= _) = _
      rw [passed, feedDoc]
      rfl
  · have test : ¬(canonicalCmp row.value span.lo).isGE = true := by
      rw [geInt isV reads.lo, decide_eq_true_eq]
      exact low
    have start := kept.grid.least
    have clear : at' row.value ∉ pointsIn plan := fun member => by
      have := off _ member
      omega
    refine ⟨[.doc row],cursor,c,⟨is,?_,fun x member => ?_,fun x member => ?_,nofun,rfl⟩,fun σ sink s => ?_⟩
    · refine kept.meet (fun x member => ?_) clear kept.grid (fun g _ _ _ => Iff.rfl) fun _ _ => by omega
      rw [here]
      exact above x member
    · rw [List.mem_singleton.mp member]
      rfl
    · rw [List.mem_singleton.mp member]
      exact le_rfl
    · show takeOne grid sink span cursor row s = _
      rw [takeOne, if_neg test, feedDoc]

/- The rest of the grid. -/
theorem finishKept (reads : Reads grid span r) {cursor : Cursor} {c : Int} (is : intOf cursor.next = some c)
    (kept : Kept r c cursor.done rows plan) (part : Nat) : ∃ gens cursor' c', CaughtUp r rows plan none part gens cursor' c' ∧
      Emits (fun _ sink s => catchUp grid sink span none part cursor s) gens cursor' := by
  refine catchUpKept reads (fun _ member => by cases member) part rounds cursor c plan is kept (by decide) fun _ => ?_
  have room := intRoom is
  have top := r.room
  rw [rounds]
  omega

/- Then every point of the range has been generated that is no document's. -/
theorem CaughtUp.filled {gens : List Emit} {part : Nat} {cursor : Cursor} {c : Int}
    (caught : CaughtUp r rows plan none part gens cursor c) (g : Int) :
    g ∈ pointsIn (plan ++ gens) ↔ r.OnGrid g ∧ r.Within g ∧ g ∉ valuesOf rows := by
  rw [caught.kept.points]
  refine and_congr_right fun _ => and_congr_right fun within => ⟨And.right,fun fresh => ⟨?_,fresh⟩⟩
  rcases caught.stops with done | out | ⟨_,member,_⟩
  · exact .inl done
  · refine .inr ?_
    by_contra more
    exact out (within.low (not_lt.mp more))
  · cases member

end

end Kimmy.Query.Densify
