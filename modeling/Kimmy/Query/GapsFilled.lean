import Kimmy.Query.DensifyRead
import Kimmy.Query.GridWalk

/-!
The stage. The spans are read off the rows, the walk is fed to the two sinks, and the output is the documents with the
points of the grids between them.
-/
namespace Kimmy.Query.Densify
open CanonicalCmp StableSort
open Traverse (bindOk)

/-! The rows in order. -/

instance rowTrans : Std.TransCmp fun a b : Row => canonicalCmp a.value b.value where
  eq_swap {a b} := @Std.OrientedCmp.eq_swap _ canonicalCmp _ a.value b.value
  isLE_trans {a b c} := @Std.TransCmp.isLE_trans _ canonicalCmp _ a.value b.value c.value

theorem atInt {v : Bson} (integer : (intOf v).isSome) : intOf v = some (at' v) := by
  obtain ⟨n,is⟩ := Option.isSome_iff_exists.mp integer
  rw [at', is]
  rfl

/- By value, and as they arrived where that is level. -/
def Later (x y : Row) : Prop := at' x.value < at' y.value ∨ at' x.value = at' y.value ∧ x.doc < y.doc

theorem sortedLater {r : Reading} (integers : ∀ row ∈ r.rows, (intOf row.value).isSome) (arrival : r.rows.Pairwise fun x y => x.doc < y.doc) :
    (sorted r).Pairwise Later := by
  have stable : Stable (fun a b : Row => canonicalCmp a.value b.value) r.rows (sorted r) := stableSort r.rows
  have level := levelPairs stable.order (R := fun x y => x.doc < y.doc) fun x => by
    rw [stable.ties]
    exact arrival.sublist List.filter_sublist
  refine level.imp_of_mem fun {x y} first second how => ?_
  rw [cmpInts (atInt (integers x (stable.mem.mp first))) (atInt (integers y (stable.mem.mp second)))] at how
  exact how.imp compare_lt_iff_lt.mp fun ⟨same,before⟩ => ⟨compare_eq_iff_eq.mp same,before⟩

theorem laterAscends {rows : List Row} (order : rows.Pairwise Later) : rows.Pairwise fun x y => at' x.value ≤ at' y.value := by
  refine order.imp fun how => ?_
  rcases how with less | ⟨same,_⟩
  · exact less.le
  · exact same.le

theorem sortedPerm (r : Reading) : (sorted r).Perm r.rows := List.mergeSort_perm ..

/-! The spans. -/

theorem widenSpec {found : Option (Bson × Bson)} {v : Bson} {n : Int} (is : intOf v = some n)
    (held : ∀ x ∈ found, (intOf x.1).isSome ∧ (intOf x.2).isSome) : ∃ lo hi, widen found v = some (lo,hi) ∧
      (intOf lo).isSome ∧ (intOf hi).isSome ∧ at' lo = (found.map fun x => min n (at' x.1)).getD n ∧
      at' hi = (found.map fun x => max n (at' x.2)).getD n := by
  have here : at' v = n := by rw [at', is]; rfl
  have some' : (intOf v).isSome := by rw [is]; rfl
  cases found with
  | none => exact ⟨v,v,rfl,some',some',here,here⟩
  | some pair =>
    obtain ⟨lo,hi⟩ := pair
    obtain ⟨low,high⟩ := held _ rfl
    have isLo := atInt low
    have isHi := atInt high
    refine ⟨_,_,rfl,?_,?_,?_,?_⟩
    · split_ifs
      · exact some'
      · exact low
    · split_ifs
      · exact some'
      · exact high
    · simp only [cmpInts is isLo, compare_lt_iff_lt, Option.map_some, Option.getD_some]
      split_ifs with less <;> omega
    · simp only [cmpInts is isHi, compare_gt_iff_gt, Option.map_some, Option.getD_some]
      split_ifs with more <;> omega

/- The least and the greatest value. -/
structure Reaches (rows : List Row) (lo hi : Bson) : Prop where
  low : (intOf lo).isSome
  high : (intOf hi).isSome
  least : at' lo ∈ valuesOf rows ∧ ∀ v ∈ valuesOf rows, at' lo ≤ v
  greatest : at' hi ∈ valuesOf rows ∧ ∀ v ∈ valuesOf rows, v ≤ at' hi

theorem reachSpec {rows : List Row} (integers : ∀ row ∈ rows, (intOf row.value).isSome) (some' : rows ≠ []) :
    ∃ lo hi, reach rows = some (lo,hi) ∧ Reaches rows lo hi := by
  induction rows using List.reverseRecOn with
  | nil => exact absurd rfl some'
  | append_singleton rows row ih =>
    have is := atInt (integers row (List.mem_append_right _ List.mem_cons_self))
    have values : valuesOf (rows ++ [row]) = valuesOf rows ++ [at' row.value] := List.map_append
    have last : reach (rows ++ [row]) = widen (reach rows) row.value := by
      rw [reach, List.foldl_append]
      rfl
    rw [last]
    by_cases first : rows = []
    · subst first
      refine ⟨_,_,rfl,by rw [is]; rfl,by rw [is]; rfl,⟨?_,fun v member => ?_⟩,⟨?_,fun v member => ?_⟩⟩
      · exact List.mem_singleton.mpr rfl
      · exact (List.mem_singleton.mp member).ge
      · exact List.mem_singleton.mpr rfl
      · exact (List.mem_singleton.mp member).le
    · obtain ⟨lo,hi,found,reaches⟩ := ih (fun row member => integers row (List.mem_append_left _ member)) first
      obtain ⟨lo',hi',widened,someLo,someHi,low,high⟩ := @widenSpec (reach rows) _ _ is fun x member => by
        rw [found] at member
        cases Option.mem_some_iff.mp member
        exact ⟨reaches.low,reaches.high⟩
      rw [found] at low high
      simp only [Option.map_some, Option.getD_some] at low high
      obtain ⟨inLo,least⟩ := reaches.least
      obtain ⟨inHi,greatest⟩ := reaches.greatest
      refine ⟨lo',hi',widened,someLo,someHi,?_,?_⟩
      · rw [values, low]
        refine ⟨?_,fun v member => ?_⟩
        · rcases min_choice (at' row.value) (at' lo) with same | same <;> rw [same]
          · exact List.mem_append_right _ List.mem_cons_self
          · exact List.mem_append_left _ inLo
        · rcases List.mem_append.mp member with old | new
          · exact (min_le_right _ _).trans (least v old)
          · rw [List.mem_singleton.mp new]
            exact min_le_left _ _
      · rw [values, high]
        refine ⟨?_,fun v member => ?_⟩
        · rcases max_choice (at' row.value) (at' hi) with same | same <;> rw [same]
          · exact List.mem_append_right _ List.mem_cons_self
          · exact List.mem_append_left _ inHi
        · rcases List.mem_append.mp member with old | new
          · exact (greatest v old).trans (le_max_right _ _)
          · rw [List.mem_singleton.mp new]
            exact le_max_left _ _

/- The range of one partition: from the least to the greatest value of all the documents, or of its own, that one
included; or as the bounds say, the upper one excluded unless it is the lower one. -/
def RangeOf (spec : DensifySpec) (rows : List Row) (p : Nat) (r : Range) : Prop :=
  match spec.bounds with
  | .full => IsLeast { v | v ∈ valuesOf rows } r.lo ∧ IsGreatest { v | v ∈ valuesOf rows } r.hi ∧ r.inclusive = true
  | .grouped =>
      IsLeast { v | v ∈ valuesOf (rowsOf p rows) } r.lo ∧ IsGreatest { v | v ∈ valuesOf (rowsOf p rows) } r.hi ∧
        r.inclusive = true
  | .explicit lo hi => intOf lo = some r.lo ∧ intOf hi = some r.hi ∧ r.inclusive = decide (r.lo = r.hi)

theorem memValues {rows rows' : List Row} (perm : rows.Perm rows') {v : Int} : v ∈ valuesOf rows ↔ v ∈ valuesOf rows' :=
  (perm.map _).mem_iff

theorem rowsOfPerm {rows rows' : List Row} (perm : rows.Perm rows') (p : Nat) : (rowsOf p rows).Perm (rowsOf p rows') := perm.filter _

/- A span of integers, and the range it reads as. -/
theorem spanRead {grid : Grid} {step : Int} (steps : grid.step.integer = some step) (positive : 0 < step) {lo hi : Bson}
    (low : (intOf lo).isSome) (high : (intOf hi).isSome) (inclusive : Bool) :
    ∃ r : Range, Reads grid ⟨lo,hi,inclusive⟩ r ∧ r.lo = at' lo ∧ r.hi = at' hi ∧ r.inclusive = inclusive ∧ r.step = step :=
  ⟨⟨at' lo,at' hi,inclusive,step,positive,(intRoom (atInt high)).2⟩,⟨steps,atInt low,atInt high,rfl⟩,rfl,rfl,rfl,rfl⟩

theorem integerBound {spec : DensifySpec} {step : Int} (steps : spec.step.integer = some step) {v : Bson}
    (alike : numberType v = some spec.step.numberType) : (intOf v).isSome := by
  cases is : spec.step with
  | double bits =>
    rw [is] at steps
    cases steps
  | int32 n =>
    rw [is] at alike
    cases v with
    | int32 => rfl
    | _ => cases alike
  | int64 n =>
    rw [is] at alike
    cases v with
    | int64 => rfl
    | _ => cases alike

/- Every partition has its range. -/
theorem rangeExists {spec : DensifySpec} {grid : Grid} {step : Int} (steps : spec.step.integer = some step) (same : grid.step = spec.step)
    {rows sorted : List Row} (perm : sorted.Perm rows) (integers : ∀ row ∈ rows, (intOf row.value).isSome)
    (numbers : ∀ lo hi, spec.bounds = .explicit lo hi → isDate lo = false) {n p : Nat} (small : p < n) {row : Row}
    (member : row ∈ rows) (mine : row.part = p) : ∃ span r, (spansOf spec sorted n).getD p none = some span ∧
      Reads grid span r ∧ r.step = step ∧ RangeOf spec rows p r := by
  have stepsGrid : grid.step.integer = some step := same ▸ steps
  have positive := spec.positive step steps
  rw [spansOf, List.getD_eq_getElem?_getD, List.getElem?_map, List.getElem?_range small]
  unfold RangeOf
  -- the reach of some of the rows
  have reached {some' : List Row} {all : List Row} (perm : some'.Perm all) (fits : ∀ row ∈ all, (intOf row.value).isSome)
      (held : row ∈ all) : ∃ span r, (reach some').map (fun ends => (⟨ends.1,ends.2,true⟩ : Span)) = some span ∧ Reads grid span r ∧
        r.step = step ∧ IsLeast { v | v ∈ valuesOf all } r.lo ∧ IsGreatest { v | v ∈ valuesOf all } r.hi ∧ r.inclusive = true := by
    obtain ⟨lo,hi,found,reaches⟩ := reachSpec (fun row there => fits row (perm.mem_iff.mp there))
      (List.ne_nil_of_mem (perm.mem_iff.mpr held))
    obtain ⟨r,reads,isLo,isHi,inclusive,isStep⟩ := spanRead stepsGrid positive reaches.low reaches.high true
    refine ⟨⟨lo,hi,true⟩,r,by rw [found]; rfl,reads,isStep,?_,?_,inclusive⟩
    · rw [isLo]
      exact ⟨(memValues perm).mp reaches.least.1,fun v there => reaches.least.2 v ((memValues perm).mpr there)⟩
    · rw [isHi]
      exact ⟨(memValues perm).mp reaches.greatest.1,fun v there => reaches.greatest.2 v ((memValues perm).mpr there)⟩
  cases is : spec.bounds with
  | full => exact reached perm integers member
  | grouped =>
    exact reached (rowsOfPerm perm p) (fun row there => integers row (List.mem_of_mem_filter there))
      (List.mem_filter.mpr ⟨member,decide_eq_true mine⟩)
  | explicit lo hi =>
    rcases spec.alike lo hi is with ⟨date,_⟩ | ⟨kindLo,kindHi⟩
    · rw [numbers lo hi is] at date
      cases date
    · have low := integerBound steps kindLo
      have high := integerBound steps kindHi
      obtain ⟨r,reads,isLo,isHi,inclusive,isStep⟩ := spanRead stepsGrid positive low high (canonicalCmp lo hi == .eq)
      refine ⟨_,r,rfl,reads,isStep,isLo ▸ atInt low,isHi ▸ atInt high,?_⟩
      rw [inclusive, cmpInts (atInt low) (atInt high), isLo, isHi, Bool.eq_iff_iff, beq_iff_eq, compare_eq_iff_eq, decide_eq_true_eq]

/-! The two passes. -/

theorem planLength (plan : List Emit) : plan.length = (rowsIn plan).length + (pointsIn plan).length := by
  induction plan with
  | nil => rfl
  | cons e plan ih =>
    unfold rowsIn pointsIn at *
    cases e with
    | doc row =>
      simp only [List.length_cons, List.filterMap_cons, Emit.row, Emit.point, ih]
      omega
    | generated part value =>
      simp only [List.length_cons, List.filterMap_cons, Emit.row, Emit.point, List.map_cons, ih]
      omega

theorem counts {maxDocuments : Nat} : ∀ {plan : List Emit} {total last : Nat},
    plan.foldlM (feed (countSink maxDocuments)) total = .ok last → last = total + (pointsIn plan).length := by
  intro plan
  induction plan with
  | nil =>
    intro total last ok
    cases ok
    rfl
  | cons e plan ih =>
    intro total last ok
    rw [List.foldlM_cons] at ok
    obtain ⟨next,first,ok⟩ := bindOk ok
    rw [ih ok]
    unfold pointsIn
    cases e with
    | doc row =>
      cases first
      rfl
    | generated part value =>
      simp only [feed, countSink] at first
      split_ifs at first
      cases first
      simp only [List.filterMap_cons, Emit.point, List.map_cons, List.length_cons]
      omega

/- The documents at the places of `gone` have left. -/
def Left (input : List Document) (gone : List Nat) (b : Build) : Prop :=
  ∀ i, b.docs.getD i none = if i ∈ gone then none else input[i]?

theorem leftMoved {input : List Document} {gone : List Nat} {b : Build} (left : Left input gone b) {i : Nat} {doc : Document}
    (held : input[i]? = some doc) (there : i ∉ gone) : Left input (gone ++ [i]) (b.moved i) ∧ (b.moved i).out = b.out ++ [doc] := by
  have found : b.docs.getD i none = some doc := by rw [left i, if_neg there, held]
  have inside : i < b.docs.length := by
    by_contra out
    rw [List.getD_eq_getElem?_getD, List.getElem?_eq_none (not_lt.mp out)] at found
    cases found
  unfold Build.moved
  rw [found]
  refine ⟨fun j => ?_,rfl⟩
  have before := left j
  rw [List.getD_eq_getElem?_getD] at before ⊢
  rw [List.getElem?_set]
  by_cases same : i = j
  · subst same
    simp [inside]
  · rw [if_neg same, before]
    simp [Ne.symm same]

theorem movedAll {input : List Document} : ∀ {places gone : List Nat} {b : Build}, Left input gone b → places.Nodup →
    (∀ i ∈ places, i ∉ gone ∧ ∃ doc, input[i]? = some doc) → Left input (gone ++ places) (places.foldl Build.moved b) ∧
      (places.foldl Build.moved b).out = b.out ++ places.filterMap (input[·]?) := by
  intro places
  induction places with
  | nil =>
    intro gone b left _ _
    rw [List.append_nil]
    exact ⟨left,(List.append_nil _).symm⟩
  | cons i places ih =>
    intro gone b left nodup held
    obtain ⟨fresh,nodup⟩ := List.nodup_cons.mp nodup
    obtain ⟨there,doc,is⟩ := held i List.mem_cons_self
    obtain ⟨left',out⟩ := leftMoved left is there
    obtain ⟨last,grown⟩ := ih left' nodup fun j member => by
      obtain ⟨apart,some'⟩ := held j (List.mem_cons_of_mem _ member)
      refine ⟨fun gone' => ?_,some'⟩
      rcases List.mem_append.mp gone' with old | now
      · exact apart old
      · exact fresh (List.mem_singleton.mp now ▸ member)
    rw [List.foldl_cons, List.append_cons gone, List.filterMap_cons, is]
    refine ⟨last,?_⟩
    rw [grown, out, List.append_assoc]
    rfl

/- The text of one thing put out: the document itself, or one that reads the point at the field and holds the partition
fields of a document of the partition. -/
def Writes (spec : DensifySpec) (input : List Document) (rows : List Row) (e : Emit) (text : Document) : Prop :=
  match e with
  | .doc row => input[row.doc]? = some text
  | .generated part value => readAt (.document text) (segments spec.field) = some value ∧
      ∃ row ∈ rows, row.part = part ∧ ∃ doc, input[row.doc]? = some doc ∧
        generatedDoc spec (fieldsOf doc spec.partitionFields) value = .ok text

theorem generatedReads {spec : DensifySpec} {fields text : Document} {value : Bson} (ok : generatedDoc spec fields value = .ok text) :
    readAt (.document text) (segments spec.field) = some value := by
  obtain ⟨doc,_,ok⟩ := bindOk ok
  have set := (setSpec value (segments spec.field) doc (segmentsSome _)).reads
  unfold setOr setPath at ok
  split at ok
  · rename_i after done
    cases ok
    rw [done] at set
    exact set rfl
  · cases ok

theorem builds {spec : DensifySpec} {input : List Document} {r : Reading} (inv : ReadInv spec input r) : ∀ {plan : List Emit} {gone : List Nat}
    {b last : Build}, Left input gone b → ((rowsIn plan).map Row.doc).Nodup →
    (∀ row ∈ rowsIn plan, row.doc ∉ gone ∧ ∃ doc, input[row.doc]? = some doc) → (∀ e ∈ plan, e.part < r.parts.length) →
    plan.foldlM (feed (buildSink spec r.parts)) b = .ok last →
    ∃ texts, List.Forall₂ (Writes spec input r.rows) plan texts ∧ last.out = b.out ++ texts := by
  intro plan
  induction plan with
  | nil =>
    intro gone b last _ _ _ _ ok
    cases ok
    exact ⟨[],.nil,(List.append_nil _).symm⟩
  | cons e plan ih =>
    intro gone b last left nodup held small ok
    rw [List.foldlM_cons] at ok
    obtain ⟨next,first,ok⟩ := bindOk ok
    have inside := small e List.mem_cons_self
    have others : ∀ e ∈ plan, e.part < r.parts.length := fun e member => small e (List.mem_cons_of_mem _ member)
    cases e with
    | doc row =>
      cases first
      have rows : rowsIn (.doc row :: plan) = row :: rowsIn plan := rfl
      rw [rows, List.map_cons] at nodup
      rw [rows] at held
      obtain ⟨fresh,nodup⟩ := List.nodup_cons.mp nodup
      obtain ⟨there,doc,is⟩ := held row List.mem_cons_self
      obtain ⟨left',out⟩ := leftMoved left is there
      obtain ⟨texts,writes,grown⟩ := ih left' nodup (fun other member => by
        obtain ⟨apart,some'⟩ := held other (List.mem_cons_of_mem _ member)
        refine ⟨fun gone' => ?_,some'⟩
        rcases List.mem_append.mp gone' with old | now
        · exact apart old
        · exact fresh (List.mem_singleton.mp now ▸ List.mem_map_of_mem member)) others ok
      refine ⟨doc :: texts,.cons is writes,?_⟩
      rw [grown, out, List.append_assoc]
      rfl
    | generated part value =>
      obtain ⟨doc,made,first⟩ := bindOk first
      cases first
      have left' : Left input gone { b with out := b.out ++ [doc] } := left
      obtain ⟨texts,writes,grown⟩ := ih left' nodup held others ok
      have is := List.getElem?_eq_getElem inside
      obtain ⟨row,member,mine,d,there,fields⟩ := inv.used part _ is
      rw [show r.parts[part]? = _ from is, Option.map_some, Option.getD_some, fields] at made
      refine ⟨doc :: texts,.cons ⟨generatedReads made,row,member,mine,d,there,made⟩ writes,?_⟩
      rw [grown, List.append_assoc]
      rfl

/-! The stage. -/

theorem memValued {spec : DensifySpec} {input : List Document} {i : Nat} {v : Bson} :
    (i,v) ∈ valued spec input ↔ ∃ doc, input[i]? = some doc ∧ fieldValue spec doc = some v := by
  unfold valued
  rw [List.mem_filterMap]
  constructor
  · rintro ⟨⟨doc,j⟩,member,is⟩
    obtain ⟨w,value,same⟩ := Option.map_eq_some_iff.mp is
    cases same
    exact ⟨doc,List.mem_zipIdx_iff_getElem?.mp member,value⟩
  · rintro ⟨doc,held,value⟩
    exact ⟨(doc,i),List.mem_zipIdx_iff_getElem?.mpr held,by rw [value]; rfl⟩

theorem memUnvalued {spec : DensifySpec} {input : List Document} {i : Nat} :
    i ∈ unvalued spec input ↔ ∃ doc, input[i]? = some doc ∧ fieldValue spec doc = none := by
  unfold unvalued
  rw [List.mem_filterMap]
  constructor
  · rintro ⟨⟨doc,j⟩,member,is⟩
    obtain ⟨missing,same⟩ := Option.ite_none_right_eq_some.mp is
    cases same
    exact ⟨doc,List.mem_zipIdx_iff_getElem?.mp member,Option.isNone_iff_eq_none.mp missing⟩
  · rintro ⟨doc,held,missing⟩
    exact ⟨(doc,i),List.mem_zipIdx_iff_getElem?.mpr held,by simp [missing]⟩

theorem placesAscend (input : List Document) : input.zipIdx.Pairwise fun x y => x.2 < y.2 := by
  have places : (input.zipIdx.map Prod.snd).Pairwise (· < ·) := by
    rw [List.zipIdx_map_snd]
    exact List.pairwise_lt_range'
  exact List.pairwise_map.mp places

theorem unvaluedAscends (spec : DensifySpec) (input : List Document) : (unvalued spec input).Pairwise (· < ·) := by
  refine List.Pairwise.filterMap _ (fun x y less i isI j isJ => ?_) (placesAscend input)
  obtain ⟨_,same⟩ := Option.ite_none_right_eq_some.mp isI
  obtain ⟨_,same'⟩ := Option.ite_none_right_eq_some.mp isJ
  cases same
  cases same'
  exact less

theorem valuedAscends (spec : DensifySpec) (input : List Document) : (valued spec input).Pairwise fun x y => x.1 < y.1 := by
  refine List.Pairwise.filterMap _ (fun x y less i isI j isJ => ?_) (placesAscend input)
  obtain ⟨_,_,rfl⟩ := Option.map_eq_some_iff.mp isI
  obtain ⟨_,_,rfl⟩ := Option.map_eq_some_iff.mp isJ
  exact less

theorem readLength (spec : DensifySpec) (input : List Document) : (unvalued spec input).length + (valued spec input).length = input.length := by
  unfold unvalued valued
  rw [← List.length_zipIdx (l := input)]
  induction input.zipIdx with
  | nil => rfl
  | cons x rest ih =>
    rw [List.filterMap_cons, List.filterMap_cons, List.length_cons, ← ih]
    cases fieldValue spec x.1 with
    | none =>
      simp only [Option.isNone_none, if_true, Option.map_none, List.length_cons]
      omega
    | some v =>
      simp only [Option.isNone_some, Bool.false_eq_true, if_false, Option.map_some, List.length_cons]
      omega

theorem foundLength {α β : Type} {f : α → Option β} : ∀ {l : List α}, (∀ x ∈ l, (f x).isSome) → (l.filterMap f).length = l.length
  | [], _ => rfl
  | x :: l, found => by
      obtain ⟨y,is⟩ := Option.isSome_iff_exists.mp (found x List.mem_cons_self)
      rw [List.filterMap_cons, is, List.length_cons, List.length_cons,
        foundLength fun z member => found z (List.mem_cons_of_mem _ member)]

/- One partition as it is put out: its documents, each once, by value and as they arrived; its points, each once, at
every point of the grid in the range that no document of it has; all ascending. -/
structure Fills (r : Range) (rows : List Row) (plan : List Emit) : Prop where
  docs : (rowsIn plan).Perm rows
  arrival : (rowsIn plan).Pairwise Later
  order : plan.Pairwise fun x y => x.at' ≤ y.at'
  points : ∀ g, g ∈ pointsIn plan ↔ r.OnGrid g ∧ r.Within g ∧ g ∉ valuesOf rows
  once : (pointsIn plan).Pairwise (· < ·)

theorem Laid.fills {r : Range} {rows sorted : List Row} {plan : List Emit} (laid : Laid r sorted plan) (perm : sorted.Perm rows)
    (order : sorted.Pairwise Later) : Fills r rows plan := by
  refine ⟨laid.docs ▸ perm,laid.docs ▸ order,laid.order,fun g => ?_,laid.once⟩
  rw [laid.points, memValues perm]

theorem checkNumbers {spec : DensifySpec} {dates : Option Bool} (numeric : dates = some false) (ok : checkKinds spec dates = .ok ())
    (lo hi : Bson) (is : spec.bounds = .explicit lo hi) : isDate lo = false := by
  subst numeric
  unfold checkKinds at ok
  simp only [is] at ok
  cases unit : spec.unit with
  | none =>
    rw [unit] at ok
    simp only at ok
    split_ifs at ok with other
    exact Bool.eq_false_of_not_eq_true fun date => other (by rw [date]; exact Bool.noConfusion)
  | some u =>
    rw [unit] at ok
    cases ok

theorem readParts {spec : DensifySpec} {input : List Document} {r : Reading} (inv : ReadInv spec input r) {x y : Row} (first : x ∈ r.rows)
    (second : y ∈ r.rows) {d e : Document} (isX : input[x.doc]? = some d) (isY : input[y.doc]? = some e) :
    x.part = y.part ↔ keyOf spec d = keyOf spec e := by
  obtain ⟨d',heldX,filedX⟩ := inv.filed x first
  obtain ⟨e',heldY,filedY⟩ := inv.filed y second
  cases isX.symm.trans heldX
  cases isY.symm.trans heldY
  constructor
  · intro same
    rw [same] at filedX
    exact inv.apart _ _ _ filedX filedY
  · intro same
    rw [same] at filedX
    exact Option.some.inj (filedX.symm.trans filedY)

/- The gaps are filled, and nothing else is added. -/
theorem fillsGaps {spec : DensifySpec} {elsewhere : Bson → Except Failure (Option Bson)} {maxDocuments : Nat} {input out : List Document}
    {step : Int} (steps : spec.step.integer = some step)
    (integers : ∀ doc ∈ input, ∀ v, fieldValue spec doc = some v → (intOf v).isSome)
    (ok : apply spec elsewhere maxDocuments input = .ok out) : ∃ rows plan texts,
      rows.map (fun row => (row.doc,row.value)) = valued spec input ∧
      (∀ x ∈ rows, ∀ y ∈ rows, ∀ d e, input[x.doc]? = some d → input[y.doc]? = some e →
        (x.part = y.part ↔ keyOf spec d = keyOf spec e)) ∧
      out = (unvalued spec input).filterMap (input[·]?) ++ texts ∧ List.Forall₂ (Writes spec input rows) plan texts ∧
      (rowsIn plan).Perm rows ∧ (∀ e ∈ plan, ∃ row ∈ rows, row.part = e.part) ∧
      (∀ row ∈ rows, ∃ r : Range, r.step = step ∧ RangeOf spec rows row.part r ∧
        Fills r (rowsOf row.part rows) (ofPart row.part plan)) ∧
      ∃ reading, readAll spec input = .ok reading ∧ count spec elsewhere maxDocuments reading = .ok out.length := by
  obtain ⟨r,read,ok⟩ := bindOk ok
  obtain ⟨_,kinds,ok⟩ := bindOk ok
  obtain ⟨total,counted,ok⟩ := bindOk ok
  obtain ⟨built,build,done⟩ := bindOk ok
  cases done
  have inv : ReadInv spec ([] ++ input) r := readAllSpec (readStart spec) read
  rw [List.nil_append] at inv
  have valueOf {row : Row} (member : row ∈ r.rows) : ∃ doc, input[row.doc]? = some doc ∧ fieldValue spec doc = some row.value :=
    memValued.mp (inv.rows ▸ List.mem_map_of_mem (f := fun row : Row => (row.doc,row.value)) member)
  have whole : ∀ row ∈ r.rows, (intOf row.value).isSome := fun row member => by
    obtain ⟨doc,held,value⟩ := valueOf member
    exact integers doc (List.mem_of_getElem? held) _ value
  have arrival : r.rows.Pairwise fun x y => x.doc < y.doc := by
    have ascends := valuedAscends spec input
    rwa [← inv.rows, List.pairwise_map] at ascends
  have later := sortedLater whole arrival
  have perm := sortedPerm r
  have small : ∀ row ∈ r.rows, row.part < r.parts.length := fun row member => by
    obtain ⟨doc,_,filed⟩ := inv.filed row member
    exact inv.small _ _ filed
  -- every partition was filed by a document of it
  have own : ∀ p < r.parts.length, ∃ row ∈ r.rows, row.part = p := fun p inside => by
    obtain ⟨row,member,is,_⟩ := inv.used p _ (List.getElem?_eq_getElem inside)
    exact ⟨row,member,is⟩
  have ranged : ∀ p, ∃ range : Range, p < r.parts.length → ∃ span, (spansOf spec (sorted r) r.parts.length).getD p none = some span ∧
      Reads ⟨spec.step,elsewhere⟩ span range ∧ range.step = step ∧ RangeOf spec r.rows p range := by
    intro p
    by_cases inside : p < r.parts.length
    · obtain ⟨row,member,mine⟩ := own p inside
      have numeric : r.dates = some false := by
        rw [inv.dates row member]
        have is := whole row member
        cases value : row.value with
        | dateTime t =>
          rw [value] at is
          cases is
        | _ => rfl
      obtain ⟨span,range,held,reads,isStep,isRange⟩ := @rangeExists spec ⟨spec.step,elsewhere⟩ step steps rfl _ _ perm
        whole (checkNumbers numeric kinds) _ _ inside _ member mine
      exact ⟨range,fun _ => ⟨span,held,reads,isStep,isRange⟩⟩
    · exact ⟨⟨0,0,true,step,spec.positive step steps,by decide⟩,fun small => absurd small inside⟩
  choose ranges isRange using ranged
  have spanned : Spanned ⟨spec.step,elsewhere⟩ r.parts.length (spansOf spec (sorted r) r.parts.length) ranges :=
    ⟨fun p inside => (isRange p inside).imp fun _ held => ⟨held.1,held.2.1⟩⟩
  have fits : ∀ row ∈ sorted r, row.part < r.parts.length ∧ (intOf row.value).isSome :=
    fun row member => ⟨small row (perm.mem_iff.mp member),whole row (perm.mem_iff.mp member)⟩
  obtain ⟨plan,walks,docs,parts,laid⟩ := walkPlan spanned (by rw [spansOf, List.length_map, List.length_range]) fits (laterAscends later)
    (List.mergeSort_perm ..) spec.bounds
  have every := docs.trans perm
  -- the second pass
  have start : Left input [] ⟨r.docs.map some,[]⟩ := fun i => by
    rw [if_neg List.not_mem_nil, List.getD_eq_getElem?_getD, List.getElem?_map, inv.docs]
    cases input[i]? <;> rfl
  have passes : ∀ i ∈ r.passthrough, i ∉ ([] : List Nat) ∧ ∃ doc, input[i]? = some doc := fun i member => by
    rw [inv.passthrough] at member
    obtain ⟨doc,held,_⟩ := memUnvalued.mp member
    exact ⟨List.not_mem_nil,doc,held⟩
  have nodup : r.passthrough.Nodup := inv.passthrough ▸ (unvaluedAscends spec input).imp fun less => less.ne
  obtain ⟨left,led⟩ := movedAll start nodup passes
  have once : ((rowsIn plan).map Row.doc).Nodup :=
    (every.map Row.doc).nodup_iff.mpr (List.pairwise_map.mpr (arrival.imp fun less => less.ne))
  have stay : ∀ row ∈ rowsIn plan, row.doc ∉ [] ++ r.passthrough ∧ ∃ doc, input[row.doc]? = some doc := fun row member => by
    obtain ⟨doc,held,value⟩ := valueOf (every.mem_iff.mp member)
    refine ⟨fun gone => ?_,doc,held⟩
    rw [List.nil_append, inv.passthrough] at gone
    obtain ⟨other,held',missing⟩ := memUnvalued.mp gone
    cases held.symm.trans held'
    exact absurd (value.symm.trans missing) nofun
  have build' := (walks Build _ _).symm.trans build
  obtain ⟨texts,writes,out⟩ := builds inv left once stay parts build'
  rw [led, List.nil_append, inv.passthrough] at out
  refine ⟨r.rows,plan,texts,inv.rows,fun x first y second d e isX isY => readParts inv first second isX isY,out,writes,every,
    fun e member => own _ (parts e member),fun row member => ?_,r,read,?_⟩
  · obtain ⟨_,_,_,isStep,isRange⟩ := isRange row.part (small row member)
    exact ⟨ranges row.part,isStep,isRange,
      (laid row.part (small row member)).fills (rowsOfPerm perm row.part) (later.sublist List.filter_sublist)⟩
  · have total' := counts ((walks Nat _ _).symm.trans counted)
    have size : texts.length = plan.length := writes.length_eq.symm
    have valuedLength : r.rows.length = (valued spec input).length := by rw [← inv.rows, List.length_map]
    have passed : ((unvalued spec input).filterMap (input[·]?)).length = (unvalued spec input).length := by
      refine foundLength fun i member => ?_
      obtain ⟨doc,held,_⟩ := memUnvalued.mp member
      rw [held]
      rfl
    have sum := readLength spec input
    have lengths := planLength plan
    have rowsLength := every.length_eq
    rw [counted, out, List.length_append, passed, size]
    congr 1
    rw [total', inv.docs]
    omega

/- The even numbers from nought to below five, with a document at two and one that has no value. -/
def evens : DensifySpec where
  field := "x"
  partitionFields := []
  step := .int32 2
  unit := none
  bounds := .explicit (.int32 0) (.int32 5)
  positive n is := by
    cases is
    decide
  ordered lo hi is := by
    cases is
    decide
  alike lo hi is := by
    cases is
    exact .inr ⟨rfl,rfl⟩

def oneInside : List Document := [[("x",.int32 2)],[]]

def succeeds {α : Type} : Except Failure α → Bool
  | .ok _ => true
  | .error _ => false

theorem evensFilled : ∃ out, apply evens (fun _ => .error .stuck) 100 oneInside = .ok out ∧ ∃ rows plan texts,
    rows.map (fun row => (row.doc,row.value)) = valued evens oneInside ∧
    out = (unvalued evens oneInside).filterMap (oneInside[·]?) ++ texts ∧ List.Forall₂ (Writes evens oneInside rows) plan texts ∧
    ∀ row ∈ rows, ∃ r : Range, r.step = 2 ∧ RangeOf evens rows row.part r ∧
      Fills r (rowsOf row.part rows) (ofPart row.part plan) := by
  have runs : succeeds (apply evens (fun _ => .error .stuck) 100 oneInside) = true := by decide +kernel
  generalize is : apply evens (fun _ => .error .stuck) 100 oneInside = outcome at runs
  cases outcome with
  | error _ => cases runs
  | ok out =>
    have integers : ∀ doc ∈ oneInside, ∀ v, fieldValue evens doc = some v → (intOf v).isSome := by
      intro doc member v value
      rcases List.mem_cons.mp member with rfl | later
      · have held : fieldValue evens [("x",.int32 2)] = some (.int32 2) := by decide +kernel
        cases held.symm.trans value
        rfl
      · have none : fieldValue evens [] = none := by decide +kernel
        rw [List.mem_singleton.mp later, none] at value
        cases value
    obtain ⟨rows,plan,texts,read,_,written,writes,_,_,filled,_⟩ := @fillsGaps evens (fun _ => .error .stuck) 100 oneInside out 2 rfl integers is
    exact ⟨out,rfl,rows,plan,texts,read,written,writes,filled⟩

end Kimmy.Query.Densify
