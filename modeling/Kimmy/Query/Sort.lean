import Kimmy.KeyOrder
import Kimmy.Ranking
import Kimmy.StableSort
import Kimmy.Store.Document

/-!
Sorting documents (`shape.rs`): the keys a document sorts by, the sort in runs that are merged pairwise, and the
bounded heap that keeps the first documents of the sort. Both give what the standard stable sort gives.
-/
namespace Kimmy.Query.Shape
open CanonicalCmp KeyOrder StableSort

structure SortKey where
  path : String
  descending : Bool

/-! What a document sorts by. -/

/- `min_by` keeps the first of equal ones, `max_by` the last. -/
def minBy (cmp : Bson → Bson → Ordering) : List Bson → Option Bson
  | [] => none
  | x :: rest => some (rest.foldl (fun best y => if cmp best y = .gt then y else best) x)

def maxBy (cmp : Bson → Bson → Ordering) : List Bson → Option Bson
  | [] => none
  | x :: rest => some (rest.foldl (fun best y => if cmp best y = .gt then best else y) x)

/- A terminal array sorts by its elements. -/
def candidates (value : Bson) : List Bson :=
  match value with
  | .array (item :: items) => item :: items
  | other => [other]

def sortValue (doc : Document) (path : String) (descending : Bool) : Bson :=
  match resolve doc path with
  | [] => .null
  | values =>
      let best := if descending then maxBy canonicalCmp (values.flatMap candidates)
        else minBy canonicalCmp (values.flatMap candidates)
      best.getD .null

def compare : List SortKey → Document → Document → Ordering
  | [], _, _ => .eq
  | key :: keys, a, b =>
      match canonicalCmp (sortValue a key.path key.descending) (sortValue b key.path key.descending) with
      | .eq => compare keys a b
      | ordering => if key.descending then ordering.swap else ordering

def sortKeys (keys : List SortKey) (doc : Document) : List Bson :=
  keys.map fun key => sortValue doc key.path key.descending

/- The same, over values already taken; it stops where either side has no more. -/
def compareKeys : List SortKey → List Bson → List Bson → Ordering
  | key :: keys, va :: a, vb :: b =>
      match canonicalCmp va vb with
      | .eq => compareKeys keys a b
      | ordering => if key.descending then ordering.swap else ordering
  | _, _, _ => .eq

theorem compareKeysTaken (keys : List SortKey) (a b : Document) :
    compareKeys keys (sortKeys keys a) (sortKeys keys b) = compare keys a b := by
  induction keys with
  | nil => rfl
  | cons key keys ih =>
    unfold sortKeys at ih
    simp only [sortKeys, List.map_cons, compareKeys, compare, ih]

theorem compareLexes (key : SortKey) (keys : List SortKey) :
    compare (key :: keys) = compareLex
      (fun a b => directed canonicalCmp key.descending (sortValue a key.path key.descending) (sortValue b key.path key.descending))
      (compare keys) := by
  funext a b
  simp only [compareLex, directed, compare]
  generalize canonicalCmp (sortValue a key.path key.descending) (sortValue b key.path key.descending) = ordering
  cases ordering <;> cases key.descending <;> rfl

instance compareTrans (keys : List SortKey) : Std.TransCmp (compare keys) := by
  induction keys with
  | nil => exact { eq_swap := rfl, isLE_trans := fun _ _ => rfl }
  | cons key keys ih =>
    have values : Std.TransCmp fun a b : Document => directed canonicalCmp key.descending
        (sortValue a key.path key.descending) (sortValue b key.path key.descending) :=
      { eq_swap := Std.OrientedCmp.eq_swap, isLE_trans := Std.TransCmp.isLE_trans }
    rw [compareLexes]
    infer_instance

/-! The sort in runs. -/

/- A document with its keys. -/
structure Keyed (keys : List SortKey) where
  sort : List Bson
  doc : Document
  taken : sort = sortKeys keys doc

variable {keys : List SortKey}

def Keyed.of (keys : List SortKey) (doc : Document) : Keyed keys := ⟨sortKeys keys doc,doc,rfl⟩

def Keyed.cmp (a b : Keyed keys) : Ordering := compareKeys keys a.sort b.sort

/- `sort`: in place, all at once. -/
def sort (keys : List SortKey) (docs : List Document) : List Document :=
  if keys.isEmpty then docs else sortBy (compare keys) docs

/- How many documents a run has: at least one, since the standard library has no chunks of none. -/
structure Width where
  size : Nat
  positive : 0 < size

def sortRun : Width := ⟨4096,by decide⟩

/- Each run sorted by itself. -/
def sortRuns (width : Width) (keyed : List (Keyed keys)) : List (Keyed keys) :=
  if keyed.length = 0 then []
  else sortBy Keyed.cmp (keyed.take width.size) ++ sortRuns width (keyed.drop width.size)
termination_by keyed.length
decreasing_by
  have := width.positive
  rw [List.length_drop]
  omega

/- One pass of `merge_runs`: two runs at a time, as long as there are any. -/
def mergePass (width : Width) (keyed : List (Keyed keys)) : List (Keyed keys) :=
  if keyed.length = 0 then []
  else
    let rest := keyed.drop width.size
    mergeTwo Keyed.cmp (keyed.take width.size) (rest.take width.size) ++ mergePass width (rest.drop width.size)
termination_by keyed.length
decreasing_by
  have := width.positive
  rw [List.length_drop, List.length_drop]
  omega

/- The runs of twice the length. A vector is shorter than `2 ^ 63`, so the doubling stays in its word. -/
def Width.twice (width : Width) : Width := ⟨width.size * 2,by have := width.positive; omega⟩

def mergeRuns (total : Nat) (width : Width) (keyed : List (Keyed keys)) : List (Keyed keys) :=
  if width.size < total then mergeRuns total width.twice (mergePass width keyed) else keyed
termination_by total - width.size
decreasing_by
  have := width.positive
  simp only [Width.twice]
  omega

def sortKeyed (width : Width) (keys : List SortKey) (docs : List Document) : List Document :=
  if keys.isEmpty then docs
  else
    let keyed := sortRuns width (docs.map (Keyed.of keys))
    (mergeRuns keyed.length width keyed).map Keyed.doc

def sortUntilDeadline (keys : List SortKey) (docs : List Document) : List Document := sortKeyed sortRun keys docs

theorem Keyed.cmpDocs (a b : Keyed keys) : a.cmp b = compare keys a.doc b.doc := by
  rw [Keyed.cmp, a.taken, b.taken, compareKeysTaken]

instance keyedTrans : Std.TransCmp (Keyed.cmp : Keyed keys → Keyed keys → Ordering) := by
  have same : (Keyed.cmp : Keyed keys → Keyed keys → Ordering) = fun a b => compare keys a.doc b.doc :=
    funext fun a => funext fun b => a.cmpDocs b
  rw [same]
  exact { eq_swap := Std.OrientedCmp.eq_swap, isLE_trans := Std.TransCmp.isLE_trans }

/- The list as runs of `n`, the last one perhaps shorter, each the stable sort of the documents that came in its place. -/
inductive Runs (n : Nat) : List (Keyed keys) → List (Keyed keys) → Prop where
  | last {xs ys} : xs.length ≤ n → Stable Keyed.cmp xs ys → ys.length = xs.length → Runs n xs ys
  | more {xs ys rest out} : xs.length = n → Stable Keyed.cmp xs ys → ys.length = n → Runs n rest out →
      Runs n (xs ++ rest) (ys ++ out)

theorem runsSorted (width : Width) : ∀ (keyed : List (Keyed keys)), Runs width.size keyed (sortRuns width keyed) := by
  intro keyed
  induction keyed using sortRuns.induct width with
  | case1 keyed empty =>
    rw [sortRuns, if_pos empty, List.length_eq_zero_iff.mp empty]
    exact .last (Nat.zero_le _) .nil rfl
  | case2 keyed some ih =>
    rw [sortRuns, if_neg some]
    have sorted := @stableSort _ Keyed.cmp _ (keyed.take width.size)
    have length : (sortBy Keyed.cmp (keyed.take width.size)).length = (keyed.take width.size).length := List.length_mergeSort _
    rcases Nat.lt_or_ge keyed.length width.size with short | long
    · have none : keyed.drop width.size = [] := List.drop_eq_nil_of_le short.le
      rw [none, sortRuns, if_pos List.length_nil, List.append_nil]
      rw [List.take_of_length_le short.le] at sorted length ⊢
      exact .last short.le sorted length
    · have size : (keyed.take width.size).length = width.size := by
        rw [List.length_take]
        omega
      have joined := Runs.more size sorted (length.trans size) ih
      rwa [List.take_append_drop] at joined

theorem mergePassCons (width : Width) {left rest : List (Keyed keys)} (full : left.length = width.size) :
    mergePass width (left ++ rest) =
      mergeTwo Keyed.cmp left (rest.take width.size) ++ mergePass width (rest.drop width.size) := by
  have := width.positive
  have some : (left ++ rest).length ≠ 0 := by
    rw [List.length_append]
    omega
  rw [mergePass, if_neg some, ← full, List.take_left', List.drop_left'] <;> rfl

theorem mergePassNil (width : Width) : mergePass width ([] : List (Keyed keys)) = [] := by
  rw [mergePass, if_pos List.length_nil]

theorem mergeTwoLength (a b : List (Keyed keys)) : (mergeTwo Keyed.cmp a b).length = a.length + b.length :=
  List.length_merge ..

/- A last run goes with the one before it, or stays by itself. -/
theorem mergePassRuns (width : Width) : ∀ (n : Nat) {list runs : List (Keyed keys)}, list.length ≤ n →
    Runs width.size list runs → Runs width.twice.size list (mergePass width runs) := by
  have positive := width.positive
  have double : width.twice.size = width.size * 2 := rfl
  intro n
  induction n using Nat.strong_induction_on with
  | _ n ih =>
  intro list runs bound held
  cases held with
  | last short stable length =>
    by_cases empty : runs.length = 0
    · rw [mergePass, if_pos empty]
      rw [List.length_eq_zero_iff.mp empty] at stable length
      exact .last (by omega) stable length
    · have none : runs.drop width.size = [] := List.drop_eq_nil_of_le (by omega)
      have whole : runs.take width.size = runs := List.take_of_length_le (by omega)
      rw [mergePass, if_neg empty]
      simp only [none, whole, List.take_nil, List.drop_nil, mergePassNil, List.append_nil]
      have alone := stableMerge stable (@Stable.nil _ Keyed.cmp)
      rw [List.append_nil] at alone
      refine .last (by omega) alone ?_
      rw [mergeTwoLength]
      exact length
  | @more xs ys rest out size stable length tail =>
    rw [mergePassCons width length]
    cases tail with
    | last short stable' length' =>
      have none : out.drop width.size = [] := List.drop_eq_nil_of_le (by omega)
      have whole : out.take width.size = out := List.take_of_length_le (by omega)
      rw [none, whole, mergePassNil, List.append_nil]
      refine .last ?_ (stableMerge stable stable') ?_
      · rw [List.length_append]
        omega
      · rw [mergeTwoLength, List.length_append]
        omega
    | @more xs' ys' rest' out' size' stable' length' tail' =>
      rw [List.take_left' length', List.drop_left' length']
      have less : rest'.length < n := by
        rw [List.length_append, List.length_append] at bound
        omega
      have next := ih rest'.length less le_rfl tail'
      rw [← List.append_assoc]
      refine .more ?_ (stableMerge stable stable') ?_ next
      · rw [List.length_append]
        omega
      · rw [mergeTwoLength]
        omega

theorem runsLength {n : Nat} {list runs : List (Keyed keys)} (held : Runs n list runs) : runs.length = list.length := by
  induction held with
  | last _ _ length => exact length
  | more size _ length _ ih => rw [List.length_append, List.length_append, ih, size, length]

theorem runsWhole {n : Nat} {list runs : List (Keyed keys)} (held : Runs n list runs) (long : list.length ≤ n) :
    Stable Keyed.cmp list runs := by
  cases held with
  | last _ stable _ => exact stable
  | @more xs ys rest out size stable length tail =>
    rw [List.length_append] at long
    have same := runsLength tail
    have none : rest = [] := List.length_eq_zero_iff.mp (by omega)
    have nothing : out = [] := List.length_eq_zero_iff.mp (by omega)
    rw [none, nothing, List.append_nil, List.append_nil]
    exact stable

theorem mergeRunsStable (total : Nat) : ∀ (width : Width) (runs list : List (Keyed keys)), list.length = total →
    Runs width.size list runs → Stable Keyed.cmp list (mergeRuns total width runs) := by
  intro width runs
  induction width, runs using mergeRuns.induct total with
  | case1 width runs more ih =>
    intro list length held
    rw [mergeRuns, if_pos more]
    exact ih list length (mergePassRuns width _ le_rfl held)
  | case2 width runs done =>
    intro list length held
    rw [mergeRuns, if_neg done]
    exact runsWhole held (by omega)

/-! Documents under their keys. -/

theorem stableDocs {list sorted : List (Keyed keys)} (stable : Stable Keyed.cmp list sorted) :
    Stable (compare keys) (list.map Keyed.doc) (sorted.map Keyed.doc) := by
  refine ⟨List.pairwise_map.mpr (stable.order.imp fun {a b} below => ?_),fun doc => ?_⟩
  · rw [← Keyed.cmpDocs]
    exact below
  · have ties := stable.ties (Keyed.of keys doc)
    have same (l : List (Keyed keys)) : ranked (compare keys) doc (l.map Keyed.doc) = (ranked Keyed.cmp (Keyed.of keys doc) l).map Keyed.doc := by
      unfold ranked
      rw [List.filter_map]
      congr 1
      refine List.filter_congr fun x _ => ?_
      rw [Keyed.cmpDocs]
      rfl
    rw [same, same, ties]

theorem sortKeyedStable (width : Width) (keys : List SortKey) (docs : List Document) :
    Stable (compare keys) docs (sortKeyed width keys docs) := by
  unfold sortKeyed
  split_ifs with none
  · rw [List.isEmpty_iff.mp none]
    exact ⟨List.pairwise_of_forall fun _ _ => rfl,fun _ => rfl⟩
  · have stable := mergeRunsStable _ width _ _ rfl (runsSorted width (docs.map (Keyed.of keys)))
    have docsBack : (docs.map (Keyed.of keys)).map Keyed.doc = docs := by
      rw [List.map_map]
      exact List.map_id docs
    have result := stableDocs stable
    rw [docsBack] at result
    simp only [runsLength (runsSorted width _)]
    exact result

/-! The first documents of a sort, kept as the documents arrive. -/

/- A document the heap holds. Arrival breaks a tie between equal keys. -/
structure Ranked (keys : List SortKey) extends Keyed keys where
  arrival : Nat

def Ranked.cmpKeys (a b : Ranked keys) : Ordering := a.toKeyed.cmp b.toKeyed

def Ranked.cmp (a b : Ranked keys) : Ordering := (a.cmpKeys b).then (Ord.compare a.arrival b.arrival)

/- The heap by what it holds, in order: the greatest, on top, is the last. -/
structure TopK (keys : List SortKey) where
  keep : Nat
  heap : List (Ranked keys)
  arrived : Nat
  peak : Nat

namespace TopK

def new (keys : List SortKey) (keep : Nat) : TopK keys := ⟨keep,[],0,0⟩

/- `none` is a full heap that holds nothing. -/
def offer (t : TopK keys) (doc : Document) : Option (TopK keys) :=
  let entry : Ranked keys := ⟨.of keys doc,t.arrived⟩
  let t := { t with arrived := t.arrived + 1 }
  if t.keep = 0 then some t
  else if t.heap.length = t.keep then do
    let last ← t.heap.getLast?
    some (if entry.cmpKeys last ≠ .lt then t else { t with heap := Ranking.place Ranked.cmp entry t.heap.dropLast })
  else
    let heap := Ranking.place Ranked.cmp entry t.heap
    some { t with heap, peak := max t.peak heap.length }

def intoSorted (t : TopK keys) : List Document := t.heap.map fun ranked => ranked.doc

end TopK

instance rankedKeysTrans : Std.TransCmp (Ranked.cmpKeys : Ranked keys → Ranked keys → Ordering) where
  eq_swap {a b} := @Std.OrientedCmp.eq_swap _ (Keyed.cmp : Keyed keys → Keyed keys → Ordering) _ a.toKeyed b.toKeyed
  isLE_trans {a b c} := @Std.TransCmp.isLE_trans _ (Keyed.cmp : Keyed keys → Keyed keys → Ordering) _ a.toKeyed b.toKeyed c.toKeyed

instance rankedTrans : Std.TransCmp (Ranked.cmp : Ranked keys → Ranked keys → Ordering) :=
  inferInstanceAs (Std.TransCmp (compareLex Ranked.cmpKeys (compareOn Ranked.arrival)))

/- One that arrives last goes behind all that are not above it. -/
theorem placeMerges {x : Ranked keys} : ∀ {sorted : List (Ranked keys)}, (∀ y ∈ sorted, y.arrival < x.arrival) →
    Ranking.place Ranked.cmp x sorted = mergeTwo Ranked.cmpKeys sorted [x] := by
  intro sorted
  induction sorted with
  | nil => exact fun _ => by simp [Ranking.place, mergeTwo]
  | cons y rest ih =>
    intro earlier
    have later : Ord.compare x.arrival y.arrival = .gt := compare_gt_iff_gt.mpr (earlier y List.mem_cons_self)
    have tail := ih fun z member => earlier z (List.mem_cons_of_mem _ member)
    unfold mergeTwo at *
    rw [List.cons_merge_cons, Ranking.place, Ranked.cmp, later]
    cases x.cmpKeys y with
    | lt => simp
    | eq => simp [tail]
    | gt => simp [tail]

/- The heap is the front of the sort of what has arrived. -/
structure TopK.Front (docs : List Document) (t : TopK keys) (sorted : List (Ranked keys)) : Prop where
  arrived : t.arrived = docs.length
  stable : Stable (compare keys) docs (sorted.map fun ranked => ranked.doc)
  ranked : Ranking.Ranked Ranked.cmp sorted
  earlier : ∀ x ∈ sorted, x.arrival < t.arrived
  heap : t.heap = sorted.take t.keep
  peak : t.peak ≤ t.keep

theorem mergeDocs (sorted : List (Ranked keys)) (x : Ranked keys) :
    (mergeTwo Ranked.cmpKeys sorted [x]).map (fun ranked => ranked.doc) =
      mergeTwo (compare keys) (sorted.map fun ranked => ranked.doc) [x.doc] := by
  unfold mergeTwo
  refine List.map_merge fun a _ b _ => ?_
  rw [Ranked.cmpKeys, Keyed.cmpDocs]

theorem stableOne (doc : Document) : Stable (compare keys) [doc] [doc] := ⟨List.pairwise_singleton ..,fun _ => rfl⟩

theorem splitAt {list : List (Ranked keys)} {k : Nat} (some : 0 < k) (enough : k ≤ list.length) :
    ∃ before last rest, list = before ++ last :: rest ∧ before.length + 1 = k := by
  have inside : k - 1 < list.length := by omega
  refine ⟨list.take (k - 1),list[k - 1],list.drop (k - 1 + 1),?_,?_⟩
  · rw [List.getElem_cons_drop, List.take_append_drop]
  · rw [List.length_take]
    omega

/- What is not below the last of the heap is past it all. -/
theorem pastFront {before rest : List (Ranked keys)} {last x : Ranked keys}
    (ranked : Ranking.Ranked Ranked.cmp (before ++ last :: rest)) (earlier : ∀ y ∈ before ++ last :: rest, y.arrival < x.arrival)
    (stays : x.cmpKeys last ≠ .lt) : ∀ y ∈ before ++ [last], Ranked.cmp x y = .gt := by
  have pastLast : Ranked.cmp x last = .gt := by
    have later : Ord.compare x.arrival last.arrival = .gt :=
      compare_gt_iff_gt.mpr (earlier last (List.mem_append_right _ List.mem_cons_self))
    rw [Ranked.cmp, later]
    cases is : x.cmpKeys last with
    | lt => exact absurd is stays
    | eq => rfl
    | gt => rfl
  intro y member
  rcases List.mem_append.mp member with inside | only
  · have below := (List.pairwise_append.mp ranked).2.2 y inside last List.mem_cons_self
    exact Std.TransCmp.gt_trans pastLast (Std.OrientedCmp.gt_iff_lt.mpr below)
  · rw [List.mem_singleton.mp only]
    exact pastLast

theorem offerFront {docs : List Document} {t : TopK keys} {sorted : List (Ranked keys)} (front : t.Front docs sorted)
    (doc : Document) : ∃ next, t.offer doc = some next ∧ next.keep = t.keep ∧ ∃ sorted', next.Front (docs ++ [doc]) sorted' := by
  let x : Ranked keys := ⟨.of keys doc,t.arrived⟩
  have merges : Ranking.place Ranked.cmp x sorted = mergeTwo Ranked.cmpKeys sorted [x] := placeMerges front.earlier
  have apart : ∀ y ∈ sorted, Ranked.cmp x y ≠ .eq := by
    intro y member same
    have later : Ord.compare x.arrival y.arrival = .gt := compare_gt_iff_gt.mpr (front.earlier y member)
    rw [Ranked.cmp, later] at same
    cases is : x.cmpKeys y <;> rw [is] at same <;> cases same
  have perm := Ranking.placePerm apart
  -- the sort with one document more, whatever the heap makes of it
  have next (u : TopK keys) (arrived : u.arrived = t.arrived + 1)
      (heap : u.heap = (Ranking.place Ranked.cmp x sorted).take u.keep) (peak : u.peak ≤ u.keep) :
      u.Front (docs ++ [doc]) (Ranking.place Ranked.cmp x sorted) := by
    refine ⟨?_,?_,Ranking.placeRanked front.ranked,fun y member => ?_,heap,peak⟩
    · rw [arrived, front.arrived, List.length_append, List.length_singleton]
    · rw [merges, mergeDocs]
      exact stableMerge front.stable (stableOne doc)
    · rw [arrived]
      rcases Ranking.placeMem member with rfl | old
      · exact Nat.lt_succ_self _
      · exact (front.earlier y old).trans (Nat.lt_succ_self _)
  have length : (Ranking.place Ranked.cmp x sorted).length = sorted.length + 1 := perm.length_eq
  unfold TopK.offer
  simp only
  by_cases zero : t.keep = 0
  · rw [if_pos zero]
    refine ⟨_,rfl,rfl,_,next _ rfl ?_ front.peak⟩
    simp only [zero, List.take_zero]
    rw [front.heap, zero, List.take_zero]
  rw [if_neg zero]
  by_cases full : t.heap.length = t.keep
  · rw [if_pos full]
    rw [front.heap, List.length_take] at full
    obtain ⟨before,last,rest,rfl,size⟩ := @splitAt _ sorted t.keep (by omega) (by omega)
    have heap : t.heap = before ++ [last] := by
      rw [front.heap, List.append_cons]
      exact List.take_left' (by rw [List.length_append, List.length_singleton, size])
    have top : t.heap.getLast? = some last := by rw [heap, List.getLast?_concat]
    rw [top]
    simp only [Option.bind_eq_bind, Option.bind_some]
    by_cases stays : x.cmpKeys last ≠ .lt
    · -- it is past the whole heap
      rw [if_pos stays]
      refine ⟨_,rfl,rfl,_,next _ rfl ?_ front.peak⟩
      have past := pastFront front.ranked front.earlier stays
      rw [List.append_cons, Ranking.placePast past]
      simp only
      rw [heap]
      exact (List.take_left' (by rw [List.length_append, List.length_singleton, size])).symm
    · -- it goes before the last, which leaves
      rw [if_neg stays]
      refine ⟨_,rfl,rfl,_,next _ rfl ?_ front.peak⟩
      have below : Ranked.cmp x last = .lt := by
        rw [Ranked.cmp, not_not.mp stays]
        rfl
      rw [Ranking.placeBefore below]
      simp only [heap, List.dropLast_concat]
      have grown : (Ranking.place Ranked.cmp x before).length = before.length + 1 :=
        (Ranking.placePerm fun y member => apart y (List.mem_append_left _ member)).length_eq
      exact (List.take_left' (by rw [grown, size])).symm
  · rw [if_neg full]
    rw [front.heap, List.length_take] at full
    have whole : sorted.take t.keep = sorted := List.take_of_length_le (by omega)
    have heap : t.heap = sorted := front.heap.trans whole
    refine ⟨_,rfl,rfl,_,next _ rfl ?_ ?_⟩
    · simp only [heap]
      rw [List.take_of_length_le (by rw [length]; omega)]
    · have peak := front.peak
      simp only [heap]
      rw [length]
      omega

theorem offeredFront {t : TopK keys} : ∀ (more docs : List Document) (sorted : List (Ranked keys)), t.Front docs sorted →
    ∃ last, more.foldlM TopK.offer t = some last ∧ last.keep = t.keep ∧ ∃ sorted', last.Front (docs ++ more) sorted' := by
  intro more
  induction more generalizing t with
  | nil =>
    intro docs sorted front
    rw [List.append_nil]
    exact ⟨t,rfl,rfl,sorted,front⟩
  | cons doc more ih =>
    intro docs sorted front
    obtain ⟨next,offered,keep,sorted',front'⟩ := offerFront front doc
    obtain ⟨last,run,keep',sorted'',front''⟩ := ih _ _ front'
    rw [List.append_assoc, List.singleton_append] at front''
    refine ⟨last,?_,keep'.trans keep,sorted'',front''⟩
    rw [List.foldlM_cons, offered]
    exact run

theorem newFront (keys : List SortKey) (keep : Nat) : (TopK.new keys keep).Front [] [] :=
  ⟨rfl,.nil,List.Pairwise.nil,fun _ member => absurd member List.not_mem_nil,by rw [List.take_nil]; rfl,Nat.zero_le _⟩

/- The sort in runs is the stable sort, and the heap keeps its front. -/
theorem sortsStably (keys : List SortKey) (docs : List Document) :
    Stable (compare keys) docs (sortBy (compare keys) docs) ∧
    (∀ width, sortKeyed width keys docs = sortBy (compare keys) docs) ∧
    ∀ keep, ∃ t, docs.foldlM TopK.offer (TopK.new keys keep) = some t ∧
      t.intoSorted = (sortBy (compare keys) docs).take keep ∧ t.peak ≤ keep := by
  have stable := @stableSort _ (compare keys) _ docs
  refine ⟨stable,fun width => (sortKeyedStable width keys docs).unique stable,fun keep => ?_⟩
  obtain ⟨t,run,same,sorted,front⟩ := offeredFront docs [] [] (newFront keys keep)
  have kept : t.keep = keep := same
  rw [List.nil_append] at front
  have whole := front.stable.unique stable
  refine ⟨t,run,?_,kept ▸ front.peak⟩
  rw [TopK.intoSorted, front.heap, kept, List.map_take, whole]

end Kimmy.Query.Shape
