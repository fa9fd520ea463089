import Kimmy.Store.IndexWalk
import Kimmy.Traverse

/-!
A scan of an index hands each candidate to its visitor once. The walks differ in how they drop a repeat, and all
come down to the entries being exact: a document stands under its own keys and under no others.
-/
namespace Kimmy.Store
open ByteOrder CanonicalCmp KeyEnc KeyOrder Runs

/-! The keys of one document. -/

section
variable {index : IndexMeta} {doc : Document}

/- A component of each field, in the field's direction. -/
theorem combineShape : ∀ {fields : List (IndexField × List Bson)} {keys all : List (List (Bson × Bool))},
    combine keys fields = some all → ∀ parts ∈ all, ∃ before ∈ keys,
      parts.map Prod.snd = before.map Prod.snd ++ fields.map fun field => field.1.descending
  | [], keys, all, combined, parts, member => by
    cases combined
    exact ⟨parts,member,by simp⟩
  | (field,values) :: rest, keys, all, combined, parts, member => by
    rw [combine] at combined
    split_ifs at combined
    obtain ⟨before,there,same⟩ := combineShape combined parts member
    obtain ⟨start,among,made⟩ := List.mem_flatMap.mp there
    obtain ⟨value,_,rfl⟩ := List.mem_map.mp made
    exact ⟨start,among,by simp [same]⟩

/- What an index has of a document it keys: nothing where its filter leaves the document out. -/
theorem keyedFrom {keys : List Bytes} {multikey : Bool} (keyed : documentKeys index doc = .keyed keys multikey) :
    keys = [] ∨ ∃ all encoded, combine [[]] (index.fields.map fun field => (field,fieldValues doc field.path)) = some all ∧
      all.mapM encodeCompoundOrdered = some encoded ∧ keys = (encoded.insertionSort (· ≤ ·)).dedup ∧
      multikey = index.fields.any fun field => fansOut doc field.path := by
  unfold documentKeys at keyed
  split_ifs at keyed with left
  · cases keyed
    exact Or.inl rfl
  · dsimp only at keyed
    split at keyed
    · cases keyed
    next all combined =>
      split at keyed
      · cases keyed
      next encoded mapped =>
        cases keyed
        exact Or.inr ⟨all,encoded,combined,mapped,rfl,rfl⟩

theorem keysOf {key : Bytes} (held : key ∈ (documentKeys index doc).keys) :
    ∃ keys multikey, documentKeys index doc = .keyed keys multikey ∧ key ∈ keys := by
  cases is : documentKeys index doc with
  | keyed keys multikey =>
    rw [is] at held
    exact ⟨keys,multikey,rfl,held⟩
  | unkeyed cause multikey =>
    rw [is] at held
    cases held

theorem memFiled {key : Bytes} : key ∈ (documentKeys index doc).filed ↔
    (documentKeys index doc).isUnkeyed = true ∧ key = DocumentKeys.unkeyedRun ∨ key ∈ (documentKeys index doc).keys := by
  cases documentKeys index doc with
  | keyed keys multikey => simp [DocumentKeys.filed, DocumentKeys.isUnkeyed, DocumentKeys.keys]
  | unkeyed cause multikey => simp [DocumentKeys.filed, DocumentKeys.isUnkeyed, DocumentKeys.keys]

theorem keyOf {key : Bytes} (held : key ∈ (documentKeys index doc).keys) : ∃ parts : List (Bson × Bool),
    encodeCompoundOrdered parts = some key ∧ parts.map Prod.snd = index.fields.map (·.descending) := by
  obtain ⟨keys,multikey,keyed,member⟩ := keysOf held
  rcases keyedFrom keyed with rfl | ⟨all, encoded, combined, mapped, rfl, _⟩
  · cases member
  · rw [List.mem_dedup, List.mem_insertionSort] at member
    obtain ⟨parts,there,is⟩ := Traverse.memMapped mapped member
    obtain ⟨before,start,shape⟩ := combineShape combined parts there
    rw [List.mem_singleton] at start
    subst start
    exact ⟨parts,is,by simpa [Function.comp_def] using shape⟩

theorem keysAscend {keys : List Bytes} {multikey : Bool} (keyed : documentKeys index doc = .keyed keys multikey) :
    Ascends keys := by
  rcases keyedFrom keyed with rfl | ⟨_, encoded, _, _, rfl, _⟩
  · exact List.Pairwise.nil
  · exact Runs.dedupAscends encoded

theorem tagAbove (value : Bson) : leastKeyTag ≤ typeRank value ∧ leastKeyTag ≤ ~~~ typeRank value := by
  cases value <;> simp only [typeRank] <;> decide

/- Every key begins with a tag, whichever way its first field runs. -/
theorem keyAbove (fields : index.fields ≠ []) {key : Bytes} (held : key ∈ (documentKeys index doc).keys) :
    aboveSentinels ≤ key := by
  obtain ⟨parts,is,shape⟩ := keyOf held
  cases parts with
  | nil => exact absurd (by simpa using shape.symm) fields
  | cons part rest =>
    obtain ⟨value,descending⟩ := part
    obtain ⟨body,first⟩ := encodeTotal value
    obtain ⟨more,_,same⟩ : ∃ more, encodeCompoundOrdered rest = some more ∧
        (if descending then invert (typeRank value :: body) else typeRank value :: body) ++ more = key := by
      simpa [encodeCompoundOrdered, first, Option.bind_eq_some_iff] using is
    obtain ⟨tag,tail,rfl,above⟩ : ∃ tag tail, key = tag :: tail ∧ leastKeyTag ≤ tag := by
      cases descending with
      | false => exact ⟨_,_,same.symm,(tagAbove value).1⟩
      | true => exact ⟨_,_,same.symm,(tagAbove value).2⟩
    refine not_lt.mp fun below => ?_
    rcases List.cons_lt_cons_iff.mp below with lower | ⟨_, lower⟩
    · exact absurd above (not_le.mpr lower)
    · exact List.not_lt_nil tail lower

/- A document that fans out nowhere has one key at most. -/
theorem fieldValuesAlone {path : String} (alone : fansOut doc path = false) : ∃ value, fieldValues doc path = [value] := by
  unfold fansOut at alone
  unfold fieldValues
  cases resolved : resolve doc path with
  | nil => exact ⟨.null,rfl⟩
  | cons value rest =>
    rw [resolved, Bool.or_eq_false_iff, decide_eq_false_iff_not, List.length_cons] at alone
    have none : rest = [] := List.eq_nil_of_length_eq_zero (by omega)
    subst none
    have plain : isArray value = false := by simpa using alone.2
    have one : offered value = [value] := by
      cases value <;> first | rfl | cases plain
    exact ⟨value,by simp [one, dedupValues, dedupAfter]⟩

theorem combineAlone : ∀ {fields : List (IndexField × List Bson)} {keys all : List (List (Bson × Bool))},
    combine keys fields = some all → (∀ field ∈ fields, ∃ value, field.2 = [value]) → all.length = keys.length
  | [], keys, all, combined, _ => by
    cases combined
    rfl
  | (field,values) :: rest, keys, all, combined, alone => by
    rw [combine] at combined
    split_ifs at combined
    obtain ⟨value,rfl⟩ := alone _ List.mem_cons_self
    rw [combineAlone combined fun field member => alone field (List.mem_cons_of_mem _ member)]
    simp

theorem keysAlone (alone : (documentKeys index doc).multikey = false) {key other : Bytes}
    (first : key ∈ (documentKeys index doc).keys) (second : other ∈ (documentKeys index doc).keys) : key = other := by
  obtain ⟨keys,multikey,keyed,member⟩ := keysOf first
  rw [keyed] at alone second
  rcases keyedFrom keyed with rfl | ⟨all, encoded, combined, mapped, rfl, flag⟩
  · cases member
  · have plain : ∀ field ∈ index.fields, fansOut doc field.path = false := by
      intro field there
      by_contra fans
      have flagged : multikey = true := by
        rw [flag]
        exact List.any_eq_true.mpr ⟨field,there,by simpa using fans⟩
      exact absurd (flagged.symm.trans alone) (by decide)
    have one : all.length = 1 := by
      refine combineAlone combined fun field there => ?_
      obtain ⟨own,among,rfl⟩ := List.mem_map.mp there
      exact fieldValuesAlone (plain own among)
    have lone : encoded.length = 1 := by
      rw [← one]
      exact (Traverse.mappedPairs.mp mapped).length_eq.symm
    obtain ⟨k,rfl⟩ := List.length_eq_one_iff.mp lone
    rw [DocumentKeys.keys] at second
    simp at member second
    rw [member, second]

end

/-! The scans that plans ask for. -/

section
open Query

/- Keys of the same directions are told apart before either of them ends. -/
theorem directedCodes {parts other : List (Bson × Bool)} {k j : Bytes} (first : encodeCompoundOrdered parts = some k)
    (second : encodeCompoundOrdered other = some j) (same : parts.map Prod.snd = other.map Prod.snd) :
    ∃ order, Codes order k j := by
  have split (list : List (Bson × Bool)) : list = (list.map Prod.fst).zip (list.map Prod.snd) := by
    rw [List.zip_map', List.map_id']
  have lengths : parts.length = other.length := by simpa using congrArg List.length same
  obtain ⟨kx,ky,isX,isY,codes⟩ := @codesComponents (parts.map Prod.snd) (parts.map Prod.fst)
    (other.map Prod.fst) (by simp) (by simp [lengths])
  rw [← split parts] at isX
  rw [same, ← split other] at isY
  obtain rfl : k = kx := Option.some.inj (first.symm.trans isX)
  obtain rfl : j = ky := Option.some.inj (second.symm.trans isY)
  exact ⟨_,codes⟩

theorem belowLt {x y : Bytes} (below : Below x y) (s : Bytes) : x ++ s < y := by
  obtain ⟨p,c,d,u,v,rfl,rfl,less⟩ := below
  rw [List.append_assoc]
  induction p with
  | nil => exact List.cons_lt_cons_iff.mpr (Or.inl less)
  | cons a p ih => exact List.cons_lt_cons_iff.mpr (Or.inr ⟨rfl,ih⟩)

/- A probe takes in one key of its directions. -/
theorem probePins {parts other : List (Bson × Bool)} {k j : Bytes} (first : encodeCompoundOrdered parts = some k)
    (second : encodeCompoundOrdered other = some j) (same : parts.map Prod.snd = other.map Prod.snd) (low : k ≤ j)
    (high : j ≤ k ++ [aboveAnyContinuation]) : j = k := by
  obtain ⟨order,codes⟩ := directedCodes first second same
  cases order with
  | lt => exact absurd high (not_le.mpr (belowLt codes _))
  | eq => exact (show k = j from codes).symm
  | gt =>
    have below := belowLt (show Below j k from codes) []
    rw [List.append_nil] at below
    exact absurd low (not_le.mpr below)

theorem probesApart {parts other : List (Bson × Bool)} {k j : Bytes} (first : encodeCompoundOrdered parts = some k)
    (second : encodeCompoundOrdered other = some j) (same : parts.map Prod.snd = other.map Prod.snd) (below : k < j) :
    k ++ [aboveAnyContinuation] < j := by
  refine not_le.mp fun high => ?_
  exact absurd (probePins first second same below.le high) below.ne'

theorem prefixDirections (predicates : Predicates) (fields : List IndexField) :
    (equalityPrefix predicates fields).map Prod.snd =
      (fields.take (equalityPrefix predicates fields).length).map (·.descending) := by
  induction fields with
  | nil => rfl
  | cons field rest ih =>
    unfold equalityPrefix
    split
    · simpa using ih
    · rfl

theorem probesSpec {start : List (Bson × Bool)} {descending : Bool} {values : List Bson} {ranges : List (Bytes × Bytes)}
    (made : probes start descending values = some ranges) :
    ranges.Pairwise (fun x y => x.2 < y.1) ∧ ∀ range ∈ ranges, ∃ value k,
      encodeCompoundOrdered (start ++ [(value,descending)]) = some k ∧ range = (k,k ++ [aboveAnyContinuation]) := by
  obtain ⟨encoded,mapped,same⟩ := Option.bind_eq_some_iff.mp made
  cases same
  have each : ∀ range ∈ ((encoded.dedup.map fun key => (key,key ++ [aboveAnyContinuation])).insertionSort
      fun x y => x.1 ≤ y.1), ∃ value k, encodeCompoundOrdered (start ++ [(value,descending)]) = some k ∧
        range = (k,k ++ [aboveAnyContinuation]) := by
    intro range member
    rw [List.mem_insertionSort, List.mem_map] at member
    obtain ⟨k,there,rfl⟩ := member
    obtain ⟨value,_,is⟩ := Traverse.memMapped mapped (List.mem_dedup.mp there)
    exact ⟨value,k,is,rfl⟩
  refine ⟨?_,each⟩
  have total : Std.Total (fun x y : Bytes × Bytes => x.1 ≤ y.1) := ⟨fun x y => le_total x.1 y.1⟩
  have trans : IsTrans (Bytes × Bytes) fun x y => x.1 ≤ y.1 := ⟨fun _ _ _ => le_trans⟩
  have weak := List.pairwise_insertionSort (fun x y : Bytes × Bytes => x.1 ≤ y.1)
    (encoded.dedup.map fun key => (key,key ++ [aboveAnyContinuation]))
  have nodup : ((encoded.dedup.map fun key => (key,key ++ [aboveAnyContinuation])).insertionSort
      fun x y : Bytes × Bytes => x.1 ≤ y.1).Nodup := by
    refine (List.perm_insertionSort _ _).nodup_iff.mpr ((List.nodup_dedup encoded).map fun a b same => ?_)
    exact congrArg Prod.fst same
  refine (weak.and nodup).imp_of_mem fun {x y} first second both => ?_
  obtain ⟨u,k,isK,rfl⟩ := each x first
  obtain ⟨v,j,isJ,rfl⟩ := each y second
  have apart : k ≠ j := fun same => both.2 (by rw [same])
  exact probesApart isK isJ (by simp) (lt_of_le_of_ne both.1 apart)

theorem rangePlanSpec {index : IndexMeta} {start : List (Bson × Bool)}
    {range : Option (List (Bson × Bool) × List (Bson × Bool) × Bool)} {plan : IndexPlan}
    (made : rangePlan index start range = some plan) : (∃ only, plan.ranges = [only]) ∧
      (plan.exact = true → start.length = index.fields.length ∧ ∃ k, encodeCompoundOrdered start = some k ∧
        plan.ranges = [(k,k ++ [aboveAnyContinuation])]) := by
  unfold rangePlan at made
  simp only at made
  split_ifs at made
  all_goals
    obtain ⟨lower,isLower,made⟩ := Option.bind_eq_some_iff.mp made
    obtain ⟨upper,isUpper,same⟩ := Option.bind_eq_some_iff.mp made
    cases same
    refine ⟨⟨_,rfl⟩,fun exact => ?_⟩
  · simp_all
  · cases range with
    | some range => simp at exact
    | none =>
      have one : upper = lower := Option.some.inj (isUpper.symm.trans isLower)
      refine ⟨by simpa using exact,lower,by simpa using isLower,by rw [one]⟩

/- What the planner promises of its ranges: they stand in order and apart, and an exact plan pins complete keys. -/
theorem plannedScan {index : IndexMeta} {predicates : Predicates} {plan : IndexPlan}
    (made : planFor index predicates = some plan) : plan.ranges.Pairwise (fun x y => x.2 < y.1) ∧
      (plan.exact = true → ∀ range ∈ plan.ranges, ∀ doc : Document, ∀ key ∈ (documentKeys index doc).keys,
        range.1 ≤ key → key ≤ range.2 → key = range.1) := by
  have directions := prefixDirections predicates index.fields
  have ranged {range : Option (List (Bson × Bool) × List (Bson × Bool) × Bool)}
      (made : rangePlan index (equalityPrefix predicates index.fields) range = some plan) :
      plan.ranges.Pairwise (fun x y => x.2 < y.1) ∧ (plan.exact = true → ∀ range ∈ plan.ranges, ∀ doc : Document,
        ∀ key ∈ (documentKeys index doc).keys, range.1 ≤ key → key ≤ range.2 → key = range.1) := by
    obtain ⟨⟨only,lone⟩,exactly⟩ := rangePlanSpec made
    refine ⟨lone ▸ List.pairwise_singleton ..,fun exact range member doc key own low high => ?_⟩
    obtain ⟨whole,k,is,lone⟩ := exactly exact
    rw [lone, List.mem_singleton] at member
    subst member
    obtain ⟨parts,isKey,shape⟩ := keyOf own
    rw [whole, List.take_length] at directions
    exact probePins is isKey (directions.trans shape.symm) low high
  unfold planFor at made
  simp only at made
  split at made
  · exact ranged made
  next field there =>
    split at made
    · exact ranged made
    next bounds found =>
      split at made
      next values isIn =>
        obtain ⟨ranges,probed,same⟩ := Option.bind_eq_some_iff.mp made
        cases same
        obtain ⟨apart,each⟩ := probesSpec probed
        refine ⟨apart,fun exact range member doc key own low high => ?_⟩
        obtain ⟨value,k,is,rfl⟩ := each range member
        obtain ⟨parts,isKey,shape⟩ := keyOf own
        have whole : (equalityPrefix predicates index.fields).length + 1 = index.fields.length := by simpa using exact
        refine probePins is isKey ?_ low high
        rw [List.map_append, directions, shape, List.map_singleton]
        have last : index.fields = index.fields.take (equalityPrefix predicates index.fields).length ++ [field] := by
          conv_lhs => rw [← List.take_append_drop (equalityPrefix predicates index.fields).length index.fields]
          congr 1
          obtain ⟨inside,rfl⟩ := List.getElem?_eq_some_iff.mp there
          rw [List.drop_eq_getElem_cons inside, List.drop_eq_nil_of_le whole.ge]
        conv_rhs => rw [last]
        simp
      · exact ranged made

end

/-! The entries of a range. -/

theorem memRangeAfter {κ ν : Type} [LinearOrder κ] {m : SortedMap κ ν} {k : κ} {x : κ × ν} :
    x ∈ m.rangeAfter k ↔ m.get x.1 = some x.2 ∧ k < x.1 := by
  have beyond : ∀ {entries : List (κ × ν)}, entries.Pairwise (fun x y => x.1 < y.1) →
      (x ∈ entries.dropWhile (fun x => x.1 ≤ k) ↔ x ∈ entries ∧ k < x.1) := by
    intro entries sorted
    induction entries with
    | nil => simp
    | cons y rest ih =>
      obtain ⟨least,tail⟩ := List.pairwise_cons.mp sorted
      by_cases low : y.1 ≤ k
      · rw [List.dropWhile_cons_of_pos (by simpa using low), ih tail, List.mem_cons]
        constructor
        · exact fun both => ⟨Or.inr both.1,both.2⟩
        · rintro ⟨rfl | later, above⟩
          · exact absurd low (not_le.mpr above)
          · exact ⟨later,above⟩
      · rw [List.dropWhile_cons_of_neg (by simpa using low), iff_self_and]
        intro member
        rcases List.mem_cons.mp member with rfl | later
        · exact not_le.mp low
        · exact (not_le.mp low).trans (least x later)
  rw [SortedMap.rangeAfter, beyond m.sorted, SortedMap.memEntry]

theorem indexKeyLe {x y : IndexKey} : x ≤ y ↔ x.collection < y.collection ∨ x.collection = y.collection ∧
    (x.index < y.index ∨ x.index = y.index ∧ (x.key < y.key ∨ x.key = y.key ∧ x.doc ≤ y.doc)) := by
  change toLex (x.collection,toLex (x.index,toLex (x.key,x.doc))) ≤
    toLex (y.collection,toLex (y.index,toLex (y.key,y.doc))) ↔ _
  simp only [Prod.Lex.toLex_le_toLex]

theorem indexKeyLt {x y : IndexKey} : x < y ↔ x.collection < y.collection ∨ x.collection = y.collection ∧
    (x.index < y.index ∨ x.index = y.index ∧ (x.key < y.key ∨ x.key = y.key ∧ x.doc < y.doc)) := by
  change toLex (x.collection,toLex (x.index,toLex (x.key,x.doc))) <
    toLex (y.collection,toLex (y.index,toLex (y.key,y.doc))) ↔ _
  simp only [Prod.Lex.toLex_lt_toLex]

/- Between a start in an index and one of its entries there are entries of that index alone. -/
theorem indexConvex {start y z : IndexKey} (above : start ≤ y) (below : y ≤ z) (coll : z.collection = start.collection)
    (index : z.index = start.index) :
    y.collection = start.collection ∧ y.index = start.index ∧ start.key ≤ y.key ∧ y.key ≤ z.key := by
  rw [indexKeyLe] at above below
  rw [coll, index] at below
  rcases above with low | ⟨sameColl, low⟩
  · rcases below with high | ⟨high, _⟩
    · exact absurd low high.not_gt
    · exact absurd low (high ▸ lt_irrefl _)
  rw [← sameColl] at below
  have below := below.resolve_left (lt_irrefl _)
  rcases low with low | ⟨sameIndex, low⟩
  · rcases below.2 with high | ⟨high, _⟩
    · exact absurd low high.not_gt
    · exact absurd low (high ▸ lt_irrefl _)
  rw [← sameIndex] at below
  have high := below.2.resolve_left (lt_irrefl _)
  refine ⟨sameColl.symm,sameIndex.symm,?_,?_⟩
  · exact low.elim le_of_lt fun both => both.1.le
  · exact high.2.elim le_of_lt fun both => both.1.le

section
variable {τ : Type} {w : IndexWalk τ} {range : Bytes × Bytes} {after : Option DocKey}

theorem memCut {upper lower : Bytes} {d : DocKey} {rows : List (IndexKey × Unit)} {k : IndexKey}
    (sorted : rows.Pairwise fun x y => x.1 < y.1) (start : ∀ x ∈ rows, ⟨w.coll,w.index.id,lower,d⟩ ≤ x.1) :
    k ∈ w.cut upper rows ↔ (k,()) ∈ rows ∧ k.collection = w.coll ∧ k.index = w.index.id ∧ lower ≤ k.key ∧ k.key ≤ upper := by
  have walk (x : IndexKey × Unit) := SortedMap.memTakeWhile (x := x)
    (p := fun k => k.collection = w.coll && k.index = w.index.id && k.key ≤ upper) sorted fun y member z _ below inside => by
      have inside : z.1.collection = w.coll ∧ z.1.index = w.index.id ∧ z.1.key ≤ upper := by
        simpa [and_assoc] using inside
      obtain ⟨coll,index,_,low⟩ := indexConvex (start y member) below.le inside.1 inside.2.1
      simpa [and_assoc] using ⟨coll,index,low.trans inside.2.2⟩
  rw [IndexWalk.cut, List.mem_map]
  constructor
  · rintro ⟨⟨k, _⟩, member, rfl⟩
    obtain ⟨found,inside⟩ := (walk _).mp member
    have inside : k.collection = w.coll ∧ k.index = w.index.id ∧ k.key ≤ upper := by simpa [and_assoc] using inside
    have low := (indexConvex (start _ found) le_rfl inside.1 inside.2.1).2.2.1
    exact ⟨found,inside.1,inside.2.1,low,inside.2.2⟩
  · rintro ⟨found, coll, index, _, high⟩
    exact ⟨(k,()),(walk _).mpr ⟨found,by simp [coll, index, high]⟩,rfl⟩

theorem cutSorted {upper : Bytes} {rows : List (IndexKey × Unit)} (sorted : rows.Pairwise fun x y => x.1 < y.1) :
    Ascends (w.cut upper rows) :=
  List.pairwise_map.mpr (sorted.sublist (List.takeWhile_sublist _))

theorem rangeAfterSorted {κ ν : Type} [LinearOrder κ] (m : SortedMap κ ν) (k : κ) :
    (m.rangeAfter k).Pairwise fun x y => x.1 < y.1 := m.sorted.sublist (List.dropWhile_sublist _)

theorem runSorted : Ascends (w.run range) := cutSorted (w.entries.rangeSorted _)

theorem memRun {k : IndexKey} : k ∈ w.run range ↔
    w.entries.get k = some () ∧ k.collection = w.coll ∧ k.index = w.index.id ∧ range.1 ≤ k.key ∧ k.key ≤ range.2 := by
  rw [IndexWalk.run, memCut (w.entries.rangeSorted _) fun x member => (SortedMap.memRange.mp member).2, SortedMap.memRange]
  constructor
  · exact fun ⟨⟨held,_⟩,inside⟩ => ⟨held,inside⟩
  · rintro ⟨held, coll, index, low, high⟩
    refine ⟨⟨held,?_⟩,coll,index,low,high⟩
    refine indexKeyLe.mpr (Or.inr ⟨coll.symm,Or.inr ⟨index.symm,?_⟩⟩)
    exact low.lt_or_eq.imp_right fun same => ⟨same,not_lt.mp (List.not_lt_nil k.doc)⟩

theorem runAfterSorted : Ascends (w.runAfter after range) := by
  cases after with
  | none => exact runSorted
  | some bound => exact cutSorted (rangeAfterSorted _ _)

theorem memRunAfter {k : IndexKey} : k ∈ w.runAfter after range ↔
    k ∈ w.run range ∧ ∀ bound, after = some bound → range.1 < k.key ∨ range.1 = k.key ∧ bound < k.doc := by
  cases after with
  | none => exact ⟨fun member => ⟨member,nofun⟩,fun both => both.1⟩
  | some bound =>
    rw [memRun, IndexWalk.runAfter, memCut (rangeAfterSorted _ _) fun x member => (memRangeAfter.mp member).2.le,
      memRangeAfter, indexKeyLt]
    constructor
    · rintro ⟨⟨held, above⟩, coll, index, inside⟩
      refine ⟨⟨held,coll,index,inside⟩,fun other is => ?_⟩
      cases is
      simpa [coll, index] using above
    · rintro ⟨⟨held, coll, index, inside⟩, above⟩
      exact ⟨⟨held,Or.inr ⟨coll.symm,Or.inr ⟨index.symm,above bound rfl⟩⟩⟩,coll,index,inside⟩

theorem hasEntriesIff {rows : SortedMap IndexKey Unit} {coll : CollectionId} {index : IndexId} {key : Bytes} :
    hasEntriesAt rows coll index key = true ↔ ∃ doc, rows.get ⟨coll,index,key,doc⟩ = some () := by
  have first : hasEntriesAt rows coll index key = true ↔ holdersOf rows coll index key ≠ [] := by
    unfold hasEntriesAt holdersOf
    cases rows.range ⟨coll,index,key,[]⟩ with
    | nil => simp
    | cons x rest =>
      simp only [List.head?_cons, List.takeWhile_cons]
      split_ifs with inside
      · exact iff_of_true inside (by simp)
      · exact iff_of_false inside (by simp)
  rw [first]
  constructor
  · intro held
    obtain ⟨doc,member⟩ := List.exists_mem_of_ne_nil _ held
    exact ⟨doc,memHolders.mp member⟩
  · rintro ⟨doc, held⟩
    exact List.ne_nil_of_mem (memHolders.mpr held)

end

/-! What a walk meets. -/

/- The documents a scan is after: the index cannot key them, or keys them in a range. -/
def Asked (index : IndexMeta) (ranges : List (Bytes × Bytes)) (doc : Document) : Prop :=
  (documentKeys index doc).isUnkeyed = true ∨
    ∃ key ∈ (documentKeys index doc).keys, ∃ range ∈ ranges, range.1 ≤ key ∧ key ≤ range.2

/- Every range of an exact scan pins one complete key. -/
def IndexScan.Pins (scan : IndexScan) (index : IndexMeta) : Prop :=
  scan.exact = true → ∀ range ∈ scan.ranges, ∀ doc : Document, ∀ key ∈ (documentKeys index doc).keys,
    range.1 ≤ key → key ≤ range.2 → key = range.1

/- A plan is such a scan. -/
theorem plannedPins {index : IndexMeta} {predicates : Query.Predicates} {plan : Query.IndexPlan}
    (made : Query.planFor index predicates = some plan) : ∃ apart,
      (⟨plan.indexId,plan.ranges,plan.bothBounds,plan.exact,apart⟩ : IndexScan).Pins index :=
  ⟨(plannedScan made).1,(plannedScan made).2⟩

namespace IndexWalk
variable {τ γ : Type}

def Reaches (w : IndexWalk τ) (key : Bytes) : Prop := ∃ range ∈ w.ranges, range.1 ≤ key ∧ key ≤ range.2

def Holds (w : IndexWalk τ) (key : Bytes) (doc : DocKey) : Prop := w.entries.get ⟨w.coll,w.index.id,key,doc⟩ = some ()

/- The entries are those of the live documents, the flag is set where one of them has several, and the ranges are
those of the scan beside the unkeyed run. -/
structure Faithful (w : IndexWalk τ) (scan : IndexScan) : Prop where
  fields : w.index.fields ≠ []
  exact : ∀ key doc, w.Holds key doc ↔ ∃ found, w.load doc = some found ∧ key ∈ (documentKeys w.index found.doc).filed
  flag : w.index.multikey = false → ∀ doc found, w.load doc = some found → (documentKeys w.index found.doc).multikey = false
  unkeyed : w.Reaches DocumentKeys.unkeyedRun ↔ ∃ doc, w.Holds DocumentKeys.unkeyedRun doc
  keyed : ∀ key, aboveSentinels ≤ key → (w.Reaches key ↔ ∃ range ∈ scan.ranges, range.1 ≤ key ∧ key ≤ range.2)
  apart : w.ranges.Pairwise fun x y => x.2 < y.1
  pins : scan.exact = true → ∀ range ∈ w.ranges, ∀ key doc, w.Holds key doc → range.1 ≤ key → key ≤ range.2 → key = range.1

variable {w : IndexWalk τ} {scan : IndexScan}

theorem memRows {k : IndexKey} : k ∈ w.ranges.flatMap w.run ↔
    w.Holds k.key k.doc ∧ k.collection = w.coll ∧ k.index = w.index.id ∧ w.Reaches k.key := by
  rw [List.mem_flatMap]
  obtain ⟨c,i,key,doc⟩ := k
  constructor
  · rintro ⟨range, among, member⟩
    obtain ⟨held,rfl,rfl,inside⟩ := memRun.mp member
    exact ⟨held,rfl,rfl,range,among,inside⟩
  · rintro ⟨held, rfl, rfl, range, among, inside⟩
    exact ⟨range,among,memRun.mpr ⟨held,rfl,rfl,inside⟩⟩

theorem Faithful.rowsAscend (faithful : w.Faithful scan) : Ascends (w.ranges.flatMap w.run) := by
  refine List.pairwise_flatMap.mpr ⟨fun range _ => runSorted,faithful.apart.imp fun apart x first y second => ?_⟩
  obtain ⟨_,collX,indexX,_,high⟩ := memRun.mp first
  obtain ⟨_,collY,indexY,low,_⟩ := memRun.mp second
  refine indexKeyLt.mpr (Or.inr ⟨collX.trans collY.symm,Or.inr ⟨indexX.trans indexY.symm,Or.inl ?_⟩⟩)
  exact (high.trans_lt apart).trans_le low

theorem notUnkeyedRun {key : Bytes} (above : aboveSentinels ≤ key) : key ≠ DocumentKeys.unkeyedRun := by
  rintro rfl
  exact absurd above (by decide)

/- A document is after all the one a scan asks for when some entry of it is reached. -/
theorem Faithful.asked (faithful : w.Faithful scan) {doc : DocKey} {found : Match} (loaded : w.load doc = some found) :
    Asked w.index scan.ranges found.doc ↔ ∃ key, w.Holds key doc ∧ w.Reaches key := by
  have entry (key : Bytes) (filed : key ∈ (documentKeys w.index found.doc).filed) : w.Holds key doc :=
    (faithful.exact key doc).mpr ⟨found,loaded,filed⟩
  constructor
  · rintro (unkeyed | ⟨key, own, range⟩)
    · have held := entry _ (memFiled.mpr (Or.inl ⟨unkeyed,rfl⟩))
      exact ⟨_,held,faithful.unkeyed.mpr ⟨doc,held⟩⟩
    · exact ⟨key,entry key (memFiled.mpr (Or.inr own)),(faithful.keyed key (keyAbove faithful.fields own)).mpr range⟩
  · rintro ⟨key, held, reached⟩
    obtain ⟨other,again,filed⟩ := (faithful.exact key doc).mp held
    obtain rfl : found = other := Option.some.inj (loaded.symm.trans again)
    rcases memFiled.mp filed with ⟨unkeyed, _⟩ | own
    · exact Or.inl unkeyed
    · exact Or.inr ⟨key,own,(faithful.keyed key (keyAbove faithful.fields own)).mp reached⟩

/-! In index order. -/

/- What a walk in index order hands over at an entry. -/
def met (w : IndexWalk τ) (k : IndexKey) : Option (DocKey × Match) :=
  (w.load k.doc).bind fun found =>
    if w.index.multikey && !isSentinel k.key && !w.firstEntryFor found.doc k.key then none else some (k.doc,found)

theorem meetPasses (w : IndexWalk τ) : Passes w.meet WalkState.seen w.visit w.met := by
  refine ⟨fun s k none => ?_,fun s k x some => ?_⟩
  · unfold met at none
    unfold meet
    cases loaded : w.load k.doc with
    | none => exact ⟨rfl,rfl⟩
    | some found =>
      rw [loaded, Option.bind_some] at none
      split_ifs at none with skipped
      simp only [skipped, if_true]
      exact ⟨rfl,trivial⟩
  · unfold met at some
    unfold meet
    cases loaded : w.load k.doc with
    | none =>
      rw [loaded] at some
      cases some
    | some found =>
      rw [loaded, Option.bind_some] at some
      split_ifs at some with skipped
      cases some
      simp only [skipped]
      rfl

/- The entry at which a document is handed over is the first of its entries that the ranges reach. -/
theorem Faithful.metIff (faithful : w.Faithful scan) {k : IndexKey} (row : k ∈ w.ranges.flatMap w.run) {x : DocKey × Match} :
    w.met k = some x ↔ x.1 = k.doc ∧ w.load k.doc = some x.2 ∧ ∀ key, w.Holds key k.doc → w.Reaches key → k.key ≤ key := by
  obtain ⟨held,_,_,reached⟩ := memRows.mp row
  obtain ⟨found,loaded,filed⟩ := (faithful.exact _ _).mp held
  have handed : w.met k = some x ↔ x = (k.doc,found) ∧
      ¬ (w.index.multikey && !isSentinel k.key && !w.firstEntryFor found.doc k.key) = true := by
    unfold met
    rw [loaded, Option.bind_some]
    split_ifs with skipped
    · simp [skipped]
    · simp [skipped, eq_comm]
  have least : ¬ (w.index.multikey && !isSentinel k.key && !w.firstEntryFor found.doc k.key) = true ↔
      ∀ key, w.Holds key k.doc → w.Reaches key → k.key ≤ key := by
    have own (key : Bytes) (holds : w.Holds key k.doc) : key ∈ (documentKeys w.index found.doc).filed := by
      obtain ⟨other,again,filed⟩ := (faithful.exact key k.doc).mp holds
      obtain rfl : found = other := Option.some.inj (loaded.symm.trans again)
      exact filed
    cases is : documentKeys w.index found.doc with
    | unkeyed cause multikey =>
      rw [is, DocumentKeys.filed, List.mem_singleton] at filed
      refine iff_of_true ?_ fun key _ _ => ?_
      · simp [isSentinel, sentinels, filed]
      · rw [filed]
        exact not_lt.mp (List.not_lt_nil key)
    | keyed keys multikey =>
      have member : k.key ∈ (documentKeys w.index found.doc).keys := by
        rw [is]
        rw [is] at filed
        exact filed
      have real : isSentinel k.key = false := by
        have apart := notUnkeyedRun (keyAbove faithful.fields member)
        simpa [isSentinel, sentinels] using apart
      rw [real]
      cases flagged : w.index.multikey with
      | false =>
        refine iff_of_true (by simp) fun key holds _ => ?_
        have alone := faithful.flag flagged k.doc found loaded
        have same : key ∈ (documentKeys w.index found.doc).keys := by
          have filed := own key holds
          rw [is] at filed ⊢
          exact filed
        exact (keysAlone alone member same).le
      | true =>
        have within (key : Bytes) : (w.ranges.any fun range => range.1 ≤ key && key ≤ range.2) = true ↔ w.Reaches key := by
          simp [Reaches]
        rw [firstEntryFor, is]
        simp only [Bool.not_false, Bool.true_and, Bool.not_eq_true', Bool.not_eq_false, beq_iff_eq]
        rw [ascendsFind (keysAscend is)]
        rw [is] at filed
        constructor
        · rintro ⟨_, _, least⟩ key holds reached
          have filed := own key holds
          rw [is] at filed
          exact least key filed ((within key).mpr reached)
        · intro least
          refine ⟨filed,(within _).mpr reached,fun key member holds => ?_⟩
          refine least key ((faithful.exact key k.doc).mpr ⟨found,loaded,?_⟩) ((within key).mp holds)
          rw [is]
          exact member
  rw [handed, least]
  constructor
  · rintro ⟨rfl, first⟩
    exact ⟨rfl,loaded,first⟩
  · rintro ⟨same, again, first⟩
    obtain rfl : found = x.2 := Option.some.inj (loaded.symm.trans again)
    exact ⟨Prod.ext same rfl,first⟩

theorem indexOrderSeen (w : IndexWalk τ) (s : WalkState τ) :
    (w.inIndexOrder s).seen = (feed w.visit s.seen ((w.ranges.flatMap w.run).filterMap w.met)).1 := by
  rw [inIndexOrder, feedFlat]
  exact congrArg Prod.fst (feedPick w.meetPasses (w.ranges.flatMap w.run) s.pass)

/- The entries at which something is handed over. -/
theorem mapFiltered {α β : Type} (f : α → Option β) (g : α → γ) (h : β → γ) (same : ∀ x y, f x = some y → h y = g x)
    (list : List α) : ((list.filter fun x => (f x).isSome).map g) = (list.filterMap f).map h := by
  induction list with
  | nil => rfl
  | cons x rest ih =>
    cases is : f x with
    | none => rw [List.filter_cons_of_neg (by simp [is]), List.filterMap_cons_none is, ih]
    | some y => rw [List.filter_cons_of_pos (by simp [is]), List.filterMap_cons_some is, List.map_cons, List.map_cons, ih, same x y is]

theorem metDoc {k : IndexKey} {x : DocKey × Match} (is : w.met k = some x) : x.1 = k.doc := by
  obtain ⟨found,_,same⟩ := Option.bind_eq_some_iff.mp is
  split_ifs at same
  cases same
  rfl

theorem metEntries (w : IndexWalk τ) : ((w.ranges.flatMap w.run).filter fun k => (w.met k).isSome).map IndexKey.doc =
    ((w.ranges.flatMap w.run).filterMap w.met).map Prod.fst := mapFiltered _ _ _ (fun _ _ => metDoc) _

theorem Faithful.metOnce (faithful : w.Faithful scan) : (((w.ranges.flatMap w.run).filterMap w.met).map Prod.fst).Nodup := by
  rw [← metEntries, List.Nodup, List.pairwise_map]
  refine (faithful.rowsAscend.filter _).imp_of_mem fun {x y} first second below same => ?_
  obtain ⟨rowX,pickX⟩ := List.mem_filter.mp first
  obtain ⟨rowY,pickY⟩ := List.mem_filter.mp second
  obtain ⟨a,isX⟩ := Option.isSome_iff_exists.mp pickX
  obtain ⟨b,isY⟩ := Option.isSome_iff_exists.mp pickY
  obtain ⟨heldX,collX,indexX,reachedX⟩ := memRows.mp rowX
  obtain ⟨heldY,collY,indexY,reachedY⟩ := memRows.mp rowY
  have lowX := ((faithful.metIff rowX).mp isX).2.2 y.key (same ▸ heldY) reachedY
  have lowY := ((faithful.metIff rowY).mp isY).2.2 x.key (same ▸ heldX) reachedX
  have equal : x = y := by
    obtain ⟨c,i,key,doc⟩ := x
    obtain ⟨c',i',key',doc'⟩ := y
    obtain rfl : key = key' := le_antisymm lowX lowY
    obtain rfl : doc = doc' := same
    obtain rfl : c = c' := collX.trans collY.symm
    obtain rfl : i = i' := indexX.trans indexY.symm
    rfl
  exact absurd below (equal ▸ lt_irrefl _)

theorem Faithful.memMet (faithful : w.Faithful scan) {key : DocKey} {found : Match} :
    (key,found) ∈ (w.ranges.flatMap w.run).filterMap w.met ↔ w.load key = some found ∧ Asked w.index scan.ranges found.doc := by
  rw [List.mem_filterMap]
  constructor
  · rintro ⟨k, row, is⟩
    obtain ⟨held,_,_,reached⟩ := memRows.mp row
    obtain ⟨same,loaded,_⟩ := (faithful.metIff row).mp is
    obtain rfl : key = k.doc := same
    exact ⟨loaded,(faithful.asked loaded).mpr ⟨k.key,held,reached⟩⟩
  · rintro ⟨loaded, asks⟩
    obtain ⟨some,held,reached⟩ := (faithful.asked loaded).mp asks
    have row (other : Bytes) (held : w.Holds other key) (reached : w.Reaches other) :
        (⟨w.coll,w.index.id,other,key⟩ : IndexKey) ∈ (w.ranges.flatMap w.run).filter (fun k => k.doc = key) :=
      List.mem_filter.mpr ⟨memRows.mpr ⟨held,rfl,rfl,reached⟩,by simp⟩
    -- The first of the entries of the document is the one of its least key.
    cases first : (w.ranges.flatMap w.run).filter (fun k => k.doc = key) with
    | nil =>
      have absent := row _ held reached
      rw [first] at absent
      cases absent
    | cons k rest =>
      have sorted : Ascends (k :: rest) := by
        rw [← first]
        exact faithful.rowsAscend.filter _
      obtain ⟨here,own⟩ : k ∈ w.ranges.flatMap w.run ∧ k.doc = key := by
        have member : k ∈ (w.ranges.flatMap w.run).filter (fun k => k.doc = key) := by
          rw [first]
          exact List.mem_cons_self
        simpa using List.mem_filter.mp member
      subst own
      obtain ⟨_,coll,index,_⟩ := memRows.mp here
      refine ⟨k,here,(faithful.metIff here).mpr ⟨rfl,loaded,fun other held reached => ?_⟩⟩
      have there := row other held reached
      rw [first] at there
      rcases List.mem_cons.mp there with same | later
      · rw [← same]
      · have below := (List.pairwise_cons.mp sorted).1 _ later
        rw [indexKeyLt] at below
        simp only [coll, index, lt_irrefl, false_or, true_and] at below
        exact below.elim le_of_lt fun both => both.1.le

/-! In the order of the keys. -/

/- What is handed over at a key that is offered. -/
def handed (w : IndexWalk τ) (key : DocKey) : Option (DocKey × Match) := (w.load key).map fun found => (key,found)

def visitKey (w : IndexWalk τ) (seen : τ) (key : DocKey) : τ × Bool :=
  match w.load key with
  | some found => w.visit seen (key,found)
  | none => (seen,true)

theorem handsServe (w : IndexWalk τ) : w.hands.Serve WalkState.seen w.visitKey := by
  refine ⟨fun _ _ => rfl,fun s key => ?_⟩
  change ((w.offer s key).1.seen,(w.offer s key).2) = w.visitKey s.seen key
  unfold offer visitKey
  cases w.load key <;> rfl

theorem feedHanded (w : IndexWalk τ) (keys : List DocKey) (seen : τ) :
    feed w.visitKey seen keys = feed w.visit seen (keys.filterMap w.handed) := by
  have passes : Passes w.visitKey id w.visit w.handed := by
    refine ⟨fun s key none => ?_,fun s key x some => ?_⟩
    · have absent : w.load key = Option.none := by simpa [handed] using none
      simp [visitKey, absent]
    · obtain ⟨found,loaded,rfl⟩ := Option.map_eq_some_iff.mp some
      simp [visitKey, loaded]
  exact feedPick passes keys seen

/- The keys a walk past a bound is to offer. -/
structure Due (w : IndexWalk τ) (after : Option DocKey) (keys : List DocKey) : Prop where
  ascends : Ascends keys
  members : ∀ doc, doc ∈ keys ↔ (∃ key, w.Holds key doc ∧ w.Reaches key) ∧ past after doc

theorem memDocs (w : IndexWalk τ) {doc : DocKey} :
    doc ∈ (w.ranges.flatMap w.run).map IndexKey.doc ↔ ∃ key, w.Holds key doc ∧ w.Reaches key := by
  rw [List.mem_map]
  constructor
  · rintro ⟨k, row, rfl⟩
    obtain ⟨held,_,_,reached⟩ := memRows.mp row
    exact ⟨k.key,held,reached⟩
  · rintro ⟨key, held, reached⟩
    exact ⟨⟨w.coll,w.index.id,key,doc⟩,memRows.mpr ⟨held,rfl,rfl,reached⟩,rfl⟩

theorem pastAny {after : Option DocKey} {key : DocKey} : ¬ after.any (key ≤ ·) = true ↔ past after key := by
  cases after with
  | none => exact iff_of_true (by simp) nofun
  | some bound => simp [past]

variable {after : Option DocKey} {keys : List DocKey}

theorem dueExists (w : IndexWalk τ) (after : Option DocKey) : ∃ keys, w.Due after keys := by
  obtain ⟨keys,ascends,members⟩ :=
    ascendsOf (((w.ranges.flatMap w.run).map IndexKey.doc).filter fun doc => !after.any (doc ≤ ·))
  refine ⟨keys,ascends,fun doc => ?_⟩
  rw [members, List.mem_filter, memDocs, ← pastAny]
  simp

theorem Due.keyOrder (due : w.Due after keys) (want : Option Nat) (s : WalkState τ) :
    (w.inKeyOrder after want s).map WalkState.seen = some (feed w.visit s.seen (keys.filterMap w.handed)).1 := by
  rw [← feedHanded]
  have again (s : WalkState τ) : s.pass.seen = s.seen := rfl
  refine passesSpec w.handsServe again ?_ _ after _ s keys ?_ ?_ due.ascends fun doc => ?_
  · decide
  · exact lt_max_of_lt_right Nat.one_pos
  · have subset : keys ⊆ (w.ranges.flatMap w.run).map IndexKey.doc := fun doc member =>
      (memDocs w).mpr ((due.members doc).mp member).1
    have nodup : keys.Nodup := due.ascends.imp fun below => below.ne
    have bound := (nodup.subperm subset).length_le
    rw [List.length_map] at bound
    omega
  · rw [due.members, pastAny]
    exact and_congr_left fun _ => (memDocs w).symm

/- The runs of an exact scan. -/
theorem Faithful.pinned (faithful : w.Faithful scan) (exact : scan.exact = true) {range : Bytes × Bytes}
    (among : range ∈ w.ranges) {k : IndexKey} (member : k ∈ w.runAfter after range) : k.key = range.1 := by
  obtain ⟨held,coll,index,low,high⟩ := memRun.mp (memRunAfter.mp member).1
  refine faithful.pins exact range among k.key k.doc ?_ low high
  obtain ⟨c,i,key,doc⟩ := k
  obtain rfl : c = w.coll := coll
  obtain rfl : i = w.index.id := index
  exact held

theorem Faithful.runAscends (faithful : w.Faithful scan) (exact : scan.exact = true) {range : Bytes × Bytes}
    (among : range ∈ w.ranges) : Ascends ((w.runAfter after range).map IndexKey.doc) := by
  refine List.pairwise_map.mpr (List.Pairwise.imp_of_mem ?_ (@runAfterSorted _ w range after))
  intro x y first second below
  have keyX := faithful.pinned exact among first
  have keyY := faithful.pinned exact among second
  obtain ⟨_,collX,indexX,_⟩ := memRun.mp (memRunAfter.mp first).1
  obtain ⟨_,collY,indexY,_⟩ := memRun.mp (memRunAfter.mp second).1
  rw [indexKeyLt] at below
  simpa [keyX, keyY, collX, collY, indexX, indexY] using below

theorem Faithful.memRuns (faithful : w.Faithful scan) (exact : scan.exact = true) (due : w.Due after keys) {doc : DocKey} :
    doc ∈ keys ↔ ∃ range ∈ w.ranges, doc ∈ (w.runAfter after range).map IndexKey.doc := by
  rw [due.members]
  constructor
  · rintro ⟨⟨key, held, range, among, inside⟩, beyond⟩
    have pin := faithful.pins exact range among key doc held inside.1 inside.2
    refine ⟨range,among,List.mem_map.mpr ⟨⟨w.coll,w.index.id,key,doc⟩,memRunAfter.mpr ⟨?_,fun bound is => ?_⟩,rfl⟩⟩
    · exact memRun.mpr ⟨held,rfl,rfl,inside⟩
    · exact Or.inr ⟨pin.symm,beyond bound is⟩
  · rintro ⟨range, among, member⟩
    obtain ⟨k,there,rfl⟩ := List.mem_map.mp member
    have pin := faithful.pinned exact among there
    obtain ⟨run,above⟩ := memRunAfter.mp there
    have row : k ∈ w.ranges.flatMap w.run := List.mem_flatMap.mpr ⟨range,among,run⟩
    obtain ⟨held,_,_,reached⟩ := memRows.mp row
    refine ⟨⟨k.key,held,reached⟩,fun bound is => ?_⟩
    rcases above bound is with lower | ⟨_, beyond⟩
    · exact absurd pin lower.ne'
    · exact beyond

theorem Faithful.oneRunSeen (faithful : w.Faithful scan) (exact : scan.exact = true) (due : w.Due after keys)
    {range : Bytes × Bytes} (lone : w.ranges = [range]) (s : WalkState τ) :
    (w.oneRun after range s).seen = (feed w.visit s.seen (keys.filterMap w.handed)).1 := by
  have among : range ∈ w.ranges := by
    rw [lone]
    exact List.mem_singleton_self _
  have same : keys = (w.runAfter after range).map IndexKey.doc := by
    refine ascendsUnique due.ascends (faithful.runAscends exact among) fun doc => ?_
    rw [faithful.memRuns exact due, lone]
    simp
  have passes : Passes (fun (s : WalkState τ) (k : IndexKey) => w.offer (s.read k) k.doc) WalkState.seen w.visitKey
      (fun k => some k.doc) := by
    refine ⟨fun s k none => ?_,fun s k doc is => ?_⟩
    · cases none
    · cases is
      exact w.handsServe.offer (s.read k) k.doc
  have fed := congrArg Prod.fst (feedPick passes (w.runAfter after range) s.pass)
  rw [oneRun, ← feedHanded, same, ← List.filterMap_eq_map]
  exact fed

theorem Faithful.mergedSeen (faithful : w.Faithful scan) (exact : scan.exact = true) (due : w.Due after keys)
    (s : WalkState τ) :
    (w.mergedRuns after s).map WalkState.seen = some (feed w.visit s.seen (keys.filterMap w.handed)).1 := by
  have runs : ∀ rows ∈ w.ranges.map (w.runAfter after), Ascends (rows.map w.hands.key) := by
    intro rows member
    obtain ⟨range,among,rfl⟩ := List.mem_map.mp member
    exact faithful.runAscends exact among
  have none : Heaped w.hands.key ([] : List (Head IndexKey DocKey)) := ⟨List.Pairwise.nil,nofun⟩
  obtain ⟨heaped,all⟩ := heapedOpened (s := s.pass) 0 none runs
  have served := openedServe w.handsServe (w.ranges.map (w.runAfter after)) 0 (s.pass,[])
  rw [mergedRuns, ← feedHanded]
  change (merged w.hands _ (opened w.hands 0 (w.ranges.map (w.runAfter after)) (s.pass,[])).2 Option.none
    (opened w.hands 0 (w.ranges.map (w.runAfter after)) (s.pass,[])).1).map WalkState.seen = _
  have seen : (opened w.hands 0 (w.ranges.map (w.runAfter after)) (s.pass,[])).1.seen = s.seen := served
  rw [← seen]
  refine mergedSpec w.handsServe _ _ Option.none _ keys heaped ?_ due.ascends (fun doc => ?_) nofun
  · rw [all.length_eq]
    simp [List.length_flatMap, Function.comp_def]
  · rw [all.mem_iff, faithful.memRuns exact due]
    simp [hands]

end IndexWalk

/-! The scans of a member. -/

namespace Tables

def liveAt (t : Tables) (coll : CollectionId) (key : DocKey) : Option Match :=
  (t.docs.get ⟨coll,key⟩).bind DocRecord.matchOf

theorem heldIff {t : Tables} (kept : t.holding.Kept) {coll : CollectionId} {definition : CollectionMeta} {index : IndexMeta}
    (defined : t.collections.get coll = some definition) (member : index ∈ definition.indexes) {key : Bytes} {doc : DocKey} :
    t.entries.get ⟨coll,index.id,key,doc⟩ = some () ↔
      ∃ found, t.liveAt coll doc = some found ∧ key ∈ (documentKeys index found.doc).filed := by
  have among : index ∈ t.holding.indexes coll := by
    unfold Holding.indexes
    rw [show t.holding.collections = t.collections from rfl, defined]
    exact member
  have exact : t.entries.get ⟨coll,index.id,key,doc⟩ = some () ↔ key ∈ filedUnder index (t.image ⟨coll,doc⟩) :=
    kept.sound.exact coll index among key doc
  rw [exact, filedUnder]
  constructor
  · intro filed
    cases live : t.image ⟨coll,doc⟩ with
    | none =>
      rw [live] at filed
      cases filed
    | some image =>
      rw [live] at filed
      obtain ⟨found,loaded,rfl⟩ := matchImage live
      exact ⟨found,loaded,filed⟩
  · rintro ⟨found, loaded, filed⟩
    rw [imageMatch loaded]
    exact filed

theorem scanRangesCases {t : Tables} {coll : CollectionId} {id : IndexId} {ranges : List (Bytes × Bytes)}
    {range : Bytes × Bytes} : range ∈ t.scanRanges coll id ranges ↔
      range = (DocumentKeys.unkeyedRun,DocumentKeys.unkeyedRun) ∧
          (∃ doc, t.entries.get ⟨coll,id,DocumentKeys.unkeyedRun,doc⟩ = some ()) ∨
        ∃ asked ∈ ranges, range = (if asked.1.isEmpty then aboveSentinels else asked.1,asked.2) := by
  unfold scanRanges
  rw [List.mem_append, List.mem_map, List.mem_map]
  constructor
  · rintro (⟨key, member, rfl⟩ | ⟨asked, member, rfl⟩)
    · obtain ⟨is,held⟩ := List.mem_filter.mp member
      obtain rfl : key = DocumentKeys.unkeyedRun := by simpa [sentinels] using is
      exact Or.inl ⟨rfl,hasEntriesIff.mp held⟩
    · exact Or.inr ⟨asked,member,rfl⟩
  · rintro (⟨rfl, held⟩ | ⟨asked, member, rfl⟩)
    · exact Or.inl ⟨_,List.mem_filter.mpr ⟨List.mem_singleton_self _,hasEntriesIff.mpr held⟩,rfl⟩
    · exact Or.inr ⟨asked,member,rfl⟩

/- Raising an open lower end loses no key. -/
theorem raisedLe {lower key : Bytes} (above : aboveSentinels ≤ key) :
    (if lower.isEmpty then aboveSentinels else lower) ≤ key ↔ lower ≤ key := by
  cases lower with
  | nil => exact iff_of_true above (not_lt.mp (List.not_lt_nil key))
  | cons b rest => rfl

theorem raisedNonempty (lower : Bytes) : ([] : Bytes) < if lower.isEmpty then aboveSentinels else lower := by
  cases lower with
  | nil => decide
  | cons b rest => exact List.nil_lt_cons b rest

theorem faithfulWalk {t : Tables} (kept : t.holding.Kept) {coll : CollectionId} {definition : CollectionMeta}
    {index : IndexMeta} {scan : IndexScan} (defined : t.collections.get coll = some definition)
    (member : index ∈ definition.indexes) (fields : index.fields ≠ []) (pins : scan.Pins index) {τ : Type}
    (visit : τ → DocKey × Match → τ × Bool) : (t.walk coll index scan visit).Faithful scan := by
  have held (key : Bytes) (doc : DocKey) := @heldIff _ kept _ _ _ defined member key doc
  have real {key : Bytes} {doc : DocKey} (holds : t.entries.get ⟨coll,index.id,key,doc⟩ = some ()) (some : [] < key) :
      ∃ found : Match, key ∈ (documentKeys index found.doc).keys := by
    obtain ⟨found,_,filed⟩ := (held key doc).mp holds
    rcases memFiled.mp filed with ⟨_, rfl⟩ | own
    · exact absurd some (lt_irrefl _)
    · exact ⟨found,own⟩
  refine ⟨fields,held,fun unset doc found loaded => ?_,⟨?_,fun there => ?_⟩,fun key above => ⟨?_,?_⟩,?_,?_⟩
  · have among : index ∈ t.holding.indexes coll := by
      unfold Holding.indexes
      rw [show t.holding.collections = t.collections from rfl, defined]
      exact member
    exact kept.sound.flags coll index among unset doc found.doc (imageMatch loaded)
  · rintro ⟨range, among, low, high⟩
    rcases scanRangesCases.mp among with ⟨_, there⟩ | ⟨asked, _, rfl⟩
    · exact there
    · exact absurd low (not_le.mpr (raisedNonempty asked.1))
  · exact ⟨_,scanRangesCases.mpr (Or.inl ⟨rfl,there⟩),le_rfl,le_rfl⟩
  · rintro ⟨range, among, low, high⟩
    rcases scanRangesCases.mp among with ⟨rfl, _⟩ | ⟨asked, member, rfl⟩
    · exact absurd (above.trans high) (by decide)
    · exact ⟨asked,member,(raisedLe above).mp low,high⟩
  · rintro ⟨asked, member, low, high⟩
    exact ⟨_,scanRangesCases.mpr (Or.inr ⟨asked,member,rfl⟩),(raisedLe above).mpr low,high⟩
  · refine List.pairwise_append.mpr ⟨?_,?_,?_⟩
    · rw [List.pairwise_map]
      exact (List.pairwise_singleton (· < ·) DocumentKeys.unkeyedRun).sublist (List.filter_sublist (l := sentinels))
    · refine List.pairwise_map.mpr (scan.apart.imp fun {x y} apart => ?_)
      cases y with | mk lower upper =>
      cases lower with
      | nil => exact absurd apart (List.not_lt_nil _)
      | cons b rest => exact apart
    · intro x first y second
      obtain ⟨key,there,rfl⟩ := List.mem_map.mp first
      obtain ⟨asked,_,rfl⟩ := List.mem_map.mp second
      obtain rfl : key = DocumentKeys.unkeyedRun := by simpa [sentinels] using (List.mem_filter.mp there).1
      exact raisedNonempty asked.1
  · intro exact range among key doc holds low high
    rcases scanRangesCases.mp among with ⟨rfl, _⟩ | ⟨asked, member, rfl⟩
    · exact le_antisymm high low
    · obtain ⟨found,own⟩ := real holds ((raisedNonempty asked.1).trans_le low)
      have above := keyAbove fields own
      have pin := pins exact asked member found.doc key own ((raisedLe above).mp low) high
      cases lower : asked.1 with
      | nil =>
        rw [pin, lower] at above
        exact absurd above (by decide)
      | cons b rest =>
        rw [pin, lower]
        rfl

/- Every live document that is asked for, once. -/
structure DeliversOnce (t : Tables) (coll : CollectionId) (index : IndexMeta) (ranges : List (Bytes × Bytes))
    (beyond : DocKey → Prop) (list : List (DocKey × Match)) : Prop where
  once : (list.map Prod.fst).Nodup
  members : ∀ key found, (key,found) ∈ list ↔ t.liveAt coll key = some found ∧ Asked index ranges found.doc ∧ beyond key

/- Each at an entry of its own that is asked for, and these in the order of the index. -/
def InIndexOrder (t : Tables) (coll : CollectionId) (index : IndexMeta) (ranges : List (Bytes × Bytes))
    (list : List (DocKey × Match)) : Prop :=
  ∃ visited : List IndexKey, Ascends visited ∧ visited.map IndexKey.doc = list.map Prod.fst ∧
    ∀ k ∈ visited, t.entries.get k = some () ∧ k.collection = coll ∧ k.index = index.id ∧
      (k.key = DocumentKeys.unkeyedRun ∨ ∃ range ∈ ranges, range.1 ≤ k.key ∧ k.key ≤ range.2)

variable {τ : Type}

section
variable {w : IndexWalk τ} {scan : IndexScan} {after : Option DocKey} {keys : List DocKey}

theorem dueDelivers (faithful : w.Faithful scan) (due : w.Due after keys) {t : Tables}
    (loads : ∀ key, w.load key = t.liveAt w.coll key) :
    t.DeliversOnce w.coll w.index scan.ranges (past after) (keys.filterMap w.handed) ∧
      Ascends ((keys.filterMap w.handed).map Prod.fst) := by
  have ascends : Ascends ((keys.filterMap w.handed).map Prod.fst) := by
    refine List.pairwise_map.mpr (List.Pairwise.filterMap _ (fun x y below a isA b isB => ?_) due.ascends)
    obtain ⟨_,_,rfl⟩ := Option.map_eq_some_iff.mp isA
    obtain ⟨_,_,rfl⟩ := Option.map_eq_some_iff.mp isB
    exact below
  refine ⟨⟨ascends.imp fun below => below.ne,fun key found => ?_⟩,ascends⟩
  rw [List.mem_filterMap, ← loads]
  constructor
  · rintro ⟨doc, member, is⟩
    obtain ⟨_,loaded,same⟩ := Option.map_eq_some_iff.mp is
    cases same
    obtain ⟨reached,beyond⟩ := (due.members key).mp member
    exact ⟨loaded,(faithful.asked loaded).mpr reached,beyond⟩
  · rintro ⟨loaded, asked, beyond⟩
    refine ⟨key,(due.members key).mpr ⟨(faithful.asked loaded).mp asked,beyond⟩,?_⟩
    rw [IndexWalk.handed, loaded]
    rfl

theorem byIdSeen (faithful : w.Faithful scan) (due : w.Due after keys) (want : Option Nat) (s : WalkState τ) :
    (visitRanges w scan.exact (.byId after want) s).map WalkState.seen =
      some (feed w.visit s.seen (keys.filterMap w.handed)).1 := by
  unfold visitRanges
  cases exact : scan.exact with
  | false => exact due.keyOrder want s
  | true =>
    simp only [if_true]
    split
    next range lone => exact congrArg some (faithful.oneRunSeen exact due lone s)
    · exact faithful.mergedSeen exact due s

end

theorem finishedOf {result : Option (WalkState τ)} {seen : τ}
    (is : result.map WalkState.seen = some seen) : ∃ outcome, WalkState.scanned result = .finished outcome seen := by
  obtain ⟨s,rfl,rfl⟩ := Option.map_eq_some_iff.mp is
  exact ⟨s.outcome,rfl⟩

theorem memScanTable {w : IndexWalk τ} {lower upper : Bytes} {doc : DocKey} :
    doc ∈ scanTable w.entries w.coll w.index.id lower upper ↔
      ∃ key, w.Holds key doc ∧ (key = DocumentKeys.unkeyedRun ∨ lower ≤ key ∧ key ≤ upper) := by
  have ranged : ((w.entries.range ⟨w.coll,w.index.id,lower,[]⟩).takeWhile fun x =>
      x.1.collection = w.coll && x.1.index = w.index.id && x.1.key ≤ upper).map (fun x => x.1.doc) =
      (w.run (lower,upper)).map IndexKey.doc := by
    rw [IndexWalk.run, IndexWalk.cut, List.map_map]
    rfl
  rw [scanTable, List.mem_dedup, List.mem_insertionSort, List.mem_append, ranged, memHolders, List.mem_map]
  constructor
  · rintro (⟨k, member, rfl⟩ | held)
    · obtain ⟨held,coll,index,inside⟩ := memRun.mp member
      obtain ⟨c,i,key,doc⟩ := k
      obtain rfl : c = w.coll := coll
      obtain rfl : i = w.index.id := index
      exact ⟨key,held,Or.inr inside⟩
    · exact ⟨_,held,Or.inl rfl⟩
  · rintro ⟨key, held, rfl | inside⟩
    · exact Or.inr held
    · exact Or.inl ⟨⟨w.coll,w.index.id,key,doc⟩,memRun.mpr ⟨held,rfl,rfl,inside⟩,rfl⟩

theorem scanTableAscends (rows : SortedMap IndexKey Unit) (coll : CollectionId) (id : IndexId) (lower upper : Bytes) :
    Ascends (scanTable rows coll id lower upper) := Runs.dedupAscends _

/- The list of the keys alone. -/
theorem candidateKeys {t : Tables} (kept : t.holding.Kept) {coll : CollectionId} {definition : CollectionMeta}
    {index : IndexMeta} (defined : t.collections.get coll = some definition)
    (standing : definition.indexes.find? (fun other => other.id = index.id) = some index) (fields : index.fields ≠ [])
    (lower upper : Bytes) (single : index.multikey = false) :
    ∃ keys, t.indexCandidatesUnlessMultikey coll index.id lower upper = some keys ∧ Ascends keys ∧
      ∀ key, key ∈ keys ↔ ∃ found, t.liveAt coll key = some found ∧ Asked index [(lower,upper)] found.doc := by
  refine ⟨scanTable t.entries coll index.id lower upper,?_,scanTableAscends ..,fun key => ?_⟩
  · unfold indexCandidatesUnlessMultikey
    rw [defined]
    simp only
    rw [standing]
    simp [single]
  · let scan : IndexScan := ⟨index.id,[(lower,upper)],false,false,List.pairwise_singleton ..⟩
    have member := List.mem_of_find?_eq_some standing
    have faithful := @faithfulWalk _ kept _ _ _ scan defined member fields nofun _ fun (u : Unit) _ => (u,true)
    refine (memScanTable (w := t.walk coll index scan fun (u : Unit) _ => (u,true))).trans ?_
    constructor
    · rintro ⟨other, holds, inside⟩
      obtain ⟨found,loaded,filed⟩ := (faithful.exact other key).mp holds
      refine ⟨found,loaded,?_⟩
      rcases memFiled.mp filed with ⟨unkeyed, _⟩ | own
      · exact Or.inl unkeyed
      · have within := inside.resolve_left (IndexWalk.notUnkeyedRun (keyAbove fields own))
        exact Or.inr ⟨other,own,_,List.mem_singleton_self _,within⟩
    · rintro ⟨found, loaded, unkeyed | ⟨other, own, range, member, within⟩⟩
      · exact ⟨_,(faithful.exact _ key).mpr ⟨found,loaded,memFiled.mpr (Or.inl ⟨unkeyed,rfl⟩)⟩,Or.inl rfl⟩
      · rw [List.mem_singleton] at member
        subst member
        exact ⟨other,(faithful.exact _ key).mpr ⟨found,loaded,memFiled.mpr (Or.inr own)⟩,Or.inr within⟩

end Tables

/- What a scan of a standing index does. Where it is refused the caller plans again, and a plan of no ranges is a
question that nothing answers. -/
theorem scansDeliverOnce (start : Engine) (collections : SortedMap CollectionId CollectionMeta) (list : List Act)
    (fresh : start.db = .fresh collections) (coll : CollectionId) (definition : CollectionMeta) (index : IndexMeta)
    (scan : IndexScan) (defined : (start.acts list).db.collections.get coll = some definition)
    (standing : definition.indexes.find? (fun other => other.id = scan.indexId) = some index)
    (fields : index.fields ≠ []) (pins : scan.Pins index) :
    (∀ lower upper, index.multikey = false → ∃ keys,
      (start.acts list).db.indexCandidatesUnlessMultikey coll scan.indexId lower upper = some keys ∧ Ascends keys ∧
        ∀ key, key ∈ keys ↔ ∃ found, (start.acts list).db.liveAt coll key = some found ∧
          Asked index [(lower,upper)] found.doc) ∧
    if scan.bothBounds && index.multikey then
      ∀ (τ : Type) order (visit : τ → DocKey × Match → τ × Bool) seen,
        (start.acts list).db.visitIndexCandidates coll scan order visit seen = .replan
    else if scan.ranges = [] then
      ∀ (τ : Type) order (visit : τ → DocKey × Match → τ × Bool) seen,
        (start.acts list).db.visitIndexCandidates coll scan order visit seen = .finished .zero seen
    else
      (∃ all, (start.acts list).db.DeliversOnce coll index scan.ranges (fun _ => True) all ∧
        (start.acts list).db.InIndexOrder coll index scan.ranges all ∧
        ∀ (τ : Type) (visit : τ → DocKey × Match → τ × Bool) seen, ∃ outcome,
          (start.acts list).db.visitIndexCandidates coll scan .any visit seen =
            .finished outcome (feed visit seen all).1) ∧
      ∀ after, ∃ all, (start.acts list).db.DeliversOnce coll index scan.ranges (past after) all ∧
        Ascends (all.map Prod.fst) ∧
        ∀ want (τ : Type) (visit : τ → DocKey × Match → τ × Bool) seen, ∃ outcome,
          (start.acts list).db.visitIndexCandidates coll scan (.byId after want) visit seen =
            .finished outcome (feed visit seen all).1 := by
  have kept := keptActs list (keptFresh fresh)
  have member : index ∈ definition.indexes := List.mem_of_find?_eq_some standing
  have walked {τ : Type} (order : CandidateOrder) (visit : τ → DocKey × Match → τ × Bool) (seen : τ) :
      (start.acts list).db.visitIndexCandidates coll scan order visit seen =
        if scan.bothBounds && index.multikey then .replan
        else if scan.ranges.isEmpty then .finished .zero seen
        else WalkState.scanned (Tables.visitRanges ((start.acts list).db.walk coll index scan visit) scan.exact order
          ⟨.zero,seen⟩) := by
    unfold Tables.visitIndexCandidates
    rw [defined]
    simp only
    rw [standing]
  have faithful {τ : Type} (visit : τ → DocKey × Match → τ × Bool) :=
    Tables.faithfulWalk kept defined member fields pins visit
  have own : scan.indexId = index.id := by simpa [eq_comm] using List.find?_some standing
  refine ⟨fun lower upper single => ?_,?_⟩
  · rw [own] at standing ⊢
    exact Tables.candidateKeys kept defined standing fields lower upper single
  split_ifs with refused none
  · intro τ order visit seen
    rw [walked, if_pos refused]
  · intro τ order visit seen
    rw [walked, if_neg refused, if_pos (by simp [none])]
  · have asks : ¬ scan.ranges.isEmpty = true := by simpa using none
    -- The lists do not depend on the visitor: those of the walk with one that sees nothing are taken.
    let plain := (start.acts list).db.walk coll index scan fun (u : Unit) _ => (u,true)
    refine ⟨⟨(plain.ranges.flatMap plain.run).filterMap plain.met,⟨(faithful _).metOnce,fun key found => ?_⟩,?_,?_⟩,?_⟩
    · rw [(faithful _).memMet, and_true]
      rfl
    · refine ⟨(plain.ranges.flatMap plain.run).filter fun k => (plain.met k).isSome,(faithful _).rowsAscend.filter _,
        plain.metEntries,fun k there => ?_⟩
      obtain ⟨row,_⟩ := List.mem_filter.mp there
      obtain ⟨held,inColl,inIndex,reached⟩ := IndexWalk.memRows.mp row
      obtain ⟨c,i,key,doc⟩ := k
      obtain rfl : c = coll := inColl
      obtain rfl : i = index.id := inIndex
      refine ⟨held,rfl,rfl,?_⟩
      obtain ⟨range,among,low,high⟩ := reached
      rcases Tables.scanRangesCases.mp among with ⟨rfl, _⟩ | ⟨asked, member, rfl⟩
      · exact Or.inl (le_antisymm high low)
      · refine Or.inr ⟨asked,member,?_,high⟩
        cases lower : asked.1 with
        | nil => exact not_lt.mp (List.not_lt_nil key)
        | cons b rest => simpa [lower] using low
    · intro τ visit seen
      rw [walked, if_neg refused, if_neg asks]
      exact Tables.finishedOf (congrArg some (IndexWalk.indexOrderSeen _ _))
    · intro after
      obtain ⟨keys,due⟩ := IndexWalk.dueExists plain after
      obtain ⟨delivers,ascends⟩ := Tables.dueDelivers (t := (start.acts list).db) (faithful _) due fun _ => rfl
      refine ⟨_,delivers,ascends,fun want τ visit seen => ?_⟩
      rw [walked, if_neg refused, if_neg asks]
      have same : ((start.acts list).db.walk coll index scan visit).Due after keys := ⟨due.ascends,due.members⟩
      exact Tables.finishedOf (Tables.byIdSeen (faithful visit) same want _)

/- Two arrays at the fields of one index. -/
def paired : IndexMeta := ⟨9,"a_1_b_1",[⟨"a",false⟩,⟨"b",false⟩],false,false,none⟩

def crossings : SortedMap CollectionId CollectionMeta := SortedMap.empty.insert 0 ⟨[paired],List.pairwise_singleton ..⟩

def crossed : Document := [("a",.array [.boolean true]),("b",.array [.boolean false])]

def receivesCrossed : Act := .op (.replicated .raise [⟨⟨⟨3,0⟩,1⟩,.insert,0,some [1],some crossed⟩] true)

def crossedMember : Engine := (Engine.opened 0 (fun _ => 0) crossings).acts [receivesCrossed]

def noting (seen : List DocKey) (x : DocKey × Match) : List DocKey × Bool := (seen ++ [x.1],true)

def everything (bothBounds : Bool) : IndexScan := ⟨9,[([],[0xFF])],bothBounds,false,List.pairwise_singleton ..⟩

theorem scansDeliverCrossed : ∃ all, crossedMember.db.DeliversOnce 0 { paired with multikey := true } [([],[0xFF])] (past (some [0])) all ∧
    Ascends (all.map Prod.fst) := by
  have law := scansDeliverOnce (.opened 0 (fun _ => 0) crossings) crossings [receivesCrossed] rfl 0
    ⟨[{ paired with multikey := true }],List.pairwise_singleton ..⟩ { paired with multikey := true } (everything false)
    (by rfl) (by rfl) (by decide) nofun
  obtain ⟨all,delivers,ascends,_⟩ := law.2.2 (some [0])
  exact ⟨all,delivers,ascends⟩

/- A plan of no ranges leaves even the unkeyed documents out, and one that joins two bounds is refused here. -/
theorem noRangesNoCandidates :
    (∃ found, crossedMember.db.liveAt 0 [1] = some found ∧
      Asked { paired with multikey := true } [] found.doc) ∧
    crossedMember.db.visitIndexCandidates 0 ⟨9,[],false,false,List.Pairwise.nil⟩ .any noting [] = .finished .zero [] ∧
    crossedMember.db.visitIndexCandidates 0 (everything true) .any noting [] = .replan := by
  refine ⟨⟨⟨⟨⟨3,0⟩,1⟩,crossed⟩,?_,Or.inl ?_⟩,?_,?_⟩
  · decide +kernel
  · decide +kernel
  · decide +kernel
  · decide +kernel

end Kimmy.Store
