import Kimmy.Window.Recomputed
import Kimmy.Window.Within

/-!
A window stage gives each document what its accumulator gives over the documents of its window, exactly when no
window steps back from an earlier one. Positions, numbers and lengths of time never step back. Months, quarters and
years do: the day of the month is cut to the month while the time of day stays.
-/
namespace Kimmy.Window
open Slider Decimal.Arith

section
variable {δ : Type}

/-! The documents of a run. -/

theorem sliceConcat (docs : List δ) (doc : δ) (s e : Nat) :
    slice (docs ++ [doc]) (s,e) = slice docs (s,e) ++ if s ≤ docs.length ∧ docs.length < e then [doc] else [] := by
  unfold slice
  rw [List.drop_append, List.take_append, List.length_drop]
  congr 1
  by_cases start : s ≤ docs.length
  · rw [Nat.sub_eq_zero_of_le start, List.drop_zero]
    by_cases stop : docs.length < e
    · rw [if_pos ⟨start,stop⟩, List.take_of_length_le (by simp; omega)]
    · rw [if_neg (fun both => stop both.2), show e - s - (docs.length - s) = 0 by omega, List.take_zero]
  · rw [if_neg (fun both => start both.1), List.drop_eq_nil_of_le (by simp; omega), List.take_nil]

theorem sliceFiltered (docs : List δ) {s e : Nat} {test : Nat → Bool}
    (same : ∀ p < docs.length, test p = true ↔ s ≤ p ∧ p < e) :
    (docs.zipIdx.filter fun x => test x.2).map Prod.fst = slice docs (s,e) := by
  induction docs using List.reverseRecOn with
  | nil => simp [slice]
  | append_singleton rest doc ih =>
    have last := same rest.length (by simp)
    rw [List.zipIdx_append, List.filter_append, List.map_append,
      ih fun p short => same p (by rw [List.length_append]; omega), sliceConcat]
    congr 1
    by_cases inside : test rest.length = true
    · simp [inside, last.mp inside]
    · have out : ¬ (s ≤ rest.length ∧ rest.length < e) := fun both => inside (last.mpr both)
      rw [if_neg out]
      simp [inside]

theorem boundedDocs {window : Bounds} {found : List (Option Bson)} {docs : List δ} {i : Nat} {span : Nat × Nat}
    (bounded : Bounded docs.length span (window.before found i) (window.past found i)) :
    window.docsWithin found docs i = slice docs span := by
  refine sliceFiltered docs fun p short => ?_
  have low := bounded.low p short
  have high := bounded.high p short
  unfold Bounds.within
  rw [Bool.and_eq_true, Bool.not_eq_true', Bool.not_eq_true']
  constructor
  · rintro ⟨starts,stops⟩
    refine ⟨not_lt.mp fun early => ?_,high.mpr (Or.inr stops)⟩
    exact absurd (low.mp early) (by simp [starts])
  · rintro ⟨starts,stops⟩
    have notBefore : window.before found i p = false := by
      by_contra early
      exact absurd (low.mpr (by simpa using early)) (not_lt.mpr starts)
    rcases high.mp stops with early | notPast
    · exact absurd early (by simp [notBefore])
    · exact ⟨notBefore,notPast⟩

/-! Accumulators over runs that do not step back. -/

theorem closedSlice (acc : Accumulator δ) {docs : List δ} {span : Nat × Nat} (fits : Fits docs.length span) :
    closedForm acc docs span.1 span.2 = closedForm acc (slice docs span) 0 (slice docs span).length := by
  obtain ⟨s,e⟩ := span
  obtain ⟨order,inside⟩ := fits
  simp only at order inside
  rw [sliceLength inside]
  have place {k : Nat} (short : s + k < e) : (slice docs (s,e))[k]? = docs[s + k]? := by
    rw [slice, List.getElem?_take_of_lt (by simp only; omega), List.getElem?_drop]
  cases acc with
  | first x =>
    simp only [closedForm, Nat.sub_pos_iff_lt]
    split_ifs with some
    · simp only [edge]
      rw [place (show s + 0 < e by omega), Nat.add_zero]
    · rfl
  | last x =>
    simp only [closedForm, Nat.sub_pos_iff_lt]
    split_ifs with some
    · simp only [edge]
      rw [place (show s + (e - s - 1) < e by omega), show s + (e - s - 1) = e - 1 by omega]
    · rfl
  | count => simp only [closedForm, Nat.sub_zero]
  | _ => rfl

theorem spansWhole (n : Nat) : ∀ (k : Nat) {span : Nat × Nat}, moved span (0,n) = (0,n) →
    spans span (List.replicate k (0,n)) = List.replicate k (0,n)
  | 0, _, _ => rfl
  | k + 1, span, next => by
      have again : moved (0,n) (0,n) = (0,n) := by
        unfold moved
        split_ifs <;> simp
      rw [List.replicate_succ, spans, next, spansWhole n k again]

theorem slideAnswers {S : Slider δ} (F : S.Faithful) {docs : List δ} {ends : List (Nat × Nat)}
    (fits : ∀ window ∈ ends, Fits docs.length window) (full : ends.length = docs.length) :
    S.slide docs ends = (spans (0,0) ends).mapM fun span => (S.answer (slice docs span)).map some := by
  unfold slide
  split_ifs with whole
  · -- one answer for every document
    have all : ends = List.replicate docs.length (0,docs.length) := by
      rw [← full]
      refine List.eq_replicate_iff.mpr ⟨rfl,fun window member => ?_⟩
      rw [full]
      exact of_decide_eq_true (List.all_eq_true.mp whole window member)
    have step : (do
        let st ← S.addUpTo docs S.new 0 docs.length
        let v ← S.value st
        some (List.replicate docs.length (some v))) = (S.answer docs).map fun v => List.replicate docs.length (some v) := by
      simp only [answer, Option.bind_eq_bind, Option.map_eq_bind, Option.bind_assoc]
      rfl
    rw [step, all, spansWhole _ _ (show moved (0,0) _ = _ from if_pos le_rfl)]
    cases answered : S.answer docs with
    | some v =>
      rw [Traverse.mapFound (g := fun _ => some v), List.map_replicate]
      · rfl
      · intro window member
        rw [List.eq_of_mem_replicate member, sliceAll, answered]
        rfl
    | none =>
      cases docs with
      | nil =>
        -- an empty sum is an answer
        obtain ⟨v,is⟩ := Option.isSome_iff_exists.mp F.starts
        rw [answer, List.length_nil, addUpToNone [] S.new le_rfl] at answered
        exact absurd (is.symm.trans answered) (by simp)
      | cons doc rest =>
        rw [List.length_cons, List.replicate_succ, List.mapM_cons, ← List.length_cons, sliceAll, answered]
        rfl
  · exact slideFromAnswers F (newHolds F docs) fits

theorem afreshAnswer {acc : Accumulator δ} {S : Slider δ} (made : makeSlider acc = some S) (part : List δ) :
    afresh acc part = (S.answer part).map some := by
  rw [afresh, made]
  simp only [answer, Option.bind_eq_bind, Option.map_eq_bind, Option.bind_assoc]
  rfl

theorem accumulatorAnswers (acc : Accumulator δ) {docs : List δ} {ends : List (Nat × Nat)}
    (fits : ∀ window ∈ ends, Fits docs.length window) (full : ends.length = docs.length) (advancing : Advancing ends) :
    accumulator acc docs ends = ends.mapM fun window => afresh acc (slice docs window) := by
  unfold accumulator
  have chained := (chainedIff fun window member => (fits window member).order).mpr advancing
  cases made : makeSlider acc with
  | none =>
    refine Traverse.mapMCongr fun window member => ?_
    rw [afresh, made]
    exact closedSlice acc (fits window member)
  | some S =>
    obtain ⟨F⟩ := makeFaithful made
    simp only [afreshAnswer made]
    rw [slideAnswers F fits full]
    exact chainedAnswers docs (fun part => (S.answer part).map some) fits chained

end

/-! Where the two agree, no window steps back. -/

/- A document that tells itself from every other: its position, as so many nulls. -/
def marker : Operand Nat := ⟨fun i => some (.array (List.replicate i .null)),fun i => some (some (.array (List.replicate i .null)))⟩

theorem pushAnswer (docs : List Nat) :
    (queueSlider marker .push).answer docs = some (.array (docs.map fun i => .array (List.replicate i .null))) := by
  let F := queueFaithful marker .push
  have all : (slice docs (0,docs.length)).all F.reads = true := List.all_eq_true.mpr fun _ _ => rfl
  have added := F.addAll le_rfl (F.start docs) le_rfl (Nat.zero_le docs.length)
  rw [if_pos all] at added
  obtain ⟨st,is,run⟩ := added
  have queue : st.map Prod.snd = docs.map fun i => .array (List.replicate i .null) := by
    rw [run.queue, filedValues, sliceAll]
    exact congrFun List.filterMap_eq_map docs
  unfold answer
  rw [is]
  show some (Bson.array (Queue.push.answer (st.map Prod.snd))) = _
  rw [queue]
  rfl

theorem markersApart {xs ys : List Nat}
    (same : xs.map (fun i => Bson.array (List.replicate i .null)) = ys.map fun i => Bson.array (List.replicate i .null)) :
    xs = ys := by
  refine List.map_injective_iff.mpr (fun i j equal => ?_) same
  simpa using congrArg List.length (Bson.array.inj equal)

theorem sliceRange {n : Nat} {span : Nat × Nat} (inside : span.2 ≤ n) :
    slice (List.range n) span = List.range' span.1 (span.2 - span.1) := by
  refine List.ext_getElem ?_ fun i short _ => ?_
  · rw [sliceLength (by simpa using inside), List.length_range']
  · simp [slice]

theorem movesOfSlice {n : Nat} {span window : Nat × Nat} (held : Fits n span) (fits : Fits n window)
    (same : slice (List.range n) (moved span window) = slice (List.range n) window) : Moves span window := by
  have after := movedFits held fits
  rw [sliceRange after.inside, sliceRange fits.inside] at same
  obtain ⟨a,b⟩ := span
  obtain ⟨s,e⟩ := window
  obtain ⟨order,_⟩ := held
  obtain ⟨forward,_⟩ := fits
  unfold Moves
  unfold moved at same
  simp only at order forward same ⊢
  split_ifs at same with past
  · omega
  · have lengths := congrArg List.length same
    simp only [List.length_range'] at lengths
    rcases Nat.eq_or_lt_of_le forward with empty | covers
    · omega
    · have heads := congrArg List.head? same
      rw [List.head?_range', List.head?_range', if_neg (by simp only; omega), if_neg (by omega)] at heads
      have first := Option.some.inj heads
      simp only at first
      omega

theorem chainedOfSlices {n : Nat} : ∀ {ends : List (Nat × Nat)} {span : Nat × Nat}, Fits n span →
    (∀ window ∈ ends, Fits n window) →
    (spans span ends).map (slice (List.range n)) = ends.map (slice (List.range n)) → Chained span ends := by
  intro ends
  induction ends with
  | nil => exact fun _ _ _ => trivial
  | cons window rest ih =>
    intro span held fits same
    have next := fits window List.mem_cons_self
    rw [spans, List.map_cons, List.map_cons, List.cons.injEq] at same
    exact ⟨movesOfSlice held next same.1,
      ih (movedFits held next) (fun other member => fits other (List.mem_cons_of_mem _ member)) same.2⟩

theorem advancingOfPush {n : Nat} {ends : List (Nat × Nat)} (fits : ∀ window ∈ ends, Fits n window) (full : ends.length = n)
    (same : accumulator (.push marker) (List.range n) ends =
      ends.mapM fun window => afresh (.push marker) (slice (List.range n) window)) : Advancing ends := by
  have length : (List.range n).length = n := List.length_range
  rw [← chainedIff fun window member => (fits window member).order]
  refine chainedOfSlices ⟨le_rfl,Nat.zero_le _⟩ fits ?_
  let F := queueFaithful marker .push
  have slid : accumulator (.push marker) (List.range n) ends = (queueSlider marker .push).slide (List.range n) ends := rfl
  rw [slid, slideAnswers F (by rwa [length]) (by rwa [length])] at same
  simp only [@afreshAnswer Nat (.push marker) _ rfl, pushAnswer, Option.map_some] at same
  rw [Traverse.mapFound fun _ _ => rfl, Traverse.mapFound fun _ _ => rfl] at same
  let g (part : List Nat) : Option Bson := some (.array (part.map fun i => .array (List.replicate i .null)))
  have lists : ((spans (0,0) ends).map (slice (List.range n))).map g = (ends.map (slice (List.range n))).map g := by
    rw [List.map_map, List.map_map]
    exact Option.some.inj same
  refine List.map_injective_iff.mpr (fun xs ys equal => ?_) lists
  exact markersApart (Bson.array.inj (Option.some.inj equal))

/-! The condition, on the documents. -/

namespace Bounds

def Covers (window : Bounds) (found : List (Option Bson)) (i : Nat) : Prop :=
  ∃ p < found.length, window.within found i p = true

/- What lies before the window of document `j`, or before its end, lies before that of document `k` too. -/
def Follows (window : Bounds) (found : List (Option Bson)) (j k : Nat) : Prop :=
  ∀ p < found.length, (window.before found j p = true → window.before found k p = true) ∧
    (window.before found j p = true ∨ window.past found j p = false →
      window.before found k p = true ∨ window.past found k p = false)

/- No window that covers a document steps back from an earlier one, nor does one right after a window that does. -/
def Advances (window : Bounds) (found : List (Option Bson)) : Prop :=
  ∀ j k, j < k → k < found.length → (window.Covers found k ∨ j + 1 = k ∧ window.Covers found j) → window.Follows found j k

/- Distances that are lengths: everything but months, quarters and years. -/
def steady : Bounds → Bool
  | .range _ _ (some unit) => (unitMillis unit).isSome
  | _ => true

end Bounds

section
variable {window : Bounds} {found : List (Option Bson)} {ends : List (Nat × Nat)}

theorem coversSpan {i : Nat} {span : Nat × Nat}
    (bounded : Bounded found.length span (window.before found i) (window.past found i)) :
    window.Covers found i ↔ span.1 < span.2 := by
  have inside := bounded.fits.inside
  unfold Bounds.Covers Bounds.within
  constructor
  · rintro ⟨p,short,holds⟩
    rw [Bool.and_eq_true, Bool.not_eq_true', Bool.not_eq_true'] at holds
    have stop := (bounded.high p short).mpr (Or.inr holds.2)
    have start : ¬ p < span.1 := fun early => absurd ((bounded.low p short).mp early) (by simp [holds.1])
    omega
  · intro some
    have short : span.1 < found.length := by omega
    have start : ¬ window.before found i span.1 = true := mt (bounded.low _ short).mpr (Nat.lt_irrefl _)
    have stop := ((bounded.high _ short).mp some).resolve_left start
    refine ⟨span.1,short,?_⟩
    rw [Bool.and_eq_true, Bool.not_eq_true', Bool.not_eq_true']
    exact ⟨by simpa using start,stop⟩

theorem followsSpan {j k : Nat} {u w : Nat × Nat} (first : Bounded found.length u (window.before found j) (window.past found j))
    (second : Bounded found.length w (window.before found k) (window.past found k)) :
    window.Follows found j k ↔ NotBefore u w := by
  have insideU := first.fits.inside
  have orderU := first.fits.order
  unfold Bounds.Follows
  constructor
  · intro follows
    refine ⟨?_,?_⟩
    · by_contra back
      have short : w.1 < found.length := by omega
      have early := (first.low _ short).mp (not_le.mp back)
      exact absurd ((second.low _ short).mpr ((follows _ short).1 early)) (Nat.lt_irrefl _)
    · by_contra back
      have short : w.2 < found.length := by omega
      have early := (first.high _ short).mp (not_le.mp back)
      exact absurd ((second.high _ short).mpr ((follows _ short).2 early)) (Nat.lt_irrefl _)
  · rintro ⟨starts,stops⟩ p short
    rw [← first.high p short, ← second.high p short, ← first.low p short, ← second.low p short]
    omega

theorem advancesIff (sorted : Sorted found) (is : endpoints window found = some ends) :
    window.Advances found ↔ Advancing ends := by
  obtain ⟨full,bounds⟩ := endpointsSpec sorted is
  unfold Bounds.Advances Advancing
  constructor
  · intro advances j k u w order first second covers
    have inside := (List.getElem?_eq_some_iff.mp second).1
    have low := bounds j u first
    have high := bounds k w second
    rw [← followsSpan low high]
    refine advances j k order (by omega) ?_
    rw [coversSpan low, coversSpan high]
    exact covers
  · intro advancing j k order inside covers
    obtain ⟨u,first⟩ : ∃ u, ends[j]? = some u := ⟨_,List.getElem?_eq_getElem (by omega)⟩
    obtain ⟨w,second⟩ : ∃ w, ends[k]? = some w := ⟨_,List.getElem?_eq_getElem (by omega)⟩
    have low := bounds j u first
    have high := bounds k w second
    rw [coversSpan low, coversSpan high] at covers
    rw [followsSpan low high]
    exact advancing j k u w order first second covers

/-! Windows that never step back. -/

theorem partitionGrows {α : Type} (v : List α) {low high : α → Bool} (grows : ∀ x ∈ v, low x = true → high x = true) :
    partitionPoint v low ≤ partitionPoint v high := by
  unfold partitionPoint
  induction v with
  | nil => exact le_rfl
  | cons x rest ih =>
    cases holds : low x with
    | false =>
      rw [List.takeWhile_cons_of_neg (by simp [holds])]
      exact Nat.zero_le _
    | true =>
      rw [List.takeWhile_cons_of_pos holds, List.takeWhile_cons_of_pos (grows x List.mem_cons_self holds)]
      exact Nat.succ_le_succ (ih fun y member => grows y (List.mem_cons_of_mem _ member))

/- The ends advance where a distance keeps the order of what it is added to. -/
theorem rangeAdvances {α : Type} {unit : Option DateUnit} {v : List α} {below : α → α → Bool}
    {move : α → UInt64 → Option α} {wrap : α → SortValue} {key : α → Int}
    (reading : Reading found unit v below move wrap key)
    (keeps : ∀ {x y t t' offset}, x ∈ v → y ∈ v → key x ≤ key y → move x offset = some t → move y offset = some t' →
      key t ≤ key t') {lo hi : RangeBound} (is : rangeEnds v below move lo hi = some ends) : Advancing ends := by
  intro j k u w order first second _
  obtain ⟨i,atJ,madeJ⟩ := Traverse.mappedAt is first
  obtain ⟨i',atK,madeK⟩ := Traverse.mappedAt is second
  obtain ⟨insideJ,rfl⟩ := List.getElem?_eq_some_iff.mp atJ
  obtain ⟨insideK,rfl⟩ := List.getElem?_eq_some_iff.mp atK
  rw [List.getElem_range] at madeJ madeK
  obtain ⟨s,lowJ,madeJ⟩ := Option.bind_eq_some_iff.mp madeJ
  obtain ⟨e,highJ,madeJ⟩ := Option.bind_eq_some_iff.mp madeJ
  obtain ⟨s',lowK,madeK⟩ := Option.bind_eq_some_iff.mp madeK
  obtain ⟨e',highK,madeK⟩ := Option.bind_eq_some_iff.mp madeK
  cases madeJ
  cases madeK
  have sorted {x y : α} (hereX : v[j]? = some x) (hereY : v[k]? = some y) : key x ≤ key y := by
    obtain ⟨short,rfl⟩ := List.getElem?_eq_some_iff.mp hereX
    obtain ⟨short',rfl⟩ := List.getElem?_eq_some_iff.mp hereY
    exact List.pairwise_iff_getElem.mp reading.sorted j k short short' order
  have starts : s ≤ s' := by
    cases lo with
    | unbounded =>
      cases lowJ
      exact Nat.zero_le _
    | current =>
      cases lowJ
      cases lowK
      exact order.le
    | offset l =>
      obtain ⟨x,hereX,step⟩ := Option.bind_eq_some_iff.mp lowJ
      obtain ⟨t,movedX,made⟩ := Option.bind_eq_some_iff.mp step
      cases made
      obtain ⟨y,hereY,step⟩ := Option.bind_eq_some_iff.mp lowK
      obtain ⟨t',movedY,made⟩ := Option.bind_eq_some_iff.mp step
      cases made
      have further := keeps (List.mem_of_getElem? hereX) (List.mem_of_getElem? hereY) (sorted hereX hereY) movedX movedY
      refine partitionGrows v fun z _ less => ?_
      rw [reading.below, decide_eq_true_eq] at less ⊢
      exact less.trans_le further
  have stops : e ≤ e' := by
    cases hi with
    | unbounded =>
      cases highJ
      cases highK
      exact le_rfl
    | current =>
      cases highJ
      cases highK
      exact Nat.succ_le_succ order.le
    | offset h =>
      obtain ⟨x,hereX,step⟩ := Option.bind_eq_some_iff.mp highJ
      obtain ⟨t,movedX,made⟩ := Option.bind_eq_some_iff.mp step
      cases made
      obtain ⟨y,hereY,step⟩ := Option.bind_eq_some_iff.mp highK
      obtain ⟨t',movedY,made⟩ := Option.bind_eq_some_iff.mp step
      cases made
      have further := keeps (List.mem_of_getElem? hereX) (List.mem_of_getElem? hereY) (sorted hereX hereY) movedX movedY
      refine partitionGrows v fun z _ less => ?_
      rw [reading.below, Bool.not_eq_true', decide_eq_false_iff_not, not_lt] at less ⊢
      exact less.trans further
  exact ⟨starts,max_le_max stops starts⟩

theorem noneNan {nums : List UInt64} (numbers : Numbers found nums) : ∀ x ∈ nums, isNan x = false := by
  induction numbers with
  | nil => nofun
  | cons here _ ih =>
    intro x member
    rcases List.mem_cons.mp member with rfl | later
    · exact here.2
    · exact ih x later

theorem fixedShift {unit : DateUnit} (fixed : (unitMillis unit).isSome = true) (offset : UInt64) :
    ∃ length, ∀ d t, shiftDate d offset unit = some t → t = d + length := by
  obtain ⟨len,known⟩ := Option.isSome_iff_exists.mp fixed
  refine ⟨rounded (ofTotal (signedUnits offset * len)),fun d t moved => ?_⟩
  rw [shiftDate, known] at moved
  simp only [addToDate, addUnits, DateUnit.fixedMs, fits64, Int.mul_one] at moved
  split_ifs at moved
  exact (Option.some.inj moved).symm

theorem steadyAdvances (steady : window.steady = true) (sorted : Sorted found) (is : endpoints window found = some ends) :
    Advancing ends := by
  cases window with
  | whole =>
    cases is
    intro j k u w _ first second _
    rw [List.eq_of_mem_replicate (List.mem_of_getElem? first), List.eq_of_mem_replicate (List.mem_of_getElem? second)]
    exact ⟨le_rfl,le_rfl⟩
  | documents lo hi =>
    cases is
    intro j k u w order first second _
    rw [List.getElem?_map, Option.map_eq_some_iff] at first second
    obtain ⟨j,atJ,rfl⟩ := first
    obtain ⟨k,atK,rfl⟩ := second
    obtain ⟨_,rfl⟩ := List.getElem?_eq_some_iff.mp atJ
    obtain ⟨_,rfl⟩ := List.getElem?_eq_some_iff.mp atK
    rw [List.getElem_range, List.getElem_range]
    have clamps {a b : Int} (less : a ≤ b) : clamp found.length a ≤ clamp found.length b := by
      unfold clamp
      omega
    have starts : (lo.elim 0 fun l => clamp found.length (j + l)) ≤ lo.elim 0 fun l => clamp found.length (k + l) := by
      cases lo with
      | none => exact le_rfl
      | some l => exact clamps (by omega)
    have stops : (hi.elim found.length fun h => clamp found.length (j + h + 1)) ≤
        hi.elim found.length fun h => clamp found.length (k + h + 1) := by
      cases hi with
      | none => exact le_rfl
      | some h => exact clamps (by omega)
    exact ⟨starts,max_le_max stops starts⟩
  | range lo hi unit =>
    obtain ⟨axis,read,made⟩ := Option.bind_eq_some_iff.mp is
    have reads := rangeAxisRead read
    cases axis with
    | num nums =>
      refine rangeAdvances (numbersReading unit sorted reads) (fun {x y t t' offset} memX memY order movedX movedY => ?_) made
      cases movedX
      cases movedY
      exact plusOrder (noneNan reads x memX) (noneNan reads y memY) offset order
    | date dates =>
      obtain ⟨unit,rfl,made⟩ := Option.bind_eq_some_iff.mp made
      refine rangeAdvances (datesReading unit sorted reads) (fun {x y t t' offset} _ _ order movedX movedY => ?_) made
      obtain ⟨length,moves⟩ := fixedShift steady offset
      have first := moves _ _ movedX
      have second := moves _ _ movedY
      simp only [id] at order ⊢
      omega

/-! What the stage answers. -/

theorem recomputesIff (sorted : Sorted found) (is : endpoints window found = some ends) :
    (∀ (δ : Type) (docs : List δ) (acc : Accumulator δ), docs.length = found.length →
      accumulator acc docs ends = (List.range found.length).mapM fun i => afresh acc (window.docsWithin found docs i)) ↔
      Advancing ends := by
  obtain ⟨full,bounds⟩ := endpointsSpec sorted is
  have fits : ∀ span ∈ ends, Fits found.length span := fun span member => by
    obtain ⟨i,inside,rfl⟩ := List.getElem_of_mem member
    exact (bounds i _ (List.getElem?_eq_getElem inside)).fits
  have places {δ : Type} (docs : List δ) (acc : Accumulator δ) (length : docs.length = found.length) :
      (List.range found.length).mapM (fun i => afresh acc (window.docsWithin found docs i)) =
        ends.mapM fun span => afresh acc (slice docs span) := by
    rw [← full]
    refine Traverse.mapMRange fun i span there => ?_
    rw [boundedDocs (by rw [length]; exact bounds i span there)]
  constructor
  · intro same
    have pushed := same Nat (List.range found.length) (.push marker) List.length_range
    rw [places _ _ List.length_range] at pushed
    exact advancingOfPush fits full pushed
  · intro advancing δ docs acc length
    rw [places docs acc length]
    exact accumulatorAnswers acc (by rwa [length]) (by rw [length, full]) advancing

theorem recomputesWhenAdvancing (sorted : Sorted found) (is : endpoints window found = some ends) :
    ((∀ (δ : Type) (docs : List δ) (acc : Accumulator δ), docs.length = found.length →
        accumulator acc docs ends = (List.range found.length).mapM fun i => afresh acc (window.docsWithin found docs i)) ↔
      window.Advances found) ∧ (window.steady = true → window.Advances found) := by
  rw [advancesIff sorted is]
  exact ⟨recomputesIff sorted is,fun steady => steadyAdvances steady sorted is⟩

end

/- Noon of the 30th and the start of the 31st of January, and six o'clock on the 28th of February. -/
def monthEnds : List (Option Bson) :=
  [some (.dateTime 1675080000000),some (.dateTime 1675123200000),some (.dateTime 1677564000000)]

theorem monthEndsSorted : Sorted monthEnds := by
  simp only [Sorted, monthEnds, List.pairwise_cons, List.mem_cons, forall_eq_or_imp, Option.getD_some, cmpDates]
  decide

/- From the day before to the document itself. -/
theorem dayWindow : accumulator (.push marker) (List.range 3) [(0,1),(0,2),(2,3)] = (List.range 3).mapM fun i =>
    afresh (.push marker) ((Bounds.range (.offset 0xBFF0000000000000) .current (some .day)).docsWithin monthEnds (List.range 3) i) := by
  have is : endpoints (.range (.offset 0xBFF0000000000000) .current (some .day)) monthEnds = some [(0,1),(0,2),(2,3)] := by
    decide +kernel
  have both := recomputesWhenAdvancing monthEndsSorted is
  exact both.1.mpr (both.2 rfl) Nat (List.range 3) (.push marker) rfl

/- Up to a month on: noon of the 28th for the first document, and midnight of that day for the second, whose answer
still holds the third. -/
theorem monthStepsBack : Sorted monthEnds ∧
    endpoints (.range .unbounded (.offset 0x3FF0000000000000) (some .month)) monthEnds = some [(0,3),(0,2),(0,3)] ∧
    accumulator (.push marker) (List.range 3) [(0,3),(0,2),(0,3)] ≠ (List.range 3).mapM fun i => afresh (.push marker)
      ((Bounds.range .unbounded (.offset 0x3FF0000000000000) (some .month)).docsWithin monthEnds (List.range 3) i) := by
  have parts : (List.range 3).map ((Bounds.range .unbounded (.offset 0x3FF0000000000000) (some .month)).docsWithin monthEnds
      (List.range 3)) = [[0,1,2],[0,1],[0,1,2]] := by decide +kernel
  refine ⟨monthEndsSorted,by decide +kernel,fun same => ?_⟩
  change _ = (List.range 3).mapM (afresh (.push marker) ∘ Bounds.docsWithin _ monthEnds (List.range 3)) at same
  rw [← List.mapM_map, parts] at same
  -- the second answer: three documents, where the window has two
  have slid : accumulator (.push marker) (List.range 3) [(0,3),(0,2),(0,3)] =
      some (List.replicate 3 (some (.array [.array [],.array [.null],.array [.null,.null]]))) := rfl
  have anew : [[0,1,2],[0,1],[0,1,2]].mapM (afresh (.push marker)) =
      some [some (.array [.array [],.array [.null],.array [.null,.null]]),some (.array [.array [],.array [.null]]),
        some (.array [.array [],.array [.null],.array [.null,.null]])] := rfl
  rw [slid, anew] at same
  simp [List.replicate] at same

end Kimmy.Window
