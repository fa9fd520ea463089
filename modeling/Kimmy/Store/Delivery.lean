import Kimmy.Positions
import Kimmy.Store.Watch

/-!
What a client receives over all its connections. Every vector a token carries covers only
entries that its stream has taken, or that were appended late, at a stamp the member's
witnessed vector covered already; so a resumed stream passes over late entries at most.
-/
namespace Kimmy.Store
open Merge Positions

/-! The arrival index. -/

/- Positions count up from zero, and every one of them leads to an entry. -/
structure Arrived (t : Tables) : Prop where
  backed : ∀ q s, t.arrival.get q = some s → ∃ x, t.oplog.get s = some x ∧ x.stamp = s
  places : ∀ s q, t.arrivalSeq.get s = some q ↔ t.arrival.get q = some s
  first : ∀ q, t.oldestArrivalSeq = some q → q = 0

/- The part of it that holds also where retention has taken positions. -/
structure Ordered (t : Tables) : Prop where
  backed : ∀ q s, t.arrival.get q = some s → ∃ x, t.oplog.get s = some x ∧ x.stamp = s
  places : ∀ s q, t.arrivalSeq.get s = some q ↔ t.arrival.get q = some s

theorem Arrived.ordered {t : Tables} (arrived : Arrived t) : Ordered t := ⟨arrived.backed,arrived.places⟩

namespace Tables

theorem belowNext {t : Tables} {q : Nat} {s : Stamp} (found : t.arrival.get q = some s) : q < t.nextArrival := by
  have member := SortedMap.memEntries.mpr found
  unfold nextArrival
  cases last : t.arrival.entries.getLast? with
  | none =>
      rw [List.getLast?_eq_none_iff.mp last] at member
      exact absurd member List.not_mem_nil
  | some x =>
      obtain ⟨before, split⟩ := List.getLast?_eq_some_iff.mp last
      have sorted := t.arrival.sorted
      rw [split] at member sorted
      rcases List.mem_append.mp member with earlier | here
      · have below := (List.pairwise_append.mp sorted).2.2 _ earlier x (List.mem_singleton.mpr rfl)
        simp only [Option.map_some, Option.getD_some]
        exact below.trans (Nat.lt_succ_self _)
      · rw [←List.mem_singleton.mp here]
        exact Nat.lt_succ_self _

theorem arrivalLast {t : Tables} {s : Stamp} :
    (t.arrival.insert t.nextArrival s).entries = t.arrival.entries ++ [(t.nextArrival,s)] :=
  SortedMap.insertLast fun _ member => belowNext (SortedMap.memEntry.mp member)

/- An entry the log lacks takes the next position. -/
theorem appendFresh {t : Tables} {entry : OplogEntry} (position : Position) (fresh : t.oplog.get entry.stamp = none) :
    (t.appendOplogAt entry position).1.arrival = t.arrival.insert t.nextArrival entry.stamp ∧
      (t.appendOplogAt entry position).1.arrivalSeq = t.arrivalSeq.insert entry.stamp t.nextArrival := by
  unfold appendOplogAt
  simp only [fresh, Option.isSome_none, Bool.false_eq_true, if_false]
  cases position <;> exact ⟨rfl,rfl⟩

theorem releaseArrival (t : Tables) (stamp : Stamp) :
    (t.releaseHeldInPosition stamp).1.arrival = t.arrival ∧
      (t.releaseHeldInPosition stamp).1.arrivalSeq = t.arrivalSeq := by
  unfold releaseHeldInPosition
  split
  · exact ⟨rfl,rfl⟩
  · simp only
    split_ifs
    · exact ⟨rfl,rfl⟩
    · exact ⟨rfl,rfl⟩

/- One it holds keeps its own. -/
theorem appendHeld {t : Tables} {entry held : OplogEntry} (position : Position)
    (found : t.oplog.get entry.stamp = some held) :
    (t.appendOplogAt entry position).1.arrival = t.arrival ∧
      (t.appendOplogAt entry position).1.arrivalSeq = t.arrivalSeq := by
  unfold appendOplogAt
  simp only [found, Option.isSome_some, if_true]
  split_ifs
  · exact releaseArrival _ _
  · exact ⟨rfl,rfl⟩

/- The witnessed vector only grows. -/
theorem raisedWitnessed {t u : Tables} {stamp : Stamp} (raised : Raised t u stamp) (node : NodeId) :
    t.witnessed.get node ≤ u.witnessed.get node := by
  rcases raised with ⟨_, same⟩ | ⟨_, raised⟩
  · rw [same]
  · rw [raised]
    exact VersionVector.raiseLe _ _ _

end Tables

theorem arrivedFresh (collections : SortedMap CollectionId CollectionMeta) : Arrived (.fresh collections) :=
  ⟨nofun,fun _ _ => iff_of_false nofun nofun,nofun⟩

section
variable {t : Tables} {entry : OplogEntry}

theorem Ordered.appendFresh (ordered : Ordered t) (position : Position) (fresh : t.oplog.get entry.stamp = none) :
    Ordered (t.appendOplogAt entry position).1 ∧
      Watching.arrivals (t.appendOplogAt entry position).1 = Watching.arrivals t ++ [(t.nextArrival,entry)] := by
  obtain ⟨arrival, seq⟩ := Tables.appendFresh position fresh
  have unplaced : ∀ q, t.arrival.get q ≠ some entry.stamp := by
    intro q found
    obtain ⟨x, held, _⟩ := ordered.backed q _ found
    cases fresh.symm.trans held
  refine ⟨⟨fun q s found => ?_,fun s q => ?_⟩,?_⟩
  · rw [arrival, SortedMap.getInsert] at found
    rw [Tables.appendLog, SortedMap.getInsert]
    split_ifs at found with here
    · obtain rfl := Option.some.inj found
      exact ⟨entry,if_pos rfl,rfl⟩
    · obtain ⟨x, held, stamped⟩ := ordered.backed q s found
      refine ⟨x,?_,stamped⟩
      rw [if_neg fun same => ?_]
      · exact held
      · exact unplaced q (same ▸ found)
  · rw [arrival, seq, SortedMap.getInsert, SortedMap.getInsert]
    by_cases own : s = entry.stamp
    · subst own
      by_cases here : q = t.nextArrival
      · simp [here]
      · rw [if_pos rfl, if_neg here]
        refine iff_of_false (fun same => here (Option.some.inj same).symm) (unplaced q)
    · rw [if_neg own]
      by_cases here : q = t.nextArrival
      · subst here
        rw [if_pos rfl]
        refine iff_of_false (fun found => ?_) fun same => own (Option.some.inj same).symm
        exact absurd (Tables.belowNext ((ordered.places s _).mp found)) (lt_irrefl _)
      · rw [if_neg here]
        exact ordered.places s q
  · unfold Watching.arrivals
    rw [arrival, Tables.arrivalLast, List.filterMap_append, Tables.appendLog]
    congr 1
    · refine List.filterMap_congr fun x member => ?_
      have found := SortedMap.memEntry.mp member
      have other : x.2 ≠ entry.stamp := fun same => unplaced x.1 (same ▸ found)
      rw [SortedMap.getInsert, if_neg other]
    · simp

theorem Ordered.appendHeld (ordered : Ordered t) (position : Position) (held : t.oplog.get entry.stamp = some entry) :
    Ordered (t.appendOplogAt entry position).1 ∧
      Watching.arrivals (t.appendOplogAt entry position).1 = Watching.arrivals t := by
  obtain ⟨arrival, seq⟩ := Tables.appendHeld position held
  have log : (t.appendOplogAt entry position).1.oplog = t.oplog := by
    rw [Tables.appendLog]
    refine SortedMap.ext fun s => ?_
    rw [SortedMap.getInsert]
    split_ifs with same
    · rw [same, held]
    · rfl
  refine ⟨⟨?_,?_⟩,?_⟩
  · rw [arrival, log]
    exact ordered.backed
  · rw [arrival, seq]
    exact ordered.places
  · unfold Watching.arrivals
    rw [arrival, log]

theorem Arrived.appendFresh (arrived : Arrived t) (position : Position) (fresh : t.oplog.get entry.stamp = none) :
    Arrived (t.appendOplogAt entry position).1 ∧
      Watching.arrivals (t.appendOplogAt entry position).1 = Watching.arrivals t ++ [(t.nextArrival,entry)] := by
  obtain ⟨arrival, _⟩ := Tables.appendFresh position fresh
  obtain ⟨ordered, rows⟩ := arrived.ordered.appendFresh position fresh
  refine ⟨⟨ordered.backed,ordered.places,fun q found => ?_⟩,rows⟩
  unfold Tables.oldestArrivalSeq at found
  rw [arrival, Tables.arrivalLast] at found
  cases rows : t.arrival.entries with
  | nil =>
      rw [rows] at found
      have zero : t.nextArrival = 0 := by simp [Tables.nextArrival, rows]
      rw [zero] at found
      simpa using found.symm
  | cons x rest =>
      rw [rows] at found
      refine arrived.first q ?_
      unfold Tables.oldestArrivalSeq
      rw [rows]
      simpa using found

theorem Arrived.appendHeld (arrived : Arrived t) (position : Position) (held : t.oplog.get entry.stamp = some entry) :
    Arrived (t.appendOplogAt entry position).1 ∧
      Watching.arrivals (t.appendOplogAt entry position).1 = Watching.arrivals t := by
  obtain ⟨arrival, _⟩ := Tables.appendHeld position held
  obtain ⟨ordered, rows⟩ := arrived.ordered.appendHeld position held
  refine ⟨⟨ordered.backed,ordered.places,?_⟩,rows⟩
  unfold Tables.oldestArrivalSeq
  rw [arrival]
  exact arrived.first

theorem memArrivals {q : Nat} {x : OplogEntry} :
    (q,x) ∈ Watching.arrivals t ↔ ∃ s, t.arrival.get q = some s ∧ t.oplog.get s = some x := by
  unfold Watching.arrivals
  rw [List.mem_filterMap]
  constructor
  · rintro ⟨⟨p, s⟩, member, made⟩
    obtain ⟨y, held, same⟩ := Option.map_eq_some_iff.mp made
    obtain ⟨rfl, rfl⟩ := Prod.mk.inj same
    exact ⟨s,SortedMap.memEntries.mp member,held⟩
  · rintro ⟨s, found, held⟩
    exact ⟨(q,s),SortedMap.memEntries.mpr found,by simp [held]⟩

theorem arrivalsIncreasing (t : Tables) : Increasing (Watching.arrivals t) := by
  unfold Watching.arrivals Increasing
  refine List.Pairwise.filterMap _ (fun x y below b made c later => ?_) t.arrival.sorted
  obtain ⟨_, _, rfl⟩ := Option.map_eq_some_iff.mp made
  obtain ⟨_, _, rfl⟩ := Option.map_eq_some_iff.mp later
  exact below

theorem arrivalsBelow {x : Nat × OplogEntry} (member : x ∈ Watching.arrivals t) : x.1 < t.nextArrival := by
  obtain ⟨s, found, _⟩ := memArrivals.mp member
  exact Tables.belowNext found

end

/-! Reads. -/

/- A walk over rows that all lead to entries stops after the limit, and after one at least. -/
theorem walkArrivalEq (oplog : SortedMap Stamp OplogEntry) (limit : Nat) :
    ∀ (rows : List (Nat × Stamp)) (out : List OplogEntry) (last : Option Nat),
    (∀ row ∈ rows, ∃ x, oplog.get row.2 = some x) → out.length < max limit 1 →
    walkArrival oplog limit rows out last =
      (out ++ ((rows.filterMap fun x => (oplog.get x.2).map fun entry => (x.1,entry)).take
          (max limit 1 - out.length)).map Prod.snd,
        (((rows.filterMap fun x => (oplog.get x.2).map fun entry => (x.1,entry)).take
          (max limit 1 - out.length)).getLast?.map Prod.fst).or last,
        decide (rows.length ≤ max limit 1 - out.length))
  | [], out, last, _, _ => by simp [walkArrival]
  | (seq,stamp) :: rest, out, last, backed, room => by
      obtain ⟨entry, found⟩ := backed (seq,stamp) List.mem_cons_self
      have more : ∀ row ∈ rest, ∃ x, oplog.get row.2 = some x := fun row member =>
        backed row (List.mem_cons_of_mem _ member)
      obtain ⟨n, size⟩ : ∃ n, max limit 1 - out.length = n + 1 := ⟨max limit 1 - out.length - 1,by omega⟩
      have longer : (out ++ [entry]).length = out.length + 1 := by simp
      simp only [walkArrival, found, longer, List.filterMap_cons, Option.map_some, size, List.take_succ_cons,
        List.map_cons, List.length_cons]
      split_ifs with full
      · have one : n = 0 := by omega
        cases rest <;> simp [one]
      · have next := walkArrivalEq oplog limit rest (out ++ [entry]) (some seq) more
          (by omega)
        have left : max limit 1 - (out ++ [entry]).length = n := by omega
        rw [next, left]
        refine Prod.ext_iff.mpr ⟨by simp,Prod.ext_iff.mpr ⟨?_,by simp⟩⟩
        simp only
        cases tail : (rest.filterMap fun x => (oplog.get x.2).map fun entry => (x.1,entry)).take n with
        | nil => simp
        | cons y ys => simp [List.getLast?_cons]

theorem rangeArrivals {t : Tables} (p : Nat) :
    ((t.arrival.range p).filterMap fun x => (t.oplog.get x.2).map fun entry => (x.1,entry)) =
      (Watching.arrivals t).filter fun x => p ≤ x.1 := by
  rw [SortedMap.rangeEq, Watching.arrivals, List.filterMap_filter, List.filter_filterMap]
  refine List.filterMap_congr fun x _ => ?_
  by_cases inside : p ≤ x.1
  · cases t.oplog.get x.2 <;> simp [inside, Option.filter]
  · cases t.oplog.get x.2 <;> simp [inside, Option.filter]

/- A read returns a span from its start, and the vector when there is nothing after it. -/
theorem readSpan {t : Tables} (ordered : Ordered t) (p limit : Nat) :
    ∃ f, p ≤ f ∧ f ≤ max p t.nextArrival ∧
      (t.readArrivalBatch p limit).1 = (between (Watching.arrivals t) p f).map Prod.snd ∧
      ((t.readArrivalBatch p limit).2.2.map (· + 1)).getD p = f ∧
      (∀ v, (t.readArrivalBatch p limit).2.1 = some v → v = t.witnessed ∧ ∀ x ∈ Watching.arrivals t, x.1 < f) ∧
      ((t.readArrivalBatch p limit).1 = [] → ∀ x ∈ Watching.arrivals t, x.1 < p) ∧
      (t.arrival.entries.length ≤ limit → ∀ x ∈ Watching.arrivals t, x.1 < f) := by
  have backed : ∀ row ∈ t.arrival.range p, ∃ x, t.oplog.get row.2 = some x := fun row member => by
    obtain ⟨x, held, _⟩ := ordered.backed row.1 row.2 (SortedMap.memRange.mp member).1
    exact ⟨x,held⟩
  have walk := walkArrivalEq t.oplog limit (t.arrival.range p) [] none backed (by simp)
  have count : (t.arrival.range p).length = ((Watching.arrivals t).filter fun x => p ≤ x.1).length := by
    rw [←rangeArrivals, List.length_filterMap_eq_countP, List.countP_eq_length.mpr]
    intro row member
    obtain ⟨x, held⟩ := backed row member
    simp [held]
  rw [rangeArrivals, count] at walk
  simp only [List.nil_append, List.length_nil, Nat.sub_zero, Option.or_none] at walk
  unfold Tables.readArrivalBatch
  rw [walk]
  simp only
  generalize size : max limit 1 = n
  have positive : 0 < n := by omega
  cases final : (((Watching.arrivals t).filter fun x => p ≤ x.1).take n).getLast? with
  | none =>
      have empty : ((Watching.arrivals t).filter fun x => p ≤ x.1) = [] := by
        have nothing := List.getLast?_eq_none_iff.mp final
        rcases List.take_eq_nil_iff.mp nothing with zero | empty
        · omega
        · exact empty
      have none : ∀ x ∈ Watching.arrivals t, x.1 < p := fun x member =>
        not_le.mp fun inside => by
          have there : x ∈ (Watching.arrivals t).filter fun x => p ≤ x.1 :=
            List.mem_filter.mpr ⟨member,by simpa using inside⟩
          rw [empty] at there
          exact List.not_mem_nil there
      refine ⟨p,le_refl _,le_max_left _ _,?_,rfl,fun v found => ?_,fun _ => none,fun _ => none⟩
      · rw [empty]
        have gap : between (Watching.arrivals t) p p = [] := by
          rw [List.eq_nil_iff_forall_not_mem]
          intro x there
          have inside := memBetween.mp there
          omega
        rw [gap, List.take_nil]
      · split_ifs at found
        exact ⟨(Option.some.inj found).symm,none⟩
  | some last =>
      have span := betweenTake (arrivalsIncreasing t) final
      have member := List.mem_of_mem_take (List.mem_of_getLast? final)
      obtain ⟨there, low⟩ := List.mem_filter.mp member
      have high := arrivalsBelow there
      have low : p ≤ last.1 := by simpa using low
      have whole : ((Watching.arrivals t).filter fun x => p ≤ x.1).length ≤ n →
          ∀ x ∈ Watching.arrivals t, x.1 < last.1 + 1 := by
        intro fits x inside
        by_contra beyond
        have all : x ∈ ((Watching.arrivals t).filter fun x => p ≤ x.1).take n := by
          rw [List.take_of_length_le fits]
          exact List.mem_filter.mpr ⟨inside,by simp only [decide_eq_true_eq]; omega⟩
        rw [span] at all
        have bound := (memBetween.mp all).2.2
        omega
      refine ⟨last.1 + 1,by omega,by omega,by rw [span],rfl,fun v found => ?_,fun empty => ?_,fun fits => whole ?_⟩
      · split_ifs at found with fits
        exact ⟨(Option.some.inj found).symm,whole (by simpa using fits)⟩
      · rw [span] at final
        rw [List.map_eq_nil_iff.mp empty] at span
        rw [←span] at final
        cases final
      · rw [←count, SortedMap.rangeEq]
        exact (List.length_filter_le _ _).trans (fits.trans (by omega))

/-! The invariant. -/

namespace Watching

/- The entries in scope that arrived in a span. -/
def due (w : Watching) (p f : Nat) : List OplogEntry :=
  ((between (arrivals w.tables) p f).filter fun x => w.inScope x.2).map Prod.snd

/- Those of them that were not late. -/
def duePrompt (w : Watching) (p f : Nat) : List OplogEntry :=
  ((between (arrivals w.tables) p f).filter fun x => w.inScope x.2 && !w.late.contains x.1).map Prod.snd

/- What a client that has come to `p` has received. -/
def Brings (w : Watching) (start : Nat) (events : List OplogEntry) (p : Nat) : Prop :=
  (w.duePrompt start p).Sublist events ∧ events.Sublist (w.due start p)

/- The vector claims only what lies before `p`, late entries apart. -/
structure Behind (w : Watching) (v : VersionVector) (p : Nat) : Prop where
  witnessed : ∀ node, v.get node ≤ w.tables.witnessed.get node
  taken : ∀ x ∈ arrivals w.tables, p ≤ x.1 → x.2.kind.isLocalObservation = false → x.1 ∉ w.late →
    ¬ v.Covers x.2.stamp

/- A client that holds these events and comes back with the last token. -/
def Tells (w : Watching) (start : Nat) (events : List (OplogEntry × ResumeToken)) : Prop :=
  ∀ x token, events.getLast? = some (x,token) → ∃ q, w.tables.arrival.get q = some token.stamp ∧ start ≤ q + 1 ∧
    w.Brings start (events.map Prod.fst) (q + 1) ∧ w.Behind token.delivered (q + 1)

/- An open stream that has taken everything before `p`. -/
structure Reads (w : Watching) (start : Nat) (s : ChangeStream) (p : Nat) : Prop where
  lower : start ≤ p
  upper : p ≤ s.position
  bound : s.position ≤ w.tables.nextArrival
  replay : s.replay = (between (arrivals w.tables) p s.position).map Prod.snd
  brings : w.Brings start (w.received.map Prod.fst) p
  delivered : w.Behind s.delivered p
  pending : ∀ v, s.pending = some v → w.Behind v s.position
  skip : ∀ v, s.skip = some v → w.Behind v p
  whole : s.skip = none → w.received.map Prod.fst = w.due start p
  running : s.finished = false

structure Following (w : Watching) : Prop where
  arrived : Arrived w.tables
  stamped : w.Behind .new 0
  unopened : w.start = none → w.stream = none ∧ w.received = []
  begun : ∀ start, w.start = some start → start ≤ w.tables.nextArrival
  tells : ∀ start, w.start = some start → ∀ events, events <+: w.received → w.Tells start events
  reads : ∀ start s, w.start = some start → w.stream = some s → ∃ p, w.Reads start s p

theorem behindMono {w : Watching} {v p q} (behind : w.Behind v p) (order : p ≤ q) : w.Behind v q :=
  ⟨behind.witnessed,fun x member above => behind.taken x member (order.trans above)⟩

theorem behindMerge {w : Watching} {u v p} (first : w.Behind u p) (second : w.Behind v p) : w.Behind (u.merge v) p := by
  refine ⟨fun node => ?_,fun x member above own prompt covers => ?_⟩
  · rw [VersionVector.getMerge]
    exact max_le (first.witnessed node) (second.witnessed node)
  · rw [VersionVector.Covers, VersionVector.getMerge, le_max_iff] at covers
    rcases covers with covers | covers
    · exact first.taken x member above own prompt covers
    · exact second.taken x member above own prompt covers

/-! The store grows. -/

/- What an append and the like do, as far as a stream can tell. -/
structure Grows (w y : Watching) : Prop where
  arrived : Arrived y.tables
  same : y.node = w.node ∧ y.inScope = w.inScope ∧ y.start = w.start ∧ y.stream = w.stream ∧
    y.received = w.received ∧ y.sent = w.sent
  next : w.tables.nextArrival ≤ y.tables.nextArrival
  old : ∀ p f, f ≤ w.tables.nextArrival → between (arrivals y.tables) p f = between (arrivals w.tables) p f
  places : ∀ q s, w.tables.arrival.get q = some s → y.tables.arrival.get q = some s
  late : ∀ q < w.tables.nextArrival, q ∈ y.late ↔ q ∈ w.late
  witnessed : ∀ node, w.tables.witnessed.get node ≤ y.tables.witnessed.get node
  fresh : ∀ x ∈ arrivals y.tables, w.tables.nextArrival ≤ x.1 → x.2.kind.isLocalObservation = false → x.1 ∉ y.late →
    ¬ w.tables.witnessed.Covers x.2.stamp

section
variable {w y : Watching}

theorem Grows.behind (grows : Grows w y) {v p} (behind : w.Behind v p) : y.Behind v p := by
  refine ⟨fun node => (behind.witnessed node).trans (grows.witnessed node),fun x member above own prompt covers => ?_⟩
  by_cases early : x.1 < w.tables.nextArrival
  · have there : x ∈ between (arrivals y.tables) x.1 (x.1 + 1) := memBetween.mpr ⟨member,le_refl _,Nat.lt_succ_self _⟩
    rw [grows.old _ _ early] at there
    have before : x.1 ∉ w.late := fun late => prompt ((grows.late x.1 early).mpr late)
    exact behind.taken x (memBetween.mp there).1 above own before covers
  · exact grows.fresh x member (not_lt.mp early) own prompt (covers.trans (behind.witnessed _))

theorem Grows.due (grows : Grows w y) {p f} (bound : f ≤ w.tables.nextArrival) :
    y.due p f = w.due p f ∧ y.duePrompt p f = w.duePrompt p f := by
  unfold Watching.due Watching.duePrompt
  rw [grows.old p f bound, grows.same.2.1]
  refine ⟨rfl,congrArg _ (List.filter_congr fun x member => ?_)⟩
  have early := (memBetween.mp member).2.2.trans_le bound
  rw [Bool.eq_iff_iff]
  simp only [Bool.and_eq_true, Bool.not_eq_true', List.contains_eq_mem, decide_eq_false_iff_not, grows.late x.1 early]

theorem Grows.brings (grows : Grows w y) {start events p} (bound : p ≤ w.tables.nextArrival)
    (brings : w.Brings start events p) : y.Brings start events p := by
  unfold Brings
  rw [(grows.due bound).1, (grows.due bound).2]
  exact brings

theorem Grows.following (grows : Grows w y) (following : w.Following) : y.Following := by
  obtain ⟨_, _, start, stream, received, _⟩ := grows.same
  refine ⟨grows.arrived,grows.behind following.stamped,?_,?_,?_,?_⟩
  · rw [start, stream, received]
    exact following.unopened
  · rw [start]
    exact fun s begun => (following.begun s begun).trans grows.next
  · rw [start, received]
    intro s begun events inside x token last
    obtain ⟨q, placed, after, brings, behind⟩ := following.tells s begun events inside x token last
    have bound : q + 1 ≤ w.tables.nextArrival := Tables.belowNext placed
    exact ⟨q,grows.places q _ placed,after,grows.brings bound brings,grows.behind behind⟩
  · rw [start, stream]
    intro s c begun open'
    obtain ⟨p, reads⟩ := following.reads s c begun open'
    refine ⟨p,reads.lower,reads.upper,reads.bound.trans grows.next,?_,?_,grows.behind reads.delivered,
      fun v found => grows.behind (reads.pending v found),fun v found => grows.behind (reads.skip v found),?_,
      reads.running⟩
    · rw [grows.old _ _ reads.bound]
      exact reads.replay
    · rw [received]
      exact grows.brings (reads.upper.trans reads.bound) reads.brings
    · rw [received, (grows.due (reads.upper.trans reads.bound)).1]
      exact reads.whole

end

/- Nothing arrives. -/
theorem growsStill {w : Watching} {u : Tables} (arrived : Arrived u) (arrival : u.arrival = w.tables.arrival)
    (same : arrivals u = arrivals w.tables)
    (witnessed : ∀ node, w.tables.witnessed.get node ≤ u.witnessed.get node) : Grows w { w with tables := u } := by
  have next : u.nextArrival = w.tables.nextArrival := by
    unfold Tables.nextArrival
    rw [arrival]
  refine ⟨arrived,⟨rfl,rfl,rfl,rfl,rfl,rfl⟩,next.ge,fun p f _ => ?_,fun q s found => ?_,fun _ _ => Iff.rfl,witnessed,
    fun x member above => ?_⟩
  · simp only [same]
  · simp only [arrival]
    exact found
  · simp only [same] at member
    exact absurd (arrivalsBelow member) (not_lt.mpr above)

theorem growsRelease {w : Watching} (following : w.Following) (stamp : Stamp) :
    Grows w (w.step (.release stamp)) := by
  obtain ⟨arrival, seq⟩ := Tables.releaseArrival w.tables stamp
  have log := Tables.releaseLog w.tables stamp
  refine growsStill ⟨?_,?_,?_⟩ arrival ?_ (Tables.raisedWitnessed (Tables.releaseRaised w.tables stamp))
  · rw [arrival, log]
    exact following.arrived.backed
  · rw [arrival, seq]
    exact following.arrived.places
  · unfold Tables.oldestArrivalSeq
    rw [arrival]
    exact following.arrived.first
  · unfold arrivals
    rw [arrival, log]

theorem growsWitness {w : Watching} (following : w.Following) (stamp : Stamp) :
    Grows w (w.step (.witness stamp)) := by
  obtain ⟨backed, places, first⟩ := following.arrived
  exact growsStill ⟨backed,places,first⟩ rfl rfl (VersionVector.raiseLe w.tables.witnessed stamp)

theorem growsAppend {w : Watching} (following : w.Following) (entry : OplogEntry) (position : Position) :
    Grows w (w.step (.append entry position)) := by
  rw [step, append]
  cases found : w.tables.oplog.get entry.stamp with
  | some held =>
      simp only
      split_ifs with same
      · subst same
        obtain ⟨arrived, still⟩ := following.arrived.appendHeld position found
        exact growsStill arrived (Tables.appendHeld position found).1 still
          (Tables.raisedWitnessed (Tables.appendRaised w.tables held position))
      · exact growsStill following.arrived rfl rfl fun _ => le_refl _
  | none =>
      simp only
      obtain ⟨arrived, more⟩ := following.arrived.appendFresh position found
      obtain ⟨arrival, _⟩ := Tables.appendFresh position found
      have next : (w.tables.appendOplogAt entry position).1.nextArrival = w.tables.nextArrival + 1 := by
        unfold Tables.nextArrival
        rw [arrival, Tables.arrivalLast]
        simp [Tables.nextArrival]
      refine ⟨arrived,⟨rfl,rfl,rfl,rfl,rfl,rfl⟩,by simp only; omega,fun p f bound => ?_,fun q s placed => ?_,
        fun q early => ?_,Tables.raisedWitnessed (Tables.appendRaised w.tables entry position),fun x member above own prompt => ?_⟩
      · simp only [more]
        exact betweenSnoc bound
      · simp only [arrival, SortedMap.getInsert]
        rw [if_neg (Tables.belowNext placed).ne]
        exact placed
      · simp only
        split_ifs
        · rw [List.mem_append, List.mem_singleton]
          exact or_iff_left (by omega)
        · exact Iff.rfl
      · simp only [more, List.mem_append, List.mem_singleton] at member
        rcases member with old | rfl
        · exact absurd (arrivalsBelow old) (not_lt.mpr above)
        · intro covers
          refine prompt ?_
          simp only at own covers ⊢
          rw [if_pos (by simp [own, covers])]
          exact List.mem_append_right _ (List.mem_singleton.mpr rfl)

/-! The stream moves. -/

section
variable {w : Watching} {start : Nat} {s : ChangeStream} {p : Nat}

/- A span that ends with one more entry. -/
theorem dueSnoc {x : Nat × OplogEntry} {f : Nat}
    (span : between (arrivals w.tables) start f = between (arrivals w.tables) start p ++ [x]) :
    w.due start f = w.due start p ++ (if w.inScope x.2 then [x.2] else []) ∧
      w.duePrompt start f = w.duePrompt start p ++ (if w.inScope x.2 && !w.late.contains x.1 then [x.2] else []) := by
  unfold due duePrompt
  rw [span]
  constructor
  · by_cases inside : w.inScope x.2 <;> simp [inside]
  · by_cases inside : w.inScope x.2 <;> by_cases late : x.1 ∈ w.late <;> simp [inside, late]

/- A stream that passes over an entry in scope says that the client has it, and is right unless
the entry was late. -/
theorem passedLate {x : Nat × OplogEntry} (skip : ∀ v, s.skip = some v → w.Behind v p)
    (member : x ∈ arrivals w.tables) (above : p ≤ x.1) (inside : w.inScope x.2 = true)
    (passed : s.accepts w.inScope x.2 = false) : x.1 ∈ w.late ∧ s.skip ≠ none := by
  unfold ChangeStream.accepts at passed
  rw [inside, Bool.true_and, Bool.not_eq_false'] at passed
  cases claimed : s.skip with
  | none => simp [claimed] at passed
  | some v =>
      rw [claimed, Option.any_some, Bool.and_eq_true, Bool.not_eq_true', decide_eq_true_iff] at passed
      refine ⟨?_,by simp⟩
      by_contra prompt
      exact (skip v claimed).taken x member above passed.1 prompt passed.2

/- Tables, scope and late positions stay when the client or its stream moves. -/
theorem behindMoved {v : VersionVector} {q : Nat} (b c d e) (behind : w.Behind v q) :
    Behind { w with start := b, stream := c, received := d, sent := e } v q :=
  ⟨behind.witnessed,behind.taken⟩

theorem tellsMoved {events : List (OplogEntry × ResumeToken)} (b c d e) (tells : w.Tells start events) :
    Tells { w with start := b, stream := c, received := d, sent := e } start events := by
  intro x token last
  obtain ⟨q, placed, after, brings, behind⟩ := tells x token last
  exact ⟨q,placed,after,brings,behindMoved b c d e behind⟩

theorem followingMoved (following : w.Following) (begun : w.start = some start) (c d e)
    (tells : ∀ events, events <+: d → w.Tells start events)
    (reads : ∀ s, c = some s → ∃ p, Reads { w with stream := c, received := d, sent := e } start s p) :
    Following { w with stream := c, received := d, sent := e } := by
  refine ⟨following.arrived,behindMoved w.start c d e following.stamped,fun unset => ?_,following.begun,
    fun begin same events inside => ?_,fun begin s same opened => ?_⟩
  · cases begun.symm.trans unset
  · obtain rfl : start = begin := Option.some.inj (begun.symm.trans same)
    exact tellsMoved w.start c d e (tells events inside)
  · obtain rfl : start = begin := Option.some.inj (begun.symm.trans same)
    exact reads s opened

theorem begunOpen (following : w.Following) (open' : w.stream = some s) : ∃ start, w.start = some start := by
  cases begun : w.start with
  | none =>
      rw [(following.unopened begun).1] at open'
      cases open'
  | some start => exact ⟨start,rfl⟩

theorem takeFollowing (following : w.Following) : w.take.Following := by
  unfold take
  cases open' : w.stream with
  | none => exact following
  | some s =>
      simp only
      cases batch : s.replay with
      | nil => exact following
      | cons entry rest =>
          simp only
          obtain ⟨start, begun⟩ := begunOpen following open'
          obtain ⟨p, reads⟩ := following.reads start s begun open'
          have span := reads.replay
          rw [batch] at span
          obtain ⟨x, more, split, rfl, tail⟩ := List.map_eq_cons_iff.mp span.symm
          obtain ⟨member, low, high, left, spans⟩ := betweenHead (arrivalsIncreasing w.tables) split
          obtain ⟨dueNext, promptNext⟩ := dueSnoc (spans start reads.lower)
          obtain ⟨stamp, placed, held⟩ := memArrivals.mp member
          have named : x.2.stamp = stamp := by
            obtain ⟨y, found, stamped⟩ := following.arrived.backed x.1 stamp placed
            rw [held] at found
            rw [Option.some.inj found, stamped]
          have lower : start ≤ x.1 + 1 := reads.lower.trans (low.trans (Nat.le_succ _))
          have replay : rest = (between (arrivals w.tables) (x.1 + 1) s.position).map Prod.snd := by rw [left, tail]
          have later : p ≤ x.1 + 1 := low.trans (Nat.le_succ _)
          split_ifs with accepted
          · have inside : w.inScope x.2 = true := by
              unfold ChangeStream.accepts at accepted
              exact (Bool.and_eq_true_iff.mp accepted).1
            rw [inside, if_pos rfl] at dueNext
            have brings : w.Brings start (w.received.map Prod.fst ++ [x.2]) (x.1 + 1) := by
              unfold Brings
              rw [dueNext, promptNext]
              refine ⟨reads.brings.1.append ?_,reads.brings.2.append (List.Sublist.refl _)⟩
              split_ifs
              · exact List.Sublist.refl _
              · exact List.nil_sublist _
            refine followingMoved following begun _ _ _ (fun events inside' => ?_) fun c opened => ?_
            · rcases List.prefix_concat_iff.mp inside' with rfl | shorter
              · intro y token last
                rw [List.getLast?_concat] at last
                obtain ⟨rfl, rfl⟩ := Prod.mk.inj (Option.some.inj last)
                refine ⟨x.1,named ▸ placed,lower,?_,behindMono reads.delivered later⟩
                rw [List.map_append]
                exact brings
              · exact following.tells start begun events shorter
            · obtain rfl := Option.some.inj opened
              refine ⟨x.1 + 1,lower,high,reads.bound,replay,?_,behindMoved _ _ _ _ (behindMono reads.delivered later),
                fun v held => behindMoved _ _ _ _ (reads.pending v held),
                fun v claimed => behindMoved _ _ _ _ (behindMono (reads.skip v claimed) later),fun claimless => ?_,
                reads.running⟩
              · rw [List.map_append]
                exact brings
              · rw [List.map_append]
                exact (congrArg (· ++ [x.2]) (reads.whole claimless)).trans dueNext.symm
          · -- passed over: out of scope, or late
            have passed : s.accepts w.inScope x.2 = false := by simpa using accepted
            have brings : w.Brings start (w.received.map Prod.fst) (x.1 + 1) ∧
                (s.skip = none → w.received.map Prod.fst = w.due start (x.1 + 1)) := by
              unfold Brings
              rw [dueNext, promptNext]
              by_cases inside : w.inScope x.2 = true
              · obtain ⟨late, claimed⟩ := passedLate reads.skip member low inside passed
                rw [if_neg (by simp [late]), List.append_nil]
                exact ⟨⟨reads.brings.1,reads.brings.2.trans (List.sublist_append_left _ _)⟩,
                  fun claimless => absurd claimless claimed⟩
              · rw [if_neg (by simp [inside]), if_neg inside, List.append_nil, List.append_nil]
                exact ⟨reads.brings,reads.whole⟩
            refine followingMoved following begun _ _ _ (following.tells start begun) fun c opened => ?_
            obtain rfl := Option.some.inj opened
            exact ⟨x.1 + 1,lower,high,reads.bound,replay,brings.1,behindMoved _ _ _ _ (behindMono reads.delivered later),
              fun v held => behindMoved _ _ _ _ (reads.pending v held),
              fun v claimed => behindMoved _ _ _ _ (behindMono (reads.skip v claimed) later),brings.2,reads.running⟩

theorem gapBehind (reads : w.Reads start s p) (empty : s.replay = []) :
    w.Brings start (w.received.map Prod.fst) s.position ∧
      (s.skip = none → w.received.map Prod.fst = w.due start s.position) := by
  have gap : between (arrivals w.tables) p s.position = [] := List.map_eq_nil_iff.mp (reads.replay.symm.trans empty)
  have same : w.due start s.position = w.due start p ∧ w.duePrompt start s.position = w.duePrompt start p := by
    unfold due duePrompt
    rw [betweenGap gap reads.upper]
    exact ⟨rfl,rfl⟩
  unfold Brings
  rw [same.1, same.2]
  exact ⟨reads.brings,reads.whole⟩

/- What the last read covered is behind the stream once its batch is empty. -/
theorem settled (reads : w.Reads start s p) (empty : s.replay = []) :
    w.Reads start s.settlePending s.position ∧ s.settlePending.position = s.position ∧ s.settlePending.replay = [] ∧
      s.settlePending.pending = none := by
  obtain ⟨brings, whole⟩ := gapBehind reads empty
  have still : (between (arrivals w.tables) s.position s.position).map Prod.snd = [] := by
    rw [List.map_eq_nil_iff, List.eq_nil_iff_forall_not_mem]
    intro x there
    have inside := memBetween.mp there
    omega
  have lower := reads.lower.trans reads.upper
  have delivered := behindMono reads.delivered reads.upper
  have skip := fun v claimed => behindMono (reads.skip v claimed) reads.upper
  unfold ChangeStream.settlePending
  cases waiting : s.pending with
  | none =>
      exact ⟨⟨lower,le_refl _,reads.bound,empty.trans still.symm,brings,delivered,reads.pending,skip,whole,
        reads.running⟩,rfl,empty,waiting⟩
  | some v =>
      exact ⟨⟨lower,le_refl _,reads.bound,empty.trans still.symm,brings,behindMerge delivered (reads.pending v waiting),
        nofun,skip,whole,reads.running⟩,rfl,empty,rfl⟩

/- A read that went on to `f`. -/
theorem readTo {f : Nat} {out : List OplogEntry} {witnessed : Option VersionVector}
    (reads : w.Reads start s s.position) (drained : s.replay = []) (idle : s.pending = none)
    (low : s.position ≤ f) (bound : f ≤ w.tables.nextArrival)
    (batch : out = (between (arrivals w.tables) s.position f).map Prod.snd)
    (nothing : out = [] → ∀ x ∈ arrivals w.tables, x.1 < s.position) :
    (∀ v, witnessed = some v → v = w.tables.witnessed ∧ ∀ x ∈ arrivals w.tables, x.1 < f) →
    w.Reads start (if out.isEmpty then { s with
        nextReplayFrom := some f
        delivered := match witnessed with
          | some witnessed => s.delivered.merge witnessed
          | none => s.delivered }
      else { s with nextReplayFrom := some f, replay := out, pending := witnessed }) s.position := by
  intro vector
  split_ifs with blank
  · have blank : out = [] := List.isEmpty_iff.mp blank
    have before := nothing blank
    have gap : s.replay = (between (arrivals w.tables) s.position f).map Prod.snd := drained.trans (blank.symm.trans batch)
    refine ⟨reads.lower,low,bound,gap,reads.brings,?_,fun v found => ?_,reads.skip,reads.whole,reads.running⟩
    · cases witnessed with
      | none => exact reads.delivered
      | some v =>
          obtain ⟨rfl, _⟩ := vector v rfl
          exact behindMerge reads.delivered ⟨fun _ => le_refl _,fun x member later =>
            absurd (before x member) (not_lt.mpr later)⟩
    · cases idle.symm.trans found
  · refine ⟨reads.lower,low,bound,batch,reads.brings,reads.delivered,fun v found => ?_,reads.skip,reads.whole,
      reads.running⟩
    obtain ⟨rfl, above⟩ := vector v found
    exact ⟨fun _ => le_refl _,fun x member later => absurd (above x member) (not_lt.mpr later)⟩

theorem readReads (arrived : Arrived w.tables) (reads : w.Reads start s p) (empty : s.replay = []) (limit : Nat) :
    w.Reads start (s.read w.tables limit) s.position ∧
      (w.tables.arrival.entries.length ≤ limit → ∀ x ∈ arrivals w.tables, x.1 < (s.read w.tables limit).position) := by
  obtain ⟨reads, place, drained, idle⟩ := settled reads empty
  rw [←place] at reads ⊢
  unfold ChangeStream.read
  generalize s.settlePending = c at reads place drained idle
  simp only
  rw [if_neg]
  · obtain ⟨f, low, high, batch, last, vector, nothing, all⟩ := readSpan arrived.ordered c.position limit
    have bound : f ≤ w.tables.nextArrival := high.trans (max_le reads.bound (le_refl _))
    generalize w.tables.readArrivalBatch c.position limit = result at batch last vector nothing
    subst last
    obtain ⟨out, witnessed, reached⟩ := result
    cases reached with
    | none =>
        refine ⟨readTo reads drained idle low bound batch nothing vector,fun fits => ?_⟩
        split_ifs
        · exact all fits
        · exact all fits
    | some q =>
        refine ⟨readTo reads drained idle low bound batch nothing vector,fun fits => ?_⟩
        split_ifs
        · exact all fits
        · exact all fits
  · -- the first position is zero, and no stream is before it
    intro collected
    obtain ⟨oldest, found, before⟩ := (Option.any_eq_true _ _).mp collected
    rw [arrived.first oldest found] at before
    simp at before

theorem opensFollowing (following : w.Following) (hlc : Option Hlc) : (w.step (.opens hlc)).Following := by
  unfold step
  simp only
  split_ifs with opened
  · exact following
  · have unset : w.start = none := by simpa using opened
    obtain ⟨closed, empty⟩ := following.unopened unset
    have bound : (w.tables.openAt hlc).start ≤ w.tables.nextArrival := by
      cases hlc with
      | none => exact le_refl _
      | some hlc =>
          show w.tables.firstArrivalAtOrAfter hlc ≤ _
          unfold Tables.firstArrivalAtOrAfter
          split
          · rename_i x found
            exact (Tables.belowNext (SortedMap.memEntries.mp (List.mem_of_find?_eq_some found))).le
          · exact le_refl _
    have behind : w.Behind (w.tables.openAt hlc).delivered (w.tables.openAt hlc).start := by
      cases hlc with
      | none => exact ⟨fun _ => le_refl _,fun x member later => absurd (arrivalsBelow member) (not_lt.mpr later)⟩
      | some hlc => exact behindMono following.stamped (Nat.zero_le _)
    have nothing := betweenNone (arrivals w.tables) (w.tables.openAt hlc).start
    have whole : w.due (w.tables.openAt hlc).start (w.tables.openAt hlc).start = [] := by
      rw [due, nothing]
      rfl
    have prompt : w.duePrompt (w.tables.openAt hlc).start (w.tables.openAt hlc).start = [] := by
      rw [duePrompt, nothing]
      rfl
    have brings : w.Brings (w.tables.openAt hlc).start (w.received.map Prod.fst) (w.tables.openAt hlc).start := by
      rw [Brings, whole, prompt, empty]
      exact ⟨List.Sublist.refl _,List.Sublist.refl _⟩
    refine ⟨following.arrived,behindMoved _ _ _ _ following.stamped,fun no => ?_,fun begin same => ?_,
      fun begin same events inside => ?_,fun begin s same opened => ?_⟩
    · cases no
    · exact Option.some.inj same ▸ bound
    · simp only [empty, List.prefix_nil] at inside
      subst inside
      intro x token last
      cases last
    · obtain rfl := Option.some.inj same
      obtain rfl := Option.some.inj opened
      refine ⟨(w.tables.openAt hlc).start,le_refl _,le_refl _,bound,?_,brings,behindMoved _ _ _ _ behind,fun v waits => ?_,
        fun v claimed => ?_,fun _ => ?_,rfl⟩
      · show [] = (between (arrivals w.tables) (w.tables.openAt hlc).start (w.tables.openAt hlc).start).map Prod.snd
        rw [nothing]
        rfl
      · cases waits
      · cases hlc <;> cases claimed
      · show w.received.map Prod.fst = w.due (w.tables.openAt hlc).start (w.tables.openAt hlc).start
        rw [whole, empty]
        rfl

theorem disconnectFollowing (following : w.Following) (lost : Nat) : (w.step (.disconnect lost)).Following := by
  unfold step
  simp only
  cases begun : w.start with
  | none =>
      obtain ⟨closed, empty⟩ := following.unopened begun
      refine ⟨following.arrived,behindMoved none none _ 0 following.stamped,fun _ => ⟨rfl,?_⟩,nofun,nofun,nofun⟩
      simp [empty]
  | some start =>
      rw [←begun]
      refine followingMoved following begun none _ 0 (fun events inside => ?_) nofun
      exact following.tells start begun events (inside.trans (List.take_prefix _ _))

/- The token names its place in the arrival order, and its vector only what came before. -/
theorem resumeFollowing (following : w.Following) : (w.step .resume).Following := by
  unfold step
  simp only
  split_ifs with opened
  · exact following
  · cases last : w.received.getLast? with
    | none => exact following
    | some newest =>
        obtain ⟨x, token⟩ := newest
        simp only
        cases begun : w.start with
        | none =>
            rw [(following.unopened begun).2] at last
            cases last
        | some start =>
            obtain ⟨q, placed, after, brings, behind⟩ :=
              following.tells start begun w.received List.prefix_rfl x token last
            have seq : w.tables.arrivalSeq.get token.stamp = some q := (following.arrived.places _ _).mpr placed
            rw [←begun]
            refine followingMoved following begun _ _ _ (following.tells start begun) fun s opened => ?_
            unfold Tables.resumeAtIssuer at opened
            rw [seq] at opened
            obtain rfl := Option.some.inj opened
            refine ⟨q + 1,after,le_refl _,Tables.belowNext placed,?_,brings,behindMoved _ _ _ _ behind,nofun,
              fun v claimed => ?_,nofun,rfl⟩
            · show [] = (between (arrivals w.tables) (q + 1) (q + 1)).map Prod.snd
              rw [betweenNone]
              rfl
            · obtain rfl := Option.some.inj claimed
              exact behindMoved _ _ _ _ behind

theorem readFollowing (following : w.Following) (limit : Nat) : (w.step (.read limit)).Following := by
  unfold step
  simp only
  cases open' : w.stream with
  | none => exact following
  | some s =>
      simp only
      split_ifs with ready
      · obtain ⟨start, begun⟩ := begunOpen following open'
        obtain ⟨p, reads⟩ := following.reads start s begun open'
        have empty : s.replay = [] := List.isEmpty_iff.mp (Bool.and_eq_true_iff.mp ready).1
        have next := (readReads following.arrived reads empty limit).1
        refine followingMoved following begun _ _ _ (following.tells start begun) fun c opened => ?_
        obtain rfl := Option.some.inj opened
        exact ⟨s.position,next.lower,next.upper,next.bound,next.replay,next.brings,behindMoved _ _ _ _ next.delivered,
          fun v held => behindMoved _ _ _ _ (next.pending v held),
          fun v claimed => behindMoved _ _ _ _ (next.skip v claimed),next.whole,next.running⟩
      · exact following

end

theorem stepFollowing {w : Watching} (following : w.Following) : ∀ step, (w.step step).Following
  | .append entry position => (growsAppend following entry position).following following
  | .release stamp => (growsRelease following stamp).following following
  | .witness stamp => (growsWitness following stamp).following following
  | .opens hlc => opensFollowing following hlc
  | .read limit => readFollowing following limit
  | .take => takeFollowing following
  | .disconnect lost => disconnectFollowing following lost
  | .resume => resumeFollowing following

theorem runFollowing {w : Watching} (following : w.Following) : ∀ steps, (w.run steps).Following
  | [] => following
  | step :: steps => runFollowing (stepFollowing following step) steps

theorem watchedFollowing (node : NodeId) (inScope : OplogEntry → Bool)
    (collections : SortedMap CollectionId CollectionMeta) : (watched node inScope collections).Following := by
  refine ⟨arrivedFresh collections,⟨fun _ => le_refl _,fun x member => absurd member List.not_mem_nil⟩,fun _ => ⟨rfl,rfl⟩,
    fun start no => ?_,fun start no => ?_,fun start s no => ?_⟩
  all_goals cases no

/-! Every event once. -/

/- The open stream has handed over all it read, and nothing has arrived since. -/
def CaughtUp (w : Watching) : Prop :=
  ∃ s, w.stream = some s ∧ s.replay = [] ∧ w.tables.arrival.range s.position = []

theorem caughtUpSpan {w : Watching} {s : ChangeStream} (tail : w.tables.arrival.range s.position = []) (start : Nat) :
    between (arrivals w.tables) start w.tables.nextArrival = between (arrivals w.tables) start s.position := by
  refine betweenSame fun x member => ⟨fun inside => ⟨inside.1,?_⟩,fun inside => ⟨inside.1,arrivalsBelow member⟩⟩
  by_contra beyond
  obtain ⟨stamp, placed, _⟩ := memArrivals.mp member
  have there : (x.1,stamp) ∈ w.tables.arrival.range s.position := SortedMap.memRange.mpr ⟨placed,not_lt.mp beyond⟩
  rw [tail] at there
  exact List.not_mem_nil there

theorem dueNodup {w : Watching} (following : w.Following) (p f : Nat) : (w.due p f).Nodup := by
  unfold due
  refine List.pairwise_map.mpr (List.Pairwise.imp_of_mem ?_ (((arrivalsIncreasing w.tables).filter _).filter _))
  intro x y first second below same
  obtain ⟨s, placed, held⟩ := memArrivals.mp (memBetween.mp (List.mem_filter.mp first).1).1
  obtain ⟨u, later, stored⟩ := memArrivals.mp (memBetween.mp (List.mem_filter.mp second).1).1
  obtain ⟨a, found, stamped⟩ := following.arrived.backed _ _ placed
  obtain ⟨b, kept, named⟩ := following.arrived.backed _ _ later
  have one : s = u := by
    rw [←stamped, ←named, ←Option.some.inj (held.symm.trans found), ←Option.some.inj (stored.symm.trans kept), same]
  have place := (following.arrived.places s x.1).mpr placed
  rw [(following.arrived.places s y.1).mpr (one ▸ later)] at place
  exact absurd (Option.some.inj place) below.ne'

theorem readSkip (s : ChangeStream) (t : Tables) (limit : Nat) : (s.read t limit).skip = s.skip := by
  have settle : s.settlePending.skip = s.skip := by
    unfold ChangeStream.settlePending
    split
    · rfl
    · rfl
  rw [←settle, ChangeStream.read]
  simp only
  split_ifs
  · rfl
  · rfl
  · rfl

/- Only a client that comes back gives a stream something to pass over. -/
theorem skipless {w : Watching} (following : w.Following) (claimless : ∀ s, w.stream = some s → s.skip = none) :
    ∀ step, step ≠ .resume → ∀ s, (w.step step).stream = some s → s.skip = none
  | .append entry position, _, s, opened =>
      claimless s ((growsAppend following entry position).same.2.2.2.1 ▸ opened)
  | .release _, _, s, opened => claimless s opened
  | .witness _, _, s, opened => claimless s opened
  | .opens hlc, _, s, opened => by
      simp only [step] at opened
      split_ifs at opened
      · exact claimless s opened
      · obtain rfl := Option.some.inj opened
        cases hlc <;> rfl
  | .read limit, _, s, opened => by
      simp only [step] at opened
      cases before : w.stream with
      | none =>
          rw [before] at opened
          exact claimless s opened
      | some c =>
          simp only [before] at opened
          split_ifs at opened
          · obtain rfl := Option.some.inj opened
            rw [readSkip]
            exact claimless c before
          · exact claimless s opened
  | .take, _, s, opened => by
      simp only [step, take] at opened
      cases before : w.stream with
      | none =>
          rw [before] at opened
          exact claimless s opened
      | some c =>
          have none' := claimless c before
          simp only [before] at opened
          split at opened
          · exact claimless s opened
          · split_ifs at opened
            · obtain rfl := Option.some.inj opened
              exact none'
            · obtain rfl := Option.some.inj opened
              exact none'
  | .disconnect _, _, s, opened => nomatch opened
  | .resume, other, _, _ => absurd rfl other

theorem skiplessRun {w : Watching} (following : w.Following) (claimless : ∀ s, w.stream = some s → s.skip = none) :
    ∀ steps, WatchStep.resume ∉ steps → ∀ s, (w.run steps).stream = some s → s.skip = none
  | [], _ => claimless
  | step :: steps, stays => by
      have other := List.ne_of_not_mem_cons stays
      have later := List.not_mem_of_not_mem_cons stays
      exact skiplessRun (stepFollowing following step) (skipless following claimless step other.symm) steps later

/- Taking as often as the batch is long empties it. -/
theorem drain {w : Watching} {s : ChangeStream} (opened : w.stream = some s) :
    ∃ c, (w.run (List.replicate s.replay.length .take)).stream = some c ∧ c.replay = [] ∧ c.position = s.position ∧
      (w.run (List.replicate s.replay.length .take)).tables = w.tables := by
  generalize batch : s.replay = replay
  induction replay generalizing w s with
  | nil => exact ⟨s,opened,batch,rfl,rfl⟩
  | cons entry rest ih =>
      have next : w.take.stream = some { s with replay := rest } ∧ w.take.tables = w.tables := by
        unfold take
        simp only [opened, batch]
        split_ifs
        · exact ⟨rfl,rfl⟩
        · exact ⟨rfl,rfl⟩
      obtain ⟨c, after, empty, place, tables⟩ := ih next.1 rfl
      exact ⟨c,after,empty,place,tables.trans next.2⟩

theorem runAppend (w : Watching) (steps more : List WatchStep) : w.run (steps ++ more) = (w.run steps).run more :=
  List.foldl_append

/- An open stream comes to the end by reading and taking. -/
theorem catchesUp {w : Watching} (following : w.Following) {s : ChangeStream} (opened : w.stream = some s) :
    ∃ more, (∀ step ∈ more, step = .take ∨ ∃ limit, step = .read limit) ∧ (w.run more).CaughtUp := by
  obtain ⟨c, after, empty, _, tables⟩ := drain opened
  have later := runFollowing following (List.replicate s.replay.length .take)
  obtain ⟨start, begun⟩ := begunOpen later after
  obtain ⟨p, reads⟩ := later.reads start c begun after
  obtain ⟨next, all⟩ := readReads later.arrived reads empty w.tables.arrival.entries.length
  rw [tables] at next all
  have stream : ((w.run (List.replicate s.replay.length .take)).step (.read w.tables.arrival.entries.length)) =
      { w.run (List.replicate s.replay.length .take) with
        stream := some (c.read w.tables w.tables.arrival.entries.length) } := by
    simp only [step, after, empty, reads.running, tables]
    rfl
  obtain ⟨d, finish, drained, place, last⟩ := drain (congrArg Watching.stream stream)
  refine ⟨List.replicate s.replay.length .take ++ [.read w.tables.arrival.entries.length] ++
    List.replicate (c.read w.tables w.tables.arrival.entries.length).replay.length .take,fun step member => ?_,?_⟩
  · simp only [List.mem_append, List.mem_replicate, List.mem_singleton] at member
    rcases member with (taken | rfl) | taken
    · exact Or.inl taken.2
    · exact Or.inr ⟨_,rfl⟩
    · exact Or.inl taken.2
  · rw [runAppend, runAppend, show ∀ (y : Watching) (next : WatchStep), y.run [next] = y.step next from fun _ _ => rfl]
    refine ⟨d,finish,drained,?_⟩
    rw [last, stream, place, List.eq_nil_iff_forall_not_mem]
    simp only [tables]
    rintro ⟨q, stamp⟩ there
    obtain ⟨placed, beyond⟩ := SortedMap.memRange.mp there
    obtain ⟨x, held, _⟩ := following.arrived.backed q stamp placed
    exact absurd (all le_rfl (q,x) (memArrivals.mpr ⟨stamp,placed,held⟩)) (not_lt.mpr beyond)

/- A client that has caught up has, in arrival order and each once, every entry in scope since it
began; late ones may have been passed over, and only by a stream that was resumed. -/
theorem exactlyOnce (node : NodeId) (inScope : OplogEntry → Bool) (collections : SortedMap CollectionId CollectionMeta)
    (steps : List WatchStep) (start : Nat) (begun : ((watched node inScope collections).run steps).start = some start) :
    let w := (watched node inScope collections).run steps
    let events := w.received.map Prod.fst
    (w.CaughtUp →
      (w.duePrompt start w.tables.nextArrival).Sublist events ∧ events.Sublist (w.due start w.tables.nextArrival) ∧
      (w.due start w.tables.nextArrival).Nodup ∧
      (WatchStep.resume ∉ steps → events = w.due start w.tables.nextArrival)) ∧
    (w.stream.isSome → ∃ more, (∀ step ∈ more, step = .take ∨ ∃ limit, step = .read limit) ∧ (w.run more).CaughtUp) := by
  intro w events
  have following := runFollowing (watchedFollowing node inScope collections) steps
  refine ⟨fun caught => ?_,fun opened => ?_⟩
  · obtain ⟨s, opened, drained, tail⟩ := caught
    obtain ⟨p, reads⟩ := following.reads start s begun opened
    obtain ⟨brings, whole⟩ := gapBehind reads drained
    have span := caughtUpSpan tail start
    have due : w.due start w.tables.nextArrival = w.due start s.position := by rw [due, due, span]
    have prompt : w.duePrompt start w.tables.nextArrival = w.duePrompt start s.position := by
      rw [duePrompt, duePrompt, span]
    rw [due, prompt]
    refine ⟨brings.1,brings.2,dueNodup following start s.position,fun stays => whole ?_⟩
    exact skiplessRun (watchedFollowing node inScope collections) nofun steps stays s opened
  · obtain ⟨s, opened⟩ := Option.isSome_iff_exists.mp opened
    exact catchesUp following opened

instance (w : Watching) : Decidable w.CaughtUp :=
  match opened : w.stream with
  | none => isFalse fun ⟨_,found,_⟩ => nomatch opened.symm.trans found
  | some s =>
      decidable_of_iff (s.replay = [] ∧ w.tables.arrival.range s.position = [])
        ⟨fun caught => ⟨s,opened,caught⟩,fun ⟨_,found,caught⟩ => Option.some.inj (opened.symm.trans found) ▸ caught⟩

def inserted (node : NodeId) (ms : Fin (2 ^ 64)) (key : DocKey) : OplogEntry :=
  ⟨⟨⟨ms,0⟩,node⟩,.insert,0,some key,some [("a",.int32 1)]⟩

/- A repair brings a row the vector covered already, after the client had a token that covers it. -/
def repaired : List WatchStep :=
  [.opens (some .zero),.append (inserted 1 9 [1]) .raise,.read 1024,.take,.read 1024,
    .append (inserted 0 10 [2]) .raise,.read 1024,.take,.disconnect 0,.append (inserted 1 7 [3]) .hold,
    .resume,.read 1024,.take]

/- The client has caught up and was never sent it. -/
theorem repairPassedOver :
    ((watched 0 (fun _ => true) .empty).run repaired).CaughtUp ∧
    ((watched 0 (fun _ => true) .empty).run repaired).start = some 0 ∧
    (((watched 0 (fun _ => true) .empty).run repaired).received.map Prod.fst) =
      [inserted 1 9 [1],inserted 0 10 [2]] ∧
    ((watched 0 (fun _ => true) .empty).run repaired).due 0
        ((watched 0 (fun _ => true) .empty).run repaired).tables.nextArrival =
      [inserted 1 9 [1],inserted 0 10 [2],inserted 1 7 [3]] := by
  decide +kernel

/- The same client when nothing it has a claim to is brought again: an event is lost with the
connection, and sent once it is back. -/
def broken : List WatchStep :=
  [.opens (some .zero),.append (inserted 1 9 [1]) .raise,.append (inserted 0 10 [2]) .raise,.read 1,.take,.read 1,.take,
    .disconnect 1,.append (inserted 2 7 [3]) .hold,.resume,.read 2,.take,.take]

theorem exactlyOnceHere :
    (((watched 0 (fun _ => true) .empty).run broken).received.map Prod.fst) =
      [inserted 1 9 [1],inserted 0 10 [2],inserted 2 7 [3]] := by
  have start : ((watched 0 (fun _ => true) .empty).run broken).start = some 0 := by decide +kernel
  have caught : ((watched 0 (fun _ => true) .empty).run broken).CaughtUp := by decide +kernel
  obtain ⟨least, most, _, _⟩ := (exactlyOnce 0 (fun _ => true) .empty broken 0 start).1 caught
  have prompt : ((watched 0 (fun _ => true) .empty).run broken).duePrompt 0
      ((watched 0 (fun _ => true) .empty).run broken).tables.nextArrival =
      [inserted 1 9 [1],inserted 0 10 [2],inserted 2 7 [3]] := by decide +kernel
  have all : ((watched 0 (fun _ => true) .empty).run broken).due 0
      ((watched 0 (fun _ => true) .empty).run broken).tables.nextArrival =
      [inserted 1 9 [1],inserted 0 10 [2],inserted 2 7 [3]] := by decide +kernel
  rw [prompt] at least
  rw [all] at most
  exact (least.antisymm most).symm

end Watching

end Kimmy.Store
