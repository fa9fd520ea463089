import Kimmy.Store.LiveCount

/-!
The counts and digests that a store keeps are exact while it serves, and exact wherever a mark matches. What
carries a transaction is one equation for each collection: the row as it stands, moved by what the transaction
owes it, is what the records in the transaction come to.
-/
namespace Kimmy

namespace SortedMap
variable {κ ν δ : Type} [LinearOrder κ]

@[simp] theorem getAmend (settle : δ → Option ν → Option ν) (rows : SortedMap κ ν) (owed : SortedMap κ δ) (k : κ) :
    (rows.amend settle owed).get k = match owed.get k with
      | some d => settle d (rows.get k)
      | none => rows.get k := by
  have each : ∀ {pairs : List (κ × δ)} {rows : SortedMap κ ν}, pairs.Pairwise (fun x y => x.1 < y.1) →
      (pairs.foldl (fun rows x => match settle x.2 (rows.get x.1) with
        | some row => rows.insert x.1 row
        | none => rows.remove x.1) rows).get k = match lookup k pairs with
          | some d => settle d (rows.get k)
          | none => rows.get k := by
    intro pairs
    induction pairs with
    | nil => intro rows _; rfl
    | cons x rest ih =>
      intro rows sorted
      obtain ⟨least,tail⟩ := List.pairwise_cons.mp sorted
      rw [List.foldl_cons, ih tail]
      by_cases here : k = x.1
      · subst here
        rw [lookupBelow least]
        simp only [lookup, if_true]
        cases settle x.2 (rows.get x.1) <;> simp
      · have same : (match settle x.2 (rows.get x.1) with
            | some row => rows.insert x.1 row
            | none => rows.remove x.1).get k = rows.get k := by
          cases settle x.2 (rows.get x.1) <;> simp [here]
        simp only [lookup, here, if_false, same]
  exact each owed.sorted

end SortedMap

namespace Store
open Merge

/-! Rows that are exact. -/

section
variable {term : DocKey → Stamp → Digest}

/- The live records of a collection among some rows. -/
def liveIn (rows : List (Address × DocRecord)) (coll : CollectionId) : List (Address × DocRecord) :=
  rows.filter fun x => x.1.collection = coll && x.2.isLive

/- The exclusive-or of their terms. -/
def xorIn (term : DocKey → Stamp → Digest) (rows : List (Address × DocRecord)) (coll : CollectionId) : Digest :=
  (liveIn rows coll).foldl (fun digest x => digest ^^^ term x.1.key x.2.stamp) 0

structure KeptOver (term : DocKey → Stamp → Digest) (rows : List (Address × DocRecord)) (w : Walked) : Prop where
  counts : ∀ coll, (w.counts.get coll).getD 0 = (liveIn rows coll).length
  digests : ∀ coll, ((w.digests.get coll).getD .new).digest = xorIn term rows coll
  reached : ∀ x ∈ rows, x.2.stamp.hlc ≤ ((w.digests.get x.1.collection).getD .new).maxw.get x.2.stamp.node

def LiveStore.kept (s : LiveStore) : Walked := ⟨s.counts,s.digests⟩

@[simp] theorem LiveStore.keptCounts (s : LiveStore) : s.kept.counts = s.counts := rfl

@[simp] theorem LiveStore.keptDigests (s : LiveStore) : s.kept.digests = s.digests := rfl

def LiveStore.Exact (term : DocKey → Stamp → Digest) (s : LiveStore) : Prop := KeptOver term s.db.docs.entries s.kept

theorem memLiveIn {rows : List (Address × DocRecord)} {coll : CollectionId} {x : Address × DocRecord} :
    x ∈ liveIn rows coll ↔ x ∈ rows ∧ x.1.collection = coll ∧ x.2.isLive = true := by
  rw [liveIn, List.mem_filter, Bool.and_eq_true, decide_eq_true_eq]

theorem liveInKeys (docs : SortedMap Address DocRecord) (coll : CollectionId) :
    ((liveIn docs.entries coll).map fun x => (x.1.key,x.2.stamp)).Nodup := by
  refine List.pairwise_map.mpr ((docs.sorted.filter _).imp_of_mem fun {x y} first second below same => ?_)
  have here := (memLiveIn.mp first).2.1
  have there := (memLiveIn.mp second).2.1
  have equal : x.1 = y.1 := by
    obtain ⟨⟨c,k⟩,r⟩ := x
    obtain ⟨⟨c',k'⟩,r'⟩ := y
    obtain rfl : c = c' := here.trans there.symm
    obtain rfl : k = k' := congrArg Prod.fst same
    rfl
  exact absurd below (equal ▸ lt_irrefl _)

theorem liveSetIn (docs : SortedMap Address DocRecord) (coll : CollectionId) :
    liveSet docs coll = ((liveIn docs.entries coll).map fun x => (x.1.key,x.2.stamp)).toFinset := by
  ext x
  rw [memLiveSet, List.mem_toFinset, List.mem_map]
  constructor
  · rintro ⟨r, found, live, same⟩
    exact ⟨(⟨coll,x.1⟩,r),memLiveIn.mpr ⟨SortedMap.memEntries.mpr found,rfl,live⟩,Prod.ext rfl same⟩
  · rintro ⟨⟨⟨c,k⟩,r⟩, member, rfl⟩
    obtain ⟨there,here,live⟩ := memLiveIn.mp member
    obtain rfl : c = coll := here
    exact ⟨r,SortedMap.memEntries.mp there,live,rfl⟩

theorem liveCountCard (docs : SortedMap Address DocRecord) (coll : CollectionId) :
    (liveIn docs.entries coll).length = (liveSet docs coll).card := by
  rw [liveSetIn, List.toFinset_card_of_nodup (liveInKeys docs coll), List.length_map]

theorem xorInLive (docs : SortedMap Address DocRecord) (coll : CollectionId) :
    xorIn term docs.entries coll = xorLive term (liveSet docs coll) := by
  have fold : ∀ (list : List (Address × DocRecord)) (start : Digest),
      (list.map fun x => (x.1.key,x.2.stamp)).Nodup →
      list.foldl (fun digest x => digest ^^^ term x.1.key x.2.stamp) start =
        start ^^^ xorLive term (list.map fun x => (x.1.key,x.2.stamp)).toFinset := by
    intro list
    induction list with
    | nil => intro start _; exact BitVec.xor_zero.symm
    | cons x rest ih =>
      intro start nodup
      obtain ⟨absent,rest⟩ := List.nodup_cons.mp nodup
      rw [List.foldl_cons, ih _ rest, List.map_cons, List.toFinset_cons, xorLive, xorLive,
        xorOfInsert (by simpa using absent), BitVec.xor_assoc]
  rw [xorIn, fold _ _ (liveInKeys docs coll), liveSetIn]
  exact BitVec.zero_xor

end

/-! Within a transaction. -/

section
variable {term : DocKey → Stamp → Digest} {x : LiveTxn}

def LiveTxn.row (x : LiveTxn) (coll : CollectionId) : DigestRow := (x.store.digests.get coll).getD .new

/- The row of every collection, moved by what is owed to it, is exact for the records of the transaction. -/
structure Owing (term : DocKey → Stamp → Digest) (x : LiveTxn) : Prop where
  counts : ∀ coll, ((x.store.counts.get coll).getD 0 : Int) + x.pending.delta coll = (liveSet x.docs coll).card
  digests : ∀ coll, (x.row coll).digest ^^^ (x.pending.digest coll).xor = xorLive term (liveSet x.docs coll)
  reached : ∀ a r, x.docs.get a = some r → r.stamp.hlc ≤
    max ((x.row a.collection).maxw.get r.stamp.node) ((x.pending.digest a.collection).raised.maxw.get r.stamp.node)

/- No row is to be forgotten. -/
def Keeping (x : LiveTxn) : Prop := ∀ coll, (x.pending.digest coll).forgetRow = false

theorem liveSetElsewhere {docs after : SortedMap Address DocRecord} {a : Address} {coll : CollectionId}
    (same : ∀ b, b ≠ a → after.get b = docs.get b) (apart : coll ≠ a.collection) : liveSet after coll = liveSet docs coll := by
  ext y
  have away : (⟨coll,y.1⟩ : Address) ≠ a := fun is => apart (congrArg Address.collection is)
  rw [memLiveSet, memLiveSet, same _ away]

/- How many live records a key has: one or none. -/
theorem cardSplit (docs : SortedMap Address DocRecord) (coll : CollectionId) (key : DocKey) :
    (liveSet docs coll).card = ((liveSet docs coll).filter fun y => y.1 ≠ key).card +
      if ((docs.get ⟨coll,key⟩).map DocRecord.header).any Prod.snd then 1 else 0 := by
  have split := Finset.card_filter_add_card_filter_not (s := liveSet docs coll) fun y => y.1 ≠ key
  rw [← split]
  congr 1
  cases found : docs.get ⟨coll,key⟩ with
  | none =>
    refine Finset.card_eq_zero.mpr (Finset.filter_eq_empty_iff.mpr fun y member same => ?_)
    obtain ⟨r,there,_⟩ := memLiveSet.mp member
    rw [not_not.mp same, found] at there
    cases there
  | some r =>
    cases live : r.isLive with
    | false =>
      refine (Finset.card_eq_zero.mpr (Finset.filter_eq_empty_iff.mpr fun y member same => ?_)).trans ?_
      · obtain ⟨other,there,alive,_⟩ := memLiveSet.mp member
        rw [not_not.mp same, found] at there
        cases there
        rw [live] at alive
        cases alive
      · simp [DocRecord.header, live]
    | true =>
      have one : ((liveSet docs coll).filter fun y => ¬ y.1 ≠ key) = {(key,r.stamp)} := by
        ext y
        rw [Finset.mem_filter, Finset.mem_singleton, memLiveSet, not_not]
        constructor
        · rintro ⟨⟨other, there, _, stamp⟩, same⟩
          rw [same, found] at there
          cases there
          exact Prod.ext same stamp.symm
        · rintro rfl
          exact ⟨⟨r,found,live,rfl⟩,rfl⟩
      rw [one]
      simp [DocRecord.header, live]

/- What a write at one address does to the number of live records. -/
theorem cardWrite {docs after : SortedMap Address DocRecord} {a : Address} (same : ∀ b, b ≠ a → after.get b = docs.get b) :
    ((liveSet after a.collection).card : Int) - (if ((after.get a).map DocRecord.header).any Prod.snd then 1 else 0) =
      (liveSet docs a.collection).card - if ((docs.get a).map DocRecord.header).any Prod.snd then 1 else 0 := by
  have elsewhere : ((liveSet after a.collection).filter fun y => y.1 ≠ a.key) =
      (liveSet docs a.collection).filter fun y => y.1 ≠ a.key := by
    ext y
    simp only [Finset.mem_filter, memLiveSet]
    refine and_congr_left fun other => ?_
    rw [same _ fun is => other (congrArg Address.key is)]
  rw [cardSplit after a.collection a.key, cardSplit docs a.collection a.key, elsewhere]
  push_cast
  split_ifs <;> omega

theorem deltaMoved (p : Pending) (coll other : CollectionId) (was is : Bool) : (p.moved coll was is).delta other =
    p.delta other + if other = coll then (if is then 1 else 0) - (if was then 1 else 0) else 0 := by
  cases was <;> cases is <;> by_cases here : other = coll <;>
    simp [Pending.moved, Pending.delta, SortedMap.getInsert, here, sub_eq_add_neg]

theorem digestMoved (p : Pending) (coll other : CollectionId) (was is : Bool) :
    (p.moved coll was is).digest other = p.digest other := by
  cases was <;> cases is <;> rfl

theorem digestWrote (p : Pending) (a : Address) (before after : Option Header) (coll : CollectionId) :
    (p.wrote term a before after).digest coll =
      if coll = a.collection then (p.digest a.collection).wrote term a.key before after else p.digest coll := by
  unfold Pending.digest Pending.wrote
  rw [SortedMap.getInsert]
  split_ifs
  · rfl
  · rfl

theorem deltaWrote (p : Pending) (a : Address) (before after : Option Header) (coll : CollectionId) :
    (p.wrote term a before after).delta coll = p.delta coll := rfl

theorem wroteXor (d : Delta) (key : DocKey) (before after : Option Header) :
    (d.wrote term key before after).xor = d.xor ^^^ Delta.termOf term key before ^^^ Delta.termOf term key after := by
  cases after with
  | none => exact BitVec.xor_zero.symm
  | some header => rfl

theorem wroteForgets (d : Delta) (key : DocKey) (before after : Option Header) :
    (d.wrote term key before after).forgetRow = d.forgetRow := by
  cases after <;> rfl

theorem wroteRaises (d : Delta) (key : DocKey) (before after : Option Header) :
    (∀ node, d.raised.maxw.get node ≤ (d.wrote term key before after).raised.maxw.get node) ∧
      ∀ header, after = some header → header.1.hlc ≤ (d.wrote term key before after).raised.maxw.get header.1.node := by
  cases after with
  | none => exact ⟨fun _ => le_rfl,nofun⟩
  | some header =>
    have raised (node : NodeId) : (d.wrote term key before (some header)).raised.maxw.get node =
        if node = header.1.node then max (d.raised.maxw.get node) header.1.hlc else d.raised.maxw.get node :=
      VersionVector.getObserve ..
    refine ⟨fun node => ?_,fun other is => ?_⟩
    · rw [raised]
      split_ifs
      · exact le_max_left _ _
      · exact le_rfl
    · cases is
      rw [raised, if_pos rfl]
      exact le_max_right _ _

theorem Owing.wrote (owing : Owing term x) {y : LiveTxn} {a : Address} {record : Option DocRecord}
    (counts : y.store.counts = x.store.counts) (digests : y.store.digests = x.store.digests)
    (here : y.docs.get a = record) (same : ∀ b, b ≠ a → y.docs.get b = x.docs.get b)
    (pending : y.pending = x.noted term a (record.map DocRecord.header)) : Owing term y := by
  have rows (coll : CollectionId) : y.row coll = x.row coll := by
    unfold LiveTxn.row
    rw [digests]
  have owed (coll : CollectionId) : y.pending.digest coll =
      if coll = a.collection then (x.pending.digest a.collection).wrote term a.key ((x.docs.get a).map DocRecord.header)
        (record.map DocRecord.header) else x.pending.digest coll := by
    rw [pending, LiveTxn.noted, digestWrote, digestMoved, digestMoved]
  have delta (coll : CollectionId) : y.pending.delta coll = x.pending.delta coll + if coll = a.collection then
      (if (record.map DocRecord.header).any Prod.snd then 1 else 0) -
        (if ((x.docs.get a).map DocRecord.header).any Prod.snd then 1 else 0) else 0 := by
    rw [pending, LiveTxn.noted, deltaWrote, deltaMoved]
  refine ⟨fun coll => ?_,fun coll => ?_,fun b r found => ?_⟩
  · rw [counts, delta]
    by_cases own : coll = a.collection
    · subst own
      have moved := cardWrite same
      have before := owing.counts a.collection
      rw [here] at moved
      rw [if_pos rfl]
      omega
    · rw [if_neg own, liveSetElsewhere same own, add_zero]
      exact owing.counts coll
  · rw [rows, owed]
    by_cases own : coll = a.collection
    · subst own
      have applied : (RecordWrite.mk a.key record false).apply a.collection x.docs = y.docs := by
        refine SortedMap.ext fun b => ?_
        rw [RecordWrite.applyGet]
        split_ifs with is
        · rw [is, here]
        · exact (same b is).symm
      have moved := @RecordWrite.xorApply term a.collection (RecordWrite.mk a.key record false) x.docs
      rw [applied, ← owing.digests] at moved
      rw [if_pos rfl, wroteXor, ← moved, BitVec.xor_assoc, BitVec.xor_assoc, BitVec.xor_assoc]
    · rw [if_neg own, liveSetElsewhere same own]
      exact owing.digests coll
  · rw [rows, owed]
    by_cases is : b = a
    · subst is
      rw [here] at found
      subst found
      rw [if_pos rfl]
      exact le_max_of_le_right ((wroteRaises _ _ _ (some r.header)).2 r.header rfl)
    · rw [same b is] at found
      have reach := owing.reached b r found
      split_ifs with own
      · rw [own] at reach ⊢
        exact reach.trans (max_le_max le_rfl ((wroteRaises _ _ _ _).1 _))
      · exact reach

theorem keepingNoted (keeping : Keeping x) {y : LiveTxn} {a : Address} {after : Option Header}
    (pending : y.pending = x.noted term a after) : Keeping y := by
  intro coll
  rw [pending, LiveTxn.noted, digestWrote, digestMoved, digestMoved]
  split_ifs with own
  · rw [wroteForgets]
    exact keeping _
  · exact keeping coll

/- What a step of a transaction on the records keeps. -/
structure Sound (term : DocKey → Stamp → Digest) (x : LiveTxn) : Prop where
  owing : Owing term x
  keeping : Keeping x

theorem Sound.put (sound : Sound term x) (a : Address) (record : DocRecord) : Sound term (x.putRecord term a record) := by
  have here : (x.putRecord term a record).docs.get a = some record := by
    change (x.docs.insert a record).get a = some record
    rw [SortedMap.getInsert, if_pos rfl]
  have same (b : Address) (apart : b ≠ a) : (x.putRecord term a record).docs.get b = x.docs.get b := by
    change (x.docs.insert a record).get b = x.docs.get b
    rw [SortedMap.getInsert, if_neg apart]
  exact ⟨sound.owing.wrote rfl rfl here same rfl,keepingNoted sound.keeping rfl⟩

theorem Sound.remove (sound : Sound term x) (a : Address) : Sound term (x.removeRecord term a) := by
  unfold LiveTxn.removeRecord
  split_ifs
  · exact sound
  · refine ⟨@Owing.wrote _ _ sound.owing _ a none rfl rfl ?_ (fun b apart => ?_) rfl,keepingNoted sound.keeping rfl⟩
    · change (x.docs.remove a).get a = none
      rw [SortedMap.getRemove, if_pos rfl]
    · change (x.docs.remove a).get b = x.docs.get b
      rw [SortedMap.getRemove, if_neg apart]

/- A bare tombstone raises its own stamps and owes nothing more. -/
theorem Sound.bare (sound : Sound term x) (coll : CollectionId) (stamp : Stamp) :
    Sound term { x with pending := x.pending.bare coll stamp } := by
  have owed (other : CollectionId) : (x.pending.bare coll stamp).digest other =
      if other = coll then (x.pending.digest coll).bare stamp else x.pending.digest other := by
    unfold Pending.digest Pending.bare
    rw [SortedMap.getInsert]
    split_ifs
    · rfl
    · rfl
  have xor (other : CollectionId) : ((x.pending.bare coll stamp).digest other).xor = (x.pending.digest other).xor := by
    rw [owed]
    split_ifs with own
    · rw [own]
      rfl
    · rfl
  have maxw (other : CollectionId) :
      ((x.pending.bare coll stamp).digest other).raised.maxw = (x.pending.digest other).raised.maxw := by
    rw [owed]
    split_ifs with own
    · rw [own]
      rfl
    · rfl
  refine ⟨⟨sound.owing.counts,fun other => ?_,fun a r found => ?_⟩,fun other => ?_⟩
  · rw [xor]
    exact sound.owing.digests other
  · rw [maxw]
    exact sound.owing.reached a r found
  · have kept := sound.keeping other
    rw [owed]
    split_ifs with own
    · rw [own] at kept
      exact kept
    · exact kept

/- A step that leaves the records and the rows alone. -/
theorem Sound.same (sound : Sound term x) {y : LiveTxn} (docs : y.docs = x.docs) (counts : y.store.counts = x.store.counts)
    (digests : y.store.digests = x.store.digests) (deltas : y.pending.deltas = x.pending.deltas)
    (owed : y.pending.digests = x.pending.digests) : Sound term y := by
  have delta (coll : CollectionId) : y.pending.delta coll = x.pending.delta coll := by
    unfold Pending.delta
    rw [deltas]
  have digest (coll : CollectionId) : y.pending.digest coll = x.pending.digest coll := by
    unfold Pending.digest
    rw [owed]
  have row (coll : CollectionId) : y.row coll = x.row coll := by
    unfold LiveTxn.row
    rw [digests]
  refine ⟨⟨fun coll => ?_,fun coll => ?_,fun a r found => ?_⟩,fun coll => ?_⟩
  · rw [counts, delta, docs]
    exact sound.owing.counts coll
  · rw [row, digest, docs]
    exact sound.owing.digests coll
  · rw [row, digest]
    exact sound.owing.reached a r (docs ▸ found)
  · rw [digest]
    exact sound.keeping coll

theorem Sound.withDb (sound : Sound term x) {db : Tables} (docs : db.docs = x.docs) : Sound term (x.withDb db) :=
  sound.same docs rfl rfl rfl rfl

theorem Sound.append (sound : Sound term x) (entry : OplogEntry) (position : Position) :
    Sound term (x.append entry position) := by
  have docs : (x.store.db.appendOplogAt entry position).1.docs = x.docs := Tables.appendDocs ..
  unfold LiveTxn.append
  simp only
  split_ifs
  · exact sound.withDb docs
  · exact sound.same docs rfl rfl rfl rfl

theorem Sound.removeEntries (sound : Sound term x) {db : Tables} (docs : db.docs = x.docs) :
    Sound term (x.removeEntries db) := sound.same docs rfl rfl rfl rfl

theorem Sound.removeAll (sound : Sound term x) (rows : List Address) : Sound term (x.removeAll term rows) := by
  unfold LiveTxn.removeAll
  induction rows generalizing x with
  | nil => exact sound
  | cons a rest ih => exact ih (sound.remove a)

theorem Sound.ofExact {s : LiveStore} (exact : s.Exact term) : Sound term s.begun := by
  refine ⟨⟨fun coll => ?_,fun coll => ?_,fun a r found => ?_⟩,fun _ => rfl⟩
  · have counted := exact.counts coll
    rw [liveCountCard, LiveStore.keptCounts] at counted
    change ((s.counts.get coll).getD 0 : Int) + 0 = _
    rw [counted, add_zero]
    rfl
  · have kept := exact.digests coll
    rw [xorInLive, LiveStore.keptDigests] at kept
    change ((s.digests.get coll).getD .new).digest ^^^ 0#128 = _
    rw [kept, BitVec.xor_zero]
    rfl
  · exact le_max_of_le_left (exact.reached (a,r) (SortedMap.memEntries.mpr found))

/-! The commit. -/

/- A row is to be forgotten only where no record is left. -/
structure Payable (term : DocKey → Stamp → Digest) (x : LiveTxn) : Prop where
  owing : Owing term x
  forgets : ∀ coll, (x.pending.digest coll).forgetRow = true → ∀ key, x.docs.get ⟨coll,key⟩ = none

theorem Sound.payable (sound : Sound term x) : Payable term x := by
  refine ⟨sound.owing,fun coll forgets => ?_⟩
  rw [sound.keeping coll] at forgets
  cases forgets

theorem settledCount {delta : Int} {current : Option Nat} {n : Nat} (owed : (current.getD 0 : Int) + delta = n) :
    (settleCount delta current).getD 0 = n := by
  unfold settleCount
  simp only
  split_ifs with zero up next next
  · omega
  · rw [Option.getD_none]
    omega
  · rw [Option.getD_some]
    omega
  · rw [Option.getD_none]
    omega
  · rw [Option.getD_some]
    omega

theorem movesNothingZero {d : Delta} (nothing : d.movesNothing = true) :
    d.xor = 0 ∧ ∀ node, d.raised.maxw.get node = .zero := by
  simp only [Delta.movesNothing, Bool.and_eq_true, beq_iff_eq, List.isEmpty_iff] at nothing
  refine ⟨nothing.1.1.2,fun node => ?_⟩
  have empty : d.raised.maxw.positions.get node = none := by
    rw [SortedMap.get, nothing.1.2]
    rfl
  rw [VersionVector.get, empty]
  rfl

/- What the flush makes of a row: it is moved by all that is owed, unless it goes. -/
theorem flushedRow {d : Delta} (current : Option DigestRow) (kept : d.forgetRow = false) :
    ((d.flush current).getD .new).digest = (current.getD .new).digest ^^^ d.xor ∧
      ∀ node, ((d.flush current).getD .new).maxw.get node = max ((current.getD .new).maxw.get node) (d.raised.maxw.get node) := by
  unfold Delta.flush
  split_ifs with nothing forgets
  · obtain ⟨zero,low⟩ := movesNothingZero nothing
    refine ⟨?_,fun node => ?_⟩
    · rw [zero]
      exact BitVec.xor_zero.symm
    · rw [low]
      exact (max_eq_left (VersionVector.zeroLe _)).symm
  · rw [kept] at forgets
    cases forgets
  · exact ⟨rfl,fun node => VersionVector.getMerge ..⟩

theorem forgottenRow {d : Delta} (current : Option DigestRow) (forgets : d.forgetRow = true) : d.flush current = none := by
  have moves : d.movesNothing = false := by simp [Delta.movesNothing, forgets]
  simp [Delta.flush, moves, forgets]

theorem noRecordsXor {docs : SortedMap Address DocRecord} {coll : CollectionId} (none : ∀ key, docs.get ⟨coll,key⟩ = none) :
    liveSet docs coll = ∅ := by
  refine Finset.eq_empty_iff_forall_notMem.mpr fun y member => ?_
  obtain ⟨r,found,_⟩ := memLiveSet.mp member
  rw [none] at found
  cases found

theorem committedDb (x : LiveTxn) : x.committed.db = x.store.db := by
  unfold LiveTxn.committed LiveStore.flush
  simp only
  split <;> rfl

theorem committedCounts (x : LiveTxn) (coll : CollectionId) : (x.committed.counts.get coll).getD 0 =
    (settleCount (x.pending.delta coll) (x.store.counts.get coll)).getD 0 := by
  have same : x.committed.counts = x.store.counts.amend settleCount x.pending.deltas := by
    unfold LiveTxn.committed LiveStore.flush
    simp only
    split <;> rfl
  rw [same, SortedMap.getAmend, Pending.delta]
  cases x.pending.deltas.get coll with
  | none => rfl
  | some d => rfl

theorem committedDigests (x : LiveTxn) (coll : CollectionId) : x.committed.digests.get coll =
    (x.pending.digest coll).flush (x.store.digests.get coll) := by
  have same : x.committed.digests = x.store.digests.amend Delta.flush x.pending.digests := by
    unfold LiveTxn.committed LiveStore.flush
    simp only
    split <;> rfl
  rw [same, SortedMap.getAmend, Pending.digest]
  cases x.pending.digests.get coll with
  | none => rfl
  | some d => rfl

theorem Payable.committed (payable : Payable term x) : x.committed.Exact term := by
  have db := committedDb x
  have counts := committedCounts x
  have digests := committedDigests x
  refine ⟨fun coll => ?_,fun coll => ?_,fun y member => ?_⟩
  · rw [LiveStore.keptCounts, counts, db, liveCountCard]
    exact settledCount (payable.owing.counts coll)
  · rw [LiveStore.keptDigests, digests, db, xorInLive]
    cases forgets : (x.pending.digest coll).forgetRow with
    | true =>
      rw [forgottenRow _ forgets]
      change (0 : Digest) = xorLive term (liveSet x.docs coll)
      rw [noRecordsXor (payable.forgets coll forgets)]
      rfl
    | false =>
      rw [(flushedRow _ forgets).1]
      exact payable.owing.digests coll
  · obtain ⟨⟨coll,key⟩,r⟩ := y
    rw [db] at member
    have found : x.docs.get ⟨coll,key⟩ = some r := SortedMap.memEntries.mp member
    rw [LiveStore.keptDigests, digests]
    cases forgets : (x.pending.digest coll).forgetRow with
    | true =>
      rw [payable.forgets coll forgets key] at found
      cases found
    | false =>
      rw [(flushedRow _ forgets).2]
      exact payable.owing.reached _ r found

/-! Each transaction. -/

/- In a transaction of writes a collection without records is owed nothing: no step of it takes a record away. -/
def Unowed (x : LiveTxn) : Prop := ∀ coll, (∀ key, x.docs.get ⟨coll,key⟩ = none) → (x.pending.digest coll).xor = 0

theorem unowedPut (unowed : Unowed x) (a : Address) (record : DocRecord) : Unowed (x.putRecord term a record) := by
  intro coll none
  have stays (b : Address) : (x.putRecord term a record).docs.get b = if b = a then some record else x.docs.get b :=
    SortedMap.getInsert ..
  have apart : coll ≠ a.collection := by
    rintro rfl
    have held := none a.key
    rw [stays, if_pos rfl] at held
    cases held
  have own : (x.noted term a (some record.header)).digest coll = x.pending.digest coll := by
    rw [LiveTxn.noted, digestWrote, if_neg apart, digestMoved]
  change ((x.noted term a (some record.header)).digest coll).xor = 0
  rw [own]
  refine unowed coll fun key => ?_
  have held := none key
  rw [stays, if_neg fun is => apart (congrArg Address.collection is)] at held
  exact held

theorem unowedBare (unowed : Unowed x) (coll : CollectionId) (stamp : Stamp) :
    Unowed { x with pending := x.pending.bare coll stamp } := by
  intro other none
  have zero := unowed other none
  unfold Pending.digest Pending.bare
  rw [SortedMap.getInsert]
  split_ifs with own
  · rw [own] at zero
    exact zero
  · exact zero

theorem recordsUnderNil {t : Tables} {coll : CollectionId} (none : (recordsUnder t coll).isEmpty = true) (key : DocKey) :
    t.docs.get ⟨coll,key⟩ = Option.none := by
  cases found : t.docs.get ⟨coll,key⟩ with
  | none => rfl
  | some r =>
    have member : (⟨coll,key⟩ : Address) ∈ recordsUnder t coll :=
      List.mem_map.mpr ⟨(⟨coll,key⟩,r),List.mem_filter.mpr ⟨SortedMap.memEntries.mpr found,by simp⟩,rfl⟩
    rw [List.isEmpty_iff.mp none] at member
    cases member

/- A new life starts with no row, and had none to lose. -/
theorem Sound.reset (sound : Sound term x) (unowed : Unowed x) {coll : CollectionId}
    (none : ∀ key, x.docs.get ⟨coll,key⟩ = none) {db : Tables} (docs : db.docs = x.docs) :
    Sound term { x with store := { x.store with db := db, digests := x.store.digests.remove coll } } := by
  have row (other : CollectionId) : ((x.store.digests.remove coll).get other).getD .new =
      if other = coll then .new else x.row other := by
    rw [SortedMap.getRemove]
    split_ifs
    · rfl
    · rfl
  have same : LiveTxn.docs { x with store := { x.store with db := db, digests := x.store.digests.remove coll } } = x.docs := docs
  refine ⟨⟨fun other => ?_,fun other => ?_,fun a r found => ?_⟩,sound.keeping⟩
  · rw [same]
    exact sound.owing.counts other
  · change (((x.store.digests.remove coll).get other).getD .new).digest ^^^ (x.pending.digest other).xor = _
    rw [row, same]
    split_ifs with own
    · subst own
      rw [unowed other none, noRecordsXor none]
      rfl
    · exact sound.owing.digests other
  · rw [same] at found
    change r.stamp.hlc ≤ max ((((x.store.digests.remove coll).get a.collection).getD .new).maxw.get r.stamp.node) _
    rw [row]
    split_ifs with own
    · obtain ⟨c,key⟩ := a
      obtain rfl : c = coll := own
      rw [none key] at found
      cases found
    · exact sound.owing.reached a r found

theorem writeStepSound {step : WriteStep} {y : LiveTxn} (sound : Sound term x) (unowed : Unowed x)
    (made : x.writeStep term step = some y) : Sound term y ∧ Unowed y := by
  cases step with
  | put a record =>
    cases made
    exact ⟨sound.put a record,unowedPut unowed a record⟩
  | bare a stamp =>
    cases made
    exact ⟨(sound.put a _).bare a.collection stamp,unowedBare (unowedPut unowed a _) a.collection stamp⟩
  | append entry position =>
    cases made
    refine ⟨sound.append entry position,fun coll none => ?_⟩
    have docs : (x.append entry position).docs = x.docs := by
      unfold LiveTxn.append
      simp only
      split_ifs
      · exact Tables.appendDocs ..
      · exact Tables.appendDocs ..
    have owed : (x.append entry position).pending.digests = x.pending.digests := by
      unfold LiveTxn.append
      simp only
      split_ifs <;> rfl
    have zero := unowed coll fun key => docs ▸ none key
    unfold Pending.digest at zero ⊢
    rw [owed]
    exact zero
  | create coll =>
    simp only [LiveTxn.writeStep, LiveTxn.create] at made
    split_ifs at made with stands rows
    · cases made
      exact ⟨sound,unowed⟩
    · cases made
      rw [Bool.and_eq_true] at rows
      exact ⟨sound.reset unowed (recordsUnderNil rows.1) rfl,unowed⟩
  | drop coll =>
    cases made
    exact ⟨sound.withDb rfl,unowed⟩

theorem writeStepsSound {steps : List WriteStep} {y : LiveTxn} (sound : Sound term x) (unowed : Unowed x)
    (made : x.writeSteps term steps = some y) : Sound term y := by
  induction steps generalizing x with
  | nil =>
    cases made
    exact sound
  | cons step rest ih =>
    obtain ⟨z,first,more⟩ := Option.bind_eq_some_iff.mp made
    obtain ⟨next,still⟩ := writeStepSound sound unowed first
    exact ih next still more

theorem removedDocs (x : LiveTxn) (a b : Address) :
    (x.removeRecord term a).docs.get b = if b = a then none else x.docs.get b := by
  unfold LiveTxn.removeRecord
  split_ifs with absent here here
  · rw [here]
    exact Option.isNone_iff_eq_none.mp absent
  · rfl
  · exact (SortedMap.getRemove ..).trans (if_pos here)
  · exact (SortedMap.getRemove ..).trans (if_neg here)

theorem removedAllDocs (rows : List Address) : ∀ (x : LiveTxn) (b : Address),
    (x.removeAll term rows).docs.get b = if b ∈ rows then none else x.docs.get b := by
  unfold LiveTxn.removeAll
  induction rows with
  | nil => intro x b; simp
  | cons a rest ih =>
    intro x b
    rw [List.foldl_cons, ih, removedDocs]
    by_cases there : b ∈ rest
    · simp [there]
    · by_cases here : b = a
      · simp [here]
      · simp [here, there]

/- A row that is to be forgotten is still owed the same. -/
theorem Owing.forget (owing : Owing term x) (coll : CollectionId) :
    Owing term { x with pending := x.pending.forgetDigest coll } := by
  have owed (other : CollectionId) : (x.pending.forgetDigest coll).digest other =
      if other = coll then { x.pending.digest coll with forgetRow := true } else x.pending.digest other := by
    unfold Pending.digest Pending.forgetDigest
    rw [SortedMap.getInsert]
    split_ifs
    · rfl
    · rfl
  refine ⟨owing.counts,fun other => ?_,fun a r found => ?_⟩
  · have own := owing.digests other
    rw [owed]
    split_ifs with is
    · rw [is] at own ⊢
      exact own
    · exact own
  · have own := owing.reached a r found
    rw [owed]
    split_ifs with is
    · rw [is] at own ⊢
      exact own
    · exact own

theorem forgetsOnly (keeping : Keeping x) {coll other : CollectionId}
    (forgets : ((x.pending.forgetDigest coll).digest other).forgetRow = true) : other = coll := by
  by_contra apart
  have same : (x.pending.forgetDigest coll).digest other = x.pending.digest other := by
    unfold Pending.digest Pending.forgetDigest
    rw [SortedMap.getInsert, if_neg apart]
  rw [same, keeping other] at forgets
  cases forgets

theorem memRecordsUnder {t : Tables} {coll : CollectionId} {key : DocKey} {r : DocRecord}
    (found : t.docs.get ⟨coll,key⟩ = some r) : (⟨coll,key⟩ : Address) ∈ recordsUnder t coll :=
  List.mem_map.mpr ⟨(⟨coll,key⟩,r),List.mem_filter.mpr ⟨SortedMap.memEntries.mpr found,by simp⟩,rfl⟩

/- A chunk that was not filled has taken every record. -/
theorem shortTakesAll {s : LiveStore} {coll : CollectionId}
    (short : ((recordsUnder s.db coll).take dropPurgeChunk).length < dropPurgeChunk) (key : DocKey) :
    (s.begun.removeAll term ((recordsUnder s.db coll).take dropPurgeChunk)).docs.get ⟨coll,key⟩ = none := by
  rw [List.length_take] at short
  rw [List.take_of_length_le (by omega), removedAllDocs]
  split_ifs with taken
  · rfl
  · by_contra left
    obtain ⟨r,found⟩ := Option.ne_none_iff_exists'.mp left
    exact taken (memRecordsUnder found)

/- What a chunk comes to, whether or not there is anything to commit. -/
def purged (term : DocKey → Stamp → Digest) (s : LiveStore) (coll : CollectionId) : LiveTxn :=
  let rows := (recordsUnder s.db coll).take dropPurgeChunk
  let x := s.begun.removeAll term rows
  let keys := if rows.length < dropPurgeChunk then (entriesUnder s.db coll).take (dropPurgeChunk - rows.length) else []
  let x := x.withDb { x.store.db with entries := keys.foldl SortedMap.remove x.store.db.entries }
  if rows.length + keys.length < dropPurgeChunk then { x with pending := x.pending.forgetDigest coll } else x

theorem purgeIsPurged {s : LiveStore} {coll : CollectionId} (made : purgeChunk term s coll = some x) : x = purged term s coll := by
  unfold purgeChunk at made
  simp only at made
  by_cases stands : (s.db.collections.get coll).isSome = true
  · rw [if_pos stands] at made
    cases made
  · rw [if_neg stands] at made
    split_ifs at made
    all_goals
      cases made
      unfold purged
      simp only [*, if_true, if_false]

theorem purgedPayable {s : LiveStore} {coll : CollectionId} (exact : s.Exact term) : Payable term (purged term s coll) := by
  have sound := (Sound.ofExact exact).removeAll ((recordsUnder s.db coll).take dropPurgeChunk)
  unfold purged
  simp only
  generalize (if ((recordsUnder s.db coll).take dropPurgeChunk).length < dropPurgeChunk then
    (entriesUnder s.db coll).take (dropPurgeChunk - ((recordsUnder s.db coll).take dropPurgeChunk).length) else []) = keys
  have kept : Sound term ((s.begun.removeAll term ((recordsUnder s.db coll).take dropPurgeChunk)).withDb
      { (s.begun.removeAll term ((recordsUnder s.db coll).take dropPurgeChunk)).store.db with
        entries := keys.foldl SortedMap.remove
          (s.begun.removeAll term ((recordsUnder s.db coll).take dropPurgeChunk)).store.db.entries }) := sound.withDb rfl
  split_ifs with ended
  · refine ⟨kept.owing.forget coll,fun other forgets key => ?_⟩
    obtain rfl := forgetsOnly kept.keeping forgets
    exact shortTakesAll (by omega) key
  · exact kept.payable

theorem purgeSound {s : LiveStore} {coll : CollectionId} (exact : s.Exact term) (made : purgeChunk term s coll = some x) :
    Payable term x := by
  rw [purgeIsPurged made]
  exact purgedPayable exact

theorem tombstonesSound {s : LiveStore} (exact : s.Exact term) (expired : List (Address × Stamp)) (cutoff : Hlc) :
    Sound term (removeTombstones term s expired cutoff) := by
  unfold removeTombstones
  refine List.foldlRecOn _ _ (motive := Sound term) (Sound.ofExact exact) fun x sound found _ => ?_
  split
  · split_ifs
    · exact sound.remove _
    · exact sound
  · exact sound

theorem removingDocs (t : Tables) (keys : List Stamp) : (t.removeOplogEntries keys).docs = t.docs := by
  have each : ∀ (keys : List Stamp) (removal : Removal), (keys.foldl Removal.take removal).tables.docs = removal.tables.docs := by
    intro keys
    induction keys with
    | nil => exact fun _ => rfl
    | cons key rest ih => exact fun removal => (ih (removal.take key)).trans (Removal.takeSame removal key).1
  exact each keys ⟨t,none,.new⟩

theorem restoreSound {a : Address} {entry : Option OplogEntry} {y : LiveTxn} (sound : Sound term x)
    (made : restore term x a entry = some y) : Sound term y := by
  cases entry with
  | none =>
    cases made
    exact sound.remove a
  | some entry =>
    simp only [restore] at made
    split_ifs at made
    · cases made
      exact sound.put a _
    · obtain ⟨body,_,rfl⟩ := Option.map_eq_some_iff.mp made
      exact sound.put a _

theorem restoreAllSound {plan : List (Address × Option OplogEntry)} {y : LiveTxn} (sound : Sound term x)
    (made : restoreAll term x plan = some y) : Sound term y := by
  induction plan generalizing x with
  | nil =>
    cases made
    exact sound
  | cons item rest ih =>
    obtain ⟨z,first,more⟩ := Option.bind_eq_some_iff.mp made
    have next : Sound term (z.reindexed item.1 (x.store.db.image item.1)) := (restoreSound sound first).withDb rfl
    exact ih next more

theorem rewindSound {s : LiveStore} {r : Rewind} (exact : s.Exact term) (made : r.run term s = some x) : Sound term x := by
  obtain ⟨y,restored,rfl⟩ := Option.map_eq_some_iff.mp made
  have sound := restoreAllSound (Sound.ofExact exact) restored
  have docs : ∀ (doomed : List Stamp) (t : Tables), (doomed.foldl Tables.removeEntry t).docs = t.docs := by
    intro doomed
    induction doomed with
    | nil => exact fun _ => rfl
    | cons key rest ih => exact fun t => ih (t.removeEntry key)
  have each : ∀ (reports : List OplogEntry) {x : LiveTxn}, Sound term x →
      Sound term (reports.foldl (fun x entry => x.append entry .raise) x) := by
    intro reports
    induction reports with
    | nil => exact fun sound => sound
    | cons entry rest ih => exact fun sound => ih (sound.append entry .raise)
  exact each r.reports ((sound.removeEntries (docs _ _)).withDb rfl)

/- Whatever a transaction is made of, its commit leaves the rows exact. -/
theorem transactionPayable {s : LiveStore} {t : Transaction} (exact : s.Exact term) (made : t.run term s = some x) :
    Payable term x := by
  cases t with
  | write steps => exact (writeStepsSound (Sound.ofExact exact) (fun _ _ => rfl) made).payable
  | purge coll => exact purgeSound exact made
  | tombstones expired cutoff =>
    cases made
    exact (tombstonesSound exact expired cutoff).payable
  | retention keys =>
    cases made
    exact ((Sound.ofExact exact).removeEntries (removingDocs ..)).payable
  | rewind r => exact (rewindSound exact made).payable

end

end Store
end Kimmy
