import Kimmy.Store.Records
import Mathlib.Data.Finset.Fold

/-!
The kept digest of a collection (`live_digest.rs`): one row, moved in the transaction of
every write. The digest is the exclusive-or of a term for each live record, so a transaction
gathers what it owes and pays it once; the highest stamps are raised and never fall. The
hash behind a term is a parameter.
-/
namespace Kimmy.Store
open Merge

/-! Exclusive-or over a finite set. -/

section xor
variable {α : Type} [DecidableEq α] {n : Nat}

def xorOf (f : α → BitVec n) (s : Finset α) : BitVec n := s.fold (fun x y => x ^^^ y) 0#n f

theorem xorOfInsert {f : α → BitVec n} {s : Finset α} {a : α} (absent : a ∉ s) :
    xorOf f (insert a s) = f a ^^^ xorOf f s := Finset.fold_insert absent

theorem xorOfErase {f : α → BitVec n} {s : Finset α} {a : α} (member : a ∈ s) :
    xorOf f s = xorOf f (s.erase a) ^^^ f a := by
  rw [← Finset.insert_erase member, xorOfInsert (Finset.notMem_erase a s), Finset.insert_erase member]
  exact BitVec.xor_comm _ _

end xor

/-! The row. -/

abbrev Digest := BitVec 128

structure DigestRow where
  digest : Digest
  maxw : VersionVector
  bareMax : VersionVector

/- What a record's header says: its stamp, and whether it is live. -/
abbrev Header := Stamp × Bool

def DocRecord.header (r : DocRecord) : Header := (r.stamp,r.isLive)

namespace DigestRow

def new : DigestRow := ⟨0,.new,.new⟩

def raiseMaxw (row : DigestRow) (stamp : Stamp) : DigestRow := { row with maxw := row.maxw.observe stamp }

def raiseBare (row : DigestRow) (stamp : Stamp) : DigestRow := { row with bareMax := row.bareMax.observe stamp }

def raiseFrom (row other : DigestRow) : DigestRow :=
  { row with maxw := row.maxw.merge other.maxw, bareMax := row.bareMax.merge other.bareMax }

end DigestRow

/- What one transaction owes the row. -/
structure Delta where
  xor : Digest
  raised : DigestRow
  forgetRow : Bool

namespace Delta

def new : Delta := ⟨0,.new,false⟩

/- The term a header has in the digest: a tombstone has none. -/
def termOf (term : DocKey → Stamp → Digest) (key : DocKey) : Option Header → Digest
  | some (stamp,true) => term key stamp
  | _ => 0

def wrote (term : DocKey → Stamp → Digest) (d : Delta) (key : DocKey) (before after : Option Header) : Delta :=
  let d := { d with xor := d.xor ^^^ termOf term key before }
  match after with
  | some (stamp,live) =>
      { d with
        xor := d.xor ^^^ termOf term key (some (stamp,live))
        raised := d.raised.raiseMaxw stamp }
  | none => d

/- The write just recorded was a tombstone with no oplog entry behind it. -/
def bare (d : Delta) (stamp : Stamp) : Delta := { d with raised := d.raised.raiseBare stamp }

def movesNothing (d : Delta) : Bool :=
  !d.forgetRow && d.xor == 0 && d.raised.maxw.positions.entries.isEmpty &&
    d.raised.bareMax.positions.entries.isEmpty

/- The row is read, moved and written once. -/
def flush (d : Delta) (current : Option DigestRow) : Option DigestRow :=
  if d.movesNothing then current
  else
    let row := current.getD .new
    let row := { row with digest := row.digest ^^^ d.xor }.raiseFrom d.raised
    if d.forgetRow then none else some row

end Delta

/-! What the digest is of. -/

section kept
variable {term : DocKey → Stamp → Digest} {docs : SortedMap Address DocRecord} {coll : CollectionId}

/- The key and the stamp of every live record of a collection. -/
def liveSet (docs : SortedMap Address DocRecord) (coll : CollectionId) : Finset (DocKey × Stamp) :=
  (docs.entries.filterMap fun x =>
    if x.1.collection = coll ∧ x.2.isLive = true then some (x.1.key,x.2.stamp) else none).toFinset

def xorLive (term : DocKey → Stamp → Digest) (s : Finset (DocKey × Stamp)) : Digest := xorOf (fun x => term x.1 x.2) s

theorem memLiveSet {x : DocKey × Stamp} :
    x ∈ liveSet docs coll ↔ ∃ r, docs.get ⟨coll,x.1⟩ = some r ∧ r.isLive = true ∧ r.stamp = x.2 := by
  simp only [liveSet, List.mem_toFinset, List.mem_filterMap]
  constructor
  · rintro ⟨⟨a,r⟩,member,found⟩
    split_ifs at found with here
    cases found
    obtain ⟨rfl,live⟩ := here
    exact ⟨r,SortedMap.memEntries.mp member,live,rfl⟩
  · rintro ⟨r,found,live,same⟩
    refine ⟨(⟨coll,x.1⟩,r),SortedMap.memEntries.mpr found,?_⟩
    rw [if_pos ⟨rfl,live⟩, same]

/- The live set without a key, and what that key adds. -/
theorem xorSplit (p : DocKey → Prop) [DecidablePred p] (key : DocKey) :
    xorLive term ((liveSet docs coll).filter fun x => p x.1) =
      xorLive term ((liveSet docs coll).filter fun x => p x.1 ∧ x.1 ≠ key) ^^^
        if p key then Delta.termOf term key ((docs.get ⟨coll,key⟩).map DocRecord.header) else 0 := by
  -- the key has at most one record, so at most one pair of the set goes
  have unchanged (none' : ∀ x ∈ liveSet docs coll, p x.1 → x.1 ≠ key) :
      ((liveSet docs coll).filter fun x => p x.1) = (liveSet docs coll).filter fun x => p x.1 ∧ x.1 ≠ key := by
    refine Finset.filter_congr fun x member => ?_
    exact ⟨fun holds => ⟨holds,none' x member holds⟩,And.left⟩
  by_cases passes : p key
  · rw [if_pos passes]
    cases found : docs.get ⟨coll,key⟩ with
    | none =>
      rw [unchanged]
      · exact (BitVec.xor_zero).symm
      · rintro x member _ rfl
        obtain ⟨r,there,_⟩ := memLiveSet.mp member
        rw [found] at there
        cases there
    | some r =>
      cases live : r.isLive with
      | false =>
        rw [unchanged]
        · simp [Delta.termOf, DocRecord.header, live]
        · rintro x member _ rfl
          obtain ⟨r',there,alive,_⟩ := memLiveSet.mp member
          rw [found] at there
          cases there
          rw [live] at alive
          cases alive
      | true =>
        have member : (key,r.stamp) ∈ (liveSet docs coll).filter fun x => p x.1 :=
          Finset.mem_filter.mpr ⟨memLiveSet.mpr ⟨r,found,live,rfl⟩,passes⟩
        have erased : ((liveSet docs coll).filter fun x => p x.1).erase (key,r.stamp) =
            (liveSet docs coll).filter fun x => p x.1 ∧ x.1 ≠ key := by
          ext ⟨k,s⟩
          simp only [Finset.mem_erase, Finset.mem_filter]
          constructor
          · rintro ⟨other,there,holds⟩
            refine ⟨there,holds,fun same => other ?_⟩
            obtain ⟨r',found',_,stamp⟩ := memLiveSet.mp there
            simp only at same found' stamp
            rw [same, found] at found'
            cases found'
            rw [same, stamp]
          · rintro ⟨there,holds,other⟩
            exact ⟨fun same => other (congrArg Prod.fst same),there,holds⟩
        rw [xorLive, xorOfErase member, erased]
        simp [xorLive, Delta.termOf, DocRecord.header, live]
  · rw [if_neg passes, unchanged]
    · exact (BitVec.xor_zero).symm
    · rintro x _ holds rfl
      exact passes holds

/- A row that is exact: its digest is that of the live records, and its highest stamps reach
every record there ever was. -/
structure Kept (term : DocKey → Stamp → Digest) (docs : SortedMap Address DocRecord) (coll : CollectionId)
    (ever : Stamp → Prop) (row : DigestRow) : Prop where
  digest : row.digest = xorLive term (liveSet docs coll)
  reached : ∀ s, ever s → s.hlc ≤ row.maxw.get s.node

end kept

/-! A transaction keeps its row exact. -/

/- One write of a record, or its removal. -/
structure RecordWrite where
  key : DocKey
  record : Option DocRecord
  bare : Bool

def RecordWrite.apply (w : RecordWrite) (coll : CollectionId) (docs : SortedMap Address DocRecord) :
    SortedMap Address DocRecord :=
  match w.record with
  | some r => docs.insert ⟨coll,w.key⟩ r
  | none => docs.remove ⟨coll,w.key⟩

def RecordWrite.gather (term : DocKey → Stamp → Digest) (coll : CollectionId)
    (state : SortedMap Address DocRecord × Delta) (w : RecordWrite) : SortedMap Address DocRecord × Delta :=
  let d := state.2.wrote term w.key ((state.1.get ⟨coll,w.key⟩).map DocRecord.header) (w.record.map DocRecord.header)
  (w.apply coll state.1,match w.record with
    | some r => if w.bare then d.bare r.stamp else d
    | none => d)

section transaction
variable {term : DocKey → Stamp → Digest} {coll : CollectionId}

/- What the delta owes at any point: the difference of the digests so far, and the stamps
written. -/
structure Owes (term : DocKey → Stamp → Digest) (coll : CollectionId) (start docs : SortedMap Address DocRecord)
    (written : Stamp → Prop) (d : Delta) : Prop where
  xor : xorLive term (liveSet start coll) ^^^ d.xor = xorLive term (liveSet docs coll)
  raised : ∀ s, written s → s.hlc ≤ d.raised.maxw.get s.node
  row : d.forgetRow = false

theorem RecordWrite.applyGet (w : RecordWrite) (coll : CollectionId) (docs : SortedMap Address DocRecord) (a : Address) :
    (w.apply coll docs).get a = if a = ⟨coll,w.key⟩ then w.record else docs.get a := by
  unfold apply
  split
  next r found => rw [SortedMap.getInsert, found]
  next found => rw [SortedMap.getRemove, found]

theorem RecordWrite.xorApply (w : RecordWrite) (docs : SortedMap Address DocRecord) :
    xorLive term (liveSet docs coll) ^^^ Delta.termOf term w.key ((docs.get ⟨coll,w.key⟩).map DocRecord.header) ^^^
        Delta.termOf term w.key (w.record.map DocRecord.header) =
      xorLive term (liveSet (w.apply coll docs) coll) := by
  have elsewhere : ((liveSet docs coll).filter fun x => True ∧ x.1 ≠ w.key) =
      (liveSet (w.apply coll docs) coll).filter fun x => True ∧ x.1 ≠ w.key := by
    ext ⟨k,s⟩
    simp only [Finset.mem_filter, memLiveSet, w.applyGet, true_and]
    refine and_congr_left fun other => ?_
    rw [if_neg fun same => other (congrArg Address.key same)]
  have before := @xorSplit term docs coll (fun _ => True) _ w.key
  have after := @xorSplit term (w.apply coll docs) coll (fun _ => True) _ w.key
  rw [Finset.filter_true, if_pos trivial] at before after
  rw [w.applyGet, if_pos rfl, ← elsewhere] at after
  rw [before, after]
  congr 1
  rw [BitVec.xor_assoc, BitVec.xor_self, BitVec.xor_zero]

theorem Owes.gather {start docs : SortedMap Address DocRecord} {written : Stamp → Prop} {d : Delta}
    (owes : Owes term coll start docs written d) (w : RecordWrite) :
    Owes term coll start (w.gather term coll (docs,d)).1 (fun s => written s ∨ ∃ r, w.record = some r ∧ r.stamp = s)
      (w.gather term coll (docs,d)).2 := by
  have moved := @RecordWrite.xorApply term coll w docs
  rw [← owes.xor, BitVec.xor_assoc, BitVec.xor_assoc] at moved
  unfold RecordWrite.gather
  cases found : w.record with
  | none =>
    rw [found] at moved
    refine ⟨?_,?_,owes.row⟩
    · rw [← moved]
      simp [Delta.wrote, Delta.termOf]
    · rintro s (earlier | ⟨r,here,_⟩)
      · exact owes.raised s earlier
      · cases here
  | some r =>
    rw [found] at moved
    have raised (s : Stamp) (h : written s ∨ ∃ r', some r = some r' ∧ r'.stamp = s) :
        s.hlc ≤ (d.raised.maxw.observe r.stamp).get s.node := by
      rw [VersionVector.getObserve]
      rcases h with earlier | ⟨r',here,rfl⟩
      · split_ifs
        · exact (owes.raised s earlier).trans (le_max_left _ _)
        · exact owes.raised s earlier
      · cases here
        rw [if_pos rfl]
        exact le_max_right _ _
    cases bare : w.bare with
    | false =>
      refine ⟨?_,raised,owes.row⟩
      rw [← moved]
      simp [Delta.wrote, DocRecord.header, BitVec.xor_assoc]
    | true =>
      refine ⟨?_,raised,owes.row⟩
      rw [← moved]
      simp [Delta.wrote, Delta.bare, DocRecord.header, BitVec.xor_assoc]

/- The row flushed after any sequence of writes is exact for the records they leave. -/
theorem flushKept {docs : SortedMap Address DocRecord} {ever : Stamp → Prop} {row : Option DigestRow}
    (kept : Kept term docs coll ever (row.getD .new)) (writes : List RecordWrite) :
    let done := writes.foldl (RecordWrite.gather term coll) (docs,.new)
    Kept term done.1 coll (fun s => ever s ∨ ∃ w ∈ writes, ∃ r, w.record = some r ∧ r.stamp = s)
      ((done.2.flush row).getD .new) := by
  intro done
  have owes : Owes term coll docs done.1 (fun s => ∃ w ∈ writes, ∃ r, w.record = some r ∧ r.stamp = s) done.2 := by
    have start : Owes term coll docs docs (fun s => ∃ w ∈ ([] : List RecordWrite), ∃ r, w.record = some r ∧ r.stamp = s)
        .new := ⟨BitVec.xor_zero,by simp,rfl⟩
    have run : ∀ (rest before : List RecordWrite) (state : SortedMap Address DocRecord × Delta),
        Owes term coll docs state.1 (fun s => ∃ w ∈ before, ∃ r, w.record = some r ∧ r.stamp = s) state.2 →
        Owes term coll docs (rest.foldl (RecordWrite.gather term coll) state).1
          (fun s => ∃ w ∈ before ++ rest, ∃ r, w.record = some r ∧ r.stamp = s)
          (rest.foldl (RecordWrite.gather term coll) state).2 := by
      intro rest
      induction rest with
      | nil => intro before state owes; simpa using owes
      | cons w rest ih =>
        intro before state owes
        have next := ih (before ++ [w]) _ (⟨(owes.gather w).xor,fun s h => (owes.gather w).raised s ?_,
          (owes.gather w).row⟩)
        · simpa using next
        · obtain ⟨w',member,r,found,same⟩ := h
          rcases List.mem_append.mp member with earlier | here
          · exact .inl ⟨w',earlier,r,found,same⟩
          · rw [List.mem_singleton.mp here] at found
            exact .inr ⟨r,found,same⟩
    simpa using run writes [] (docs,.new) start
  unfold Delta.flush
  split_ifs with nothing forgets
  · -- nothing was written that the row does not already say
    simp only [Delta.movesNothing, owes.row, Bool.not_false, Bool.true_and, Bool.and_eq_true, beq_iff_eq,
      List.isEmpty_iff] at nothing
    refine ⟨?_,?_⟩
    · rw [kept.digest, ← owes.xor, nothing.1.1]
      exact BitVec.xor_zero.symm
    · rintro s (earlier | written)
      · exact kept.reached s earlier
      · have zero : done.2.raised.maxw.get s.node = .zero := by
          have empty : done.2.raised.maxw.positions.get s.node = none := by
            rw [SortedMap.get, nothing.1.2]
            rfl
          rw [VersionVector.get, empty]
          rfl
        have low := owes.raised s written
        rw [zero] at low
        exact low.trans (VersionVector.zeroLe _)
  · rw [owes.row] at forgets
    cases forgets
  · refine ⟨?_,?_⟩
    · simp only [Option.getD_some, DigestRow.raiseFrom]
      rw [kept.digest, owes.xor]
    · intro s h
      simp only [Option.getD_some, DigestRow.raiseFrom, VersionVector.getMerge]
      rcases h with earlier | written
      · exact (kept.reached s earlier).trans (le_max_left _ _)
      · exact (owes.raised s written).trans (le_max_right _ _)

end transaction

end Kimmy.Store
