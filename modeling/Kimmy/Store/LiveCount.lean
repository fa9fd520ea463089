import Kimmy.Store.LiveDigest
import Kimmy.Store.Retention

/-!
The live counts and digests a store keeps (`live_count.rs`, `live_digest.rs`, `live_walk.rs`), with the mark that
says where they are kept through. A transaction gathers what its writes owe and pays it at the commit; an open
whose mark does not match the store walks the records again, in chunks that can be interrupted.
-/
namespace Kimmy

/- Every row of a table settled by what another one owes it; `none` takes the row out. -/
def SortedMap.amend {κ ν δ : Type} [LinearOrder κ] (settle : δ → Option ν → Option ν) (rows : SortedMap κ ν)
    (owed : SortedMap κ δ) : SortedMap κ ν :=
  owed.entries.foldl (fun rows x => match settle x.2 (rows.get x.1) with
    | some row => rows.insert x.1 row
    | none => rows.remove x.1) rows

namespace Store
open Merge

/- Where a store stands: the next arrival position and the newest key of the oplog. -/
structure Mark where
  next : Nat
  newest : Option Stamp
  deriving DecidableEq

def markOf (t : Tables) : Mark := ⟨t.nextArrival,t.oplogTail⟩

/- The digest format. -/
def format : Nat := 1

/- How far a walk of the records came, and whether it was stopped rather than cut off. -/
structure WalkCursor where
  stoppedCleanly : Bool
  after : Option Address

structure LiveStore where
  db : Tables
  counts : SortedMap CollectionId Nat
  digests : SortedMap CollectionId DigestRow
  countsThrough : Option Mark
  digestsThrough : Option (Nat × Mark)
  walk : Option WalkCursor

/-! What a transaction owes. -/

structure Pending where
  deltas : SortedMap CollectionId Int
  mark : Option Mark
  digests : SortedMap CollectionId Delta

namespace Pending

def new : Pending := ⟨.empty,none,.empty⟩

def delta (p : Pending) (coll : CollectionId) : Int := (p.deltas.get coll).getD 0

def digest (p : Pending) (coll : CollectionId) : Delta := (p.digests.get coll).getD .new

/- Liveness unchanged moves nothing. -/
def moved (p : Pending) (coll : CollectionId) (was is : Bool) : Pending :=
  match was, is with
  | false, true => { p with deltas := p.deltas.insert coll (p.delta coll + 1) }
  | true, false => { p with deltas := p.deltas.insert coll (p.delta coll - 1) }
  | _, _ => p

def wrote (term : DocKey → Stamp → Digest) (p : Pending) (a : Address) (before after : Option Header) : Pending :=
  { p with digests := p.digests.insert a.collection ((p.digest a.collection).wrote term a.key before after) }

def bare (p : Pending) (coll : CollectionId) (stamp : Stamp) : Pending :=
  { p with digests := p.digests.insert coll ((p.digest coll).bare stamp) }

def forgetDigest (p : Pending) (coll : CollectionId) : Pending :=
  { p with digests := p.digests.insert coll { p.digest coll with forgetRow := true } }

end Pending

structure LiveTxn where
  store : LiveStore
  pending : Pending

/- A count that would come to nothing is a row that goes. -/
def settleCount (delta : Int) (current : Option Nat) : Option Nat :=
  if delta = 0 then current
  else
    let held := current.getD 0
    let next := if 0 < delta then held + delta.natAbs else held - delta.natAbs
    if next = 0 then none else some next

namespace LiveStore

def flush (s : LiveStore) (p : Pending) : LiveStore :=
  let s := { s with counts := s.counts.amend settleCount p.deltas, digests := s.digests.amend Delta.flush p.digests }
  match p.mark with
  | some mark => { s with countsThrough := some mark, digestsThrough := some (format,mark) }
  | none => s

/- The marks move on across a removal only where they were current before it. -/
def carryMark (s : LiveStore) (before after : Mark) : LiveStore :=
  { s with
    countsThrough := if s.countsThrough = some before then some after else s.countsThrough
    digestsThrough := if s.digestsThrough = some (format,before) then some (format,after) else s.digestsThrough }

def begun (s : LiveStore) : LiveTxn := ⟨s,.new⟩

/- What is read of a collection. -/
def liveCount (s : LiveStore) (coll : CollectionId) : Nat := (s.counts.get coll).getD 0

def keptRow (s : LiveStore) (coll : CollectionId) : Option DigestRow := s.digests.get coll

/- Whether the kept counts match the store, for a reader before an open. -/
def countsAreCurrent (s : LiveStore) : Bool := s.countsThrough == some (markOf s.db)

def markMatches (s : LiveStore) : Bool := s.digestsThrough == some (format,markOf s.db)

end LiveStore

namespace LiveTxn

def committed (x : LiveTxn) : LiveStore := x.store.flush x.pending

def withDb (x : LiveTxn) (db : Tables) : LiveTxn := { x with store := { x.store with db := db } }

def docs (x : LiveTxn) : SortedMap Address DocRecord := x.store.db.docs

/- What a write of a record, or the removal of one, does to the pending moves. -/
def noted (term : DocKey → Stamp → Digest) (x : LiveTxn) (a : Address) (after : Option Header) : Pending :=
  let before := (x.docs.get a).map DocRecord.header
  (x.pending.moved a.collection (before.any Prod.snd) (after.any Prod.snd)).wrote term a before after

def putRecord (term : DocKey → Stamp → Digest) (x : LiveTxn) (a : Address) (record : DocRecord) : LiveTxn :=
  { x.withDb (x.store.db.putRecord a record) with pending := x.noted term a (some record.header) }

def putBareTombstone (term : DocKey → Stamp → Digest) (x : LiveTxn) (a : Address) (stamp : Stamp) : LiveTxn :=
  let x := x.putRecord term a (.tombstone stamp)
  { x with pending := x.pending.bare a.collection stamp }

def removeRecord (term : DocKey → Stamp → Digest) (x : LiveTxn) (a : Address) : LiveTxn :=
  if (x.docs.get a).isNone then x
  else { x.withDb { x.store.db with docs := x.docs.remove a } with pending := x.noted term a none }

/- Only an entry that was not there yet takes an arrival position and moves the mark. -/
def append (x : LiveTxn) (entry : OplogEntry) (position : Position) : LiveTxn :=
  let appended := (x.store.db.appendOplogAt entry position).1
  if (x.store.db.oplog.get entry.stamp).isSome then x.withDb appended
  else { x.withDb appended with pending := { x.pending with mark := some (markOf appended) } }

end LiveTxn

/-! Transactions. -/

inductive WriteStep where
  | put (a : Address) (record : DocRecord)
  | bare (a : Address) (stamp : Stamp)
  | append (entry : OplogEntry) (position : Position)
  | create (coll : CollectionId)
  | drop (coll : CollectionId)

def recordsUnder (t : Tables) (coll : CollectionId) : List Address :=
  (t.docs.entries.filter fun x => x.1.collection = coll).map Prod.fst

def entriesUnder (t : Tables) (coll : CollectionId) : List IndexKey :=
  (t.entries.entries.filter fun x => x.1.collection = coll).map Prod.fst

namespace LiveTxn
variable (term : DocKey → Stamp → Digest)

/- A creation is refused while rows remain under its id, and a new life starts with no digest row. -/
def create (x : LiveTxn) (coll : CollectionId) : Option LiveTxn :=
  if (x.store.db.collections.get coll).isSome then some x
  else if (recordsUnder x.store.db coll).isEmpty && (entriesUnder x.store.db coll).isEmpty then
    some { x with store := { x.store with
      db := { x.store.db with collections := x.store.db.collections.insert coll ⟨[],List.Pairwise.nil⟩ }
      digests := x.store.digests.remove coll } }
  else none

def writeStep (x : LiveTxn) : WriteStep → Option LiveTxn
  | .put a record => some (x.putRecord term a record)
  | .bare a stamp => some (x.putBareTombstone term a stamp)
  | .append entry position => some (x.append entry position)
  | .create coll => x.create coll
  | .drop coll => some (x.withDb { x.store.db with collections := x.store.db.collections.remove coll })

def writeSteps (x : LiveTxn) : List WriteStep → Option LiveTxn
  | [] => some x
  | step :: rest => (x.writeStep term step).bind fun x => x.writeSteps rest

def removeAll (x : LiveTxn) (rows : List Address) : LiveTxn := rows.foldl (fun x a => x.removeRecord term a) x

end LiveTxn

def dropPurgeChunk : Nat := 1000

/- A chunk of what a drop left: records first, then index entries. The chunk that comes to the end of both takes
the digest row with it. -/
def purgeChunk (term : DocKey → Stamp → Digest) (s : LiveStore) (coll : CollectionId) : Option LiveTxn :=
  if (s.db.collections.get coll).isSome then none
  else
    let rows := (recordsUnder s.db coll).take dropPurgeChunk
    let x := s.begun.removeAll term rows
    let keys := if rows.length < dropPurgeChunk then (entriesUnder s.db coll).take (dropPurgeChunk - rows.length) else []
    let x := x.withDb { x.store.db with entries := keys.foldl SortedMap.remove x.store.db.entries }
    let removed := rows.length + keys.length
    let x := if removed < dropPurgeChunk then { x with pending := x.pending.forgetDigest coll } else x
    if removed = 0 && !(removed < dropPurgeChunk && (s.digests.get coll).isSome) then none else some x

/- The tombstones a scan found, each only if it still stands as it was seen. -/
def removeTombstones (term : DocKey → Stamp → Digest) (s : LiveStore) (expired : List (Address × Stamp)) (cutoff : Hlc) :
    LiveTxn :=
  expired.foldl (fun x found => match x.docs.get found.1 with
    | some record =>
        if record.deleted && record.stamp = found.2 && record.stamp.hlc < cutoff then x.removeRecord term found.1 else x
    | none => x) s.begun

/- Entries of the oplog go, with the mark carried across. -/
def LiveTxn.removeEntries (x : LiveTxn) (db : Tables) : LiveTxn :=
  { x.withDb db with store := { x.store with db := db }.carryMark (markOf x.store.db) (markOf db) }

/- One document of a rewind: to the entry that wrote its value at the target, or away where there was none yet. -/
def restore (term : DocKey → Stamp → Digest) (x : LiveTxn) (a : Address) : Option OplogEntry → Option LiveTxn
  | none => some (x.removeRecord term a)
  | some entry =>
      if entry.kind = .delete then some (x.putRecord term a (.tombstone entry.stamp))
      else entry.body.map fun body => x.putRecord term a (.live entry.stamp body)

/- The index entries follow the document. -/
def LiveTxn.reindexed (x : LiveTxn) (a : Address) (before : Option Document) : LiveTxn :=
  x.withDb (x.store.db.settle a.collection
    (applyEntries x.store.db.entries a.collection (x.store.db.currentIndexes a.collection) before
      (x.store.db.image a) a.key))

def restoreAll (term : DocKey → Stamp → Digest) (x : LiveTxn) : List (Address × Option OplogEntry) → Option LiveTxn
  | [] => some x
  | (a,entry) :: rest => (restore term x a entry).bind fun y => restoreAll term (y.reindexed a (x.store.db.image a)) rest

/- The plan and the lowered vectors are the caller's; the reports are appended last. -/
structure Rewind where
  plan : List (Address × Option OplogEntry)
  target : Hlc
  versions : VersionVector
  witnessed : VersionVector
  reports : List OplogEntry

def Rewind.run (term : DocKey → Stamp → Digest) (r : Rewind) (s : LiveStore) : Option LiveTxn :=
  (restoreAll term s.begun r.plan).map fun x =>
    let doomed := (x.store.db.oplog.entries.map Prod.fst).filter fun stamp => r.target < stamp.hlc
    let x := x.removeEntries (doomed.foldl Tables.removeEntry x.store.db)
    let x := x.withDb { x.store.db with versions := r.versions, witnessed := r.witnessed }
    r.reports.foldl (fun x entry => x.append entry .raise) x

inductive Transaction where
  | write (steps : List WriteStep)
  | purge (coll : CollectionId)
  | tombstones (expired : List (Address × Stamp)) (cutoff : Hlc)
  | retention (keys : List Stamp)
  | rewind (r : Rewind)

/- `none`: the transaction is given up before its commit. -/
def Transaction.run (term : DocKey → Stamp → Digest) (s : LiveStore) : Transaction → Option LiveTxn
  | .write steps => s.begun.writeSteps term steps
  | .purge coll => purgeChunk term s coll
  | .tombstones expired cutoff => some (removeTombstones term s expired cutoff)
  | .retention keys => some (s.begun.removeEntries (s.db.removeOplogEntries keys))
  | .rewind r => r.run term s

/-! The walk of an open. -/

structure Walked where
  counts : SortedMap CollectionId Nat
  digests : SortedMap CollectionId DigestRow

/- A walk sees headers alone, so every tombstone raises the bare stamps. -/
def Walked.fold (term : DocKey → Stamp → Digest) (w : Walked) (x : Address × DocRecord) : Walked :=
  let coll := x.1.collection
  let row := (w.digests.get coll).getD .new
  let row := if x.2.isLive then { row with digest := row.digest ^^^ term x.1.key x.2.stamp } else row.raiseBare x.2.stamp
  { counts := if x.2.isLive then w.counts.insert coll ((w.counts.get coll).getD 0 + 1) else w.counts
    digests := w.digests.insert coll (row.raiseMaxw x.2.stamp) }

def addCount (more : Nat) (current : Option Nat) : Option Nat := some (current.getD 0 + more)

def addRow (delta : DigestRow) (current : Option DigestRow) : Option DigestRow :=
  let row := current.getD .new
  some ({ row with digest := row.digest ^^^ delta.digest }.raiseFrom delta)

/- The records past a cursor. -/
def recordsAfter (t : Tables) (after : Option Address) : List (Address × DocRecord) :=
  t.docs.entries.filter fun x => after.all (· < x.1)

/- Why a chunk ends: the records did, a limit was reached, or the process is to stop. -/
inductive ChunkEnd where
  | through
  | full (rows : Nat)
  | stopped (rows : Nat)

namespace LiveStore

def marksCurrent (s : LiveStore) : Bool := s.countsAreCurrent && s.markMatches

/- The first write of a start that is to rebuild whatever the marks say. -/
def forceMarksDeleted (s : LiveStore) : LiveStore :=
  { s with
    countsThrough := none
    digestsThrough := none
    walk := if s.countsThrough.isSome || s.digestsThrough.isSome then none else s.walk }

/- The first commit of a fresh walk takes the marks and empties the derived tables. -/
def cleared (s : LiveStore) : LiveStore :=
  { s with counts := .empty, digests := .empty, countsThrough := none, digestsThrough := none }

def addWalked (term : DocKey → Stamp → Digest) (s : LiveStore) (rows : List (Address × DocRecord)) : LiveStore :=
  let walked := rows.foldl (Walked.fold term) ⟨.empty,.empty⟩
  { s with counts := s.counts.amend addCount walked.counts, digests := s.digests.amend addRow walked.digests }

end LiveStore

inductive LivePhase where
  | closed
  | walking (mark : Mark) (after : Option Address) (fresh : Bool)
  | serving

structure LiveMember where
  store : LiveStore
  phase : LivePhase

inductive LiveStep where
  | start (forced ours : Bool)
  | chunk (ending : ChunkEnd)
  | transaction (t : Transaction) (commits : Bool)
  | exit

namespace LiveMember
variable (term : DocKey → Stamp → Digest)

/- A walk is resumed on the store's own evidence alone: no mark stands, and the cursor was left by a stop of a walk
of this build (`ours`). -/
def start (s : LiveStore) (forced ours : Bool) : LiveMember :=
  if s.marksCurrent && !forced then ⟨{ s with walk := none },.serving⟩
  else
    let s := if forced then s.forceMarksDeleted else s
    match s.walk with
    | some cursor =>
        if s.countsThrough.isNone && s.digestsThrough.isNone && cursor.stoppedCleanly && ours then
          ⟨s,.walking (markOf s.db) cursor.after false⟩
        else ⟨s,.walking (markOf s.db) none true⟩
    | none => ⟨s,.walking (markOf s.db) none true⟩

def chunk (s : LiveStore) (mark : Mark) (after : Option Address) (fresh : Bool) (ending : ChunkEnd) : LiveMember :=
  let s := if fresh then s.cleared else s
  let rows := match ending with
    | .through => recordsAfter s.db after
    | .full n | .stopped n => (recordsAfter s.db after).take n
  let after := ((rows.getLast?).map Prod.fst).or after
  let s := s.addWalked term rows
  match ending with
  | .through => ⟨{ s with walk := none, countsThrough := some mark, digestsThrough := some (format,mark) },.serving⟩
  | .full _ => ⟨{ s with walk := some ⟨false,after⟩ },.walking mark after false⟩
  | .stopped _ => ⟨{ s with walk := some ⟨true,after⟩ },.closed⟩

/- What is not for the phase the member is in does not happen. An exit keeps what was committed. -/
def step (m : LiveMember) : LiveStep → LiveMember
  | .start forced ours => match m.phase with
      | .closed => start m.store forced ours
      | _ => m
  | .chunk ending => match m.phase with
      | .walking mark after fresh => chunk term m.store mark after fresh ending
      | _ => m
  | .transaction t commits => match m.phase with
      | .serving => match t.run term m.store with
          | some x => if commits then { m with store := x.committed } else m
          | none => m
      | _ => m
  | .exit => { m with phase := .closed }

def run (m : LiveMember) (steps : List LiveStep) : LiveMember := steps.foldl (step term) m

end LiveMember

end Store
end Kimmy
