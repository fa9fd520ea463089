import Kimmy.Store.Index

/-!
The engine of one member (`engine.rs`, `docs.rs`): its tables, the appending of an oplog
entry, local document writes, replicated ones and the reports that follow them. A
transaction works on the tables and an abort puts the old ones back; the clock is outside
the database and keeps what it has issued.
-/
namespace Kimmy.Store
open Merge ByteOrder

structure Tables where
  docs : SortedMap Address DocRecord
  oplog : SortedMap Stamp OplogEntry
  held : SortedMap Stamp Unit
  arrival : SortedMap Nat Stamp
  arrivalSeq : SortedMap Stamp Nat
  versions : VersionVector
  witnessed : VersionVector
  collected : VersionVector
  collections : SortedMap CollectionId CollectionMeta
  entries : SortedMap IndexKey Unit

/- Whether an append moves the version vectors: an entry in position moves both, one held as
snapshot state neither, and only one of a window contiguous from this member's own position
releases the mark of an entry that is held. -/
inductive Position where
  | raise | hold | inWindow
  deriving DecidableEq

namespace Tables

/- No document has been written yet. -/
def fresh (collections : SortedMap CollectionId CollectionMeta) : Tables where
  docs := .empty
  oplog := .empty
  held := .empty
  arrival := .empty
  arrivalSeq := .empty
  versions := .new
  witnessed := .new
  collected := .new
  collections := collections
  entries := .empty

/- The definitions as the transaction sees them. -/
def currentIndexes (t : Tables) (coll : CollectionId) : List IndexMeta :=
  ((t.collections.get coll).map (·.indexes)).getD []

def raiseVersions (t : Tables) (stamp : Stamp) : Tables :=
  { t with versions := t.versions.raise stamp, witnessed := t.witnessed.raise stamp }

/- A mark can outlive its entry; such a one goes and nothing is raised. -/
def releaseHeldInPosition (t : Tables) (stamp : Stamp) : Tables × Bool :=
  match t.held.get stamp with
  | none => (t,false)
  | some _ =>
      let t := { t with held := t.held.remove stamp }
      if (t.oplog.get stamp).isNone then (t,false) else (t.raiseVersions stamp,true)

def nextArrival (t : Tables) : Nat := ((t.arrival.entries.getLast?).map fun x => x.1 + 1).getD 0

/- An entry appended again gets no second arrival position. -/
def appendOplogAt (t : Tables) (entry : OplogEntry) (position : Position) : Tables × Bool :=
  let existed := (t.oplog.get entry.stamp).isSome
  let t := { t with oplog := t.oplog.insert entry.stamp entry }
  if existed then
    if position = .inWindow then t.releaseHeldInPosition entry.stamp else (t,false)
  else
    let t := match position with
      | .raise | .inWindow => { t.raiseVersions entry.stamp with held := t.held.remove entry.stamp }
      | .hold => { t with held := t.held.insert entry.stamp () }
    ({ t with
      arrival := t.arrival.insert t.nextArrival entry.stamp
      arrivalSeq := t.arrivalSeq.insert entry.stamp t.nextArrival },false)

def appendOplog (t : Tables) (entry : OplogEntry) : Tables := (t.appendOplogAt entry .raise).1

/- Whether the entry of a delete whose tombstone stands is missing and above what retention
has taken of its origin. -/
def deleteEntryIsOwed (t : Tables) (stamp : Stamp) : Bool :=
  (t.oplog.get stamp).isNone && match t.collected.positions.get stamp.node with
    | some current => decide (current < stamp.hlc)
    | none => true

def putRecord (t : Tables) (a : Address) (record : DocRecord) : Tables :=
  { t with docs := t.docs.insert a record }

/- What maintenance left, with the flags it set. -/
def settle (t : Tables) (coll : CollectionId) (done : Maintained) : Tables :=
  { t with
    entries := done.rows
    collections := match t.collections.get coll with
      | some definition => t.collections.insert coll (definition.markMultikey done.newlyMultikey)
      | none => t.collections }

def maintain (t : Tables) (coll : CollectionId) (old new : Option Document) (key : DocKey) :
    Except StorageError Tables :=
  (maintainLocal t.entries coll (t.currentIndexes coll) old new key true).map (t.settle coll)

/- The live image at an address. -/
def image (t : Tables) (a : Address) : Option Document := (t.docs.get a).bind DocRecord.document

/-! What appending and releasing leave alone. -/

/- The tables in which an entry leaves no trace but its own. -/
structure SameData (t u : Tables) : Prop where
  docs : u.docs = t.docs
  collected : u.collected = t.collected
  collections : u.collections = t.collections
  entries : u.entries = t.entries

theorem releaseData (t : Tables) (stamp : Stamp) : SameData t (t.releaseHeldInPosition stamp).1 := by
  unfold releaseHeldInPosition
  split
  · exact ⟨rfl,rfl,rfl,rfl⟩
  · simp only
    split_ifs
    · exact ⟨rfl,rfl,rfl,rfl⟩
    · exact ⟨rfl,rfl,rfl,rfl⟩

@[simp] theorem releaseLog (t : Tables) (stamp : Stamp) : (t.releaseHeldInPosition stamp).1.oplog = t.oplog := by
  unfold releaseHeldInPosition
  split
  · rfl
  · simp only
    split_ifs
    · rfl
    · rfl

theorem appendData (t : Tables) (entry : OplogEntry) (position : Position) :
    SameData t (t.appendOplogAt entry position).1 := by
  unfold appendOplogAt
  simp only
  split_ifs
  · obtain ⟨docs, collected, collections, entries⟩ :=
      releaseData { t with oplog := t.oplog.insert entry.stamp entry } entry.stamp
    exact ⟨docs,collected,collections,entries⟩
  · exact ⟨rfl,rfl,rfl,rfl⟩
  · cases position <;> exact ⟨rfl,rfl,rfl,rfl⟩

@[simp] theorem appendLog (t : Tables) (entry : OplogEntry) (position : Position) :
    (t.appendOplogAt entry position).1.oplog = t.oplog.insert entry.stamp entry := by
  unfold appendOplogAt
  simp only
  split_ifs
  · exact releaseLog _ _
  · rfl
  · cases position <;> rfl

@[simp] theorem appendDocs (t : Tables) (entry : OplogEntry) (position : Position) :
    (t.appendOplogAt entry position).1.docs = t.docs := (appendData t entry position).docs

@[simp] theorem releaseDocs (t : Tables) (stamp : Stamp) : (t.releaseHeldInPosition stamp).1.docs = t.docs :=
  (releaseData t stamp).docs

/- The vectors stay, or both are raised to the stamp. -/
def Raised (t u : Tables) (stamp : Stamp) : Prop :=
  (u.versions = t.versions ∧ u.witnessed = t.witnessed) ∨
    (u.versions = t.versions.raise stamp ∧ u.witnessed = t.witnessed.raise stamp)

theorem releaseRaised (t : Tables) (stamp : Stamp) : Raised t (t.releaseHeldInPosition stamp).1 stamp := by
  unfold releaseHeldInPosition
  split
  · exact Or.inl ⟨rfl,rfl⟩
  · simp only
    split_ifs
    · exact Or.inl ⟨rfl,rfl⟩
    · exact Or.inr ⟨rfl,rfl⟩

theorem appendRaised (t : Tables) (entry : OplogEntry) (position : Position) :
    Raised t (t.appendOplogAt entry position).1 entry.stamp := by
  unfold appendOplogAt
  simp only
  split_ifs
  · exact releaseRaised { t with oplog := t.oplog.insert entry.stamp entry } entry.stamp
  · exact Or.inl ⟨rfl,rfl⟩
  · cases position
    · exact Or.inr ⟨rfl,rfl⟩
    · exact Or.inl ⟨rfl,rfl⟩
    · exact Or.inr ⟨rfl,rfl⟩

end Tables

/- The readings of physical time are given by the calls made so far, as is the clock. -/
structure Engine where
  node : NodeId
  physicalNowMs : Nat → Fin (2 ^ 64)
  resumed : HlcClock
  calls : List Call
  db : Tables

namespace Engine

/- A member that has written nothing. -/
def opened (node : NodeId) (physicalNowMs : Nat → Fin (2 ^ 64))
    (collections : SortedMap CollectionId CollectionMeta) : Engine :=
  ⟨node,physicalNowMs,.new,[],.fresh collections⟩

def clock (e : Engine) : HlcClock := e.resumed.after e.calls

/- Only the clock moves. -/
def called (e : Engine) (more : List Call) : Engine := { e with calls := e.calls ++ more }

def nextCall (e : Engine) : Call := .tick (e.physicalNowMs e.calls.length)

def nextStamp (e : Engine) : Stamp := ⟨(e.clock.tick (e.physicalNowMs e.calls.length)).2,e.node⟩

def witness (e : Engine) (stamp : Stamp) : Engine := e.called [.witness stamp.hlc]

/-! Local writes. -/

/- A document with its id decided and in its place; the caps and the validator have their say
in `admitted`. -/
structure Draft where
  key : DocKey
  body : Document
  admitted : Bool

/- The half of an insert that can refuse it. -/
def checkInsert (e : Engine) (coll : CollectionId) (draft : Draft) (seen : List DocKey) :
    Except StorageError Engine :=
  if !draft.admitted then .error .notAdmitted
  else if (e.db.docs.get ⟨coll,draft.key⟩).any DocRecord.isLive || seen.contains draft.key then
    .error .duplicateKey
  else (e.db.maintain coll none (some draft.body) draft.key).map fun db => { e with db := db }

/- A stamp is minted once the write is certain, and the record and the entry carry it. -/
def write (e : Engine) (coll : CollectionId) (key : DocKey) (kind : OpKind) (body : Option Document) : Engine :=
  let entry : OplogEntry := ⟨e.nextStamp,kind,coll,some key,body⟩
  let e := e.called [e.nextCall]
  { e with db := (e.db.putRecord ⟨coll,key⟩ entry.incoming).appendOplog entry }

def writeInsert (e : Engine) (coll : CollectionId) (draft : Draft) : Engine :=
  e.write coll draft.key .insert (some draft.body)

def insertInTxn (e : Engine) (coll : CollectionId) (draft : Draft) : Except StorageError Engine := do
  let e ← e.checkInsert coll draft []
  return e.writeInsert coll draft

/- Every document is checked, in order, before any is written. -/
def checkInserts (e : Engine) (coll : CollectionId) (seen : List DocKey) : List Draft → Except StorageError Engine
  | [] => .ok e
  | draft :: rest => do
      let e ← e.checkInsert coll draft seen
      e.checkInserts coll (draft.key :: seen) rest

def insertManyInTxn (e : Engine) (coll : CollectionId) (drafts : List Draft) : Except StorageError Engine := do
  let e ← e.checkInserts coll [] drafts
  return drafts.foldl (fun e draft => e.writeInsert coll draft) e

/- The body is composed from the stored image, whose `_id` it keeps. -/
structure Replacement where
  key : DocKey
  compose : Option Document → Document
  upsert : Bool
  expected : Option Stamp
  admitted : Option Document → Document → Bool

def replaceInTxn (e : Engine) (coll : CollectionId) (r : Replacement) : Except StorageError Engine :=
  let existing := e.db.docs.get ⟨coll,r.key⟩
  let previous := existing.bind DocRecord.document
  let current := (existing.filter DocRecord.isLive).map (·.stamp)
  let body := r.compose previous
  if r.expected.isSome && current ≠ r.expected then .error (.stale current)
  else if previous.isNone && !r.upsert then .ok e
  else if existing.any fun record => record.isLive && record.body = body then .ok e
  else if !r.admitted previous body then .error .notAdmitted
  else do
    let db ← e.db.maintain coll previous (some body) r.key
    return { e with db := db }.write coll r.key (if previous.isSome then .replace else .insert) (some body)

/- The record is put before the indexes are brought in line, which a delete cannot fail. -/
def deleteInTxn (e : Engine) (coll : CollectionId) (key : DocKey)
    (guard : Stamp → Document → Except StorageError Bool) : Except StorageError Engine :=
  match e.db.docs.get ⟨coll,key⟩ with
  | none => .ok e
  | some record => match record.document with
      | none => .ok e
      | some image => do
          if !(← guard record.stamp image) then return e
          let entry : OplogEntry := ⟨e.nextStamp,.delete,coll,some key,none⟩
          let e := e.called [e.nextCall]
          let db ← (e.db.putRecord ⟨coll,key⟩ entry.incoming).maintain coll (some image) none key
          return { e with db := db.appendOplog entry }

inductive LocalWrite where
  | insert (coll : CollectionId) (draft : Draft)
  | replace (coll : CollectionId) (r : Replacement)
  | delete (coll : CollectionId) (key : DocKey) (guard : Stamp → Document → Except StorageError Bool)

def writeInTxn (e : Engine) : LocalWrite → Except StorageError Engine
  | .insert coll draft => e.insertInTxn coll draft
  | .replace coll r => e.replaceInTxn coll r
  | .delete coll key guard => e.deleteInTxn coll key guard

/- The database goes back to what it was; the clock does not. -/
def abort (e tried : Engine) : Engine := { tried with db := e.db }

/- The writes of a scope up to the first that fails, and whether all of them went through. -/
def scope (e : Engine) : List LocalWrite → Engine × Bool
  | [] => (e,true)
  | w :: rest => match e.writeInTxn w with
      | .ok e => e.scope rest
      | .error _ => (e,false)

/- A failed write poisons its scope, whatever the closure makes of it. -/
def writeBatch (e : Engine) (writes : List LocalWrite) (closed : Bool) : Engine :=
  let (tried,all) := e.scope writes
  if all && closed then tried else e.abort tried

/- A write of one's own, and a bulk insert: each one transaction. -/
def commit (e : Engine) (result : Except StorageError Engine) : Engine :=
  match result with
  | .ok done => done
  | .error _ => e

/-! Replicated writes. -/

/- An entry of this member's own making, about no one document. -/
def observation (e : Engine) (coll : CollectionId) (kind : OpKind) : OplogEntry := ⟨e.nextStamp,kind,coll,none,none⟩

def observe (e : Engine) (coll : CollectionId) (kind : OpKind) : Engine :=
  let entry := e.observation coll kind
  let e := e.called [e.nextCall]
  { e with db := e.db.appendOplog entry }

/- `append_unkeyed`: the documents a write moved into an unkeyed run, in its transaction. -/
def appendUnkeyed (e : Engine) (coll : CollectionId) (key : DocKey) (filings : List UnkeyedFiling) : Engine :=
  filings.foldl (fun e filing => e.observe coll (.unkeyedDocument ⟨filing.index,key,filing.cause⟩)) e

inductive RemoteApplied where
  | applied (violations : List UniqueViolation) (released : Bool)
  | superseded (released : Bool)

/- A delete that meets its own tombstone is appended where its entry is missing. -/
def owes (t : Tables) (entry : OplogEntry) (position : Position) (existing : Option DocRecord) : Bool :=
  position ≠ .hold && entry.kind = .delete && entry.body.isNone &&
    existing.any (fun current => !current.isLive && current.stamp = entry.stamp) && t.deleteEntryIsOwed entry.stamp

def mergedWith (existing : Option DocRecord) (incoming : DocRecord) : DocRecord :=
  match existing with
  | some current => current.merge incoming
  | none => incoming

/- The incoming entry must win strictly: an equal stamp is this very write, sent again. -/
def applyRemoteInTxn (e : Engine) (entry : OplogEntry) (position : Position) : Engine × RemoteApplied :=
  match entry.docId with
  | none => (e.witness entry.stamp,.superseded false)
  | some key =>
      let a : Address := ⟨entry.collection,key⟩
      let existing := e.db.docs.get a
      if existing.all fun current => current.stamp < entry.stamp then
        let winner := mergedWith existing entry.incoming
        let t := e.db.putRecord a winner
        let (broken,done) := maintainRemote t.entries entry.collection (t.currentIndexes entry.collection)
          (existing.bind DocRecord.document) winner.document key
        let (t,released) := (t.settle entry.collection done).appendOplogAt entry position
        let e := { e with db := t }.witness entry.stamp
        (e.appendUnkeyed entry.collection key done.filings,.applied broken released)
      else if owes e.db entry position existing then
        let (t,released) := e.db.appendOplogAt entry position
        ({ e with db := t }.witness entry.stamp,.applied [] released)
      else
        let (t,released) := if position = .inWindow then e.db.releaseHeldInPosition entry.stamp else (e.db,false)
        ({ e with db := t }.witness entry.stamp,.superseded released)

/- What is left to record of a replicated write once it is durable. -/
structure Report where
  collection : CollectionId
  merged : DocKey
  violation : UniqueViolation

/- The holders that are still there are named. -/
def violationKind (t : Tables) (report : Report) : OpKind :=
  let ids := report.violation.holders.filter fun key => (t.image ⟨report.collection,key⟩).isSome
  .uniqueViolation ⟨report.violation.index,ids,report.merged⟩

def logUniqueViolation (e : Engine) (report : Report) : Engine :=
  e.observe report.collection (violationKind e.db report)

def reportsOf (entry : OplogEntry) : RemoteApplied → List Report
  | .applied violations _ => match entry.docId with
      | some key => violations.map fun violation => ⟨entry.collection,key,violation⟩
      | none => []
  | .superseded _ => []

/- A run of entries in one transaction. -/
def applyAll (e : Engine) (position : Position) : List OplogEntry → Engine × List Report
  | [] => (e,[])
  | entry :: rest =>
      let (next,applied) := e.applyRemoteInTxn entry position
      let (last,reports) := next.applyAll position rest
      (last,reportsOf entry applied ++ reports)

def report (e : Engine) (reports : List Report) : Engine := reports.foldl logUniqueViolation e

/- The entries the reports are published as. -/
def published (e : Engine) : List Report → List OplogEntry
  | [] => []
  | report :: rest =>
      e.observation report.collection (violationKind e.db report) :: (e.logUniqueViolation report).published rest

/- A run is committed and then reported on. -/
def replicate (e : Engine) (position : Position) (entries : List OplogEntry) (commits : Bool) : Engine :=
  let (tried,reports) := e.applyAll position entries
  if commits then tried.report reports else e.abort tried

end Engine

/-! Any sequence of writes. -/

inductive Op where
  | write (w : Engine.LocalWrite)
  | insertMany (coll : CollectionId) (drafts : List Engine.Draft)
  | batch (writes : List Engine.LocalWrite) (closed : Bool)
  | replicated (position : Position) (entries : List OplogEntry) (commits : Bool)

namespace Engine

def step (e : Engine) : Op → Engine
  | .write w => e.commit (e.writeInTxn w)
  | .insertMany coll drafts => e.commit (e.insertManyInTxn coll drafts)
  | .batch writes closed => e.writeBatch writes closed
  | .replicated position entries commits => e.replicate position entries commits

/- The violations an operation reports. -/
def violationsReported (e : Engine) : Op → List OplogEntry
  | .replicated position entries true =>
      let (tried,reports) := e.applyAll position entries
      tried.published reports
  | _ => []

def run (e : Engine) (ops : List Op) : Engine := ops.foldl step e

end Engine

end Kimmy.Store
