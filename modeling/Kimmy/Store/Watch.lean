import Kimmy.Store.Engine

/-!
Change streams (`watch.rs`) on the member that issues their tokens: what a stream reads of
the arrival index, what it hands over and where a client that comes back goes on. A client
and its connections are followed over any interleaving with appends.
-/
namespace Kimmy.Store
open Merge

/-! Reading the arrival index. -/

/- The entries met until there are enough of them, the last position passed and whether no row
is left; a row whose entry is missing is passed over. -/
def walkArrival (oplog : SortedMap Stamp OplogEntry) (limit : Nat) :
    List (Nat × Stamp) → List OplogEntry → Option Nat → List OplogEntry × Option Nat × Bool
  | [], out, last => (out,last,true)
  | (seq,stamp) :: rest, out, _ => match oplog.get stamp with
      | none => walkArrival oplog limit rest out (some seq)
      | some entry =>
          if limit ≤ (out ++ [entry]).length then (out ++ [entry],some seq,rest.isEmpty)
          else walkArrival oplog limit rest (out ++ [entry]) (some seq)

namespace Tables

/- With the witnessed vector of the same transaction when the read reached the end. -/
def readArrivalBatch (t : Tables) (start limit : Nat) : List OplogEntry × Option VersionVector × Option Nat :=
  let (out,last,reachedTail) := walkArrival t.oplog limit (t.arrival.range start) [] none
  (out,if reachedTail then some t.witnessed else none,last)

def oldestArrivalSeq (t : Tables) : Option Nat := t.arrival.entries.head?.map (·.1)

def firstArrivalAtOrAfter (t : Tables) (hlc : Hlc) : Nat :=
  match t.arrival.entries.find? fun x => hlc ≤ x.2.hlc with
  | some x => x.1
  | none => t.nextArrival

end Tables

structure ResumeToken where
  stamp : Stamp
  issuer : NodeId
  delivered : VersionVector
  deriving DecidableEq

/- Where a stream starts, what it may claim and what it passes over. -/
structure Opened where
  start : Nat
  delivered : VersionVector
  skip : Option VersionVector

namespace Tables

/- Opened at the tail, or at the first entry stamped at or after a time. -/
def openAt (t : Tables) : Option Hlc → Opened
  | none => ⟨t.nextArrival,t.witnessed,none⟩
  | some hlc => ⟨t.firstArrivalAtOrAfter hlc,.new,none⟩

/- `resume_point`, for a token this member issued: its place in the arrival order is exact,
and an entry that is gone was collected. -/
def resumeAtIssuer (t : Tables) (token : ResumeToken) : Option Opened :=
  (t.arrivalSeq.get token.stamp).map fun seq => ⟨seq + 1,token.delivered,some token.delivered⟩

end Tables

structure ChangeStream where
  nextReplayFrom : Option Nat
  resumeFloor : Nat
  replay : List OplogEntry
  delivered : VersionVector
  pending : Option VersionVector
  skip : Option VersionVector
  finished : Bool

namespace ChangeStream

def ofOpened (opened : Opened) : ChangeStream where
  nextReplayFrom := some opened.start
  resumeFloor := opened.start
  replay := []
  delivered := opened.delivered
  pending := none
  skip := opened.skip
  finished := false

/- Where the next read starts. -/
def position (s : ChangeStream) : Nat := s.nextReplayFrom.getD s.resumeFloor

/- An entry in scope that the client does not have already. A member's own observation is
never passed over. -/
def accepts (s : ChangeStream) (inScope : OplogEntry → Bool) (entry : OplogEntry) : Bool :=
  inScope entry && !(s.skip.any fun skip => !entry.kind.isLocalObservation && decide (skip.Covers entry.stamp))

/- What the last read covers is behind the stream once all it returned has been taken. -/
def settlePending (s : ChangeStream) : ChangeStream :=
  match s.pending with
  | some witnessed => { s with delivered := s.delivered.merge witnessed, pending := none }
  | none => s

/- A stream whose range was collected ends; otherwise it reads what has arrived. -/
def read (s : ChangeStream) (t : Tables) (limit : Nat) : ChangeStream :=
  let s := s.settlePending
  let start := s.position
  if t.oldestArrivalSeq.any fun oldest => start < oldest then { s with finished := true }
  else
    let (batch,witnessed,last) := t.readArrivalBatch start limit
    let s := { s with nextReplayFrom := match last with
      | some last => some (last + 1)
      | none => some start }
    if batch.isEmpty then { s with delivered := match witnessed with
      | some witnessed => s.delivered.merge witnessed
      | none => s.delivered }
    else { s with replay := batch, pending := witnessed }

end ChangeStream

/-! A client. -/

/- `received` is what the client has over all its connections, `sent` how much of it came over
the one that is open; `start` and `late` are kept for the statements: where the first
connection began, and the positions of the entries that were appended at a stamp the member's
vector already covered. -/
structure Watching where
  node : NodeId
  inScope : OplogEntry → Bool
  tables : Tables
  start : Option Nat
  stream : Option ChangeStream
  received : List (OplogEntry × ResumeToken)
  sent : Nat
  late : List Nat

inductive WatchStep where
  | append (entry : OplogEntry) (position : Position)
  | release (stamp : Stamp)
  | witness (stamp : Stamp)
  | opens (start : Option Hlc)
  | read (limit : Nat)
  | take
  | disconnect (lost : Nat)
  | resume

namespace Watching

def watched (node : NodeId) (inScope : OplogEntry → Bool) (collections : SortedMap CollectionId CollectionMeta) :
    Watching :=
  ⟨node,inScope,.fresh collections,none,none,[],0,[]⟩

/- A stamp is unique to one write, so an entry is appended again only as it is. -/
def append (w : Watching) (entry : OplogEntry) (position : Position) : Watching :=
  match w.tables.oplog.get entry.stamp with
  | none => { w with
      tables := (w.tables.appendOplogAt entry position).1
      late := if !entry.kind.isLocalObservation && decide (w.tables.witnessed.Covers entry.stamp)
        then w.late ++ [w.tables.nextArrival] else w.late }
  | some held => if held = entry then { w with tables := (w.tables.appendOplogAt entry position).1 } else w

/- The next entry of the batch, handed over or passed over. -/
def take (w : Watching) : Watching :=
  match w.stream with
  | none => w
  | some s => match s.replay with
      | [] => w
      | entry :: rest =>
          let taken := some { s with replay := rest }
          if s.accepts w.inScope entry then { w with
            stream := taken
            received := w.received ++ [(entry,⟨entry.stamp,w.node,s.delivered⟩)]
            sent := w.sent + 1 }
          else { w with stream := taken }

def step (w : Watching) : WatchStep → Watching
  | .append entry position => w.append entry position
  | .release stamp => { w with tables := (w.tables.releaseHeldInPosition stamp).1 }
  | .witness stamp => { w with tables := { w.tables with witnessed := w.tables.witnessed.raise stamp } }
  | .opens start =>
      if w.start.isSome then w
      else { w with
        start := some (w.tables.openAt start).start
        stream := some (.ofOpened (w.tables.openAt start)) }
  | .read limit => match w.stream with
      | some s => if s.replay.isEmpty && !s.finished then { w with stream := some (s.read w.tables limit) } else w
      | none => w
  | .take => w.take
  -- the last events of the connection never arrive
  | .disconnect lost => { w with
      stream := none
      received := w.received.take (w.received.length - min lost w.sent)
      sent := 0 }
  | .resume =>
      if w.stream.isSome then w
      else match w.received.getLast? with
        | none => w
        | some (_,token) => { w with stream := (w.tables.resumeAtIssuer token).map .ofOpened }

def run (w : Watching) (steps : List WatchStep) : Watching := steps.foldl step w

/- Every entry in scope from where the client began, in arrival order, with its position. -/
def arrivals (t : Tables) : List (Nat × OplogEntry) :=
  t.arrival.entries.filterMap fun x => (t.oplog.get x.2).map fun entry => (x.1,entry)

end Watching

end Kimmy.Store
