import Kimmy.Store.Retention
import Kimmy.Store.Watch

/-!
Change streams that go on at another member (`watch.rs`). A token of another member says only what
its client has, so the stream starts at the first arrival beyond that vector, which two searches race
for, and passes over everything at or below it. A member and its stream are followed over any
interleaving with writes, replication, snapshots and retention.
-/
namespace Kimmy.Store
open Merge

/-! The first arrival beyond a vector. -/

inductive SeekPhase where
  | held (marks : List Stamp)
  | range (rows : List (Stamp × Nat))

/- In the order of stamps: the marks and the servable vector say which origins can have anything
beyond the vector, and only the entries from the lowest of their positions on are read. -/
structure Seek where
  phase : SeekPhase
  bound : Option Hlc
  best : Option Nat

namespace Seek

def new (t : Tables) : Seek := ⟨.held (t.held.entries.map Prod.fst),none,none⟩

def lower (s : Seek) (v : Hlc) : Seek := { s with bound := some (s.bound.elim v (min · v)) }

/- An origin that can have something beyond the vector. -/
def active (delivered : VersionVector) (s : Seek) (node : NodeId) (hlc : Hlc) : Seek :=
  if delivered.get node < hlc then s.lower (delivered.get node) else s

/- One row at most; the answer is none for no entry beyond the vector. -/
def step (t : Tables) (delivered : VersionVector) (s : Seek) : Seek × Option (Option Nat) :=
  match s.phase with
  | .held (stamp :: marks) => (active delivered { s with phase := .held marks } stamp.node stamp.hlc,none)
  | .held [] =>
      let s := t.versions.positions.entries.foldl (fun s x => active delivered s x.1 x.2) s
      match s.bound with
      | none => (s,some none)
      | some bound => ({ s with phase := .range (t.arrivalSeq.range ⟨bound,0⟩) },none)
  | .range [] => (s,some s.best)
  | .range ((stamp,seq) :: rows) =>
      (if delivered.get stamp.node < stamp.hlc
        then { s with phase := .range rows, best := some (s.best.elim seq (min · seq)) }
        else { s with phase := .range rows },none)

end Seek

/- A row of the one and a row of the other in turn; the walk goes in arrival order. -/
def race (t : Tables) (delivered : VersionVector) (seek : Seek) (rows : List (Nat × Stamp)) : Option Nat :=
  match (seek.step t delivered).2 with
  | some found => found
  | none => match rows with
      | [] => none
      | (seq,stamp) :: rest =>
          if delivered.get stamp.node < stamp.hlc then some seq else race t delivered (seek.step t delivered).1 rest

def Tables.firstArrivalBeyond (t : Tables) (delivered : VersionVector) : Nat :=
  (race t delivered (.new t) t.arrival.entries).getD t.nextArrival

/-! Streams. -/

inductive WatchScope where
  | cluster
  | database (owns : CollectionId → Bool)
  | collection (id : CollectionId)

def WatchScope.inScope : WatchScope → OplogEntry → Bool
  | .cluster, _ => true
  | .database owns, entry => owns entry.collection
  | .collection id, entry => entry.collection = id

inductive ChangeEvent where
  | change (entry : OplogEntry) (token : ResumeToken)
  | invalidate
  deriving DecidableEq

/- A stream with its scope and what it knows of the lives of its collection; `source` is the token
it was resumed with. `start`, `taken` and `events` are kept for the statements. -/
structure RoamingStream where
  base : ChangeStream
  scope : WatchScope
  incarnationFloor : Option (CollectionId × Stamp)
  passesDropsBelow : Option Hlc
  source : Option ResumeToken
  start : Nat
  taken : List OplogEntry
  events : List ChangeEvent

namespace RoamingStream

/- A collection's own earlier life. -/
def beforeFloor (s : RoamingStream) (entry : OplogEntry) : Bool :=
  s.incarnationFloor.any fun x => entry.collection = x.1 && decide (entry.stamp ≤ x.2)

/- The client has it, except that a member's own report is never passed over. -/
def clientHas (s : RoamingStream) (entry : OplogEntry) : Bool :=
  s.base.skip.any fun skip => !entry.kind.isLocalObservation && decide (skip.Covers entry.stamp)

def endsScope (s : RoamingStream) (entry : OplogEntry) : Bool :=
  entry.kind = .dropCollection && match s.scope with
    | .collection id => entry.collection = id
    | _ => false

def accept (s : RoamingStream) (node : NodeId) (entry : OplogEntry) : RoamingStream × Option ChangeEvent :=
  if !s.scope.inScope entry then (s,none)
  else if s.beforeFloor entry then (s,none)
  else if s.clientHas entry then (s,none)
  else if s.endsScope entry then
    -- a relayed drop of a life before the one that the stream follows
    if s.passesDropsBelow.any fun below => entry.stamp.hlc < below then (s,none)
    else ({ s with base := { s.base with finished := true } },some .invalidate)
  else
    ({ s with passesDropsBelow := s.passesDropsBelow.map fun below =>
        if entry.kind = .createCollection then below else min below entry.stamp.hlc },
      some (.change entry ⟨entry.stamp,node,s.base.delivered⟩))

/- The next entry of the batch. -/
def take (s : RoamingStream) (node : NodeId) : RoamingStream :=
  match s.base.finished, s.base.replay with
  | false, entry :: rest =>
      let (s,event) := s.accept node entry
      { s with
        base := { s.base with replay := rest }
        taken := s.taken ++ [entry]
        events := s.events ++ event.toList }
  | _, _ => s

end RoamingStream

/-! Members. -/

/- A resume reads the tables in several transactions. -/
inductive Presented where
  | token (token : ResumeToken)
  | retained (token : ResumeToken)
  | contiguous (token : ResumeToken)

structure Host where
  node : NodeId
  tables : Tables
  stateHeld : VersionVector
  presented : Option Presented
  stream : Option RoamingStream
  late : List Stamp

/- What the tables say of the collection that a stream is for: when it was dropped, when its life began
and where a stream with no token begins after the drop. -/
structure Life where
  droppedAt : Option Stamp
  created : Option Hlc
  clamp : Nat

inductive HostStep where
  | append (entry : OplogEntry) (position : Position)
  | release (stamp : Stamp)
  | witness (seen : VersionVector)
  | grant (granted : VersionVector)
  | collect (keys : List Stamp)
  | opens (scope : WatchScope) (start : Option Hlc) (life : Life)
  | present (scope : WatchScope) (token : ResumeToken) (discarded : Bool) (life : Life)
  | goesOn (scope : WatchScope) (life : Life)
  | read (limit : Nat)
  | take
  | closes

namespace Host

/- A stamp is unique to one write, so an entry is appended again only as it is. -/
def append (h : Host) (entry : OplogEntry) (position : Position) : Host :=
  match h.tables.oplog.get entry.stamp with
  | none => { h with
      tables := (h.tables.appendOplogAt entry position).1
      late := if h.tables.witnessed.Covers entry.stamp then h.late ++ [entry.stamp] else h.late }
  | some held => if held = entry then { h with tables := (h.tables.appendOplogAt entry position).1 } else h

/- What a grant raises the servable vector over is held as state only. -/
def absorbVersionVector (h : Host) (granted : VersionVector) : Host :=
  { h with
    tables := { h.tables with
      versions := h.tables.versions.merge granted
      witnessed := h.tables.witnessed.merge granted
      held := h.tables.held.retain fun stamp _ => !decide (granted.Covers stamp) }
    stateHeld := h.stateHeld.merge
      ⟨granted.positions.retain fun node hlc => h.tables.versions.get node < hlc⟩ }

def opened (h : Host) (scope : WatchScope) (opened : Opened) (floor : Option (CollectionId × Stamp))
    (below : Option Hlc) (source : Option ResumeToken) : Host :=
  { h with presented := none, stream := some ⟨.ofOpened opened,scope,floor,below,source,opened.start,[],[]⟩ }

def floor (scope : WatchScope) (life : Life) : Option (CollectionId × Stamp) :=
  match scope with
  | .collection id => life.droppedAt.map fun dropped => (id,dropped)
  | _ => none

def passesDropsBelow (scope : WatchScope) (life : Life) (token : Option ResumeToken) : Option Hlc :=
  match scope with
  | .collection _ => life.created.map fun created => token.elim created fun token => min token.stamp.hlc created
  | _ => none

/- `clamp_to_incarnation`: a token from before the drop is refused. -/
def ofThisLife (scope : WatchScope) (life : Life) (token : ResumeToken) : Bool :=
  (floor scope life).all fun x => decide (x.2 < token.stamp) || decide (token.delivered.Covers x.2)

/- `resume_point`, for a token of another member, one transaction at a time: nothing that the client
lacks was collected, nothing of it is held as state only, and then the start. -/
def goesOn (h : Host) (scope : WatchScope) (life : Life) : Host :=
  match h.presented with
  | none => h
  | some (.token token) =>
      if h.tables.collected.positions.entries.any fun x =>
        token.delivered.get x.1 < min x.2 (h.tables.witnessed.get x.1)
      then { h with presented := none } else { h with presented := some (.retained token) }
  | some (.retained token) =>
      if h.stateHeld.positions.entries.any fun x => token.delivered.get x.1 < x.2
      then { h with presented := none } else { h with presented := some (.contiguous token) }
  | some (.contiguous token) =>
      if ofThisLife scope life token then
        h.opened scope ⟨h.tables.firstArrivalBeyond token.delivered,token.delivered,some token.delivered⟩
          (floor scope life) (passesDropsBelow scope life (some token)) (some token)
      else { h with presented := none }

/- A token naming an entry that a rewind discarded is refused; one of this member's own names its
place in the arrival order. -/
def present (h : Host) (scope : WatchScope) (token : ResumeToken) (discarded : Bool) (life : Life) : Host :=
  if h.stream.isSome || discarded then h
  else if token.issuer = h.node then
    match h.tables.resumeAtIssuer token with
    | none => h
    | some opened => h.opened scope opened (floor scope life) (passesDropsBelow scope life (some token)) (some token)
  else { h with presented := some (.token token) }

def step (h : Host) : HostStep → Host
  | .append entry position => h.append entry position
  | .release stamp => { h with tables := (h.tables.releaseHeldInPosition stamp).1 }
  | .witness seen => { h with tables := { h.tables with witnessed := h.tables.witnessed.merge seen } }
  | .grant granted => h.absorbVersionVector granted
  | .collect keys => { h with tables := h.tables.removeOplogEntries keys }
  | .opens scope start life =>
      if h.stream.isSome then h
      else
        let opened := h.tables.openAt start
        h.opened scope { opened with start := max opened.start (min life.clamp h.tables.nextArrival) } (floor scope life)
          (passesDropsBelow scope life none) none
  | .present scope token discarded life => h.present scope token discarded life
  | .goesOn scope life => if h.stream.isSome then h else h.goesOn scope life
  | .read limit => { h with stream := h.stream.map fun s =>
      if s.base.replay.isEmpty && !s.base.finished then { s with base := s.base.read h.tables limit } else s }
  | .take => { h with stream := h.stream.map fun s => s.take h.node }
  | .closes => { h with presented := none, stream := none }

def run (h : Host) (steps : List HostStep) : Host := steps.foldl step h

def fresh (node : NodeId) (collections : SortedMap CollectionId CollectionMeta) : Host :=
  ⟨node,.fresh collections,.new,none,none,[]⟩

end Host

end Kimmy.Store
