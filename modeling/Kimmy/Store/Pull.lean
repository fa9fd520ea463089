import Kimmy.Store.Engine
import Mathlib.Logic.Function.Basic

/-!
Pulls by oplog windows (`sync.rs`, `watch.rs`, `transport.rs`): what a peer serves of its log,
what the requester makes of it, and any number of members that write and pull. Every message
stays in flight, so that a window can be lost, delayed, applied twice or out of order.
-/
namespace Kimmy.Store
open Merge

/-! Windows. -/

structure OplogWindow where
  entries : List OplogEntry
  scannedTo : Hlc
  exhausted : Bool
  passedThrough : Option Stamp
  deriving DecidableEq

/- A span of one origin's history that the requester holds as state. -/
structure MarkedRange where
  origin : NodeId
  first : Hlc
  through : Hlc

def MarkedRange.contains (span : MarkedRange) (stamp : Stamp) : Bool :=
  stamp.node = span.origin && span.first ≤ stamp.hlc && stamp.hlc ≤ span.through

/- One row examined: the end of the window moves whether or not it is kept. -/
def OplogWindow.examine (window : OplogWindow) (skip : Stamp → Bool) (keep : OplogEntry → Bool) (stamp : Stamp)
    (entry : OplogEntry) : OplogWindow :=
  if skip stamp then { window with scannedTo := stamp.hlc }
  else if keep entry then { window with scannedTo := entry.stamp.hlc, entries := window.entries ++ [entry] }
  else { window with scannedTo := entry.stamp.hlc }

/- A kept entry can fill the window, and a row past the floor can spend the budget; `spent` is
asked about the rows examined so far, and stands for the time they took as well. -/
def walkOplog (limit : Nat) (skip : Stamp → Bool) (keep : OplogEntry → Bool) (budget : Option ((Nat → Bool) × Hlc)) :
    List (Stamp × OplogEntry) → Nat → OplogWindow → OplogWindow
  | [], _, window => window
  | (stamp,entry) :: rest, examined, window =>
      let window := window.examine skip keep stamp entry
      if !skip stamp && keep entry && limit ≤ window.entries.length then { window with exhausted := false }
      else if budget.any fun b => b.2 < stamp.hlc && b.1 (examined + 1) then
        { window with exhausted := false, passedThrough := some stamp }
      else walkOplog limit skip keep budget rest (examined + 1) window

def Tables.readOplogLinear (t : Tables) (start : Hlc) (limit : Nat) (skip : Stamp → Bool) (keep : OplogEntry → Bool)
    (budget : Option ((Nat → Bool) × Hlc)) : OplogWindow :=
  walkOplog limit skip keep budget (t.oplog.range ⟨start,0⟩) 0 ⟨[],.zero,true,none⟩

/- What the requester has processed is passed over, marked spans apart, and an observation is
never shipped. -/
def Tables.entriesForPeer (t : Tables) (first : Hlc) (limit : Nat) (held : Option VersionVector)
    (marked : List MarkedRange) (spent : Option (Nat → Bool)) : OplogWindow :=
  let marked := if held.isSome then marked else []
  let start := (marked.map (·.first)).foldl min first
  let skip := fun stamp => (held.any fun held => decide (held.Covers stamp)) && !marked.any (·.contains stamp)
  t.readOplogLinear start limit skip (fun entry => !entry.kind.isLocalObservation)
    (spent.map fun spent => (spent,start.successor))

/-! Coverage. -/

inductive WindowEnd where
  | exhausted
  | through (last : Stamp)
  | before (stop : Stamp)

/- What a window that ended there proves of the vector it was introduced with. The end is a full
stamp: an origin that sorts after it was examined to its predecessor only. -/
def coverageUpTo (theirs : VersionVector) : WindowEnd → VersionVector
  | .exhausted => theirs
  | .through last => ⟨theirs.positions.mapValues fun node theirMax =>
      min theirMax (if node ≤ last.node then last.hlc else last.hlc.predecessor)⟩
  | .before stop => ⟨theirs.positions.mapValues fun node theirMax =>
      min theirMax (if node < stop.node then stop.hlc else stop.hlc.predecessor)⟩

/- `passedThrough` is believed only of a window that was asked for in part. -/
def windowEnd (window : OplogWindow) (askedPartial : Bool) (stoppedAt : Option Stamp) : WindowEnd :=
  match stoppedAt, window.exhausted, window.passedThrough.filter fun _ => askedPartial with
  | some stop, _, _ => .before stop
  | none, true, _ => .exhausted
  | none, false, some p => .through p
  | none, false, none => match window.entries.getLast? with
      | some last => if last.stamp.hlc ≤ window.scannedTo then .through last.stamp
          else .through ⟨window.scannedTo,last.stamp.node⟩
      | none => .before ⟨.zero,0⟩

/-! Applying a window. -/

namespace Engine

/- An entry for a collection this member has no record of stops the batch. -/
def applyOne (e : Engine) (entry : OplogEntry) : Option (Engine × List Report) :=
  if entry.kind.isLocalObservation || !entry.kind.isDocument then some (e,[])
  else if (e.db.collections.get entry.collection).isNone then none
  else
    let (next,applied) := e.applyRemoteInTxn entry .inWindow
    some (next,reportsOf entry applied)

structure Taken where
  engine : Engine
  pending : List Report
  witnessed : VersionVector
  stoppedAt : Option Stamp

/- An entry above the vector the window was introduced with is left for the next one. -/
def applyEntries (theirs : VersionVector) (taken : Taken) : List OplogEntry → Taken
  | [] => taken
  | entry :: rest =>
      if theirs.get entry.stamp.node < entry.stamp.hlc then applyEntries theirs taken rest
      else match taken.engine.applyOne entry with
        | none => { taken with stoppedAt := some entry.stamp }
        | some (engine,reports) =>
            applyEntries theirs ⟨engine,taken.pending ++ reports,taken.witnessed.observe entry.stamp,none⟩ rest

def absorbWitnessed (e : Engine) (witnessed : VersionVector) : Engine :=
  { e with db := { e.db with witnessed := e.db.witnessed.merge witnessed } }

/- The vector rides in the transaction of the entries, and the reports follow its commit. -/
def applyBatchRun (e : Engine) (theirs : VersionVector) (askedPartial : Bool) (window : OplogWindow) (commits : Bool) :
    Engine :=
  let taken := applyEntries theirs ⟨e,[],.new,none⟩ window.entries
  let coverage := coverageUpTo theirs (windowEnd window askedPartial taken.stoppedAt)
  let tried := taken.engine.absorbWitnessed (taken.witnessed.merge coverage)
  if commits then tried.report taken.pending else e.abort tried

end Engine

/-! Members that write and pull. -/

/- Where a requester asks from, or nothing to ask for. -/
def entriesThreshold (mine theirs : VersionVector) (marked : List MarkedRange) : Option Hlc :=
  (mine.behind theirs).or
    (if marked.isEmpty then none else some ((theirs.positions.values.max?).getD .zero))

/- A request, with what the requester keeps of it until the answer. -/
structure AskEntries where
  requester : NodeId
  peer : NodeId
  theirs : VersionVector
  mine : VersionVector
  first : Hlc
  limit : Nat
  marked : List MarkedRange
  askedPartial : Bool

structure Cluster where
  engines : NodeId → Engine
  noted : List (NodeId × VersionVector)
  advertised : List (NodeId × VersionVector)
  asked : List AskEntries
  answered : List (AskEntries × OplogWindow)

/- The lists are indexed from the first message on. -/
inductive ClusterStep where
  | write (node : NodeId) (op : Op)
  | note (node : NodeId)
  | advertise (node : NodeId)
  | ask (noted advertised : Nat) (limit : Nat) (marked : List MarkedRange) (askedPartial : Bool)
  | serve (asked : Nat) (spent : Option (Nat → Bool))
  | apply (answered : Nat) (commits : Bool)

namespace Cluster

def opened (physicalNowMs : NodeId → Nat → Fin (2 ^ 64))
    (collections : NodeId → SortedMap CollectionId CollectionMeta) : Cluster :=
  ⟨fun node => .opened node (physicalNowMs node) (collections node),[],[],[],[]⟩

def put (s : Cluster) (node : NodeId) (e : Engine) : Cluster := { s with engines := Function.update s.engines node e }

def step (s : Cluster) : ClusterStep → Cluster
  -- only local writes: a replicated entry comes by a window
  | .write node op => match op with
      | .replicated _ _ _ => s
      | op => s.put node ((s.engines node).step op)
  | .note node => { s with noted := s.noted ++ [(node,(s.engines node).db.witnessed)] }
  | .advertise node => { s with advertised := s.advertised ++ [(node,(s.engines node).db.versions)] }
  | .ask i j limit marked askedPartial => match s.noted[i]?, s.advertised[j]? with
      | some (requester,mine), some (peer,theirs) => match entriesThreshold mine theirs marked with
          | some first => { s with
              asked := s.asked ++ [⟨requester,peer,theirs,mine,first,limit,marked,askedPartial⟩] }
          | none => s
      | _, _ => s
  -- a window cut short is not sent to a requester that did not ask for a part
  | .serve i spent => match s.asked[i]? with
      | some ask =>
          let window := (s.engines ask.peer).db.entriesForPeer ask.first ask.limit (some ask.mine) ask.marked spent
          if !ask.askedPartial && window.passedThrough.isSome then s
          else { s with answered := s.answered ++ [(ask,window)] }
      | none => s
  | .apply i commits => match s.answered[i]? with
      | some (ask,window) =>
          s.put ask.requester ((s.engines ask.requester).applyBatchRun ask.theirs ask.askedPartial window commits)
      | none => s

def run (s : Cluster) (steps : List ClusterStep) : Cluster := steps.foldl step s

/- A write ever made: its origin keeps it in its log. -/
def Written (s : Cluster) (x : OplogEntry) : Prop := (s.engines x.stamp.node).db.oplog.get x.stamp = some x

structure Highest (s : Cluster) (a : Address) (x : OplogEntry) : Prop where
  written : s.Written x
  there : x.address = some a
  highest : ∀ y, s.Written y → y.address = some a → y.stamp ≤ x.stamp

end Cluster

end Kimmy.Store
