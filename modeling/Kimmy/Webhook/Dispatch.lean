import Kimmy.Store.Retention

/-!
The webhook dispatcher (`dispatch.rs`): one subscription that one member delivers. A pass reads
the recorded progress, the member's vector, the retention horizon and a window of the oplog,
delivers a batch and records what was covered; each of these is a step of its own, so that
appends, retention and restarts fall anywhere between them.
-/
namespace Kimmy.Webhook
open Merge Store

/-! What is delivered. -/

structure Job where
  collectionId : CollectionId
  operations : List String

/- Schema changes and observations are not changes to documents. -/
def operationName : OpKind → Option String
  | .insert => some "insert"
  | .update => some "update"
  | .replace => some "replace"
  | .delete => some "delete"
  | _ => none

def Job.wanted (job : Job) (entry : OplogEntry) : Bool :=
  entry.collection = job.collectionId &&
    (operationName entry.kind).any fun name => job.operations.isEmpty || job.operations.contains name

structure Limits where
  batch : Nat
  positive : 0 < batch
  maxPayloadBytes : Nat

/- `size` is the length of an event rendered as text, `overhead` that of the empty envelope. -/
structure Config where
  job : Job
  limits : Limits
  size : OplogEntry → Nat
  overhead : Nat

/- Events are taken in order up to the first that does not fit; one that does not fit alone is
sent alone, without its document. -/
def fill (c : Config) : Nat → List Stamp → List OplogEntry → List Stamp
  | _, stamps, [] => stamps
  | used, stamps, entry :: rest =>
      let cost := c.size entry + if stamps.isEmpty then 0 else 1
      if used + cost ≤ c.limits.maxPayloadBytes then fill c (used + cost) (stamps ++ [entry.stamp]) rest
      else if stamps.isEmpty then [entry.stamp]
      else stamps

/- The stamps of the batch that goes out. -/
def assemble (c : Config) (entries : List OplogEntry) : List Stamp :=
  fill c c.overhead [] (entries.take c.limits.batch)

/- Where a scanned window ended, as for a window of a pull. -/
def windowEnd (window : OplogWindow) : WindowEnd := Store.windowEnd window false none

def carryForward (progress current : VersionVector) (ended : WindowEnd) : VersionVector :=
  progress.merge (coverageUpTo current ended)

def observeAll (progress : VersionVector) (stamps : List Stamp) : VersionVector := stamps.foldl .observe progress

/-! A pass. -/

/- How far the pass has come, with what it has read. -/
inductive Passing where
  | idle
  | reading (progress : VersionVector)
  | compared (progress current : VersionVector) (first : Hlc)
  | checked (progress current : VersionVector) (first : Hlc)
  | planned (progress current : VersionVector) (through : WindowEnd) (stamps : List Stamp)
  | recording (progress : VersionVector)

structure Collecting where
  cutoff : Hlc
  newest : Stamp
  keys : List Stamp

/- `started` is where the subscription began, and `accepted` are the events its endpoint took. -/
structure Member where
  db : Tables
  collectedThrough : Hlc
  collecting : List Collecting
  started : Option VersionVector
  progress : VersionVector
  invalidated : Bool
  accepted : List Stamp
  passing : Passing

/- The entries of the window that the subscription still needs. -/
def undelivered (c : Config) (progress : VersionVector) (window : OplogWindow) : List OplogEntry :=
  (window.entries.filter c.job.wanted).filter fun entry => progress.get entry.stamp.node < entry.stamp.hlc

/- Nothing wanted: the position still moves over what was looked at, on the heartbeat. A batch
that leaves wanted entries of the window covers it through its last one only. -/
def plan (c : Config) (db : Tables) (progress current : VersionVector) (first : Hlc) (stale : Bool) : Passing :=
  let window := db.entriesForPeer first (c.limits.batch * 4) none [] none
  let ended := windowEnd window
  let wanted := undelivered c progress window
  let batch := wanted.take c.limits.batch
  if batch.isEmpty then
    if stale then .recording (carryForward (observeAll progress (window.entries.map (·.stamp))) current ended)
    else .idle
  else
    let stamps := assemble c batch
    let through := match stamps.getLast? with
      | some last => if stamps.length < wanted.length then .through last else ended
      | none => ended
    .planned progress current through stamps

/-! Steps. -/

/- `written` is the entry that a write of the dispatcher's own appends, if it succeeds. -/
inductive Step where
  | append (entry : OplogEntry)
  | collect (cutoff : Hlc)
  | scan (pass chunk : Nat)
  | remove (pass : Nat)
  | register
  | readProgress
  | readVector (ready : Bool)
  | check (written : Option OplogEntry)
  | plan (stale : Bool)
  | deliver (taken : Bool)
  | record (written : Option OplogEntry)
  | restart

namespace Member

def opened : Member := ⟨.fresh .empty,.zero,[],none,.new,false,[],.idle⟩

/- Each origin's entries arrive in the order of their stamps. -/
def append (m : Member) (entry : OplogEntry) : Option Member :=
  if m.db.versions.get entry.stamp.node < entry.stamp.hlc then some { m with db := m.db.appendOplog entry } else none

/- The horizon is the highest timestamp that was ever collected, of any origin. -/
def removeOplogEntries (m : Member) (keys : List Stamp) : Member :=
  { m with
    db := m.db.removeOplogEntries keys
    collectedThrough := max m.collectedThrough ((m.db.removing keys).highest.getD .zero) }

def resting (m : Member) : Member := { m with passing := .idle }

/- Stopped, where that could be written. -/
def invalidate (m : Member) (written : Option OplogEntry) : Member :=
  match written.bind m.append with
  | some m => { m with invalidated := true }.resting
  | none => m.resting

def behindHorizon (m : Member) (first : Hlc) : Bool := .zero < m.collectedThrough && first < m.collectedThrough

def step (c : Config) (m : Member) : Step → Member
  | .append entry => (m.append entry).getD m
  | .collect cutoff => match m.db.oplogTail with
      | some newest => { m with collecting := m.collecting ++ [⟨cutoff,newest,[]⟩] }
      | none => m
  | .scan i chunk => match m.collecting[i]? with
      | some pass => { m with
          collecting := m.collecting.set i ⟨pass.cutoff,pass.newest,m.db.expired pass.cutoff pass.newest chunk⟩ }
      | none => m
  | .remove i => match m.collecting[i]? with
      | some pass => m.removeOplogEntries pass.keys
      | none => m
  | .register => if m.started.isSome then m else { m with started := some m.db.versions, progress := m.db.versions }
  | .readProgress => match m.passing with
      | .idle => if m.started.isSome && !m.invalidated then { m with passing := .reading m.progress } else m
      | _ => m
  | .readVector ready => match m.passing with
      | .reading progress => match progress.behind m.db.versions with
          | some first => if ready then { m with passing := .compared progress m.db.versions first } else m.resting
          | none => m.resting
      | _ => m
  | .check written => match m.passing with
      | .compared progress current first =>
          if m.behindHorizon first then m.invalidate written else { m with passing := .checked progress current first }
      | _ => m
  | .plan stale => match m.passing with
      | .checked progress current first => { m with passing := Webhook.plan c m.db progress current first stale }
      | _ => m
  | .deliver taken => match m.passing with
      | .planned progress current through stamps =>
          if taken then { m with
            accepted := m.accepted ++ stamps
            passing := .recording (carryForward (observeAll progress stamps) current through) }
          else m.resting
      | _ => m
  -- recorded only after the endpoint has accepted the batch
  | .record written => match m.passing with
      | .recording progress => match written.bind m.append with
          | some m => { m with progress := progress }.resting
          | none => m.resting
      | _ => m
  | .restart => m.resting

def run (c : Config) (m : Member) (steps : List Step) : Member := steps.foldl (step c) m

/- An entry was in the oplog at some point of the run. -/
def EverHeld (c : Config) (m : Member) (steps : List Step) (x : OplogEntry) : Prop :=
  ∃ k, (run c m (steps.take k)).db.oplog.get x.stamp = some x

/- Retention has taken it. -/
structure Lost (c : Config) (m : Member) (steps : List Step) (x : OplogEntry) : Prop where
  held : EverHeld c m steps x
  gone : (run c m steps).db.oplog.get x.stamp = none

end Member

end Kimmy.Webhook
