import Kimmy.Store.Records

/-!
Confirming schema changes at one address (`confirm.rs`): a queue of changes that wait there and a driver that pushes for them,
one window at a time. Waiters join while a push is in flight and members come and go at the address.
-/
namespace Kimmy.Confirm
open Merge Store

inductive ConfirmOutcome where
  | confirmed | refused | timeout | failed | unreached | purging | stoppedUnknown | otherMember | taskEnded | backoff | cancelled
  deriving DecidableEq

inductive Resolution where
  | confirmed
  | refused
  | pending (outcome : ConfirmOutcome) (reason : String)
  deriving DecidableEq

/- Durations and instants, in milliseconds. -/
structure ConfirmConfig where
  firstBackoff : Nat
  maxBackoff : Nat
  redialGuard : Nat

/- `ticket` is the channel the answer is sent over, numbered in the order of the queueing; `closed` once the request has stopped
waiting. -/
structure Waiter where
  ticket : Nat
  stamp : Stamp
  node : NodeId
  preQueued : Bool
  closed : Bool
  deriving DecidableEq

structure Backoff where
  ends : Nat
  step : Nat
  generation : Option Nat

structure PeerQueue where
  waiters : List Waiter
  driving : Bool
  backoff : Option Backoff

namespace PeerQueue

def new : PeerQueue := ⟨[],false,none⟩

def idle (queue : PeerQueue) (now maxBackoff : Nat) : Bool :=
  queue.waiters.isEmpty && !queue.driving && queue.backoff.all fun b => b.ends + maxBackoff ≤ now

end PeerQueue

/- The fields of a `Pushed` a confirmation reads. -/
structure Reply where
  purgePending : Nat
  refused : List Stamp
  stoppedAt : Option Stamp

structure Answer where
  theirNode : NodeId
  sent : List Stamp
  versions : VersionVector
  reply : Reply

structure Failure where
  sent : Bool
  snapshotted : Bool
  theirNode : Option NodeId
  reason : String

inductive PushResult where
  | answered (answer : Answer)
  | nothingSent (theirNode : NodeId) (unreached : Option String)
  | failed (failure : Failure)

/-! What becomes of a waiter. -/

inductive Fate where
  | dropped
  | resolved (resolution : Resolution)
  | kept (waiter : Waiter)

def Fate.resolution? : Fate → Option Resolution
  | .resolved resolution => some resolution
  | _ => none

def Fate.kept? : Fate → Option Waiter
  | .kept waiter => some waiter
  | _ => none

def otherMember (addr : String) : Resolution := .pending .otherMember ("a different member answered at " ++ addr)

def notCarried : Resolution := .pending .unreached "the window did not carry the change"

def backingOff : Resolution := .pending .backoff "backing off: the last push to this member did not answer"

/- What an answered window decides; `none` carries the waiter to the next push. -/
def resolveAnswered (waiter : Waiter) (answer : Answer) : Option Resolution :=
  match answer.sent.findIdx? (· = waiter.stamp) with
  | none => if waiter.preQueued then some notCarried else none
  | some index =>
      if answer.versions.get waiter.stamp.node < waiter.stamp.hlc then if waiter.preQueued then some notCarried else none
      else match answer.reply.stoppedAt.map fun stopped => answer.sent.findIdx? (· = stopped) with
        | some stop =>
            if stop.all (· ≤ index) then
              if !waiter.preQueued then none
              else if 0 < answer.reply.purgePending then some (.pending .purging "still purging a drop of this name")
              else if stop = some index then some .refused
              else some (.pending .stoppedUnknown
                "the window stopped before it, at an entry for a collection this member lacks")
            else if answer.reply.refused.contains waiter.stamp then some .refused else some .confirmed
        | none => if answer.reply.refused.contains waiter.stamp then some .refused else some .confirmed

/- The batch: everyone present is the push's to resolve. -/
def snapshotFate (addr : String) (theirNode : NodeId) (held : VersionVector) (waiter : Waiter) : Fate :=
  if waiter.closed then .dropped
  else if waiter.node ≠ theirNode then .resolved (otherMember addr)
  else if waiter.stamp.hlc ≤ held.get waiter.stamp.node then .resolved .confirmed
  else .kept { waiter with preQueued := true }

def settleFate (addr : String) (result : PushResult) (waiter : Waiter) : Fate :=
  match result with
  | .answered answer =>
      if waiter.node ≠ answer.theirNode then .resolved (otherMember addr)
      else match resolveAnswered waiter answer with
        | some resolution => .resolved resolution
        | none => .kept { waiter with preQueued := false }
  | .nothingSent theirNode unreached =>
      if waiter.node ≠ theirNode then .resolved (otherMember addr)
      else if waiter.preQueued then
        .resolved (.pending .unreached (unreached.getD "the window could not reach the change"))
      else .kept { waiter with preQueued := false }
  | .failed failure =>
      if failure.theirNode.any (· ≠ waiter.node) then .resolved (otherMember addr)
      else if waiter.preQueued || !failure.snapshotted then .resolved (.pending .failed failure.reason)
      else if failure.sent then .resolved backingOff
      else .kept waiter

/-! The driver. -/

/- `since` is the first ticket after the batch was taken. -/
inductive Phase where
  | looping
  | dialling
  | asking (theirNode : NodeId)
  | batched (theirNode : NodeId) (held : VersionVector) (flagged : Nat) (since : Nat)
  | sending (theirNode : NodeId) (sent : List Stamp) (versions : VersionVector) (since : Nat)
  | ended (result : PushResult) (since : Option Nat)
  | pausing

/- What a member said: the vector it has witnessed, or its answer to a window. -/
inductive Said where
  | witnessed (node : NodeId) (held : VersionVector)
  | answered (answer : Answer)

structure Confirmer where
  queue : Option PeerQueue
  drivers : List Phase
  issued : Nat
  answers : List (Waiter × Resolution)
  said : List Said

/- What this node can serve, as it is read for a push; an error text where a read fails. -/
structure Served where
  mine : Except String VersionVector
  refusal : Except String (Option String)
  window : Except String (List Stamp × Bool)

inductive Step where
  | enqueue (now : Nat) (generation : Option Nat) (stamp : Stamp) (node : NodeId)
  | cancel (ticket : Nat)
  | elsewhere (now : Nat)
  | loop (driver : Nat)
  | dialled (driver : Nat) (theirNode : NodeId)
  | witnessed (driver : Nat) (held : VersionVector)
  | serve (driver : Nat) (served : Served)
  | pushed (driver : Nat) (reply : Reply)
  | fails (driver : Nat) (reason : String)
  | settle (driver : Nat) (now : Nat) (generation : Option Nat)
  | wake (driver : Nat)
  | dies (driver : Nat)

namespace Confirmer

def new : Confirmer := ⟨none,[],0,[],[]⟩

def waiters (c : Confirmer) : List Waiter := (c.queue.map PeerQueue.waiters).getD []

def moved (c : Confirmer) (driver : Nat) (phase : Phase) : Confirmer := { c with drivers := c.drivers.set driver phase }

/- Every waiter meets its fate, under the lock. -/
def meet (c : Confirmer) (fate : Waiter → Fate) : Confirmer :=
  { c with
    queue := c.queue.map fun queue => { queue with waiters := queue.waiters.filterMap fun w => (fate w).kept? }
    answers := (c.waiters.filterMap fun w => (fate w).resolution?.map (Prod.mk w)) ++ c.answers }

section
variable (config : ConfirmConfig) (addr : String)

def enqueue (c : Confirmer) (now : Nat) (generation : Option Nat) (stamp : Stamp) (node : NodeId) : Confirmer :=
  let queue := c.queue.getD .new
  let queue := if queue.backoff.any fun b => b.generation ≠ generation then { queue with backoff := none } else queue
  let waiter : Waiter := ⟨c.issued,stamp,node,false,false⟩
  if queue.backoff.any fun b => now < b.ends then
    { c with queue := some queue, issued := c.issued + 1, answers := (waiter,backingOff) :: c.answers }
  else
    { c with
      queue := some { queue with waiters := queue.waiters ++ [waiter], driving := true }
      drivers := if queue.driving then c.drivers else c.drivers ++ [.looping]
      issued := c.issued + 1 }

/- The request stops waiting. -/
def cancel (c : Confirmer) (ticket : Nat) : Confirmer :=
  { c with queue := c.queue.map fun queue => { queue with
      waiters := queue.waiters.map fun w => if w.ticket = ticket then { w with closed := true } else w } }

/- An enqueue at another address drops the queues that are idle. -/
def elsewhere (c : Confirmer) (now : Nat) : Confirmer :=
  { c with queue := c.queue.filter fun queue => !queue.idle now config.maxBackoff }

def leaves (c : Confirmer) (driver : Nat) (queue : PeerQueue) : Confirmer :=
  { c with
    queue := if queue.backoff.isNone then none else some { queue with driving := false, waiters := [] }
    drivers := c.drivers.eraseIdx driver }

/- The head of the driver's loop. -/
def loop (c : Confirmer) (driver : Nat) : Confirmer :=
  match c.queue with
  | none => { c with drivers := c.drivers.eraseIdx driver }
  | some queue =>
      let waiting := queue.waiters.filter fun w => !w.closed
      if waiting.isEmpty then c.leaves driver queue
      else { c with queue := some { queue with waiters := waiting } }.moved driver .dialling

def witnessed (c : Confirmer) (driver : Nat) (theirNode : NodeId) (held : VersionVector) : Confirmer :=
  let c := { c with said := .witnessed theirNode held :: c.said }
  if c.queue.isNone then c.moved driver (.ended (.nothingSent theirNode none) none)
  else
    let batch := c.meet (snapshotFate addr theirNode held)
    batch.moved driver (.batched theirNode held batch.waiters.length c.issued)

/- From the batch to the frame: what stops a push before it is sent, in the order the code asks. -/
def offered (c : Confirmer) (theirNode : NodeId) (held : VersionVector) (flagged since : Nat) (served : Served) : Phase :=
  let unsent (unreached : Option String) := Phase.ended (.nothingSent theirNode unreached) (some since)
  let failed (reason : String) := Phase.ended (.failed ⟨false,true,some theirNode,reason⟩) (some since)
  if flagged = 0 then unsent none
  else match served.mine with
    | .error reason => failed reason
    | .ok mine =>
        if (held.behind mine).isNone then unsent none
        else match served.refusal with
          | .error reason => failed reason
          | .ok (some reason) => unsent (some reason)
          | .ok none => match served.window with
              | .error reason => failed reason
              | .ok (sent,passedThrough) =>
                  if passedThrough then
                    unsent (some "the walk to the member's window ran past its budget; anti-entropy will carry the change")
                  else if c.waiters.any fun w => w.preQueued && sent.contains w.stamp then .sending theirNode sent mine since
                  else unsent (some ("the member is more than " ++ toString sent.length ++
                    " entries behind this node; anti-entropy will carry the change"))

/- How a push that fails or runs out of time ends, by how far it came. -/
def failedAt (reason : String) : Phase → Phase
  | .dialling => .ended (.failed ⟨false,false,none,reason⟩) none
  | .asking theirNode => .ended (.failed ⟨false,false,some theirNode,reason⟩) none
  | .batched theirNode _ _ since => .ended (.failed ⟨false,true,some theirNode,reason⟩) (some since)
  | .sending theirNode _ _ since => .ended (.failed ⟨true,true,some theirNode,reason⟩) (some since)
  | phase => phase

def nextBackoff (queue : PeerQueue) (now : Nat) (generation : Option Nat) : Backoff :=
  let step := match queue.backoff with
    | some previous => min (previous.step * 2) config.maxBackoff
    | none => min config.firstBackoff config.maxBackoff
  ⟨now + step,step,generation⟩

def settle (c : Confirmer) (driver : Nat) (result : PushResult) (now : Nat) (generation : Option Nat) : Confirmer :=
  match c.queue with
  | none => c.moved driver .looping
  | some queue =>
      let settled := c.meet (settleFate addr result)
      let withBackoff (backoff : Option Backoff) : Confirmer :=
        { settled with queue := settled.queue.map fun q => { q with backoff := backoff } }
      match result with
      | .answered _ => (withBackoff none).moved driver .looping
      | .nothingSent _ _ => settled.moved driver .looping
      | .failed failure =>
          if failure.sent then (withBackoff (some (nextBackoff config queue now generation))).moved driver .looping
          else settled.moved driver .pausing

/- The guard of a driver that panics or is aborted in its loop: its waiters are told the task ended. -/
def dies (c : Confirmer) (driver : Nat) : Confirmer :=
  match c.queue with
  | none => { c with drivers := c.drivers.eraseIdx driver }
  | some queue =>
      { c with answers := (c.waiters.map fun w => (w,Resolution.pending .taskEnded "the push task ended")) ++ c.answers }.leaves driver queue

def step (c : Confirmer) : Step → Confirmer
  | .enqueue now generation stamp node => c.enqueue now generation stamp node
  | .cancel ticket => c.cancel ticket
  | .elsewhere now => c.elsewhere config now
  | .loop driver => match c.drivers[driver]? with
      | some .looping => c.loop driver
      | _ => c
  | .dialled driver theirNode => match c.drivers[driver]? with
      | some .dialling => c.moved driver (.asking theirNode)
      | _ => c
  | .witnessed driver held => match c.drivers[driver]? with
      | some (.asking theirNode) => c.witnessed addr driver theirNode held
      | _ => c
  | .serve driver served => match c.drivers[driver]? with
      | some (.batched theirNode held flagged since) => c.moved driver (c.offered theirNode held flagged since served)
      | _ => c
  | .pushed driver reply => match c.drivers[driver]? with
      | some (.sending theirNode sent versions since) =>
          let answer : Answer := ⟨theirNode,sent,versions,reply⟩
          { c with said := .answered answer :: c.said }.moved driver (.ended (.answered answer) (some since))
      | _ => c
  | .fails driver reason => match c.drivers[driver]? with
      | some phase => c.moved driver (failedAt reason phase)
      | none => c
  | .settle driver now generation => match c.drivers[driver]? with
      | some (.ended result _) => c.settle config addr driver result now generation
      | _ => c
  | .wake driver => match c.drivers[driver]? with
      | some .pausing => c.moved driver .looping
      | _ => c
  | .dies driver => match c.drivers[driver]? with
      | some _ => c.dies driver
      | none => c

def run (steps : List Step) : Confirmer := steps.foldl (step config addr) .new

end
end Confirmer

end Kimmy.Confirm
