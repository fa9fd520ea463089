import Kimmy.SortedMap
import Kimmy.Store.Records

/-!
The repair loop guard (`repair_ledger.rs`): when a repair of one finding may be planned, and what its end meant. A
duration is its count of nanoseconds.
-/
namespace Kimmy.Repair
open Store

def fromSecs (n : Nat) : Nat := n * 10 ^ 9

inductive LedgerKind where
  | digest
  | definition
  deriving DecidableEq, Repr

def LedgerKind.toNat : LedgerKind → Nat
  | .digest => 0
  | .definition => 1

instance : LinearOrder LedgerKind := LinearOrder.lift' LedgerKind.toNat fun a b same => by
  cases a <;> cases b <;> first | rfl | cases same

structure Key where
  peer : NodeId
  collection : CollectionId
  kind : LedgerKind
  deriving DecidableEq

instance : LinearOrder Key :=
  LinearOrder.lift' (fun k => toLex (k.peer,toLex (k.collection,k.kind))) fun a b same => by
    cases a
    cases b
    simp only [EmbeddingLike.apply_eq_iff_eq, Prod.mk.injEq] at same
    obtain ⟨rfl,rfl,rfl⟩ := same
    rfl

/- `BACKOFF`. -/
def backoffs : List Nat :=
  [fromSecs (5 * 60),fromSecs (15 * 60),fromSecs (45 * 60),fromSecs (2 * 3600 + 15 * 60),fromSecs (6 * 3600)]

def maxLevel : Nat := 5
def minProbeDeadline : Nat := fromSecs (30 * 60)
def episodeWindow : Nat := fromSecs 3600
def maxEpisodes : Nat := 3
def stopFor : Nat := fromSecs (6 * 3600)
def stopClearFor : Nat := fromSecs 3600
def maxDedupe : Nat := fromSecs (15 * 60)
def transientClimbEvery : Nat := 3

structure Params where
  rotation : Nat

def Params.deadline (p : Params) : Nat := max (p.rotation * 3) minProbeDeadline
def Params.dedupe (p : Params) : Nat := min (p.rotation * 3) maxDedupe

inductive Transient where
  | abandoned
  | dropped
  | wholeDatabaseTookOver
  | gone
  | cancelled
  deriving DecidableEq, Repr

def Transient.repeats : Transient → Bool
  | .abandoned | .dropped => true
  | _ => false

inductive End where
  | transient (why : Transient)
  | finished (progress : Bool)
  deriving DecidableEq, Repr

inductive Judged where
  | effective
  | ineffective
  deriving DecidableEq, Repr

inductive MayPlan where
  | yes
  | busy
  | backOff (until' : Nat)
  | stopped (until' : Nat)
  deriving DecidableEq, Repr

inductive Verdict where
  | effective
  | ineffective (level : Nat) (notBefore : Nat)
  | transient
  | transientClimb (level : Nat) (notBefore : Nat)
  | unjudgedClimb (level : Nat) (notBefore : Nat)
  deriving DecidableEq, Repr

structure Confirmed where
  episode : Bool
  newlyStopped : Bool
  episodes : Nat
  deriving DecidableEq, Repr

inductive Phase where
  | idle
  | inFlight
  | awaiting (endedAt deadline : Nat) (progress : Bool)
  deriving DecidableEq, Repr

/- A level a repair climbed to: it has a back-off. -/
structure Climbed where
  level : Nat
  some : 0 < level
  bounded : level ≤ maxLevel

def Climbed.backoff (c : Climbed) : Nat :=
  backoffs.get ⟨c.level - 1,by
    have positive := c.some
    have bounded := c.bounded
    have size : backoffs.length = maxLevel := rfl
    omega⟩

def climb (level : Nat) : Climbed :=
  ⟨min (level + 1) maxLevel,by rw [maxLevel]; omega,Nat.min_le_right ..⟩

/- The runs are of 32 bits and come around. -/
structure Entry where
  level : Nat
  bounded : level ≤ maxLevel
  notBefore : Nat
  phase : Phase
  unjudgedRun : Fin (2 ^ 32)
  transientRun : Fin (2 ^ 32)

def Entry.new : Entry := ⟨0,Nat.zero_le _,0,.idle,0,0⟩

structure CollectionState where
  episodes : List (Nat × NodeId)
  stoppedUntil : Option Nat
  lastConfirmed : Option Nat
  stoppedAt : Option Nat

def CollectionState.default : CollectionState := ⟨[],none,none,none⟩

structure RepairLedger where
  params : Params
  entries : SortedMap Key Entry
  armed : SortedMap Key Nat
  collections : SortedMap (CollectionId ×ₗ LedgerKind) CollectionState

namespace RepairLedger

def new (params : Params) : RepairLedger := ⟨params,.empty,.empty,.empty⟩

def setRotation (l : RepairLedger) (rotation : Nat) : RepairLedger := { l with params := ⟨rotation⟩ }

/- `rearm`: a stop ends with its time, or once no finding has been confirmed for an hour. -/
def rearm (l : RepairLedger) (collection : CollectionId) (kind : LedgerKind) (now : Nat) : RepairLedger :=
  match l.collections.get (toLex (collection,kind)) with
  | none => l
  | some state =>
      match state.stoppedUntil with
      | none => l
      | some until' =>
          let quiet : Bool := match state.lastConfirmed.or state.stoppedAt with
            | none => false
            | some past => decide (stopClearFor ≤ now - past)
          if until' ≤ now ∨ quiet then
            let state := { state with stoppedUntil := none, stoppedAt := none, episodes := [] }
            { l with collections := l.collections.insert (toLex (collection,kind)) state }
          else l

def isStopped (l : RepairLedger) (collection : CollectionId) (kind : LedgerKind) (now : Nat) : RepairLedger × Bool :=
  let l := l.rearm collection kind now
  (l,((l.collections.get (toLex (collection,kind))).bind CollectionState.stoppedUntil).isSome)

def stoppedCollections (l : RepairLedger) (kind : LedgerKind) (now : Nat) : RepairLedger × Nat :=
  let ids := l.collections.entries.filterMap fun x =>
    if (ofLex x.1).2 = kind then some (ofLex x.1).1 else none
  ids.foldl (fun (l,n) id =>
    let (l,stopped) := isStopped l id kind now
    (l,if stopped then n + 1 else n)) (l,0)

def mayPlan (l : RepairLedger) (key : Key) (now : Nat) : RepairLedger × MayPlan :=
  let l := l.rearm key.collection key.kind now
  match (l.collections.get (toLex (key.collection,key.kind))).bind CollectionState.stoppedUntil with
  | some until' => (l,.stopped until')
  | none =>
      match l.entries.get key with
      | none => (l,.yes)
      | some entry =>
          match entry.phase with
          | .inFlight | .awaiting .. => (l,.busy)
          | .idle => if now < entry.notBefore then (l,.backOff entry.notBefore) else (l,.yes)

def put (l : RepairLedger) (key : Key) (entry : Entry) : RepairLedger := { l with entries := l.entries.insert key entry }

def started (l : RepairLedger) (key : Key) (_now : Nat) : RepairLedger :=
  l.put key { (l.entries.get key).getD .new with phase := .inFlight }

/- An end of a repair that was not started is ignored. -/
def ended (l : RepairLedger) (key : Key) (now : Nat) (how : End) : RepairLedger × Option Verdict :=
  let deadline := l.params.deadline
  match l.entries.get key with
  | none => (l,none)
  | some entry =>
      if entry.phase ≠ .inFlight then (l,none)
      else
        match how with
        | .transient why =>
            let entry := { entry with phase := .idle, transientRun := entry.transientRun + 1 }
            if why.repeats ∨ entry.transientRun.val % transientClimbEvery = 0 then
              let next := climb entry.level
              let notBefore := now + next.backoff
              let entry := { entry with level := next.level, bounded := next.bounded, notBefore }
              (l.put key entry,some (.transientClimb next.level notBefore))
            else (l.put key entry,none)
        | .finished progress =>
            (l.put key { entry with transientRun := 0, phase := .awaiting now (now + deadline) progress },none)

def judge (l : RepairLedger) (key : Key) (now : Nat) (judged : Judged) : RepairLedger × Option Verdict :=
  match l.entries.get key with
  | none => (l,none)
  | some entry =>
      match entry.phase with
      | .awaiting endedAt _ progress =>
          let entry := { entry with phase := .idle, unjudgedRun := 0, transientRun := 0 }
          match judged with
          | .effective =>
              let l := l.put key { entry with level := 0, bounded := Nat.zero_le _, notBefore := 0 }
              ({ l with armed := l.armed.insert key now },some .effective)
          | .ineffective =>
              let next := if progress then ⟨1,by decide,by decide⟩ else climb entry.level
              let notBefore := endedAt + next.backoff
              (l.put key { entry with level := next.level, bounded := next.bounded, notBefore },
                some (.ineffective next.level notBefore))
      | _ => (l,none)

/- One entry of `expire`. -/
def expireEntry (now : Nat) (entry : Entry) : Entry × Option Verdict :=
  match entry.phase with
  | .awaiting endedAt deadline progress =>
      if now < deadline then (entry,none)
      else
        let entry := { entry with phase := .idle, unjudgedRun := entry.unjudgedRun + 1 }
        let entry := if progress then
          { entry with level := min entry.level 1, bounded := (Nat.min_le_left ..).trans entry.bounded } else entry
        if entry.unjudgedRun.val % 2 = 0 then
          let next := climb entry.level
          let notBefore := max (endedAt + next.backoff) now
          ({ entry with level := next.level, bounded := next.bounded, notBefore },
            some (.unjudgedClimb next.level notBefore))
        else (entry,some .transient)
  | _ => (entry,none)

def expire (l : RepairLedger) (now : Nat) : RepairLedger × List (Key × Verdict) :=
  ({ l with entries := l.entries.mapValues fun _ entry => (expireEntry now entry).1 },
    l.entries.entries.filterMap fun x => (expireEntry now x.2).2.map (x.1,·))

def confirmed (l : RepairLedger) (key : Key) (now : Nat) : RepairLedger × Confirmed :=
  let dedupe := l.params.dedupe
  let place := toLex (key.collection,key.kind)
  let state := (l.collections.get place).getD .default
  let state := { state with
    lastConfirmed := some now, episodes := state.episodes.filter fun (past,_) => now - past < episodeWindow }
  let held := state.episodes.length
  let kept := { l with collections := l.collections.insert place state, armed := l.armed.remove key }
  if l.armed.get key = none then (kept,⟨false,false,held⟩)
  else if state.episodes.any fun (past,peer) => peer ≠ key.peer ∧ now - past < dedupe then (kept,⟨false,false,held⟩)
  else
    let state := { state with episodes := state.episodes ++ [(now,key.peer)] }
    let newlyStopped := decide (maxEpisodes < state.episodes.length) && state.stoppedUntil.isNone
    let state := if newlyStopped then { state with stoppedUntil := some (now + stopFor), stoppedAt := some now } else state
    ({ kept with collections := kept.collections.insert place state },⟨true,newlyStopped,state.episodes.length⟩)

/- `members` is none when the node has no list of them. -/
def retain (l : RepairLedger) (held : List CollectionId) (members : Option (List NodeId)) : RepairLedger :=
  let member (peer : NodeId) : Bool := match members with
    | none => true
    | some members => decide (peer ∈ members)
  { l with
    entries := l.entries.retain fun key _ => decide (key.collection ∈ held) && member key.peer
    armed := l.armed.retain fun key _ => decide (key.collection ∈ held) && member key.peer
    collections := (l.collections.mapValues fun _ state =>
      { state with episodes := state.episodes.filter fun (_,peer) => member peer }).retain
        fun place _ => decide ((ofLex place).1 ∈ held) }

end RepairLedger

end Kimmy.Repair
