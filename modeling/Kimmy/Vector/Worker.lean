import Kimmy.Interrupted
import Kimmy.Store.Records

/-!
The embedding worker (`worker.rs`) of a member that owns its collections, under fixed embedding
configurations. Every commit and every read is an action of its own, between which other writers
write documents; a stop or a crash may come after any of them. What only time decides (a deadline,
an attempt that is due) and what the provider answers come from outside.
-/
namespace Kimmy.Vector
open Merge Store

/-! Jobs and batches. -/

/- `chunks` are the texts that a document is split into under its collection's configuration, and
`tokens` the estimate for what the provider is sent. -/
structure Config where
  embeds : CollectionId → Bool
  chunks : CollectionId → Document → List String
  tokens : CollectionId → List String → Nat
  maxChunks : Nat
  maxTokens : Nat

structure Job where
  source : DocKey
  hlc : Hlc
  chunks : List String
  tokens : Nat
  deriving DecidableEq

structure Batch where
  collection : CollectionId
  jobs : List Job
  deriving DecidableEq

namespace Batch

def chunks (b : Batch) : Nat := (b.jobs.map fun job => job.chunks.length).sum

def tokens (b : Batch) : Nat := (b.jobs.map (·.tokens)).sum

/- An empty batch takes anything: a document too large for the bounds goes alone. -/
def accepts (c : Config) (b : Batch) (job : Job) : Bool :=
  b.jobs.isEmpty || (b.chunks + job.chunks.length ≤ c.maxChunks && b.tokens + job.tokens ≤ c.maxTokens)

def full (c : Config) (b : Batch) : Bool := c.maxChunks ≤ b.chunks || c.maxTokens ≤ b.tokens

/- A document written twice before the batch goes out needs only its latest version. -/
def push (b : Batch) (job : Job) : Batch := { b with jobs := (b.jobs.filter fun j => j.source ≠ job.source) ++ [job] }

end Batch

/- How a scan reads a record with no fingerprint. The worker's own carry that of the one
configuration, so here this only orders the marks. -/
inductive Unscanned where
  | force
  | check
  deriving DecidableEq

def stronger (a : Option Unscanned) (b : Unscanned) : Unscanned :=
  if a = some .force then .force else b

/- The streaming path between flushes; a position is the number of entries of the stream. -/
structure Pending where
  batches : List Batch
  token : Option Nat

def Pending.accepts (c : Config) (p : Pending) (collection : CollectionId) (job : Job) : Bool :=
  (p.batches.find? fun b => b.collection = collection).all fun b => b.accepts c job

/- The batch of a collection, opened where it has none. -/
def pushInto (collection : CollectionId) (job : Job) : List Batch → List Batch
  | [] => [⟨collection,[job]⟩]
  | b :: rest => if b.collection = collection then b.push job :: rest else b :: pushInto collection job rest

def Pending.push (p : Pending) (collection : CollectionId) (job : Job) : Pending :=
  { p with batches := pushInto collection job p.batches }

def Pending.full (c : Config) (p : Pending) (collection : CollectionId) : Bool :=
  (p.batches.find? fun b => b.collection = collection).any fun b => b.full c

/- What one collection's failing provider has left undone. -/
structure Backoff where
  held : Option Batch
  rescan : Option Unscanned
  marked : Option Unscanned
  unwritten : Option Unscanned

def Backoff.new : Backoff := ⟨none,none,none,none⟩

/-! State. -/

structure VectorRecord where
  sourceHlc : Hlc
  text : List String
  deriving DecidableEq

/- The log in the order of arrival with the documents it leaves, the vectors, the recorded position
and the marks are durable; `read` is how far the stream has come. `refused` are the jobs that the
provider has refused for good. -/
structure State where
  log : List OplogEntry
  docs : SortedMap Address DocRecord
  vectors : SortedMap Address VectorRecord
  position : Nat
  marks : SortedMap CollectionId Unscanned
  refused : List (CollectionId × Job)
  read : Nat
  pending : Pending
  backoff : SortedMap CollectionId Backoff

namespace State

def opened : State := ⟨[],.empty,.empty,0,.empty,[],0,⟨[],none⟩,.empty⟩

/- Another writer: every write that is appended wins over the version before it. A delete carries no
image, and every other write one. -/
def append (s : State) (entry : OplogEntry) : State :=
  match entry.address with
  | some a =>
      if entry.kind.isDocument && (entry.kind = .delete) == entry.body.isNone &&
          (s.docs.get a).all (fun rec => rec.stamp < entry.stamp) then
        { s with log := s.log ++ [entry], docs := s.docs.insert a entry.incoming }
      else s
  | none => s

def documentStamp (s : State) (a : Address) : Option Stamp := ((s.docs.get a).filter (·.isLive)).map (·.stamp)

def get (s : State) (a : Address) : Option Document := (s.docs.get a).bind DocRecord.document

/- None is held, or one is older than the document. -/
def vectorsAreStale (s : State) (a : Address) (current : Hlc) : Bool :=
  (s.vectors.get a).all fun record => record.sourceHlc < current

def deleteVectors (s : State) (a : Address) : State := { s with vectors := s.vectors.remove a }

/- Nothing to embed: what a previous version had goes. -/
def prepare (c : Config) (s : State) (a : Address) (hlc : Hlc) (document : Document) : State × Option Job :=
  let chunks := c.chunks a.collection document
  if chunks = [] then (s.deleteVectors a,none) else (s,some ⟨a.key,hlc,chunks,c.tokens a.collection chunks⟩)

def prepareEntry (c : Config) (s : State) (entry : OplogEntry) : State × Option Job :=
  match entry.address with
  | none => (s,none)
  | some a =>
      if !c.embeds a.collection then (s,none)
      else if entry.kind = .delete then (s.deleteVectors a,none)
      else match entry.body with
        | none => (s,none)
        | some document => if s.vectorsAreStale a entry.stamp.hlc then s.prepare c a entry.stamp.hlc document else (s,none)

/- A document that moved while the provider worked is not written; its own entry follows. -/
def put (collection : CollectionId) (s : State) (job : Job) : State :=
  let a : Address := ⟨collection,job.source⟩
  if (s.documentStamp a).any (fun stamp => stamp.hlc = job.hlc) then
    { s with vectors := s.vectors.insert a ⟨job.hlc,job.chunks⟩ } else s

/- One commit for the batch, with the position where it carries one. -/
def store (s : State) (collection : CollectionId) (jobs : List Job) (token : Option Nat) : State :=
  let s := jobs.foldl (put collection) s
  { s with position := token.getD s.position }

def refuse (s : State) (collection : CollectionId) (jobs : List Job) : State :=
  { s with refused := s.refused ++ jobs.map fun job => (collection,job) }

def marksUnwritten (s : State) : Bool := s.backoff.values.any fun b => b.unwritten.isSome

/- Whether the mark could be written is the store's answer. -/
def mark (s : State) (collection : CollectionId) (how : Unscanned) (written : Bool) : State :=
  match s.backoff.get collection with
  | none => s
  | some b =>
      let want := stronger b.marked how
      if b.marked = some want then s
      else if written then { s with
        marks := s.marks.insert collection want
        backoff := s.backoff.insert collection { b with marked := some want, unwritten := none } }
      else { s with backoff := s.backoff.insert collection { b with unwritten := some want } }

def noteRescan (s : State) (collection : CollectionId) (how : Unscanned) (written : Bool) : State :=
  let b := (s.backoff.get collection).getD .new
  mark { s with backoff := s.backoff.insert collection { b with rescan := some (stronger b.rescan how) } } collection how
    written

/- A collection that already holds a batch keeps that one. -/
def holdForRetry (s : State) (batch : Batch) (written : Bool) : State :=
  let b := (s.backoff.get batch.collection).getD .new
  let b := if b.held.isNone then { b with held := some batch } else { b with rescan := some (b.rescan.getD .check) }
  mark { s with backoff := s.backoff.insert batch.collection b } batch.collection .check written

/- The ids of a collection's live documents. -/
def ids (s : State) (collection : CollectionId) : List DocKey :=
  (s.docs.entries.filter fun x => x.1.collection = collection && x.2.isLive).map fun x => x.1.key

/- What a crash leaves. -/
def lost (s : State) : State := { s with read := s.position, pending := ⟨[],none⟩, backoff := .empty }

/- What the last run left owed. -/
def loadMarks (s : State) : State :=
  { s with backoff := s.marks.mapValues fun _ how => ⟨none,some how,some how,none⟩ }

end State

/-! The worker. -/

/- The provider's answer to a call; a call that the node's stop ends is not made. -/
inductive Outcome where
  | answered
  | failing
  | refused
  | refusedByPolicy
  | stopping
  deriving DecidableEq

/- `flag` is a clock's or the store's yes or no, `due` the collection whose attempt is due. -/
structure Answer where
  outcome : Outcome
  flag : Bool
  due : Option CollectionId

abbrev Work := Prog State Answer

def callProvider : Work Outcome := do return (← Prog.answer).outcome

def clock : Work Bool := do return (← Prog.answer).flag

def noteRescan (collection : CollectionId) (how : Unscanned) : Work Unit := do
  let written ← clock
  Prog.update fun s => s.noteRescan collection how written

def holdForRetry (batch : Batch) : Work Unit := do
  let written ← clock
  Prog.update fun s => s.holdForRetry batch written

/- A position on its way into a batch's commit. -/
structure Checkpoint where
  token : Option Nat
  failed : Bool
  stopped : Bool
  deferred : Bool

def Checkpoint.new : Checkpoint := ⟨none,false,false,false⟩

inductive Alone where
  | stored
  | deferred
  | failed
  deriving DecidableEq

def embedAlone (collection : CollectionId) (job : Job) (checkpoint : Checkpoint) : Work (Alone × Checkpoint) := do
  match ← callProvider with
  | .answered =>
      Prog.update fun s => s.store collection [job] checkpoint.token
      return (.stored,{ checkpoint with token := none })
  | .stopping => return (.failed,{ checkpoint with failed := true, stopped := true })
  | .failing => return (.deferred,checkpoint)
  | .refused | .refusedByPolicy =>
      Prog.update fun s => s.refuse collection [job]
      return (.failed,checkpoint)

/- A batch refused for good is taken apart; where the provider goes from failing for good to failing
for now, the document and those not yet sent are held. -/
def splitBatch (collection : CollectionId) : List Job → Checkpoint → Work Checkpoint
  | [], alone => return alone
  | job :: rest, alone => do
      let (ended,alone) ← embedAlone collection job alone
      if ended = .deferred then
        holdForRetry ⟨collection,job :: rest⟩
        return { alone with deferred := true }
      else if alone.stopped then return alone
      else splitBatch collection rest alone

def embedTogether (batch : Batch) (checkpoint : Checkpoint) : Work Checkpoint := do
  match ← callProvider with
  | .answered =>
      Prog.update fun s => s.store batch.collection batch.jobs checkpoint.token
      return { checkpoint with token := none }
  | .stopping => return { checkpoint with failed := true, stopped := true }
  | .failing =>
      holdForRetry batch
      return { checkpoint with deferred := true }
  | .refusedByPolicy =>
      Prog.update fun s => s.refuse batch.collection batch.jobs
      return checkpoint
  | .refused =>
      -- none of its documents carries the position
      let alone ← splitBatch batch.collection batch.jobs .new
      return { checkpoint with
        failed := checkpoint.failed || alone.failed
        stopped := checkpoint.stopped || alone.stopped
        deferred := checkpoint.deferred || alone.deferred }

/- A collection that is backing off is not tried before its attempt is due; a batch of it that
arrives first is not kept but noted for a scan. -/
def embedBatch (batch : Batch) (checkpoint : Checkpoint) : Work Checkpoint :=
  if batch.jobs.isEmpty then return checkpoint
  else do
    let notDue ← clock
    let known ← Prog.read fun s => (s.backoff.get batch.collection).isSome
    if notDue && known then
      noteRescan batch.collection .check
      return { checkpoint with deferred := true }
    else match batch.jobs with
      | [job] =>
          let (ended,checkpoint) ← embedAlone batch.collection job checkpoint
          if ended = .deferred then
            holdForRetry batch
            return { checkpoint with deferred := true }
          else return checkpoint
      | _ => embedTogether batch checkpoint

/- Only the last batch carries the position, and only while every mark is written. -/
def flushBatches : List Batch → Checkpoint → Work Checkpoint
  | [], checkpoint => return checkpoint
  | batch :: rest, checkpoint => do
      let checkpoint ← Prog.step fun s =>
        if rest.isEmpty && !checkpoint.failed && !s.marksUnwritten then
          ({ s with pending := { s.pending with token := none } },{ checkpoint with token := s.pending.token })
        else (s,checkpoint)
      let checkpoint ← embedBatch batch checkpoint
      if checkpoint.stopped then return checkpoint else flushBatches rest checkpoint

/- Whether the node's stop has ended the worker. -/
def flush : Work Bool := do
  let batches ← Prog.step fun s => ({ s with pending := { s.pending with batches := [] } },s.pending.batches)
  let checkpoint ← flushBatches batches .new
  let unwritten ← Prog.read State.marksUnwritten
  if checkpoint.failed || unwritten then
    Prog.update fun s => { s with pending := { s.pending with token := s.pending.token <|> checkpoint.token } }
    return checkpoint.stopped
  else
    Prog.update fun s => { s with
      position := (s.pending.token <|> checkpoint.token).getD s.position
      pending := { s.pending with token := none } }
    return false

/- How a scan ends before its last document. -/
inductive CutShort where
  | stopped
  | held

def embedScanned (batch : Batch) : Work (Option CutShort) := do
  let checkpoint ← embedBatch batch .new
  return if checkpoint.stopped then some .stopped else if checkpoint.deferred then some .held else none

/- The document's version is read first, and the document then. -/
def scannedJob (c : Config) (a : Address) : Work (Option Job) := do
  match ← Prog.read fun s => (s.documentStamp a).filter fun stamp => s.vectorsAreStale a stamp.hlc with
  | none => return none
  | some stamp =>
      match ← Prog.read fun s => s.get a with
      | some document => Prog.step fun s => s.prepare c a stamp.hlc document
      | none => return none

def scanDocs (c : Config) (collection : CollectionId) : List DocKey → Batch → Work (Option CutShort)
  | [], batch => embedScanned batch
  | source :: rest, batch => do
      match ← scannedJob c ⟨collection,source⟩ with
      | none => scanDocs c collection rest batch
      | some job =>
          let fits := batch.accepts c job
          match ← (if fits then pure none else embedScanned batch) with
          | some ended => return some ended
          | none =>
              let batch := (if fits then batch else ⟨collection,[]⟩).push job
              if batch.full c then
                match ← embedScanned batch with
                | some ended => return some ended
                | none => scanDocs c collection rest ⟨collection,[]⟩
              else scanDocs c collection rest batch

def scanCollection (c : Config) (collection : CollectionId) (how : Unscanned) : Work Bool := do
  let ids ← Prog.read fun s => s.ids collection
  match ← scanDocs c collection ids ⟨collection,[]⟩ with
  | some .stopped => return true
  | some .held =>
      noteRescan collection how
      return false
  | none => return false

def retryCollection (c : Config) (collection : CollectionId) (held : Option Batch) (rescan : Option Unscanned) :
    Work Bool :=
  if !c.embeds collection then return false
  else do
    let checkpoint ← match held with
      | some batch => embedBatch batch .new
      | none => pure .new
    if checkpoint.stopped then return true
    else match rescan with
      | none => return false
      | some how =>
          if checkpoint.deferred then
            noteRescan collection how
            return false
          else scanCollection c collection how

/- A mark that could not be written is tried again with every attempt. -/
def markAgain (collection : CollectionId) (unwritten : Option Unscanned) : Work Unit :=
  match unwritten with
  | some how => do
      let written ← clock
      Prog.update fun s => s.mark collection how written
  | none => return ()

/- Where nothing is owed any more the entry goes, and the mark with it if the store can. -/
def settle (collection : CollectionId) : Work Unit := do
  let settled ← Prog.step fun s => match s.backoff.get collection with
    | some b => if b.held.isNone && b.rescan.isNone then ({ s with backoff := s.backoff.remove collection },true)
        else (s,false)
    | none => (s,false)
  let cleared ← clock
  if settled && cleared then Prog.update fun s => { s with marks := s.marks.remove collection }
  else return ()

/- The entry stays while the attempt runs, so that a failure keeps its mark. -/
def retryOneCollection (c : Config) (collection : CollectionId) : Work Bool := do
  let taken ← Prog.step fun s => match s.backoff.get collection with
    | some b => ({ s with backoff := s.backoff.insert collection { b with held := none, rescan := none } },some b)
    | none => (s,none)
  match taken with
  | none => return false
  | some b =>
      markAgain collection b.unwritten
      let stopped ← retryCollection c collection b.held b.rescan
      if stopped then return true
      else
        settle collection
        return false

/- A document to embed joins its collection's batch, after a flush where it does not fit; the newest
entry seen is the position to record. -/
def gather (c : Config) (entry : OplogEntry) (token : Nat) : Work Bool := do
  let prepared ← Prog.step fun s => s.prepareEntry c entry
  match prepared with
  | none =>
      Prog.update fun s => { s with pending := { s.pending with token := some token } }
      return false
  | some job =>
      let fits ← Prog.read fun s => s.pending.accepts c entry.collection job
      let stopped ← if fits then pure false else flush
      if stopped then return true
      else
        let full ← Prog.step fun s =>
          let pending := s.pending.push entry.collection job
          ({ s with pending := { pending with token := some token } },pending.full c entry.collection)
        if full then flush else return false

/- The next entry of the stream. -/
def next : Work (Option (OplogEntry × Nat)) := Prog.step fun s => match s.log[s.read]? with
  | some entry => ({ s with read := s.read + 1 },some (entry,s.read + 1))
  | none => (s,none)

/- One turn of the loop: an attempt that is due, the next entry of the stream, and a flush where its
deadline has come. -/
def turn (c : Config) : Work Bool := do
  let answer ← Prog.answer
  let stopped ← match answer.due with
    | some collection => retryOneCollection c collection
    | none => pure false
  if stopped then return true
  else
    let event ← next
    let stopped ← match event with
      | some (entry,token) => gather c entry token
      | none => pure false
    if stopped then return true
    else
      let deadline ← clock
      if deadline then flush else return false

def worker (c : Config) : Process State Answer OplogEntry Bool where
  start := do
    Prog.update State.loadMarks
    return false
  again := fun stopped => if stopped then .done true else turn c
  moved := State.append
  lost := State.lost

end Kimmy.Vector
