import Kimmy.Query.Candidates
import Kimmy.Store.Catalogue

/-!
Filtered writes (`modify.rs`): every document that a filter matches is changed, in transactions of at most a
chunk of documents each. A request is planned once; every chunk gathers its candidates again, past the last
document key of the chunk before it, and between two chunks any other transaction may commit.
-/
namespace Kimmy.Store
open Merge ByteOrder

/- Where to look for candidate documents. -/
inductive Candidates where
  | scan
  | keys (keys : List DocKey)
  | index (id : IndexId) (ranges : List (Bytes × Bytes)) (bothBounds : Bool)

/- `candidates_for`: the primary key first, then an index, then a scan. -/
def candidatesFor {Expr Schema : Type} (filter : Query.Filter Expr Schema) (indexes : List IndexMeta) : Candidates :=
  match Query.choosePrimaryKey filter with
  | some plan => .keys plan.keys
  | none => match Query.choose filter indexes with
      | some plan => .index plan.indexId plan.ranges plan.bothBounds
      | none => .scan

/- What the caller decides. A transformation keeps the `_id`; the caps and the validator have their say in
`admitted`. -/
structure ModifySpec where
  matchesDoc : Document → Except Query.Error Bool
  apply : Document → Except String (Option Document)
  expectedStamp : Option Stamp
  admitted : Document → Document → Bool
  keepsId : ∀ doc next, apply doc = .ok (some next) → next.docKey = doc.docKey

/- Why a chunk failed. A stop is the writer's queue, the deadline, a budget or the disk. -/
inductive ModifyError where
  | storage (error : StorageError)
  | query (error : Query.Error)
  | refused (reported : String)
  | corrupt
  | stopped
  | commitFailed
  | outcomeUnknown
  deriving DecidableEq

structure Match where
  stamp : Stamp
  doc : Document
  deriving DecidableEq

/-! Finding. -/

/- `scan_table`: the documents filed in a range and those of the unkeyed run, each once. -/
def scanTable (rows : SortedMap IndexKey Unit) (coll : CollectionId) (id : IndexId) (lower upper : Bytes) : List DocKey :=
  let ranged := ((rows.range ⟨coll,id,lower,[]⟩).takeWhile fun x =>
    x.1.collection = coll && x.1.index = id && x.1.key ≤ upper).map fun x => x.1.doc
  ((ranged ++ holdersOf rows coll id DocumentKeys.unkeyedRun).insertionSort (· ≤ ·)).dedup

def DocRecord.matchOf (record : DocRecord) : Option Match := record.document.map fun doc => ⟨record.stamp,doc⟩

namespace Tables

/- The live documents of a collection past a key. -/
def scanUntil (t : Tables) (coll : CollectionId) (after : Option DocKey) : List Match :=
  t.docs.entries.filterMap fun (a,record) =>
    if a.collection = coll ∧ after.all (· < a.key) then record.matchOf else none

/- The live documents under some keys, in the order of the keys. -/
def lookup (t : Tables) (coll : CollectionId) (after : Option DocKey) (keys : List DocKey) : List Match :=
  ((keys.insertionSort (· ≤ ·)).dedup.filter fun key => after.all (· < key)).filterMap fun key =>
    (t.docs.get ⟨coll,key⟩).bind DocRecord.matchOf

/- An index that is gone counts as multikey. -/
def indexIsMultikey (t : Tables) (coll : CollectionId) (id : IndexId) : Bool :=
  match t.collections.get coll with
  | none => false
  | some definition => (definition.indexes.find? fun index => index.id = id).all (·.multikey)

/- The documents to examine. The flag is read again where the ranges use both bounds. -/
def offers (t : Tables) (coll : CollectionId) (after : Option DocKey) : Candidates → List Match
  | .scan => t.scanUntil coll after
  | .keys keys => t.lookup coll after keys
  | .index id ranges bothBounds =>
      if !bothBounds || !t.indexIsMultikey coll id then
        t.lookup coll after (ranges.flatMap fun range => scanTable t.entries coll id range.1 range.2)
      else t.scanUntil coll after

end Tables

/- The matches among the documents offered, up to a limit, with how many were examined. -/
def considerAll (spec : ModifySpec) (limit : Nat) : List Match → Except Query.Error (List Match × Nat)
  | [] => .ok ([],0)
  | found :: rest => match spec.matchesDoc found.doc with
      | .error error => .error error
      | .ok false => (considerAll spec limit rest).map fun (more,examined) => (more,examined + 1)
      | .ok true =>
          if limit ≤ 1 then .ok ([found],1)
          else (considerAll spec (limit - 1) rest).map fun (more,examined) => (found :: more,examined + 1)

def collectMatches (t : Tables) (coll : CollectionId) (candidates : Candidates) (spec : ModifySpec) (limit : Nat)
    (after : Option DocKey) : Except ModifyError (List Match × Nat) :=
  (considerAll spec limit (t.offers coll after candidates)).mapError .query

/-! Writing. -/

namespace Engine

/- An image that is the stored one is not written, and no stamp is minted for it. -/
def writeChosen (e : Engine) (coll : CollectionId) (spec : ModifySpec) (key : DocKey) (found : Match)
    (next : Option Document) : Except ModifyError (Engine × Option OplogEntry) :=
  if next = some found.doc then .ok (e,none)
  else if next.any fun doc => !spec.admitted found.doc doc then .error (.storage .notAdmitted)
  else match e.db.maintain coll (some found.doc) next key with
    | .error error => .error (.storage error)
    | .ok db =>
        let kind := if next.isSome then .replace else .delete
        .ok ({ e with db := db }.write coll key kind next,some ⟨e.nextStamp,kind,coll,some key,next⟩)

def modifyInTxn (e : Engine) (coll : CollectionId) (spec : ModifySpec) (found : Match) :
    Except ModifyError (Engine × Option OplogEntry) :=
  if spec.expectedStamp.any (· ≠ found.stamp) then .error (.storage (.stale (some found.stamp)))
  else match found.doc.docKey with
    | none => .error .corrupt
    | some key => match spec.apply found.doc with
        | .error reported => .error (.refused reported)
        | .ok next => e.writeChosen coll spec key found next

/- The documents of a chunk in turn, up to the first that fails. -/
def modifyEach (e : Engine) (coll : CollectionId) (spec : ModifySpec) :
    List Match → Engine × Except ModifyError (List OplogEntry)
  | [] => (e,.ok [])
  | found :: rest => match e.modifyInTxn coll spec found with
      | .error error => (e,.error error)
      | .ok (next,entry) =>
          let (last,result) := next.modifyEach coll spec rest
          (last,result.map fun entries => entry.toList ++ entries)

/- How a chunk's transaction fares: it may be stopped at any point before its commit, with whatever the clock
was asked by then, and a commit may fail, or leave it unknown whether it landed. -/
inductive Fate where
  | goes
  | stops (more : List Call)
  | commitFails
  | commitUnknown (landed : Bool)

/- A chunk: where it left the engine, what it committed, and its answer. A failure comes with how many
documents are in doubt; otherwise the documents examined and, if any matched, the matches, the entries to
publish and the key to resume after. -/
structure Chunked where
  engine : Engine
  committed : List OplogEntry
  result : Except (ModifyError × Nat) (Nat × Option (List Match × List OplogEntry × DocKey))

def modifyChunk (e : Engine) (coll : CollectionId) (candidates : Candidates) (spec : ModifySpec) (budget : Nat)
    (after : Option DocKey) (fate : Fate) : Chunked :=
  let failed (tried : Engine) (error : ModifyError) : Chunked := ⟨e.abort tried,[],.error (error,0)⟩
  match fate with
  | .stops more => failed (e.called more) .stopped
  | _ => match collectMatches e.db coll candidates spec budget after with
    | .error error => failed e error
    | .ok (found,examined) => match found.getLast? with
      | none => ⟨e,[],.ok (examined,none)⟩
      | some last => match last.doc.docKey with
        | none => failed e .corrupt
        | some lastKey => match e.modifyEach coll spec found with
          | (tried,.error error) => failed tried error
          | (tried,.ok []) => ⟨e.abort tried,[],.ok (examined,some (found,[],lastKey))⟩
          | (tried,.ok entries) => match fate with
            | .commitFails => failed tried .commitFailed
            | .commitUnknown true => ⟨tried,entries,.error (.outcomeUnknown,entries.length)⟩
            | .commitUnknown false => ⟨e.abort tried,[],.error (.outcomeUnknown,entries.length)⟩
            | _ => ⟨tried,entries,.ok (examined,some (found,entries,lastKey))⟩

end Engine

/-! A request. -/

structure ModifyManyOutcome where
  examined : Nat
  matched : Nat
  modified : Nat
  commits : Nat
  stamp : Option Stamp
  deriving DecidableEq

inductive Answer where
  | ok (outcome : ModifyManyOutcome)
  | failed (error : ModifyError)
  | partiallyApplied (matched modified commits inDoubt : Nat) (cause : ModifyError)
  deriving DecidableEq

/- What happens to one chunk: the transactions that commit before its own, and how its own fares. -/
structure Round where
  meanwhile : List Act
  fate : Engine.Fate

/- A chunk that has been: the engine as the request had left it, as the chunk's transaction found it, and as
that transaction left it, with what matched and what was committed. -/
structure Chunk where
  left : Engine
  met : Engine
  done : Engine
  found : List Match
  committed : List OplogEntry

/- The loop of `modify_where`: its own variables, the entries published and the chunks so far. It runs until
it has answered. -/
structure Request where
  engine : Engine
  outcome : ModifyManyOutcome
  after : Option DocKey
  published : List OplogEntry
  chunks : List Chunk
  answer : Option Answer

namespace Request

def planned (e : Engine) : Request := ⟨e,⟨0,0,0,0,none⟩,none,[],[],none⟩

/- A version that was expected and not found is a failure. -/
def finish (r : Request) (spec : ModifySpec) : Request :=
  { r with answer := some (if r.outcome.matched = 0 ∧ spec.expectedStamp.isSome then .failed (.storage (.stale none))
      else .ok r.outcome) }

def fail (r : Request) (error : ModifyError) (inDoubt : Nat) : Request :=
  { r with answer := some (if r.outcome.commits = 0 then .failed error
      else .partiallyApplied r.outcome.matched r.outcome.modified r.outcome.commits inDoubt error) }

/- A chunk whose matches were all unchanged is no commit. -/
def counted (outcome : ModifyManyOutcome) (examined : Nat) (found : List Match) (entries : List OplogEntry) :
    ModifyManyOutcome :=
  let outcome := { outcome with
    examined := outcome.examined + examined
    matched := outcome.matched + found.length }
  match entries.getLast? with
  | none => outcome
  | some last => { outcome with
      commits := outcome.commits + 1
      modified := outcome.modified + entries.length
      stamp := some last.stamp }

section
variable (coll : CollectionId) (candidates : Candidates) (spec : ModifySpec) (chunk : Nat) (stopAfter : Option Nat)

def budget (r : Request) : Nat :=
  match stopAfter with
  | none => chunk
  | some n => min (n - r.outcome.matched) chunk

def step (r : Request) (round : Round) : Request :=
  match r.answer with
  | some _ => r
  | none =>
      if r.budget chunk stopAfter = 0 then r.finish spec
      else
        let met := r.engine.acts round.meanwhile
        let chunked := met.modifyChunk coll candidates spec (r.budget chunk stopAfter) r.after round.fate
        let found := match chunked.result with
          | .ok (_,some (found,_,_)) => found
          | _ => []
        let next := { r with
          engine := chunked.engine
          chunks := r.chunks ++ [(⟨r.engine,met,chunked.engine,found,chunked.committed⟩ : Chunk)] }
        match chunked.result with
        | .error (error,inDoubt) => next.fail error inDoubt
        | .ok (examined,none) =>
            { next with outcome := { r.outcome with examined := r.outcome.examined + examined } }.finish spec
        | .ok (examined,some (found,entries,lastKey)) =>
            let next := { next with
              outcome := counted r.outcome examined found entries
              after := some lastKey
              published := r.published ++ entries }
            if found.length < r.budget chunk stopAfter then next.finish spec else next

def run (r : Request) (rounds : List Round) : Request := rounds.foldl (step coll candidates spec chunk stopAfter) r

end

end Request

end Kimmy.Store
