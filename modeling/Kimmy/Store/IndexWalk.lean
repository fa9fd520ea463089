import Kimmy.Runs
import Kimmy.Store.Covering

/-!
Scans of an index for a query (`index.rs`): the ranges of the plan and the unkeyed run are read in one snapshot
and their live documents handed to a visitor, in index order or in the order of their keys. A document can stand
under several keys, and each walk drops the repeats by a means of its own.
-/
namespace Kimmy

/- `range((Excluded(k), Unbounded))`. -/
def SortedMap.rangeAfter {κ ν : Type} [LinearOrder κ] (m : SortedMap κ ν) (k : κ) : List (κ × ν) :=
  m.entries.dropWhile fun x => x.1 ≤ k

namespace Store
open ByteOrder KeyEnc Runs

def sentinels : List Bytes := [DocumentKeys.unkeyedRun]

def isSentinel (key : Bytes) : Bool := sentinels.contains key

/- Where every range of a query starts. -/
def aboveSentinels : Bytes := [leastKeyTag]

/- The ranges hold their ends, and stand in key order and apart. -/
structure IndexScan where
  indexId : IndexId
  ranges : List (Bytes × Bytes)
  bothBounds : Bool
  exact : Bool
  apart : ranges.Pairwise fun x y => x.2 < y.1

inductive CandidateOrder where
  | any
  | byId (after : Option DocKey) (want : Option Nat)

structure IndexScanOutcome where
  entries : Nat
  passes : Nat
  unkeyed : Nat
  deriving DecidableEq

namespace IndexScanOutcome

def zero : IndexScanOutcome := ⟨0,0,0⟩

/- One entry read, and whether it came from the unkeyed run. -/
def read (outcome : IndexScanOutcome) (key : Bytes) : IndexScanOutcome :=
  { outcome with
    entries := outcome.entries + 1
    unkeyed := outcome.unkeyed + if key = DocumentKeys.unkeyedRun then 1 else 0 }

end IndexScanOutcome

/- What a walk has read, and what its visitor has made of the documents so far. -/
structure WalkState (τ : Type) where
  outcome : IndexScanOutcome
  seen : τ

namespace WalkState
variable {τ : Type}

def read (s : WalkState τ) (k : IndexKey) : WalkState τ := { s with outcome := s.outcome.read k.key }

def pass (s : WalkState τ) : WalkState τ := { s with outcome := { s.outcome with passes := s.outcome.passes + 1 } }

end WalkState

/- The visitor says whether to go on. -/
structure IndexWalk (τ : Type) where
  coll : CollectionId
  index : IndexMeta
  entries : SortedMap IndexKey Unit
  docs : SortedMap Address DocRecord
  ranges : List (Bytes × Bytes)
  visit : τ → DocKey × Match → τ × Bool

namespace IndexWalk
variable {τ : Type} (w : IndexWalk τ)

/- The live document under a key: a tombstone or a gap is no candidate. -/
def load (key : DocKey) : Option Match := (w.docs.get ⟨w.coll,key⟩).bind DocRecord.matchOf

def hand (s : WalkState τ) (key : DocKey) (found : Match) : WalkState τ × Bool :=
  let (seen,goesOn) := w.visit s.seen (key,found)
  ({ s with seen := seen },goesOn)

def offer (s : WalkState τ) (key : DocKey) : WalkState τ × Bool :=
  match w.load key with
  | some found => w.hand s key found
  | none => (s,true)

/- The least key of the document that the ranges reach is the one the walk meets first. -/
def firstEntryFor (doc : Document) (key : Bytes) : Bool :=
  match documentKeys w.index doc with
  | .unkeyed _ _ => false
  | .keyed keys _ =>
      (keys.find? fun k => w.ranges.any fun range => range.1 ≤ k && k ≤ range.2) == some key

/- The entries of a range, in index order, from a start. -/
def cut (upper : Bytes) (rows : List (IndexKey × Unit)) : List IndexKey :=
  (rows.takeWhile fun x => x.1.collection = w.coll && x.1.index = w.index.id && x.1.key ≤ upper).map Prod.fst

def run (range : Bytes × Bytes) : List IndexKey := w.cut range.2 (w.entries.range ⟨w.coll,w.index.id,range.1,[]⟩)

/- The run of a probe, from the document key past the bound. -/
def runAfter (after : Option DocKey) (range : Bytes × Bytes) : List IndexKey :=
  match after with
  | some bound => w.cut range.2 (w.entries.rangeAfter ⟨w.coll,w.index.id,range.1,bound⟩)
  | none => w.run range

def meet (s : WalkState τ) (k : IndexKey) : WalkState τ × Bool :=
  let s := s.read k
  match w.load k.doc with
  | none => (s,true)
  | some found =>
      if w.index.multikey && !isSentinel k.key && !w.firstEntryFor found.doc k.key then (s,true)
      else w.hand s k.doc found

def inIndexOrder (s : WalkState τ) : WalkState τ :=
  (feed (fun s range => feed w.meet s (w.run range)) s.pass w.ranges).1

def oneRun (after : Option DocKey) (range : Bytes × Bytes) (s : WalkState τ) : WalkState τ :=
  (feed (fun s k => w.offer (s.read k) k.doc) s.pass (w.runAfter after range)).1

def hands : Hands (WalkState τ) IndexKey DocKey := ⟨IndexKey.doc,WalkState.read,w.offer⟩

def mergedRuns (after : Option DocKey) (s : WalkState τ) : Option (WalkState τ) :=
  let runs := w.ranges.map (w.runAfter after)
  let (s,heads) := opened w.hands 0 runs (s.pass,[])
  merged w.hands (runs.map List.length).sum heads none s

def usizeMax : Nat := 2 ^ 64 - 1

def inKeyOrder (after : Option DocKey) (want : Option Nat) (s : WalkState τ) : Option (WalkState τ) :=
  let rows := w.ranges.flatMap w.run
  inPasses w.hands WalkState.pass usizeMax rows (rows.length + 1) after (max (want.getD usizeMax) 1) s

end IndexWalk

/- Whether an index holds a document it could not key: the first entry from the key on is one, or there is none. -/
def hasEntriesAt (rows : SortedMap IndexKey Unit) (coll : CollectionId) (index : IndexId) (key : Bytes) : Bool :=
  match (rows.range ⟨coll,index,key,[]⟩).head? with
  | some x => x.1.collection = coll && x.1.index = index && x.1.key = key
  | none => false

/- How a scan ends. A refused one has the caller plan again. -/
inductive Scanned (τ : Type) where
  | replan
  | finished (outcome : IndexScanOutcome) (seen : τ)
  | unfinished
  deriving DecidableEq

def WalkState.scanned {τ : Type} : Option (WalkState τ) → Scanned τ
  | some s => .finished s.outcome s.seen
  | none => .unfinished

namespace Tables
variable {τ : Type} (t : Tables) (coll : CollectionId)

/- The unkeyed run, where it holds anything, and then the ranges asked for, above it. -/
def scanRanges (id : IndexId) (ranges : List (Bytes × Bytes)) : List (Bytes × Bytes) :=
  (sentinels.filter fun key => hasEntriesAt t.entries coll id key).map (fun key => (key,key)) ++
    ranges.map fun range => (if range.1.isEmpty then aboveSentinels else range.1,range.2)

def walk (index : IndexMeta) (scan : IndexScan) (visit : τ → DocKey × Match → τ × Bool) : IndexWalk τ :=
  ⟨coll,index,t.entries,t.docs,t.scanRanges coll index.id scan.ranges,visit⟩

def visitRanges (w : IndexWalk τ) (exact : Bool) (order : CandidateOrder) (s : WalkState τ) : Option (WalkState τ) :=
  match order with
  | .any => some (w.inIndexOrder s)
  | .byId after want =>
      if exact then
        match w.ranges with
        | [range] => some (w.oneRun after range s)
        | _ => w.mergedRuns after s
      else w.inKeyOrder after want s

def visitIndexCandidates (scan : IndexScan) (order : CandidateOrder) (visit : τ → DocKey × Match → τ × Bool)
    (seen : τ) : Scanned τ :=
  match t.collections.get coll with
  | none => .finished .zero seen
  | some fresh => match fresh.indexes.find? fun index => index.id = scan.indexId with
      | none => .replan
      | some index =>
          if scan.bothBounds && index.multikey then .replan
          else if scan.ranges.isEmpty then .finished .zero seen
          else WalkState.scanned (visitRanges (t.walk coll index scan visit) scan.exact order ⟨.zero,seen⟩)

/- The keys of the candidates alone, for a range that is sound while the index is not multikey. -/
def indexCandidatesUnlessMultikey (id : IndexId) (lower upper : Bytes) : Option (List DocKey) :=
  match t.collections.get coll with
  | none => some []
  | some fresh => match fresh.indexes.find? fun index => index.id = id with
      | none => none
      | some index => if index.multikey then none else some (scanTable t.entries coll id lower upper)

end Tables

end Store
end Kimmy
