import Kimmy.DocId
import Kimmy.Store.Indexed
import Kimmy.Store.ScannedOnce

/-!
Expiry (`expiry.rs`). A pass reads a bounded slice of the dates a TTL index holds, from where the last one stopped, and deletes
what it finds one document at a time; each delete looks again, in its own transaction, at what made the document a candidate.
Other commits fall anywhere between.
-/
namespace Kimmy.Store
open ByteOrder CanonicalCmp KeyEnc

/- The nearest number a signed 64-bit word holds. -/
def saturate (x : Int) : Int64 :=
  if x < Int64.minValue.toInt then Int64.minValue else if Int64.maxValue.toInt < x then Int64.maxValue else Int64.ofInt x

def maxExpiredPerPass : Nat := 1000

/- The last entry a pass examined. -/
structure ExpiryCursor where
  key : Bytes
  doc : DocKey

structure ExpiryOutcome where
  deleted : Nat
  skipped : Nat
  skippedFilter : Nat
  truncated : Bool

/- An index is created with a policy over one field only. -/
structure TtlIndex where
  base : IndexMeta
  field : IndexField
  alone : base.fields = [field]
  expireAfterSecs : Int64

def dateKey (millis : Int64) (descending : Bool) : Option Bytes := encodeCompoundOrdered [(.dateTime millis,descending)]

/- The date of a document is the first value at the path, and only if that is a date. -/
def isExpired (doc : Document) (path : String) (cutoff : Int64) : Bool :=
  match (resolve doc path).head? with
  | some (.dateTime millis) => millis ≤ cutoff
  | _ => false

namespace TtlIndex
variable (index : TtlIndex)

def cutoff (now : UInt64) : Int64 := saturate (now.toInt64.toInt - (saturate (index.expireAfterSecs.toInt * 1000)).toInt)

/- A descending index holds the later dates first, so the bounds change places. -/
def expiredRange (cutoff : Int64) : Option (Bytes × Bytes) := do
  let oldest ← dateKey Int64.minValue index.field.descending
  let newest ← dateKey cutoff index.field.descending
  return if index.field.descending then (newest,oldest) else (oldest,newest)

def selects (doc : Document) : Bool := index.base.selection.all fun filter => filter.selects doc

end TtlIndex

/- Whether the guard lets a document go, and the reason it gives. -/
inductive Judgement where
  | removes
  | outsideFilter
  | declines
  deriving DecidableEq

def TtlIndex.judge (index : TtlIndex) (cutoff : Int64) (current : Document) : Judgement :=
  if !isExpired current index.field.path cutoff then .declines
  else if !index.selects current then .outsideFilter
  else .removes

def resumed (rows : SortedMap IndexKey Unit) (coll : CollectionId) (index : IndexId) (lower : Bytes) :
    Option ExpiryCursor → List (IndexKey × Unit)
  | some cursor => rows.rangeAfter ⟨coll,index,cursor.key,cursor.doc⟩
  | none => rows.range ⟨coll,index,lower,[]⟩

/- `index_keyed_entries_after`. -/
def keyedEntriesAfter (rows : SortedMap IndexKey Unit) (coll : CollectionId) (index : IndexId) (lower upper : Bytes)
    (after : Option ExpiryCursor) (limit : Nat) : List ExpiryCursor :=
  let inside := (resumed rows coll index lower after).takeWhile fun x =>
    x.1.collection = coll && x.1.index = index && x.1.key ≤ upper
  ((inside.filter fun x => lower ≤ x.1.key).take limit).map fun x => ⟨x.1.key,x.1.doc⟩

/- A pass under way. `inHand` is the id read from the document of the last candidate, whose delete is next. -/
structure Pass where
  now : UInt64
  candidates : List ExpiryCursor
  seen : List DocKey
  inHand : Option DocKey
  outcome : ExpiryOutcome

structure Expirer where
  engine : Engine
  cursor : Option ExpiryCursor
  pass : Option Pass
  answer : Option ExpiryOutcome

inductive ExpiryStep where
  | committed (op : Op)
  | start (now : UInt64)
  | next
  | remove

namespace Expirer
variable (index : TtlIndex) (coll : CollectionId)

/- The cursor is set before the deletes, so that one that fails cannot hold the scan to itself. -/
def start (x : Expirer) (now : UInt64) : Expirer :=
  match x.pass with
  | some _ => x
  | none => match index.expiredRange (index.cutoff now) with
      | none => x
      | some (lower,upper) =>
          let found := keyedEntriesAfter x.engine.db.entries coll index.base.id lower upper x.cursor (maxExpiredPerPass + 1)
          let truncated : Bool := maxExpiredPerPass < found.length
          let candidates := found.take maxExpiredPerPass
          { x with
            cursor := if truncated then candidates.getLast? else none
            pass := some ⟨now,candidates,[],none,⟨0,0,0,truncated⟩⟩ }

/- The next candidate is read, one that was seen under another key passed over; after the last one the pass answers. -/
def next (x : Expirer) : Expirer :=
  match x.pass with
  | none => x
  | some p => if p.inHand.isSome then x else match p.candidates with
      | [] => { x with pass := none, answer := some p.outcome }
      | candidate :: rest =>
          if p.seen.contains candidate.doc then { x with pass := some { p with candidates := rest } }
          else { x with pass := some { p with
            candidates := rest
            seen := candidate.doc :: p.seen
            inHand := (x.engine.db.image ⟨coll,candidate.doc⟩).bind Document.docKey } }

def guarded (cutoff : Int64) (_ : Stamp) (current : Document) : Except StorageError Bool :=
  .ok (index.judge cutoff current = .removes)

def counted (outcome : ExpiryOutcome) : Option Judgement → ExpiryOutcome
  | some .removes => { outcome with deleted := outcome.deleted + 1 }
  | some .outsideFilter => { outcome with skippedFilter := outcome.skippedFilter + 1 }
  | some .declines | none => { outcome with skipped := outcome.skipped + 1 }

/- `delete_guarded`, a transaction of its own. -/
def remove (x : Expirer) : Expirer :=
  match x.pass with
  | none => x
  | some p => match p.inHand with
      | none => x
      | some own =>
          let cutoff := index.cutoff p.now
          let judged := (x.engine.db.image ⟨coll,own⟩).map (index.judge cutoff)
          { x with
            engine := x.engine.step (.write (.delete coll own (guarded index cutoff)))
            pass := some { p with inHand := none, outcome := counted p.outcome judged } }

def step (x : Expirer) : ExpiryStep → Expirer
  | .committed op => { x with engine := x.engine.step op }
  | .start now => x.start index coll now
  | .next => x.next coll
  | .remove => x.remove index coll

def run (x : Expirer) (steps : List ExpiryStep) : Expirer := steps.foldl (step index coll) x

end Expirer

end Kimmy.Store
