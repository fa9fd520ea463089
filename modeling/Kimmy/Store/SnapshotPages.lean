import Kimmy.DocId
import Kimmy.Store.Records

/-!
Snapshots in pages (`snapshot.rs`): what a member sends one that is too far behind for its log, the rows
of its standing collections a page at a time, each page cut by count or by bytes and followed by the
cursor it names. Over a state that does not change, following the cursors sends every row once.
-/
namespace Kimmy.Store
open ByteOrder

/- A row as a page reads it; a live record's body holds its `_id`. -/
inductive SnapshotRow where
  | document (id : DocId) (body : Bytes) (stamp : Stamp)
  | tombstone (stamp : Stamp)

structure SnapshotDoc where
  collection : CollectionId
  id : DocId
  stamp : Stamp
  body : Bytes

structure SnapshotTombstone where
  collection : CollectionId
  key : DocKey
  stamp : Stamp

/- The next page starts strictly after the key; a snapshot of one collection ends at `untilKey`. -/
structure SnapshotCursor where
  collection : CollectionId
  afterKey : DocKey
  untilKey : Option DocKey
  deriving DecidableEq

structure SnapshotPage where
  documents : List SnapshotDoc
  deletedDocuments : List SnapshotTombstone
  next : Option SnapshotCursor

/- The rows, the collections that stand and the bytes of a page's other parts: `definitions` ride the first
page only. A document key holds at least its type byte. -/
structure Sender where
  docs : SortedMap Address SnapshotRow
  keyed : ∀ x ∈ docs.entries, x.1.key ≠ []
  standing : SortedMap CollectionId Unit
  pageBytes : Nat
  definitions : Nat
  others : Nat

/-! What a row costs. -/

def snapshotPageRows : Nat := 512
def documentOverhead : Nat := 160
def tombstoneOverhead : Nat := 160
def cursorOverhead : Nat := 256
def untilFieldOverhead : Nat := 32

/- The digits of the indices from `start` on, of which those below `stop` have `digits`. -/
def indexDigits (n start stop digits : Nat) : Nat :=
  if start < n ∧ start < stop then (min stop n - start) * digits + indexDigits n stop (stop * 10) (digits + 1) else 0
  termination_by n - start

/- Bytes that cross as an array of integers. -/
def byteArrayWireLen (n : Nat) : Nat := 5 + 6 * n + indexDigits n 0 10 1

def idWireLen : DocId → Nat
  | .binary _ bytes => bytes.bytes.length + 32
  | .string text => (asBytes text).length + 5
  | _ => 32

def cursorReserve (key untilLength : Nat) : Nat :=
  cursorOverhead + byteArrayWireLen key + untilFieldOverhead + byteArrayWireLen untilLength

def rowBytes (a : Address) : SnapshotRow → Nat
  | .document id body _ => body.length + idWireLen id + documentOverhead
  | .tombstone _ => a.key.length + tombstoneOverhead

/- `SnapshotRowTooLarge`: what is named of the row. -/
inductive RowName where
  | document (id : DocId) (collection : CollectionId)
  | tombstone (collection : CollectionId)

structure SnapshotRowTooLarge where
  what : RowName
  bytes : Nat
  room : Nat

def rowName (a : Address) : SnapshotRow → RowName
  | .document id _ _ => .document id a.collection
  | .tombstone _ => .tombstone a.collection

/-! One page. -/

/- What a page holds so far, and after which row it would resume if it were cut here. -/
structure PageSoFar where
  out : List SnapshotDoc
  deleted : List SnapshotTombstone
  used : Nat
  resume : Option (CollectionId × DocKey)

namespace PageSoFar

def count (page : PageSoFar) : Nat := page.out.length + page.deleted.length

def push (page : PageSoFar) (a : Address) (row : SnapshotRow) : PageSoFar :=
  let page := { page with used := page.used + rowBytes a row, resume := some (a.collection,a.key) }
  match row with
  | .document id body stamp => { page with out := page.out ++ [⟨a.collection,id,stamp,body⟩] }
  | .tombstone stamp => { page with deleted := page.deleted ++ [⟨a.collection,a.key,stamp⟩] }

end PageSoFar

/- The bounds of one page. -/
structure PageLimits where
  room : Nat
  first : Bool
  untilKey : Option DocKey

def PageLimits.reserved (limits : PageLimits) (a : Address) : Nat :=
  cursorReserve a.key.length (limits.untilKey.elim 0 List.length)

/- The rows of one collection, and whether the page was cut in them. -/
def walkRows (limits : PageLimits) (page : PageSoFar) :
    List (Address × SnapshotRow) → Except SnapshotRowTooLarge (PageSoFar × Bool)
  | [] => .ok (page,false)
  | (a,row) :: rest =>
      if limits.untilKey.any fun last => last < a.key then .ok (page,false)
      -- another row exists past a full page
      else if snapshotPageRows ≤ page.count then .ok (page,true)
      else if limits.room < page.used + rowBytes a row + limits.reserved a then
        if page.out.isEmpty && page.deleted.isEmpty && !limits.first
          then .error ⟨rowName a row,rowBytes a row + limits.reserved a,limits.room⟩
          else .ok (page,true)
      else walkRows limits (page.push a row) rest

namespace Sender

/- The rows of a collection, after a key. -/
def rowsAfter (s : Sender) (id : CollectionId) (after : Option DocKey) : List (Address × SnapshotRow) :=
  s.docs.entries.filter fun x => x.1.collection = id && after.all fun key => key < x.1.key

/- Collection by collection, in the order of ids. -/
def walkCollections (s : Sender) (limits : PageLimits) (page : PageSoFar) :
    List (CollectionId × Option DocKey) → Except SnapshotRowTooLarge (PageSoFar × Bool)
  | [] => .ok (page,false)
  | (id,after) :: rest =>
      let page := if page.resume.isNone || after.isNone then { page with resume := some (id,after.getD []) } else page
      if (s.standing.get id).isSome then
        match walkRows limits page (s.rowsAfter id after) with
        | .error refused => .error refused
        | .ok (page,true) => .ok (page,true)
        | .ok (page,false) => s.walkCollections limits page rest
      else s.walkCollections limits page rest

/- The standing collections in scope. -/
def live (s : Sender) (scope : Option CollectionId) : List CollectionId :=
  (s.standing.entries.map Prod.fst).filter fun id => scope.all fun one => one = id

/- The last key a snapshot of one collection ends at, fixed by its first page. -/
def untilKey (s : Sender) (after : Option SnapshotCursor) (scope : Option CollectionId) : Option DocKey :=
  match after, scope with
  | some cursor, some _ => cursor.untilKey
  | none, some id => (s.rowsAfter id none).getLast?.map fun x => x.1.key
  | _, none => none

def visits (s : Sender) (after : Option SnapshotCursor) (scope : Option CollectionId) :
    List (CollectionId × Option DocKey) :=
  match after with
  | none => (s.live scope).map fun id => (id,none)
  | some cursor => (cursor.collection,some cursor.afterKey) ::
      ((s.live scope).filter fun id => cursor.collection < id).map fun id => (id,none)

def room (s : Sender) (first : Bool) : Nat := s.pageBytes - (s.others + if first then s.definitions else 0)

/- `snapshot_rows`, with the room that `snapshot_page` leaves it. -/
def snapshotPage (s : Sender) (after : Option SnapshotCursor) (scope : Option CollectionId) :
    Except SnapshotRowTooLarge SnapshotPage :=
  let limits : PageLimits := ⟨s.room after.isNone,after.isNone,s.untilKey after scope⟩
  match s.walkCollections limits ⟨[],[],0,none⟩ (s.visits after scope) with
  | .error refused => .error refused
  | .ok (page,cut) => .ok ⟨page.out,page.deleted,
      if cut then page.resume.map fun x => ⟨x.1,x.2,limits.untilKey⟩ else none⟩

/-! Following the cursors. -/

/- The pages so far and how it ended: not yet, with the last page or with a refusal. -/
inductive PullEnd where
  | unfinished
  | complete
  | refused (error : SnapshotRowTooLarge)

def pull (s : Sender) (scope : Option CollectionId) : Nat → Option SnapshotCursor → List SnapshotPage × PullEnd
  | 0, _ => ([],.unfinished)
  | turns + 1, after => match s.snapshotPage after scope with
      | .error refused => ([],.refused refused)
      | .ok page => match page.next with
          | none => ([page],.complete)
          | some cursor => (page :: (s.pull scope turns (some cursor)).1,(s.pull scope turns (some cursor)).2)

/- The rows of the standing collections in scope. -/
def rows (s : Sender) (scope : Option CollectionId) : List (Address × SnapshotRow) :=
  s.docs.entries.filter fun x => x.1.collection ∈ s.live scope

def asDocument (x : Address × SnapshotRow) : Option SnapshotDoc :=
  match x.2 with
  | .document id body stamp => some ⟨x.1.collection,id,stamp,body⟩
  | .tombstone _ => none

def asTombstone (x : Address × SnapshotRow) : Option SnapshotTombstone :=
  match x.2 with
  | .document _ _ _ => none
  | .tombstone stamp => some ⟨x.1.collection,x.1.key,stamp⟩

end Sender

/-! One page sends the rows from where it starts up to where it is cut. -/

/- The page holds these rows and no others. -/
structure PageSoFar.Holds (page : PageSoFar) (sent : List (Address × SnapshotRow)) : Prop where
  out : page.out = sent.filterMap Sender.asDocument
  deleted : page.deleted = sent.filterMap Sender.asTombstone
  used : page.used = (sent.map fun x => rowBytes x.1 x.2).sum

namespace PageSoFar
variable {page : PageSoFar} {sent : List (Address × SnapshotRow)}

theorem Holds.count (holds : page.Holds sent) : page.count = sent.length := by
  unfold PageSoFar.count
  rw [holds.out, holds.deleted]
  clear holds
  induction sent with
  | nil => rfl
  | cons x rest ih =>
      obtain ⟨a, row⟩ := x
      cases row with
      | document id body stamp =>
          simp only [List.filterMap_cons, Sender.asDocument, Sender.asTombstone, List.length_cons]
          omega
      | tombstone stamp =>
          simp only [List.filterMap_cons, Sender.asDocument, Sender.asTombstone, List.length_cons]
          omega

theorem Holds.empty (holds : page.Holds sent) : (page.out.isEmpty && page.deleted.isEmpty) = sent.isEmpty := by
  have total := holds.count
  unfold PageSoFar.count at total
  cases sent with
  | nil =>
      rw [holds.out, holds.deleted]
      rfl
  | cons x rest =>
      rw [List.length_cons] at total
      cases out : page.out with
      | nil => cases deleted : page.deleted with
          | nil =>
              rw [out, deleted] at total
              cases total
          | cons _ _ => rfl
      | cons _ _ => rfl

theorem Holds.push (holds : page.Holds sent) (a : Address) (row : SnapshotRow) :
    (page.push a row).Holds (sent ++ [(a,row)]) := by
  unfold PageSoFar.push
  constructor
  · cases row <;> simp [holds.out, Sender.asDocument]
  · cases row <;> simp [holds.deleted, Sender.asTombstone]
  · cases row <;> simp [holds.used]

theorem pushResume (page : PageSoFar) (a : Address) (row : SnapshotRow) :
    (page.push a row).resume = some (a.collection,a.key) := by
  unfold PageSoFar.push
  cases row <;> rfl

end PageSoFar

/- Where a page that is cut resumes: after its last row, or where it began. -/
def resumeAfter (start : Option (CollectionId × DocKey)) (sent : List (Address × SnapshotRow)) : Option (CollectionId × DocKey) :=
  match sent.getLast? with
  | some x => some (x.1.collection,x.1.key)
  | none => start

/- The rows that went on the page and those that did not. -/
structure WalkCut (limits : PageLimits) (page : PageSoFar) (sent rows : List (Address × SnapshotRow)) (after : PageSoFar)
    (cut : Bool) (went left : List (Address × SnapshotRow)) : Prop where
  split : rows = went ++ left
  holds : after.Holds (sent ++ went)
  resume : after.resume = resumeAfter page.resume went
  few : (sent ++ went).length ≤ snapshotPageRows
  whole : cut = false → left = []
  progress : cut = true → left ≠ [] ∧ (sent ++ went = [] → limits.first = true)

/- A row that does not fit a page of its own. -/
def Refuses (limits : PageLimits) (sent rows : List (Address × SnapshotRow)) (refused : SnapshotRowTooLarge) : Prop :=
  sent = [] ∧ limits.first = false ∧ ∃ x ∈ rows,
    refused = ⟨rowName x.1 x.2,rowBytes x.1 x.2 + limits.reserved x.1,limits.room⟩ ∧
      limits.room < rowBytes x.1 x.2 + limits.reserved x.1

theorem walkRowsSpec {limits : PageLimits} : ∀ {rows : List (Address × SnapshotRow)} {page : PageSoFar}
    {sent : List (Address × SnapshotRow)}, page.Holds sent → sent.length ≤ snapshotPageRows →
      (∀ x ∈ rows, ¬ limits.untilKey.any (fun last => last < x.1.key) = true) →
      (∀ after cut, walkRows limits page rows = .ok (after,cut) → ∃ went left, WalkCut limits page sent rows after cut went left) ∧
      ∀ refused, walkRows limits page rows = .error refused → Refuses limits sent rows refused
  | [], page, sent, holds, few, _ => by
      refine ⟨fun after cut is => ?_,nofun⟩
      obtain ⟨rfl, rfl⟩ := Prod.mk.inj (Except.ok.inj is)
      refine ⟨[],[],rfl,?_,rfl,?_,fun _ => rfl,nofun⟩
      · rw [List.append_nil]
        exact holds
      · rw [List.append_nil]
        exact few
  | (a,row) :: rest, page, sent, holds, few, inside => by
      have here : ¬ limits.untilKey.any (fun last => last < a.key) = true := inside (a,row) List.mem_cons_self
      have stays (first : sent = [] → limits.first = true) :
          WalkCut limits page sent ((a,row) :: rest) page true [] ((a,row) :: rest) := by
        refine ⟨rfl,?_,rfl,?_,nofun,fun _ => ⟨List.cons_ne_nil _ _,fun none => ?_⟩⟩
        · rw [List.append_nil]
          exact holds
        · rw [List.append_nil]
          exact few
        · rw [List.append_nil] at none
          exact first none
      unfold walkRows
      rw [if_neg here, holds.count]
      split_ifs with full large refuses
      · refine ⟨fun after cut is => ?_,nofun⟩
        obtain ⟨rfl, rfl⟩ := Prod.mk.inj (Except.ok.inj is)
        refine ⟨[],_,stays fun none => ?_⟩
        rw [none] at full
        exact absurd full (by decide)
      · refine ⟨nofun,fun refused is => ?_⟩
        simp only [Bool.and_eq_true, holds.empty, List.isEmpty_iff, Bool.not_eq_true'] at refuses
        obtain ⟨none, first⟩ := refuses
        have unused := holds.used
        rw [none, List.map_nil, List.sum_nil] at unused
        rw [unused, Nat.zero_add] at large
        exact ⟨none,first,(a,row),List.mem_cons_self,(Except.error.inj is).symm,large⟩
      · refine ⟨fun after cut is => ?_,nofun⟩
        obtain ⟨rfl, rfl⟩ := Prod.mk.inj (Except.ok.inj is)
        refine ⟨[],_,stays fun none => ?_⟩
        simp only [Bool.and_eq_true, holds.empty, List.isEmpty_iff, Bool.not_eq_true', not_and, Bool.not_eq_false] at refuses
        exact refuses none
      · have room : (sent ++ [(a,row)]).length ≤ snapshotPageRows := by
          rw [List.length_append, List.length_singleton]
          omega
        obtain ⟨fine, refused⟩ := walkRowsSpec (holds.push a row) room fun x member => inside x (List.mem_cons_of_mem _ member)
        refine ⟨fun after cut is => ?_,fun error is => absurd (refused error is).1 (by simp)⟩
        obtain ⟨went, left, split, held, resume, most, whole, progress⟩ := fine after cut is
        rw [List.append_assoc] at held most progress
        refine ⟨(a,row) :: went,left,congrArg _ split,held,?_,most,whole,progress⟩
        rw [resume, PageSoFar.pushResume]
        unfold resumeAfter
        cases went with
        | nil => rfl
        | cons y more =>
            rw [List.getLast?_cons_cons]
            cases last : (y :: more).getLast? with
            | some x => rfl
            | none => exact absurd (List.getLast?_eq_none_iff.mp last) (List.cons_ne_nil _ _)


namespace Sender
variable (s : Sender)

/- The rows of the collections that a page visits. -/
def visited (visits : List (CollectionId × Option DocKey)) : List (Address × SnapshotRow) :=
  visits.flatMap fun v => if (s.standing.get v.1).isSome then s.rowsAfter v.1 v.2 else []

variable {s}

theorem memRowsAfter {id : CollectionId} {after : Option DocKey} {x : Address × SnapshotRow} :
    x ∈ s.rowsAfter id after ↔ x ∈ s.docs.entries ∧ x.1.collection = id ∧ ∀ key, after = some key → key < x.1.key := by
  unfold rowsAfter
  rw [List.mem_filter, Bool.and_eq_true, decide_eq_true_eq]
  cases after <;> simp

theorem positionLt {a b : Address} : a < b ↔ a.collection < b.collection ∨ a.collection = b.collection ∧ a.key < b.key :=
  Prod.Lex.toLex_lt_toLex

/- Every row of a visit lies after the position it starts from. -/
theorem afterStart {id : CollectionId} {after : Option DocKey} {x : Address × SnapshotRow} (member : x ∈ s.rowsAfter id after) :
    (⟨id,after.getD []⟩ : Address) < x.1 := by
  obtain ⟨stored, own, later⟩ := memRowsAfter.mp member
  refine positionLt.mpr (Or.inr ⟨own.symm,?_⟩)
  cases after with
  | none =>
      show [] < x.1.key
      cases nonempty : x.1.key with
      | nil => exact absurd nonempty (s.keyed x stored)
      | cons b more => exact List.nil_lt_cons b more
  | some key => exact later key rfl

theorem memVisited {visits : List (CollectionId × Option DocKey)} {x : Address × SnapshotRow} :
    x ∈ s.visited visits ↔ ∃ v ∈ visits, (s.standing.get v.1).isSome = true ∧ x ∈ s.rowsAfter v.1 v.2 := by
  unfold visited
  rw [List.mem_flatMap]
  refine exists_congr fun v => and_congr_right fun _ => ?_
  split_ifs with stands
  · exact (and_iff_right stands).symm
  · exact iff_of_false List.not_mem_nil fun wrong => stands wrong.1

theorem rowsAfterSorted (id : CollectionId) (after : Option DocKey) :
    (s.rowsAfter id after).Pairwise fun x y => x.1 < y.1 := s.docs.sorted.filter _

theorem visitedSorted : ∀ {visits : List (CollectionId × Option DocKey)}, (visits.map Prod.fst).Pairwise (· < ·) →
    (s.visited visits).Pairwise fun x y => x.1 < y.1
  | [], _ => List.Pairwise.nil
  | v :: rest, ascending => by
      obtain ⟨least, tail⟩ := List.pairwise_cons.mp ascending
      have split : s.visited (v :: rest) = (if (s.standing.get v.1).isSome then s.rowsAfter v.1 v.2 else []) ++ s.visited rest :=
        List.flatMap_cons
      rw [split, List.pairwise_append]
      refine ⟨?_,visitedSorted tail,fun x here y there => ?_⟩
      · split_ifs
        · exact rowsAfterSorted v.1 v.2
        · exact List.Pairwise.nil
      · split_ifs at here
        · obtain ⟨w, later, _, row⟩ := memVisited.mp there
          refine positionLt.mpr (Or.inl ?_)
          rw [(memRowsAfter.mp here).2.1, (memRowsAfter.mp row).2.1]
          exact least w.1 (List.mem_map_of_mem later)
        · exact absurd here List.not_mem_nil

/- A page that is cut names the position between the rows it sent and those it did not. -/
structure Stops (limits : PageLimits) (sent : List (Address × SnapshotRow)) (visits : List (CollectionId × Option DocKey))
    (after : PageSoFar) (went left : List (Address × SnapshotRow)) : Prop where
  some : left ≠ []
  first : sent ++ went = [] → limits.first = true
  between : ∃ p : Address, after.resume = Option.some (p.collection,p.key) ∧ (∀ x ∈ went, x.1 ≤ p) ∧
    (∀ x ∈ left, p < x.1) ∧ ∃ v ∈ visits, p.collection = v.1 ∧ (s.standing.get v.1).isSome = true ∧
      (⟨v.1,v.2.getD []⟩ : Address) ≤ p

theorem walkCollectionsSpec {limits : PageLimits} : ∀ {visits : List (CollectionId × Option DocKey)} {page : PageSoFar}
    {sent : List (Address × SnapshotRow)}, page.Holds sent → sent.length ≤ snapshotPageRows →
      (∀ x ∈ s.visited visits, ¬ limits.untilKey.any (fun last => last < x.1.key) = true) →
      (visits.map Prod.fst).Pairwise (· < ·) → (∀ v ∈ visits.tail, v.2 = none) →
      (page.resume = none ∨ ∀ v ∈ visits, v.2 = none) →
      (∀ after cut, s.walkCollections limits page visits = .ok (after,cut) → ∃ went left,
        s.visited visits = went ++ left ∧ after.Holds (sent ++ went) ∧ (sent ++ went).length ≤ snapshotPageRows ∧
          (cut = false → left = []) ∧ (cut = true → Stops (s := s) limits sent visits after went left)) ∧
      ∀ refused, s.walkCollections limits page visits = .error refused → Refuses limits sent (s.visited visits) refused
  | [], page, sent, holds, few, _, _, _, _ => by
      refine ⟨fun after cut is => ?_,nofun⟩
      obtain ⟨rfl, rfl⟩ := Prod.mk.inj (Except.ok.inj is)
      refine ⟨[],[],rfl,?_,?_,fun _ => rfl,nofun⟩
      · rw [List.append_nil]
        exact holds
      · rw [List.append_nil]
        exact few
  | (id,start) :: rest, page, sent, holds, few, inside, ascending, plain, fresh => by
      obtain ⟨least, tail⟩ := List.pairwise_cons.mp ascending
      have split : s.visited ((id,start) :: rest) =
          (if (s.standing.get id).isSome then s.rowsAfter id start else []) ++ s.visited rest := List.flatMap_cons
      -- the page begins the collection at its start
      obtain ⟨begun, is, resume⟩ : ∃ begun : PageSoFar,
          (if page.resume.isNone || start.isNone then { page with resume := Option.some (id,start.getD []) } else page) = begun ∧
            begun.resume = Option.some (id,start.getD []) := by
        refine ⟨_,rfl,?_⟩
        rw [if_pos]
        rcases fresh with none' | all
        · rw [none']
          rfl
        · have none' : start = none := all (id,start) List.mem_cons_self
          rw [none', Bool.or_comm]
          rfl
      have begunHolds : begun.Holds sent := by
        rw [← is]
        split_ifs
        · exact ⟨holds.out,holds.deleted,holds.used⟩
        · exact holds
      have further (page : PageSoFar) (sent : List (Address × SnapshotRow)) (holds : page.Holds sent)
          (few : sent.length ≤ snapshotPageRows) :=
        @walkCollectionsSpec limits rest page sent holds few
          (fun x member => inside x (split ▸ List.mem_append_right _ member)) tail
          (fun v member => plain v (List.mem_of_mem_tail member)) (Or.inr fun v member => plain v member)
      unfold walkCollections
      simp only [is]
      by_cases stands : (s.standing.get id).isSome = true
      · rw [if_pos stands] at split ⊢
        obtain ⟨fine, refused⟩ := @walkRowsSpec limits (s.rowsAfter id start) begun sent begunHolds few
          fun x member => inside x (split ▸ List.mem_append_left _ member)
        have later {x y : Address × SnapshotRow} (here : x.1.collection = id) (there : y ∈ s.visited rest) : x.1 < y.1 := by
          obtain ⟨w, member, _, row⟩ := memVisited.mp there
          refine positionLt.mpr (Or.inl ?_)
          rw [here, (memRowsAfter.mp row).2.1]
          exact least w.1 (List.mem_map_of_mem member)
        cases walked : walkRows limits begun (s.rowsAfter id start) with
        | error refusal =>
            refine ⟨nofun,fun error same => ?_⟩
            obtain rfl := Except.error.inj same
            obtain ⟨none', first, x, member, rest⟩ := refused refusal walked
            exact ⟨none',first,x,split ▸ List.mem_append_left _ member,rest⟩
        | ok result =>
            obtain ⟨middle, cut⟩ := result
            obtain ⟨went, left, parts, held, resumed, most, whole, progress⟩ := fine middle cut walked
            cases cut with
            | true =>
                refine ⟨fun after cut same => ?_,nofun⟩
                obtain ⟨rfl, rfl⟩ := Prod.mk.inj (Except.ok.inj same)
                obtain ⟨some', first⟩ := progress rfl
                refine ⟨went,left ++ s.visited rest,?_,held,most,nofun,fun _ => ⟨?_,first,?_⟩⟩
                · rw [split, parts, List.append_assoc]
                · intro none'
                  exact some' (List.append_eq_nil_iff.mp none').1
                · have inOrder := rowsAfterSorted (s := s) id start
                  rw [parts] at inOrder
                  have own (x : Address × SnapshotRow) (member : x ∈ went ++ left) : x.1.collection = id :=
                    (memRowsAfter.mp (parts ▸ member)).2.1
                  rw [resume] at resumed
                  unfold resumeAfter at resumed
                  cases last : went.getLast? with
                  | none =>
                      rw [last] at resumed
                      obtain rfl := List.getLast?_eq_none_iff.mp last
                      refine ⟨⟨id,start.getD []⟩,resumed,nofun,fun x member => ?_,(id,start),List.mem_cons_self,rfl,stands,le_rfl⟩
                      rcases List.mem_append.mp member with here | there
                      · rw [List.nil_append] at parts
                        exact afterStart (parts ▸ here)
                      · obtain ⟨w, further, _, row⟩ := memVisited.mp there
                        refine positionLt.mpr (Or.inl ?_)
                        rw [(memRowsAfter.mp row).2.1]
                        exact least w.1 (List.mem_map_of_mem further)
                  | some z =>
                      rw [last] at resumed
                      obtain ⟨before, rfl⟩ := List.getLast?_eq_some_iff.mp last
                      have mine : z ∈ before ++ [z] ++ left := by simp
                      refine ⟨z.1,resumed,fun x member => ?_,fun x member => ?_,(id,start),List.mem_cons_self,own z mine,stands,
                        (afterStart (parts ▸ mine)).le⟩
                      · rcases List.mem_append.mp member with earlier | same
                        · have sorted := (List.pairwise_append.mp inOrder).1
                          exact ((List.pairwise_append.mp sorted).2.2 x earlier z (List.mem_singleton.mpr rfl)).le
                        · rw [List.mem_singleton.mp same]
                      · rcases List.mem_append.mp member with here | there
                        · exact (List.pairwise_append.mp inOrder).2.2 z (by simp) x here
                        · exact later (own z mine) there
            | false =>
                obtain rfl := whole rfl
                rw [List.append_nil] at parts
                obtain ⟨more, refuses⟩ := further middle _ held most
                refine ⟨fun after cut same => ?_,fun error same => ?_⟩
                · obtain ⟨next, left, divided, holds, few, whole, stops⟩ := more after cut same
                  rw [List.append_assoc] at holds few
                  refine ⟨went ++ next,left,?_,holds,few,whole,fun cuts => ?_⟩
                  · rw [split, parts, divided, List.append_assoc]
                  · obtain ⟨some', first, p, at', below, above, v, member, placed, rest⟩ := stops cuts
                    rw [List.append_assoc] at first
                    refine ⟨some',first,p,at',fun x there => ?_,above,v,List.mem_cons_of_mem _ member,placed,rest⟩
                    rcases List.mem_append.mp there with early | late
                    · refine (positionLt.mpr (Or.inl ?_)).le
                      rw [(memRowsAfter.mp (parts ▸ early)).2.1, placed]
                      exact least v.1 (List.mem_map_of_mem member)
                    · exact below x late
                · obtain ⟨none', first, x, member, rest⟩ := refuses error same
                  exact ⟨(List.append_eq_nil_iff.mp none').1,first,x,split ▸ List.mem_append_right _ member,rest⟩
      · rw [if_neg stands] at split ⊢
        obtain ⟨more, refuses⟩ := further begun sent begunHolds few
        rw [List.nil_append] at split
        rw [split]
        refine ⟨fun after cut same => ?_,refuses⟩
        obtain ⟨went, left, parts, held, most, whole, stops⟩ := more after cut same
        refine ⟨went,left,parts,held,most,whole,fun is => ?_⟩
        obtain ⟨some', first, p, at', below, above, v, member, rest⟩ := stops is
        exact ⟨some',first,p,at',below,above,v,List.mem_cons_of_mem _ member,rest⟩

/-! From page to page. -/

/- A cursor that a page of this snapshot has named. -/
def Named (s : Sender) (scope : Option CollectionId) : Option SnapshotCursor → Prop
  | none => True
  | some cursor => cursor.collection ∈ s.live scope ∧ cursor.untilKey = s.untilKey none scope

/- The rows that are still to come. -/
def remaining (s : Sender) (scope : Option CollectionId) (after : Option SnapshotCursor) : List (Address × SnapshotRow) :=
  (s.rows scope).filter fun x => after.all fun cursor => (⟨cursor.collection,cursor.afterKey⟩ : Address) < x.1

theorem memLive {scope : Option CollectionId} {id : CollectionId} :
    id ∈ s.live scope ↔ (s.standing.get id).isSome = true ∧ ∀ one, scope = some one → one = id := by
  unfold live
  rw [List.mem_filter, List.mem_map]
  refine and_congr ⟨fun found => ?_,fun stands => ?_⟩ ?_
  · obtain ⟨x, member, rfl⟩ := found
    rw [SortedMap.memEntry.mp member]
    rfl
  · obtain ⟨v, is⟩ := Option.isSome_iff_exists.mp stands
    exact ⟨(id,v),SortedMap.memEntries.mpr is,rfl⟩
  · cases scope <;> simp

theorem liveSorted (scope : Option CollectionId) : (s.live scope).Pairwise (· < ·) :=
  (List.pairwise_map.mpr s.standing.sorted).filter _

theorem memRemaining {scope : Option CollectionId} {after : Option SnapshotCursor} {x : Address × SnapshotRow} :
    x ∈ s.remaining scope after ↔ x ∈ s.docs.entries ∧ x.1.collection ∈ s.live scope ∧
      ∀ cursor, after = some cursor → (⟨cursor.collection,cursor.afterKey⟩ : Address) < x.1 := by
  unfold remaining rows
  rw [List.mem_filter, List.mem_filter, decide_eq_true_eq, and_assoc]
  refine and_congr_right fun _ => and_congr_right fun _ => ?_
  cases after <;> simp

theorem remainingSorted (scope : Option CollectionId) (after : Option SnapshotCursor) :
    (s.remaining scope after).Pairwise fun x y => x.1 < y.1 := (s.docs.sorted.filter _).filter _

theorem visitsAscending (after : Option SnapshotCursor) (scope : Option CollectionId) :
    ((s.visits after scope).map Prod.fst).Pairwise (· < ·) := by
  unfold visits
  cases after with
  | none =>
      simp only [List.map_map]
      exact (List.map_id _).symm ▸ liveSorted scope
  | some cursor =>
      simp only [List.map_cons, List.map_map]
      refine List.pairwise_cons.mpr ⟨fun id member => ?_,?_⟩
      · obtain ⟨other, there, rfl⟩ := List.mem_map.mp member
        exact of_decide_eq_true (List.mem_filter.mp there).2
      · exact (List.map_id _).symm ▸ (liveSorted scope).filter _

theorem visitsPlain (after : Option SnapshotCursor) (scope : Option CollectionId) :
    ∀ v ∈ (s.visits after scope).tail, v.2 = none := by
  intro v member
  unfold visits at member
  cases after with
  | none =>
      obtain ⟨id, _, rfl⟩ := List.mem_map.mp (List.mem_of_mem_tail member)
      rfl
  | some cursor =>
      obtain ⟨id, _, rfl⟩ := List.mem_map.mp member
      rfl

theorem memVisitedRemaining {scope : Option CollectionId} {after : Option SnapshotCursor} (named : s.Named scope after)
    {x : Address × SnapshotRow} : x ∈ s.visited (s.visits after scope) ↔ x ∈ s.remaining scope after := by
  rw [memVisited, memRemaining]
  unfold visits
  cases after with
  | none =>
      constructor
      · rintro ⟨v, member, stands, row⟩
        obtain ⟨id, live, rfl⟩ := List.mem_map.mp member
        obtain ⟨stored, own, _⟩ := memRowsAfter.mp row
        exact ⟨stored,own ▸ live,nofun⟩
      · rintro ⟨stored, live, _⟩
        exact ⟨(x.1.collection,none),List.mem_map_of_mem live,(memLive.mp live).1,memRowsAfter.mpr ⟨stored,rfl,nofun⟩⟩
  | some cursor =>
      constructor
      · rintro ⟨v, member, stands, row⟩
        obtain ⟨stored, own, later⟩ := memRowsAfter.mp row
        rcases List.mem_cons.mp member with rfl | rest
        · refine ⟨stored,own ▸ named.1,fun other is => ?_⟩
          obtain rfl := Option.some.inj is
          exact afterStart row
        · obtain ⟨id, there, rfl⟩ := List.mem_map.mp rest
          obtain ⟨live, above⟩ := List.mem_filter.mp there
          refine ⟨stored,own ▸ live,fun other is => ?_⟩
          obtain rfl := Option.some.inj is
          exact positionLt.mpr (Or.inl (own ▸ of_decide_eq_true above))
      · rintro ⟨stored, live, past⟩
        rcases positionLt.mp (past cursor rfl) with above | ⟨same, later⟩
        · refine ⟨(x.1.collection,none),List.mem_cons_of_mem _ ?_,(memLive.mp live).1,memRowsAfter.mpr ⟨stored,rfl,nofun⟩⟩
          exact List.mem_map_of_mem (List.mem_filter.mpr ⟨live,decide_eq_true above⟩)
        · refine ⟨(cursor.collection,some cursor.afterKey),List.mem_cons_self,(memLive.mp named.1).1,?_⟩
          refine memRowsAfter.mpr ⟨stored,same.symm,fun key is => ?_⟩
          obtain rfl := Option.some.inj is
          exact later

/- Two ascending lists of the same rows are one. -/
theorem ascendingUnique : ∀ {xs ys : List (Address × SnapshotRow)}, xs.Pairwise (fun x y => x.1 < y.1) →
    ys.Pairwise (fun x y => x.1 < y.1) → (∀ x, x ∈ xs ↔ x ∈ ys) → xs = ys := by
  intro xs ys first second same
  have nodup {zs : List (Address × SnapshotRow)} (sorted : zs.Pairwise fun x y => x.1 < y.1) : zs.Nodup :=
    sorted.imp fun below is => absurd (congrArg Prod.fst is) below.ne
  exact ((List.perm_ext_iff_of_nodup (nodup first) (nodup second)).mpr same).eq_of_pairwise
    (fun x y _ _ below above => absurd (below.trans above) (lt_irrefl _)) first second

theorem visitedRemaining {scope : Option CollectionId} {after : Option SnapshotCursor} (named : s.Named scope after) :
    s.visited (s.visits after scope) = s.remaining scope after :=
  ascendingUnique (visitedSorted (visitsAscending after scope)) (remainingSorted scope after) fun _ => memVisitedRemaining named

theorem untilNamed {scope : Option CollectionId} {after : Option SnapshotCursor} (named : s.Named scope after) :
    s.untilKey after scope = s.untilKey none scope := by
  cases after with
  | none => rfl
  | some cursor => cases scope with
      | none => rfl
      | some id => exact named.2

/- No row lies past the key that a snapshot of one collection ends at. -/
theorem insideUntil {scope : Option CollectionId} {x : Address × SnapshotRow} (stored : x ∈ s.docs.entries)
    (live : x.1.collection ∈ s.live scope) : ¬ (s.untilKey none scope).any (fun last => last < x.1.key) = true := by
  cases scope with
  | none => exact Bool.false_ne_true
  | some id =>
      have own : x.1.collection = id := ((memLive.mp live).2 id rfl).symm
      have member : x ∈ s.rowsAfter id none := memRowsAfter.mpr ⟨stored,own,nofun⟩
      unfold untilKey
      cases last : (s.rowsAfter id none).getLast? with
      | none =>
          rw [List.getLast?_eq_none_iff.mp last] at member
          exact absurd member List.not_mem_nil
      | some z =>
          obtain ⟨before, split⟩ := List.getLast?_eq_some_iff.mp last
          have sorted := rowsAfterSorted (s := s) id none
          have there : z ∈ s.rowsAfter id none := by
            rw [split]
            simp
          rw [split] at member sorted
          have most : x.1.key ≤ z.1.key := by
            rcases List.mem_append.mp member with earlier | same
            · rcases positionLt.mp ((List.pairwise_append.mp sorted).2.2 x earlier z (List.mem_singleton.mpr rfl)) with
                other | ⟨_, below⟩
              · rw [own, (memRowsAfter.mp there).2.1] at other
                exact absurd other (lt_irrefl _)
              · exact below.le
            · rw [List.mem_singleton.mp same]
          simp only [last, Option.map_some, Option.any_some, decide_eq_true_eq]
          exact not_lt.mpr most

def position (cursor : SnapshotCursor) : Address := ⟨cursor.collection,cursor.afterKey⟩

/- What a page sends, and what the cursor it names leaves to send. -/
structure Sends (s : Sender) (scope : Option CollectionId) (after : Option SnapshotCursor) (page : SnapshotPage)
    (went left : List (Address × SnapshotRow)) : Prop where
  split : s.remaining scope after = went ++ left
  documents : page.documents = went.filterMap asDocument
  deleted : page.deletedDocuments = went.filterMap asTombstone
  few : page.documents.length + page.deletedDocuments.length ≤ snapshotPageRows
  last : page.next = none → left = []
  named : s.Named scope page.next
  rest : ∀ cursor, page.next = some cursor → s.remaining scope (some cursor) = left
  carries : page.next ≠ none → after ≠ none → 0 < page.documents.length + page.deletedDocuments.length
  forward : ∀ old new, after = some old → page.next = some new → position old < position new

theorem pageSends {scope : Option CollectionId} {after : Option SnapshotCursor} (named : s.Named scope after) :
    (∀ page, s.snapshotPage after scope = .ok page → ∃ went left, Sends s scope after page went left) ∧
      ∀ refused, s.snapshotPage after scope = .error refused → after ≠ none ∧ ∃ x ∈ s.remaining scope after,
        refused.what = rowName x.1 x.2 ∧
          s.room false < rowBytes x.1 x.2 + cursorReserve x.1.key.length ((s.untilKey none scope).elim 0 List.length) := by
  have visited := visitedRemaining named
  have until' := untilNamed named
  obtain ⟨fine, refuses⟩ := @walkCollectionsSpec s ⟨s.room after.isNone,after.isNone,s.untilKey after scope⟩
    (s.visits after scope) ⟨[],[],0,none⟩ [] ⟨rfl,rfl,rfl⟩ (Nat.zero_le _)
    (fun x member => by
      rw [visited] at member
      obtain ⟨stored, live, _⟩ := memRemaining.mp member
      rw [until']
      exact insideUntil stored live)
    (visitsAscending after scope) (visitsPlain after scope) (Or.inl rfl)
  rw [visited] at fine refuses
  unfold snapshotPage
  simp only
  cases walked : s.walkCollections ⟨s.room after.isNone,after.isNone,s.untilKey after scope⟩ ⟨[],[],0,none⟩
      (s.visits after scope) with
  | error refusal =>
      refine ⟨nofun,fun refused is => ?_⟩
      obtain rfl := Except.error.inj is
      obtain ⟨_, first, x, member, same, large⟩ := refuses refusal walked
      rw [same]
      simp only at first large
      rw [first] at large
      have open' : after ≠ none := fun none' => by
        rw [none'] at first
        cases first
      refine ⟨open',x,member,rfl,?_⟩
      unfold PageLimits.reserved at large
      rw [until'] at large
      exact large
  | ok result =>
      obtain ⟨held, cut⟩ := result
      refine ⟨fun page is => ?_,nofun⟩
      obtain ⟨went, left, split, holds, few, whole, stops⟩ := fine held cut walked
      rw [List.nil_append] at holds few
      have count := holds.count
      unfold PageSoFar.count at count
      obtain rfl := Except.ok.inj is
      cases cut with
      | false =>
          refine ⟨went,left,split,holds.out,holds.deleted,?_,fun _ => whole rfl,trivial,nofun,fun some => absurd rfl some,nofun⟩
          simp only
          rw [count]
          exact few
      | true =>
          obtain ⟨some', first, p, resume, below, above, v, member, placed, stands, least⟩ := stops rfl
          rw [List.nil_append] at first
          simp only [resume, if_true, Option.map_some]
          -- nothing before the position is left, and nothing after it was sent
          have live : p.collection ∈ s.live scope := by
            rw [placed]
            unfold visits at member
            cases after with
            | none =>
                obtain ⟨id, there, rfl⟩ := List.mem_map.mp member
                exact there
            | some cursor =>
                rcases List.mem_cons.mp member with rfl | later
                · exact named.1
                · obtain ⟨id, there, rfl⟩ := List.mem_map.mp later
                  exact (List.mem_filter.mp there).1
          have from' (cursor : SnapshotCursor) (is : after = some cursor) : position cursor ≤ p := by
            subst is
            unfold visits at member
            rcases List.mem_cons.mp member with rfl | later
            · exact least
            · obtain ⟨id, there, rfl⟩ := List.mem_map.mp later
              refine (positionLt.mpr (Or.inl ?_)).le
              rw [placed]
              exact of_decide_eq_true (List.mem_filter.mp there).2
          have rest : s.remaining scope (some ⟨p.collection,p.key,s.untilKey after scope⟩) = left := by
            have sorted := remainingSorted (s := s) scope after
            rw [split] at sorted
            refine ascendingUnique (remainingSorted scope _) (List.pairwise_append.mp sorted).2.1 fun x => ?_
            constructor
            · intro there
              obtain ⟨stored, inScope, past⟩ := memRemaining.mp there
              have beyond : p < x.1 := past _ rfl
              have before : x ∈ s.remaining scope after :=
                memRemaining.mpr ⟨stored,inScope,fun cursor is => lt_of_le_of_lt (from' cursor is) beyond⟩
              rw [split] at before
              rcases List.mem_append.mp before with sent | unsent
              · exact absurd (below x sent) (not_le.mpr beyond)
              · exact unsent
            · intro there
              obtain ⟨stored, inScope, _⟩ := memRemaining.mp (split ▸ List.mem_append_right _ there)
              refine memRemaining.mpr ⟨stored,inScope,fun cursor is => ?_⟩
              obtain rfl := Option.some.inj is
              exact above x there
          have carried (open' : after ≠ none) : went ≠ [] := by
            intro empty
            have := first empty
            cases after with
            | none => exact open' rfl
            | some cursor => cases this
          refine ⟨went,left,split,holds.out,holds.deleted,?_,nofun,⟨live,until'⟩,fun cursor is => ?_,fun _ open' => ?_,
            fun old new is goes => ?_⟩
          · simp only
            rw [count]
            exact few
          · obtain rfl := Option.some.inj is
            exact rest
          · simp only
            rw [count]
            exact List.length_pos_iff.mpr (carried open')
          · obtain rfl := Option.some.inj goes
            obtain ⟨x, rows, same⟩ := List.exists_cons_of_ne_nil (carried (by rw [is]; exact Option.some_ne_none old))
            have head : x ∈ went := by
              rw [same]
              exact List.mem_cons_self
            obtain ⟨_, _, past⟩ := memRemaining.mp (split ▸ List.mem_append_left left head)
            exact lt_of_lt_of_le (past old is) (below x head)

/- The rows of a page. -/
def pageRows (page : SnapshotPage) : Nat := page.documents.length + page.deletedDocuments.length

/- The pages of a pull from a cursor on. -/
structure Complete (s : Sender) (scope : Option CollectionId) (after : Option SnapshotCursor)
    (pulled : List SnapshotPage × PullEnd) : Prop where
  ends : pulled.2 ≠ .unfinished
  whole : pulled.2 = .complete →
    pulled.1.flatMap (·.documents) = (s.remaining scope after).filterMap asDocument ∧
      pulled.1.flatMap (·.deletedDocuments) = (s.remaining scope after).filterMap asTombstone
  refused : ∀ error, pulled.2 = .refused error → ∃ x ∈ s.rows scope, error.what = rowName x.1 x.2 ∧
    ∀ first, s.room first < rowBytes x.1 x.2 + cursorReserve x.1.key.length ((s.untilKey none scope).elim 0 List.length)
  few : ∀ page ∈ pulled.1, pageRows page ≤ snapshotPageRows
  forward : (after.toList ++ pulled.1.filterMap (·.next)).Pairwise fun x y => position x < position y
  carries : ∀ page ∈ (if after.isNone then pulled.1.tail else pulled.1), page.next ≠ none → 0 < pageRows page

theorem pullComplete {scope : Option CollectionId} : ∀ {turns : Nat} {after : Option SnapshotCursor}, s.Named scope after →
    (s.remaining scope after).length + (if after.isNone then 2 else 1) ≤ turns →
      Complete s scope after (s.pull scope turns after)
  | 0, after, _, enough => by
      split_ifs at enough
      · omega
      · omega
  | turns + 1, after, named, enough => by
      obtain ⟨fine, refuses⟩ := pageSends named
      unfold pull
      cases answer : s.snapshotPage after scope with
      | error refusal =>
          obtain ⟨open', x, member, what, large⟩ := refuses refusal answer
          refine ⟨nofun,nofun,fun error is => ?_,nofun,?_,?_⟩
          · obtain rfl := PullEnd.refused.inj is
            obtain ⟨stored, live, _⟩ := memRemaining.mp member
            refine ⟨x,List.mem_filter.mpr ⟨stored,decide_eq_true live⟩,what,fun first => lt_of_le_of_lt ?_ large⟩
            exact Nat.sub_le_sub_left (Nat.add_le_add_left (Nat.zero_le _) _) _
          · cases after <;> simp
          · cases after <;> exact nofun
      | ok page =>
          obtain ⟨went, left, sends⟩ := fine page answer
          have few : pageRows page ≤ snapshotPageRows := sends.few
          cases next : page.next with
          | none =>
              simp only [next]
              have nothing := sends.last next
              have split := sends.split
              rw [nothing, List.append_nil] at split
              refine ⟨nofun,fun _ => ⟨?_,?_⟩,nofun,?_,?_,?_⟩
              · simp [sends.documents, split]
              · simp [sends.deleted, split]
              · intro other member
                rw [List.mem_singleton.mp member]
                exact few
              · rw [List.filterMap_cons, next]
                cases after <;> simp
              · intro other member some
                cases after with
                | none => exact absurd member List.not_mem_nil
                | some cursor =>
                    rw [List.mem_singleton.mp member] at some
                    exact absurd next some
          | some cursor =>
              simp only [next]
              have rest := sends.rest cursor next
              have counted : pageRows page = went.length := by
                have holds : (⟨page.documents,page.deletedDocuments,(went.map fun x => rowBytes x.1 x.2).sum,none⟩ : PageSoFar).Holds went :=
                  ⟨sends.documents,sends.deleted,rfl⟩
                exact holds.count
              have length := congrArg List.length sends.split
              rw [List.length_append] at length
              have more : after ≠ none → 0 < pageRows page := sends.carries (by rw [next]; exact Option.some_ne_none cursor)
              have further := @pullComplete scope turns (some cursor) (next ▸ sends.named) (by
                rw [rest]
                cases after with
                | none =>
                    simp only [Option.isNone_none, if_true, Option.isNone_some, Bool.false_eq_true, if_false] at enough ⊢
                    omega
                | some old =>
                    have := more (Option.some_ne_none old)
                    simp only [Option.isNone_some, Bool.false_eq_true, if_false] at enough ⊢
                    omega)
              obtain ⟨ends, whole, refused, short, forward, carries⟩ := further
              refine ⟨ends,fun complete => ?_,refused,?_,?_,?_⟩
              · obtain ⟨documents, deleted⟩ := whole complete
                rw [List.flatMap_cons, List.flatMap_cons, documents, deleted, rest, sends.documents, sends.deleted, sends.split,
                  List.filterMap_append, List.filterMap_append]
                exact ⟨rfl,rfl⟩
              · intro other member
                rcases List.mem_cons.mp member with rfl | later
                · exact few
                · exact short other later
              · rw [List.filterMap_cons, next]
                simp only [Option.toList_some, List.singleton_append] at forward
                cases after with
                | none => exact forward
                | some old =>
                    refine List.pairwise_cons.mpr ⟨fun other member => ?_,forward⟩
                    have step := sends.forward old cursor rfl next
                    rcases List.mem_cons.mp member with rfl | later
                    · exact step
                    · exact step.trans ((List.pairwise_cons.mp forward).1 other later)
              · intro other member some
                simp only [Option.isNone_some, Bool.false_eq_true, if_false] at carries
                cases after with
                | none => exact carries other member some
                | some old =>
                    rcases List.mem_cons.mp member with rfl | later
                    · exact more (Option.some_ne_none old)
                    · exact carries other later some

/- Following the cursors from the first page, no more than a page a row and two, sends the documents and the
tombstones of the standing collections in scope in the order of their keys, each once, or stops at a row that no
page has room for. No cursor is named twice, and only the first page may carry nothing and yet not be the last. -/
theorem snapshotPagesComplete (s : Sender) (scope : Option CollectionId) :
    let pulled := s.pull scope ((s.rows scope).length + 2) none
    pulled.2 ≠ .unfinished ∧ ((s.rows scope).Pairwise fun x y => x.1 < y.1) ∧
      (pulled.2 = .complete → pulled.1.flatMap (·.documents) = (s.rows scope).filterMap asDocument ∧
        pulled.1.flatMap (·.deletedDocuments) = (s.rows scope).filterMap asTombstone) ∧
      (∀ error, pulled.2 = .refused error → ∃ x ∈ s.rows scope, error.what = rowName x.1 x.2 ∧
        ∀ first, s.room first < rowBytes x.1 x.2 + cursorReserve x.1.key.length ((s.untilKey none scope).elim 0 List.length)) ∧
      (∀ page ∈ pulled.1, pageRows page ≤ snapshotPageRows) ∧
      ((pulled.1.filterMap (·.next)).Pairwise fun x y => position x < position y) ∧
      ∀ page ∈ pulled.1.tail, page.next ≠ none → 0 < pageRows page := by
  intro pulled
  have all : s.remaining scope none = s.rows scope := List.filter_eq_self.mpr fun _ _ => rfl
  obtain ⟨ends, whole, refused, few, forward, carries⟩ := @pullComplete s scope ((s.rows scope).length + 2) none trivial
    (by rw [all]; exact le_rfl)
  rw [all] at whole
  exact ⟨ends,s.docs.sorted.filter _,whole,refused,few,forward,carries⟩

end Sender
end Kimmy.Store
