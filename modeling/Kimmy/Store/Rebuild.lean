import Kimmy.Resumed
import Kimmy.Store.LiveExact

/-!
The rebuild of an open (`live_walk.rs`), commit by commit: the deletion of the marks when the start forces it, the decision to
resume a walk or begin one, and the chunks, each of which reads rows up to its bounds or a stop and commits them with a cursor.
A build is what its code reads of a row and hashes; the rows stand as bytes that a build may not be able to read.
-/
namespace Kimmy.Store.Rebuild
open Merge

section
variable {ρ : Type}

/- `doc_record_header`, the hash of a term and the digest format. -/
structure Build (ρ : Type) where
  header : ρ → Option Header
  term : DocKey → Stamp → Digest
  format : Nat

structure Cursor where
  build : String
  schema : Nat
  format : Nat
  stoppedCleanly : Bool
  after : Option Address
  rows : Nat
  bytes : Nat
  collections : Nat

/- What is committed; `mark` is what the oplog and the arrival index give. -/
structure Disk (ρ : Type) where
  docs : SortedMap Address ρ
  schema : Nat
  mark : Mark
  counts : SortedMap CollectionId Nat
  digests : SortedMap CollectionId DigestRow
  countsThrough : Option Mark
  digestsThrough : Option (Nat × Mark)
  walk : Option Cursor

/-! One row. -/

/- `fold_walked`, with the count beside it. -/
def foldHeader (term : DocKey → Stamp → Digest) (w : Walked) (place : Address) (stamp : Stamp) (live : Bool) : Walked :=
  let row := (w.digests.get place.collection).getD .new
  let row := if live then { row with digest := row.digest ^^^ term place.key stamp } else row.raiseBare stamp
  { counts := if live then w.counts.insert place.collection ((w.counts.get place.collection).getD 0 + 1) else w.counts
    digests := w.digests.insert place.collection (row.raiseMaxw stamp) }

/- An unreadable record is not counted. -/
def foldRow (build : Build ρ) (w : Walked) (x : Address × ρ) : Walked :=
  match build.header x.2 with
  | some (stamp,live) => foldHeader build.term w x.1 stamp live
  | none => w

/- One uninterrupted fold. -/
def foldAll (build : Build ρ) (rows : List (Address × ρ)) : Walked := rows.foldl (foldRow build) ⟨.empty,.empty⟩

/-! One chunk. -/

structure Bounds where
  chunkBytes : Nat
  chunkRows : Nat
  stopEvery : Nat
  stopEveryBytes : Nat

structure Chunk where
  walked : Walked
  rows : Nat
  bytes : Nat
  sinceLook : Nat
  last : Option Address
  collections : Nat
  lastCollection : Option CollectionId

inductive Ending where
  | finished
  | full
  | stopped
  deriving DecidableEq

variable (build : Build ρ) (size : Address × ρ → Nat) (bounds : Bounds)

def Chunk.read (c : Chunk) (x : Address × ρ) : Chunk where
  walked := foldRow build c.walked x
  rows := c.rows + 1
  bytes := c.bytes + size x
  sinceLook := c.sinceLook + size x
  last := some x.1
  collections := if c.lastCollection = some x.1.collection then c.collections else c.collections + 1
  lastCollection := some x.1.collection

/- Whether a stop is looked for before the next row. -/
def Chunk.looks (c : Chunk) : Bool := c.rows % bounds.stopEvery == 0 || decide (bounds.stopEveryBytes ≤ c.sinceLook)

/- The loop over the rows after the cursor; `stop` is what `stop_requested` answers at so many rows in all. -/
def scan (stop : Nat → Bool) (done : Nat) : List (Address × ρ) → Chunk → Chunk × Ending
  | [], c => (c,.finished)
  | x :: rest, c =>
      let looked := if c.looks bounds then { c with sinceLook := 0 } else c
      if c.looks bounds && stop (done + c.rows) then (looked,.stopped)
      else
        let c := looked.read build size x
        if decide (bounds.chunkBytes ≤ c.bytes) || decide (bounds.chunkRows ≤ c.rows) then (c,.full)
        else scan stop done rest c

/-! Opens. -/

/- A walk in the process: the mark it read, its cursor, and whether its first commit is still to clear the derived tables. -/
structure Walk where
  build : String
  mark : Mark
  cursor : Cursor
  lastCollection : Option CollectionId
  clears : Bool

inductive Phase where
  | closed
  | opened (build : String) (forced : Bool)
  | walking (walk : Walk)
  | rebuilt (build : String)
  | serving

/- `midway` is for the statement: rows of a walk were committed and none has completed since. -/
structure Member (ρ : Type) where
  disk : Disk ρ
  phase : Phase
  midway : Bool

def Disk.forceMarksDeleted (disk : Disk ρ) : Disk ρ :=
  { disk with
    countsThrough := none
    digestsThrough := none
    walk := if disk.countsThrough.isSome || disk.digestsThrough.isSome then none else disk.walk }

def Disk.marksAbsent (disk : Disk ρ) : Bool := disk.countsThrough.isNone && disk.digestsThrough.isNone

def Disk.cleared (disk : Disk ρ) : Disk ρ :=
  { disk with countsThrough := none, digestsThrough := none, counts := .empty, digests := .empty }

variable (builds : String → Build ρ)

def Cursor.isOurs (id : String) (schema : Nat) (cursor : Cursor) : Bool :=
  cursor.build == id && cursor.schema == schema && cursor.format == (builds id).format

/- Both marks match and nothing forces the rebuild. -/
def Disk.current (disk : Disk ρ) (id : String) : Bool :=
  disk.countsThrough == some disk.mark && disk.digestsThrough == some ((builds id).format,disk.mark)

def resumable (disk : Disk ρ) (id : String) : Option Cursor :=
  disk.walk.filter fun cursor => disk.marksAbsent && cursor.stoppedCleanly && cursor.isOurs builds id disk.schema

def beginWalk (disk : Disk ρ) (id : String) : Walk :=
  match resumable builds disk id with
  | some cursor => ⟨id,disk.mark,{ cursor with stoppedCleanly := false },cursor.after.map Address.collection,false⟩
  | none => ⟨id,disk.mark,⟨id,disk.schema,(builds id).format,false,none,0,0,0⟩,none,true⟩

/- The decision of `run`; the cursor of a store with nothing stale is removed. -/
def decideWalk (m : Member ρ) (id : String) (forced : Bool) : Member ρ :=
  if m.disk.current builds id && !forced then { m with disk := { m.disk with walk := none }, phase := .serving }
  else { m with phase := .walking (beginWalk builds m.disk id) }

/- The rows a chunk read, added to what earlier chunks left. -/
def Disk.addWalked (disk : Disk ρ) (w : Walked) : Disk ρ :=
  { disk with counts := disk.counts.amend addCount w.counts, digests := disk.digests.amend addRow w.digests }

/- One commit of a walk. -/
def commitChunk (m : Member ρ) (w : Walk) (stop : Nat → Bool) : Member ρ :=
  let disk := if w.clears then m.disk.cleared else m.disk
  let read := scan (builds w.build) size bounds stop w.cursor.rows (disk.docs.past w.cursor.after)
    ⟨⟨.empty,.empty⟩,0,0,0,w.cursor.after,w.cursor.collections,w.lastCollection⟩
  let c := read.1
  let disk := disk.addWalked c.walked
  let cursor := { w.cursor with
    after := c.last, rows := w.cursor.rows + c.rows, bytes := w.cursor.bytes + c.bytes, collections := c.collections }
  match read.2 with
  | .finished =>
      ⟨{ disk with walk := none, countsThrough := some w.mark, digestsThrough := some ((builds w.build).format,w.mark) },
        .rebuilt w.build,false⟩
  | .full =>
      ⟨{ disk with walk := some { cursor with stoppedCleanly := false } },
        .walking { w with cursor := { cursor with stoppedCleanly := false }, lastCollection := c.lastCollection, clears := false },true⟩
  | .stopped => ⟨{ disk with walk := some { cursor with stoppedCleanly := true } },.closed,true⟩

/- A commit while the store serves: any rows, any mark. The walk's cursor is not a serving store's to write. -/
structure Write (ρ : Type) where
  docs : SortedMap Address ρ
  mark : Mark
  counts : SortedMap CollectionId Nat
  digests : SortedMap CollectionId DigestRow
  countsThrough : Option Mark
  digestsThrough : Option (Nat × Mark)

def Disk.written (disk : Disk ρ) (w : Write ρ) : Disk ρ :=
  ⟨w.docs,disk.schema,w.mark,w.counts,w.digests,w.countsThrough,w.digestsThrough,disk.walk⟩

/- `migrate` rewrites the rows when it raises the schema; a crash, a failure or an exit ends any phase. -/
inductive Step (ρ : Type) where
  | start (id : String) (forced : Bool)
  | migrate (schema : Nat) (docs : SortedMap Address ρ)
  | decide
  | chunk (bounds : Bounds) (stop : Nat → Bool)
  | crash
  | write (w : Write ρ)

def step (m : Member ρ) : Step ρ → Member ρ
  | .start id forced => match m.phase with
      | .closed => { m with disk := if forced then m.disk.forceMarksDeleted else m.disk, phase := .opened id forced }
      | _ => m
  | .migrate schema docs => match m.phase with
      | .opened _ _ => if m.disk.schema < schema then { m with disk := { m.disk with schema := schema, docs := docs } } else m
      | _ => m
  | .decide => match m.phase with
      | .opened id forced => decideWalk builds m id forced
      | _ => m
  | .chunk bounds stop => match m.phase with
      | .walking w => commitChunk size bounds builds m w stop
      | _ => m
  | .crash => { m with phase := .closed }
  | .write w => match m.phase with
      | .rebuilt _ | .serving => { m with disk := m.disk.written w, phase := .serving }
      | _ => m

def run (m : Member ρ) (steps : List (Step ρ)) : Member ρ := steps.foldl (step size builds) m

end

/-! Rows in stretches. -/

/- What a row adds can be added apart and paid at once. -/
theorem foldApart {α δ : Type} {step : Option δ → α → Option δ} {pay : δ → Option δ → Option δ}
    (each : ∀ (owed : Option δ) (held : Option δ) (x : α), (step owed x).elim held (pay · held) = step (owed.elim held (pay · held)) x)
    (rows : List α) (owed held : Option δ) :
    (rows.foldl step owed).elim held (pay · held) = rows.foldl step (owed.elim held (pay · held)) := by
  induction rows generalizing owed with
  | nil => rfl
  | cons x rest ih => rw [List.foldl_cons, List.foldl_cons, ih, each]

theorem mergeNew (v : VersionVector) : v.merge .new = v := by
  unfold VersionVector.merge
  refine congrArg VersionVector.mk (SortedMap.ext fun node => ?_)
  rw [SortedMap.getAbsorb]
  rfl

theorem mergeObserve (v u : VersionVector) (stamp : Stamp) : v.merge (u.observe stamp) = (v.merge u).observe stamp := by
  unfold VersionVector.observe
  rw [VersionVector.getMerge]
  unfold VersionVector.merge
  refine congrArg VersionVector.mk (SortedMap.ext fun node => ?_)
  rw [SortedMap.getAbsorb, SortedMap.getInsert, SortedMap.getInsert]
  by_cases own : node = stamp.node
  · rw [if_pos own, if_pos own, own, max_assoc]
    rfl
  · rw [if_neg own, if_neg own, SortedMap.getAbsorb]

section
variable {ρ : Type} {build : Build ρ}

/- A row moved by what a header says, and a row paid what another one holds. -/
def movedRow (term : Digest) (stamp : Stamp) (live : Bool) (row : DigestRow) : DigestRow :=
  (if live then { row with digest := row.digest ^^^ term } else row.raiseBare stamp).raiseMaxw stamp

def paidRow (row delta : DigestRow) : DigestRow := { row with digest := row.digest ^^^ delta.digest }.raiseFrom delta

/- What one row does to the count and to the digest row of a collection. -/
def countStep (build : Build ρ) (coll : CollectionId) (held : Option Nat) (x : Address × ρ) : Option Nat :=
  match build.header x.2 with
  | some (_,live) => if x.1.collection = coll ∧ live = true then some (held.getD 0 + 1) else held
  | none => held

def rowStep (build : Build ρ) (coll : CollectionId) (held : Option DigestRow) (x : Address × ρ) : Option DigestRow :=
  match build.header x.2 with
  | some (stamp,live) =>
      if x.1.collection = coll then some (movedRow (build.term x.1.key stamp) stamp live (held.getD .new)) else held
  | none => held

theorem foldRowCounts (w : Walked) (x : Address × ρ) (coll : CollectionId) :
    (foldRow build w x).counts.get coll = countStep build coll (w.counts.get coll) x := by
  unfold foldRow countStep
  cases build.header x.2 with
  | none => rfl
  | some header =>
    obtain ⟨stamp,live⟩ := header
    cases live with
    | false => simp [foldHeader]
    | true =>
      simp only [foldHeader, if_true, SortedMap.getInsert, and_true]
      by_cases same : coll = x.1.collection
      · rw [if_pos same, if_pos same.symm, same]
      · rw [if_neg same, if_neg (Ne.symm same)]

theorem foldRowDigests (w : Walked) (x : Address × ρ) (coll : CollectionId) :
    (foldRow build w x).digests.get coll = rowStep build coll (w.digests.get coll) x := by
  unfold foldRow rowStep
  cases build.header x.2 with
  | none => rfl
  | some header =>
    obtain ⟨stamp,live⟩ := header
    simp only [foldHeader, SortedMap.getInsert]
    by_cases same : coll = x.1.collection
    · rw [if_pos same, if_pos same.symm, same]
      rfl
    · rw [if_neg same, if_neg (Ne.symm same)]

theorem foldCounts (rows : List (Address × ρ)) (w : Walked) (coll : CollectionId) :
    (rows.foldl (foldRow build) w).counts.get coll = rows.foldl (countStep build coll) (w.counts.get coll) := by
  induction rows generalizing w with
  | nil => rfl
  | cons x rest ih => rw [List.foldl_cons, List.foldl_cons, ih, foldRowCounts]

theorem foldDigests (rows : List (Address × ρ)) (w : Walked) (coll : CollectionId) :
    (rows.foldl (foldRow build) w).digests.get coll = rows.foldl (rowStep build coll) (w.digests.get coll) := by
  induction rows generalizing w with
  | nil => rfl
  | cons x rest ih => rw [List.foldl_cons, List.foldl_cons, ih, foldRowDigests]

theorem countPaid (coll : CollectionId) (owed held : Option Nat) (x : Address × ρ) :
    (countStep build coll owed x).elim held (addCount · held) = countStep build coll (owed.elim held (addCount · held)) x := by
  unfold countStep
  cases build.header x.2 with
  | none => rfl
  | some header =>
    simp only
    split_ifs with counted
    · cases owed with
      | none => simp [addCount]
      | some n => simp [addCount, Nat.add_assoc]
    · rfl

theorem paidNew (row : DigestRow) : paidRow row .new = row := by
  simp [paidRow, DigestRow.raiseFrom, DigestRow.new, mergeNew]

theorem paidMoved (term : Digest) (stamp : Stamp) (live : Bool) (row delta : DigestRow) :
    paidRow row (movedRow term stamp live delta) = movedRow term stamp live (paidRow row delta) := by
  cases live with
  | true => simp [paidRow, movedRow, DigestRow.raiseFrom, DigestRow.raiseMaxw, mergeObserve, BitVec.xor_assoc]
  | false => simp [paidRow, movedRow, DigestRow.raiseFrom, DigestRow.raiseMaxw, DigestRow.raiseBare, mergeObserve]

theorem rowPaid (coll : CollectionId) (owed held : Option DigestRow) (x : Address × ρ) :
    (rowStep build coll owed x).elim held (addRow · held) = rowStep build coll (owed.elim held (addRow · held)) x := by
  unfold rowStep
  cases build.header x.2 with
  | none => rfl
  | some header =>
    obtain ⟨stamp,live⟩ := header
    simp only
    by_cases own : x.1.collection = coll
    · rw [if_pos own, if_pos own]
      cases owed with
      | none =>
        have paid := paidMoved (build.term x.1.key stamp) stamp live (held.getD .new) .new
        rw [paidNew] at paid
        exact congrArg some paid
      | some delta => exact congrArg some (paidMoved (build.term x.1.key stamp) stamp live (held.getD .new) delta)
    · rw [if_neg own, if_neg own]

theorem amendElim {κ ν : Type} [LinearOrder κ] (pay : ν → Option ν → Option ν) (rows owed : SortedMap κ ν) (k : κ) :
    (rows.amend pay owed).get k = (owed.get k).elim (rows.get k) (pay · (rows.get k)) := by
  rw [SortedMap.getAmend]
  cases owed.get k <;> rfl

/- What a chunk read, added to what earlier ones left, is one fold over both. -/
theorem addWalkedFold {disk : Disk ρ} {before : List (Address × ρ)} (rows : List (Address × ρ))
    (kept : (⟨disk.counts,disk.digests⟩ : Walked) = foldAll build before) :
    (⟨(disk.addWalked (foldAll build rows)).counts,(disk.addWalked (foldAll build rows)).digests⟩ : Walked) =
      foldAll build (before ++ rows) := by
  have counts : (disk.addWalked (foldAll build rows)).counts = (foldAll build (before ++ rows)).counts := by
    refine SortedMap.ext fun coll => ?_
    have base : disk.counts = (foldAll build before).counts := congrArg Walked.counts kept
    have apart := foldApart (@countPaid _ build coll) rows none (disk.counts.get coll)
    unfold Disk.addWalked
    rw [amendElim, foldAll, foldAll, foldCounts, foldCounts, List.foldl_append, ← foldCounts before]
    exact apart.trans (by rw [base]; rfl)
  have digests : (disk.addWalked (foldAll build rows)).digests = (foldAll build (before ++ rows)).digests := by
    refine SortedMap.ext fun coll => ?_
    have base : disk.digests = (foldAll build before).digests := congrArg Walked.digests kept
    have apart := foldApart (@rowPaid _ build coll) rows none (disk.digests.get coll)
    unfold Disk.addWalked
    rw [amendElim, foldAll, foldAll, foldDigests, foldDigests, List.foldl_append, ← foldDigests before]
    exact apart.trans (by rw [base]; rfl)
  rw [counts, digests]

/-! One chunk reads a stretch. -/

variable {size : Address × ρ → Nat} {bounds : Bounds} {stop : Nat → Bool} {done : Nat}

theorem lastOf {α β : Type} (f : α → β) (x : α) (taken : List α) (before : Option β) :
    ((taken.getLast?).map f).or (some (f x)) = (((x :: taken).getLast?).map f).or before := by
  rw [List.getLast?_cons]
  cases taken.getLast? <;> rfl

theorem scanStretch (rows : List (Address × ρ)) (c : Chunk) :
    ∃ taken rest, taken ++ rest = rows ∧ (scan build size bounds stop done rows c).1.walked = taken.foldl (foldRow build) c.walked ∧
      (scan build size bounds stop done rows c).1.last = ((taken.getLast?).map Prod.fst).or c.last ∧
      ((scan build size bounds stop done rows c).2 = .finished → rest = []) := by
  induction rows generalizing c with
  | nil => exact ⟨[],[],rfl,rfl,rfl,fun _ => rfl⟩
  | cons x rest ih =>
    have same : (if c.looks bounds then { c with sinceLook := 0 } else c).walked = c.walked := by split_ifs <;> rfl
    have still : (if c.looks bounds then { c with sinceLook := 0 } else c).last = c.last := by split_ifs <;> rfl
    rw [scan]
    simp only
    generalize (if c.looks bounds then { c with sinceLook := 0 } else c) = looked at *
    by_cases stops : (c.looks bounds && stop (done + c.rows)) = true
    · rw [if_pos stops]
      exact ⟨[],x :: rest,rfl,same,still,nofun⟩
    · rw [if_neg stops]
      split_ifs with bound
      · refine ⟨[x],rest,rfl,?_,rfl,nofun⟩
        rw [← same]
        rfl
      · obtain ⟨taken,later,split,walked,last,finished⟩ := ih (looked.read build size x)
        refine ⟨x :: taken,later,by rw [← split]; rfl,?_,?_,finished⟩
        · rw [walked, List.foldl_cons, ← same]
          rfl
        · rw [last]
          exact lastOf Prod.fst x taken c.last

/-! What holds in every state. -/

variable {builds : String → Build ρ}

/- The derived rows are what the build's fold makes of the records up to a place. -/
def Disk.Through (builds : String → Build ρ) (disk : Disk ρ) (id : String) (after : Option Address) : Prop :=
  (⟨disk.counts,disk.digests⟩ : Walked) = foldAll (builds id) (disk.docs.upTo after)

def Disk.Unmarked (disk : Disk ρ) : Prop := disk.countsThrough = none ∧ disk.digestsThrough = none

def Disk.Exact (builds : String → Build ρ) (disk : Disk ρ) (id : String) : Prop :=
  (⟨disk.counts,disk.digests⟩ : Walked) = foldAll (builds id) disk.docs.entries

/- A walk that cleared the rows stands over its own; one that did not will. -/
structure Walk.Holds (builds : String → Build ρ) (disk : Disk ρ) (w : Walk) : Prop where
  build : w.cursor.build = w.build
  schema : w.cursor.schema = disk.schema
  fresh : w.clears = true → w.cursor.after = none
  rows : w.clears = false → disk.Unmarked ∧ disk.Through builds w.build w.cursor.after

def Phase.Holds (builds : String → Build ρ) (disk : Disk ρ) (midway : Bool) : Phase → Prop
  | .walking w => w.Holds builds disk
  | .rebuilt id => disk.walk = none ∧ midway = false ∧ disk.Exact builds id
  | .serving => disk.walk = none ∧ midway = false
  | _ => True

/- Over the rows it was taken for, a cursor says what was folded; a schema that has moved on makes it nobody's. -/
structure Member.Holds (builds : String → Build ρ) (m : Member ρ) : Prop where
  cursor : ∀ c, m.disk.walk = some c → c.schema ≤ m.disk.schema ∧ (c.schema = m.disk.schema → m.disk.Through builds c.build c.after)
  midway : m.midway = true → m.disk.Unmarked
  phase : m.phase.Holds builds m.disk m.midway

variable {m : Member ρ}

theorem Holds.start (holds : m.Holds builds) (id : String) (forced : Bool) :
    Member.Holds builds { m with disk := if forced then m.disk.forceMarksDeleted else m.disk, phase := .opened id forced } := by
  cases forced with
  | false => exact ⟨holds.cursor,holds.midway,trivial⟩
  | true =>
    refine ⟨fun c is => ?_,fun _ => ⟨rfl,rfl⟩,trivial⟩
    have left : m.disk.walk = some c := by
      simp only [if_true, Disk.forceMarksDeleted] at is
      split_ifs at is
      exact is
    exact holds.cursor c left

theorem Holds.migrate (holds : m.Holds builds) {id : String} {forced : Bool} (opened : m.phase = .opened id forced) {schema : Nat}
    (raises : m.disk.schema < schema) (docs : SortedMap Address ρ) :
    Member.Holds builds { m with disk := { m.disk with schema := schema, docs := docs } } := by
  refine ⟨fun c is => ?_,holds.midway,by rw [opened]; trivial⟩
  have known := (holds.cursor c is).1
  exact ⟨by simp only; omega,fun same => absurd same (by simp only; omega)⟩

theorem resumedHolds (holds : m.Holds builds) {id : String} {cursor : Cursor} (is : resumable builds m.disk id = some cursor) :
    cursor.build = id ∧ cursor.schema = m.disk.schema ∧ m.disk.Unmarked ∧ m.disk.Through builds id cursor.after := by
  obtain ⟨found,evidence⟩ := Option.filter_eq_some_iff.mp is
  simp only [Disk.marksAbsent, Cursor.isOurs, Bool.and_eq_true, Option.isNone_iff_eq_none, beq_iff_eq] at evidence
  obtain ⟨⟨absent,_⟩,⟨own,schema⟩,_⟩ := evidence
  have through := (holds.cursor cursor found).2 schema
  rw [own] at through
  exact ⟨own,schema,absent,through⟩

theorem Holds.decide (holds : m.Holds builds) (id : String) (forced : Bool) : (decideWalk builds m id forced).Holds builds := by
  unfold decideWalk
  by_cases current : (m.disk.current builds id && !forced) = true
  · -- Both marks stand, so no walk is midway.
    have whole : m.midway = false := by
      by_contra mid
      have none := (holds.midway (by simpa using mid)).1
      simp [Disk.current, none] at current
    rw [if_pos current]
    exact ⟨nofun,fun mid => absurd mid (by simp [whole]),rfl,whole⟩
  · rw [if_neg current]
    refine ⟨holds.cursor,holds.midway,?_⟩
    unfold beginWalk
    cases is : resumable builds m.disk id with
    | none => exact ⟨rfl,rfl,fun _ => rfl,nofun⟩
    | some cursor =>
      obtain ⟨own,schema,unmarked,through⟩ := resumedHolds holds is
      exact ⟨own,schema,nofun,fun _ => ⟨unmarked,through⟩⟩

/- The store as a chunk's transaction first has it. -/
theorem clearedHolds {disk : Disk ρ} {w : Walk} (holds : w.Holds builds disk) :
    (if w.clears then disk.cleared else disk).Unmarked ∧
      (if w.clears then disk.cleared else disk).Through builds w.build w.cursor.after := by
  cases clears : w.clears with
  | true =>
    refine ⟨⟨rfl,rfl⟩,?_⟩
    unfold Disk.Through
    rw [holds.fresh clears, SortedMap.upToNone]
    rfl
  | false => exact holds.rows clears

theorem Holds.chunk (holds : m.Holds builds) {w : Walk} (walking : m.phase = .walking w) (bounds : Bounds) (stop : Nat → Bool) :
    (commitChunk size bounds builds m w stop).Holds builds := by
  have own : w.Holds builds m.disk := by
    have phase := holds.phase
    rw [walking] at phase
    exact phase
  obtain ⟨unmarked,through⟩ := clearedHolds own
  have schema : (if w.clears then m.disk.cleared else m.disk).schema = m.disk.schema := by split_ifs <;> rfl
  unfold commitChunk
  simp only
  generalize (if w.clears then m.disk.cleared else m.disk) = disk at *
  obtain ⟨taken,rest,split,walked,last,finished⟩ := @scanStretch ρ (builds w.build) size bounds stop w.cursor.rows
    (disk.docs.past w.cursor.after) ⟨⟨.empty,.empty⟩,0,0,0,w.cursor.after,w.cursor.collections,w.lastCollection⟩
  generalize scan (builds w.build) size bounds stop w.cursor.rows (disk.docs.past w.cursor.after)
    ⟨⟨.empty,.empty⟩,0,0,0,w.cursor.after,w.cursor.collections,w.lastCollection⟩ = read at *
  have folded : read.1.walked = foldAll (builds w.build) taken := walked
  have added := addWalkedFold taken through
  rw [← folded] at added
  have next : (disk.addWalked read.1.walked).Through builds w.build read.1.last := by
    have place : disk.docs.upTo read.1.last = disk.docs.upTo w.cursor.after ++ taken := by
      rw [last]
      exact SortedMap.upToStretch split
    unfold Disk.Through
    rw [added]
    exact congrArg _ place.symm
  cases ending : read.2 with
  | finished =>
    refine ⟨nofun,nofun,rfl,rfl,?_⟩
    have all : disk.docs.upTo w.cursor.after ++ taken = disk.docs.entries := by
      rw [finished ending, List.append_nil] at split
      rw [split, SortedMap.upToPast]
    rw [all] at added
    exact added
  | full =>
    refine ⟨fun c is => ?_,fun _ => unmarked,own.build,own.schema.trans schema.symm,nofun,fun _ => ⟨unmarked,next⟩⟩
    cases is
    refine ⟨(own.schema.trans schema.symm).le,fun _ => ?_⟩
    rw [own.build]
    exact next
  | stopped =>
    refine ⟨fun c is => ?_,fun _ => unmarked,trivial⟩
    cases is
    refine ⟨(own.schema.trans schema.symm).le,fun _ => ?_⟩
    rw [own.build]
    exact next

theorem Holds.write (serving : m.disk.walk = none ∧ m.midway = false) (w : Write ρ) :
    Member.Holds builds { m with disk := m.disk.written w, phase := .serving } where
  cursor := by
    intro c is
    have none : m.disk.walk = some c := is
    rw [serving.1] at none
    cases none
  midway := by
    intro mid
    rw [serving.2] at mid
    cases mid
  phase := serving

theorem Holds.step (holds : m.Holds builds) (step : Step ρ) : (Rebuild.step size builds m step).Holds builds := by
  obtain ⟨disk,phase,midway⟩ := m
  cases step with
  | start id forced =>
    cases phase with
    | closed => exact Holds.start holds id forced
    | _ => exact holds
  | migrate schema docs =>
    cases phase with
    | opened id forced =>
      simp only [Rebuild.step]
      split_ifs with raises
      · exact Holds.migrate holds rfl raises docs
      · exact holds
    | _ => exact holds
  | decide =>
    cases phase with
    | opened id forced => exact Holds.decide holds id forced
    | _ => exact holds
  | chunk bounds stop =>
    cases phase with
    | walking w => exact Holds.chunk holds rfl bounds stop
    | _ => exact holds
  | crash => exact ⟨holds.cursor,holds.midway,trivial⟩
  | write w =>
    cases phase with
    | rebuilt id => exact Holds.write ⟨holds.phase.1,holds.phase.2.1⟩ w
    | serving => exact Holds.write holds.phase w
    | _ => exact holds

theorem Holds.run (holds : m.Holds builds) (steps : List (Step ρ)) : (Rebuild.run size builds m steps).Holds builds := by
  unfold Rebuild.run
  induction steps generalizing m with
  | nil => exact holds
  | cons step rest ih => exact ih (Holds.step holds step)

end

end Kimmy.Store.Rebuild
