import Kimmy.Resumed
import Kimmy.Store.LiveExact

/-!
The walk of an open, and whole runs of a member: starts, chunks of a walk, transactions that commit or are given
up, and exits at any point. Marks stand only over rows that are exact, and a cursor only over rows that are exact
for the records up to it.
-/
namespace Kimmy.Store
open Merge

section
variable {term : DocKey → Stamp → Digest}

/-! The walk. -/

theorem liveInAppend (rows more : List (Address × DocRecord)) (coll : CollectionId) :
    liveIn (rows ++ more) coll = liveIn rows coll ++ liveIn more coll := List.filter_append ..

theorem xorInAppend (rows more : List (Address × DocRecord)) (coll : CollectionId) :
    xorIn term (rows ++ more) coll = xorIn term rows coll ^^^ xorIn term more coll := by
  have fold : ∀ (list : List (Address × DocRecord)) (start : Digest),
      list.foldl (fun digest x => digest ^^^ term x.1.key x.2.stamp) start =
        start ^^^ list.foldl (fun digest x => digest ^^^ term x.1.key x.2.stamp) 0 := by
    intro list
    induction list with
    | nil => exact fun start => BitVec.xor_zero.symm
    | cons x rest ih =>
      intro start
      have first : (0 : Digest) ^^^ term x.1.key x.2.stamp = term x.1.key x.2.stamp := BitVec.zero_xor
      rw [List.foldl_cons, List.foldl_cons, ih (start ^^^ _), ih (0 ^^^ _), first, BitVec.xor_assoc]
  rw [xorIn, liveInAppend, List.foldl_append, fold]
  rfl

theorem keptNothing : KeptOver term [] ⟨.empty,.empty⟩ := ⟨fun _ => rfl,fun _ => rfl,nofun⟩

/- The rows of a record that is folded in. -/
theorem foldDigests (w : Walked) (x : Address × DocRecord) (coll : CollectionId) :
    ((w.fold term x).digests.get coll).getD .new =
      if coll = x.1.collection then
        (if x.2.isLive then { (w.digests.get coll).getD .new with
            digest := ((w.digests.get coll).getD .new).digest ^^^ term x.1.key x.2.stamp }
          else ((w.digests.get coll).getD .new).raiseBare x.2.stamp).raiseMaxw x.2.stamp
      else (w.digests.get coll).getD .new := by
  unfold Walked.fold
  simp only [SortedMap.getInsert]
  split_ifs with here
  · rw [here]
    rfl
  · rw [here]
    rfl
  · rfl

theorem KeptOver.fold {rows : List (Address × DocRecord)} {w : Walked} (kept : KeptOver term rows w)
    (x : Address × DocRecord) : KeptOver term (rows ++ [x]) (w.fold term x) := by
  have highest (coll : CollectionId) (node : NodeId) :
      (((w.fold term x).digests.get coll).getD .new).maxw.get node =
        if coll = x.1.collection ∧ node = x.2.stamp.node then
          max (((w.digests.get coll).getD .new).maxw.get node) x.2.stamp.hlc
        else ((w.digests.get coll).getD .new).maxw.get node := by
    rw [foldDigests]
    by_cases here : coll = x.1.collection
    · rw [if_pos here]
      cases x.2.isLive <;> simp [DigestRow.raiseMaxw, DigestRow.raiseBare, VersionVector.getObserve, here]
    · simp [here]
  refine ⟨fun coll => ?_,fun coll => ?_,fun y member => ?_⟩
  · have before := kept.counts coll
    rw [liveInAppend, List.length_append, ← before]
    unfold Walked.fold
    by_cases here : x.1.collection = coll
    · cases live : x.2.isLive with
      | true => simp [liveIn, here, live, SortedMap.getInsert]
      | false => simp [liveIn, live]
    · cases live : x.2.isLive with
      | true => simp [liveIn, here, Ne.symm here, SortedMap.getInsert]
      | false => simp [liveIn, live]
  · have before := kept.digests coll
    rw [xorInAppend, ← before, foldDigests]
    by_cases here : x.1.collection = coll
    · cases live : x.2.isLive with
      | true => simp [xorIn, liveIn, here, live, DigestRow.raiseMaxw]
      | false => simp [xorIn, liveIn, here, live, DigestRow.raiseMaxw, DigestRow.raiseBare]
    · simp [xorIn, liveIn, here, Ne.symm here]
  · rw [highest]
    rcases List.mem_append.mp member with earlier | last
    · have before := kept.reached y earlier
      split_ifs
      · exact le_max_of_le_left before
      · exact before
    · obtain rfl := List.mem_singleton.mp last
      rw [if_pos ⟨rfl,rfl⟩]
      exact le_max_right _ _

theorem walkedKept (rows : List (Address × DocRecord)) :
    KeptOver term rows (rows.foldl (Walked.fold term) ⟨.empty,.empty⟩) := by
  have each : ∀ (more rows : List (Address × DocRecord)) {w : Walked}, KeptOver term rows w →
      KeptOver term (rows ++ more) (more.foldl (Walked.fold term) w) := by
    intro more
    induction more with
    | nil => intro rows w kept; rwa [List.append_nil]
    | cons x rest ih =>
      intro rows w kept
      have next := ih (rows ++ [x]) (kept.fold x)
      rwa [List.append_assoc] at next
  exact each rows [] keptNothing

/- A chunk adds the rows of its records to those before it. -/
theorem KeptOver.addWalked {rows : List (Address × DocRecord)} {s : LiveStore} (kept : KeptOver term rows s.kept)
    (more : List (Address × DocRecord)) : KeptOver term (rows ++ more) (s.addWalked term more).kept := by
  have walked := @walkedKept term more
  generalize whole : more.foldl (Walked.fold term) ⟨.empty,.empty⟩ = w at walked
  have counts (coll : CollectionId) : ((s.addWalked term more).counts.get coll).getD 0 =
      (s.counts.get coll).getD 0 + (w.counts.get coll).getD 0 := by
    simp only [LiveStore.addWalked, whole, SortedMap.getAmend]
    cases w.counts.get coll with
    | none => rfl
    | some n => rfl
  have row (coll : CollectionId) : ((s.addWalked term more).digests.get coll).getD .new =
      match w.digests.get coll with
      | some delta => { (s.digests.get coll).getD .new with
          digest := ((s.digests.get coll).getD .new).digest ^^^ delta.digest }.raiseFrom delta
      | none => (s.digests.get coll).getD .new := by
    simp only [LiveStore.addWalked, whole, SortedMap.getAmend]
    cases w.digests.get coll with
    | none => rfl
    | some delta => rfl
  have highest (coll : CollectionId) (node : NodeId) :
      (((s.addWalked term more).digests.get coll).getD .new).maxw.get node =
        max (((s.digests.get coll).getD .new).maxw.get node) (((w.digests.get coll).getD .new).maxw.get node) := by
    rw [row]
    cases w.digests.get coll with
    | none => exact (max_eq_left (VersionVector.zeroLe _)).symm
    | some delta => exact VersionVector.getMerge ..
  refine ⟨fun coll => ?_,fun coll => ?_,fun y member => ?_⟩
  · rw [LiveStore.keptCounts, counts, liveInAppend, List.length_append, ← kept.counts, ← walked.counts]
    rfl
  · rw [LiveStore.keptDigests, xorInAppend, ← kept.digests, ← walked.digests, row]
    cases w.digests.get coll with
    | none => exact BitVec.xor_zero.symm
    | some delta => rfl
  · rw [LiveStore.keptDigests, highest]
    rcases List.mem_append.mp member with earlier | later
    · exact le_max_of_le_left (kept.reached y earlier)
    · exact le_max_of_le_right (walked.reached y later)

/- The records up to a cursor. -/
def recordsThrough (t : Tables) (after : Option Address) : List (Address × DocRecord) :=
  t.docs.entries.filter fun x => !after.all (· < x.1)

theorem throughNone (t : Tables) : recordsThrough t none = [] := t.docs.upToNone

theorem throughAppend (t : Tables) (after : Option Address) :
    recordsThrough t after ++ recordsAfter t after = t.docs.entries := t.docs.upToPast after

/- Where a chunk of `n` records leaves the cursor. -/
theorem throughTake (t : Tables) (after : Option Address) (n : Nat) :
    recordsThrough t (((((recordsAfter t after).take n).getLast?).map Prod.fst).or after) =
      recordsThrough t after ++ (recordsAfter t after).take n :=
  SortedMap.upToStretch (List.take_append_drop n _)

/-! Runs. -/

/- The two marks move together. -/
def LiveStore.Paired (s : LiveStore) : Prop := s.digestsThrough = s.countsThrough.map (Prod.mk format)

theorem LiveStore.Paired.carryMark {s : LiveStore} (paired : s.Paired) (before after : Mark) :
    (s.carryMark before after).Paired := by
  unfold LiveStore.Paired LiveStore.carryMark
  simp only
  rw [paired]
  cases s.countsThrough with
  | none => rfl
  | some mark =>
    by_cases here : mark = before
    · simp [here]
    · simp [here]

/- What every step of a transaction leaves of the marks and the cursor. -/
structure Marked (s : LiveStore) : Prop where
  paired : s.Paired
  walk : s.walk = none

theorem Marked.same {s t : LiveStore} (marked : Marked s) (counts : t.countsThrough = s.countsThrough)
    (digests : t.digestsThrough = s.digestsThrough) (walk : t.walk = s.walk) : Marked t := by
  refine ⟨?_,walk.trans marked.walk⟩
  unfold LiveStore.Paired
  rw [counts, digests]
  exact marked.paired

variable {x : LiveTxn}

theorem Marked.put (marked : Marked x.store) (a : Address) (record : DocRecord) :
    Marked (x.putRecord term a record).store := marked.same rfl rfl rfl

theorem Marked.remove (marked : Marked x.store) (a : Address) : Marked (x.removeRecord term a).store := by
  unfold LiveTxn.removeRecord
  split_ifs
  · exact marked
  · exact marked.same rfl rfl rfl

theorem Marked.append (marked : Marked x.store) (entry : OplogEntry) (position : Position) :
    Marked (x.append entry position).store := by
  unfold LiveTxn.append
  simp only
  split_ifs
  · exact marked.same rfl rfl rfl
  · exact marked.same rfl rfl rfl

theorem Marked.removeEntries (marked : Marked x.store) (db : Tables) : Marked (x.removeEntries db).store :=
  have moved : Marked { x.store with db := db } := marked.same rfl rfl rfl
  ⟨moved.paired.carryMark ..,moved.walk⟩

theorem Marked.removeAll (marked : Marked x.store) (rows : List Address) : Marked (x.removeAll term rows).store := by
  unfold LiveTxn.removeAll
  induction rows generalizing x with
  | nil => exact marked
  | cons a rest ih => exact ih (marked.remove a)

theorem Marked.writeSteps {steps : List WriteStep} {y : LiveTxn} (marked : Marked x.store)
    (made : x.writeSteps term steps = some y) : Marked y.store := by
  induction steps generalizing x with
  | nil =>
    cases made
    exact marked
  | cons step rest ih =>
    obtain ⟨z,first,more⟩ := Option.bind_eq_some_iff.mp made
    refine ih ?_ more
    cases step with
    | put a record =>
      cases first
      exact marked.put a record
    | bare a stamp =>
      cases first
      exact marked.same rfl rfl rfl
    | append entry position =>
      cases first
      exact marked.append entry position
    | create coll =>
      simp only [LiveTxn.writeStep, LiveTxn.create] at first
      split_ifs at first
      · cases first
        exact marked
      · cases first
        exact marked.same rfl rfl rfl
    | drop coll =>
      cases first
      exact marked.same rfl rfl rfl

theorem Marked.purge {s : LiveStore} {coll : CollectionId} (marked : Marked s) (made : purgeChunk term s coll = some x) :
    Marked x.store := by
  have removed := @Marked.removeAll term s.begun marked ((recordsUnder s.db coll).take dropPurgeChunk)
  unfold purgeChunk at made
  simp only at made
  split_ifs at made
  all_goals
    cases made
    exact removed.same rfl rfl rfl

theorem Marked.tombstones {s : LiveStore} (marked : Marked s) (expired : List (Address × Stamp)) (cutoff : Hlc) :
    Marked (removeTombstones term s expired cutoff).store := by
  unfold removeTombstones
  refine List.foldlRecOn _ _ (motive := fun x : LiveTxn => Marked x.store) marked fun x marked found _ => ?_
  split
  · split_ifs
    · exact marked.remove _
    · exact marked
  · exact marked

theorem Marked.restoreAll {plan : List (Address × Option OplogEntry)} {y : LiveTxn} (marked : Marked x.store)
    (made : restoreAll term x plan = some y) : Marked y.store := by
  induction plan generalizing x with
  | nil =>
    cases made
    exact marked
  | cons item rest ih =>
    obtain ⟨z,first,more⟩ := Option.bind_eq_some_iff.mp made
    have restored : Marked z.store := by
      obtain ⟨a,entry⟩ := item
      cases entry with
      | none =>
        cases first
        exact marked.remove a
      | some entry =>
        simp only [restore] at first
        split_ifs at first
        · cases first
          exact marked.put a _
        · obtain ⟨body,_,rfl⟩ := Option.map_eq_some_iff.mp first
          exact marked.put a _
    have next : Marked (z.reindexed item.1 (x.store.db.image item.1)).store := restored.same rfl rfl rfl
    exact ih next more

theorem Marked.rewind {s : LiveStore} {r : Rewind} (marked : Marked s) (made : r.run term s = some x) : Marked x.store := by
  obtain ⟨y,restored,rfl⟩ := Option.map_eq_some_iff.mp made
  have start : Marked y.store := Marked.restoreAll (x := s.begun) marked restored
  have each : ∀ (reports : List OplogEntry) {x : LiveTxn}, Marked x.store →
      Marked (reports.foldl (fun x entry => x.append entry .raise) x).store := by
    intro reports
    induction reports with
    | nil => exact fun marked => marked
    | cons entry rest ih => exact fun marked => ih (marked.append entry .raise)
  refine each r.reports ?_
  exact (start.removeEntries _).same rfl rfl rfl

theorem Marked.transaction {s : LiveStore} {t : Transaction} (marked : Marked s) (made : t.run term s = some x) :
    Marked x.store := by
  cases t with
  | write steps => exact Marked.writeSteps (x := s.begun) marked made
  | purge coll => exact marked.purge made
  | tombstones expired cutoff =>
    cases made
    exact marked.tombstones expired cutoff
  | retention keys =>
    cases made
    exact Marked.removeEntries (x := s.begun) marked _
  | rewind r => exact marked.rewind made

theorem Marked.committed (marked : Marked x.store) : Marked x.committed := by
  unfold LiveTxn.committed LiveStore.flush
  simp only
  split
  · exact ⟨rfl,marked.walk⟩
  · exact marked.same rfl rfl rfl

/- Exact for the records up to a cursor. -/
def LiveStore.Through (term : DocKey → Stamp → Digest) (s : LiveStore) (after : Option Address) : Prop :=
  KeptOver term (recordsThrough s.db after) s.kept

def LivePhase.Holds (term : DocKey → Stamp → Digest) (s : LiveStore) : LivePhase → Prop
  | .closed => True
  | .walking mark after fresh =>
      mark = markOf s.db ∧ (fresh = true → after = none) ∧ (fresh = false → s.countsThrough = none ∧ s.Through term after)
  | .serving => s.Exact term ∧ s.walk = none

structure LiveMember.Holds (term : DocKey → Stamp → Digest) (m : LiveMember) : Prop where
  paired : m.store.Paired
  marked : m.store.countsThrough = some (markOf m.store.db) → m.store.Exact term
  cursor : ∀ c, m.store.walk = some c → c.stoppedCleanly = true → m.store.countsThrough = none → m.store.Through term c.after
  phase : m.phase.Holds term m.store

theorem throughExact {s : LiveStore} {after : Option Address} (through : s.Through term after) :
    (s.addWalked term (recordsAfter s.db after)).Exact term := by
  have whole := through.addWalked (recordsAfter s.db after)
  rwa [throughAppend] at whole

theorem throughChunk {s : LiveStore} {after : Option Address} (through : s.Through term after) (n : Nat) :
    (s.addWalked term ((recordsAfter s.db after).take n)).Through term
      (((((recordsAfter s.db after).take n).getLast?).map Prod.fst).or after) := by
  have next := through.addWalked ((recordsAfter s.db after).take n)
  rwa [← throughTake] at next

namespace LiveMember
variable {m : LiveMember}

theorem Holds.start (holds : Holds term m) (forced ours : Bool) : Holds term (start m.store forced ours) := by
  obtain ⟨s,phase⟩ := m
  obtain ⟨paired,marked,cursor,_⟩ := holds
  unfold LiveMember.start
  by_cases current : (s.marksCurrent && !forced) = true
  · rw [if_pos current]
    simp only [Bool.and_eq_true, LiveStore.marksCurrent, LiveStore.countsAreCurrent, beq_iff_eq] at current
    have exact : s.Exact term := marked current.1.1
    refine ⟨paired,fun _ => exact,?_,exact,rfl⟩
    intro c gone
    cases gone
  · rw [if_neg current]
    -- the marks are taken away or not
    obtain ⟨t,is,paired,marked,cursor⟩ : ∃ t, (if forced then s.forceMarksDeleted else s) = t ∧ t.Paired ∧
        (t.countsThrough = some (markOf t.db) → t.Exact term) ∧
        ∀ c, t.walk = some c → c.stoppedCleanly = true → t.countsThrough = none → t.Through term c.after := by
      cases forced with
      | false => exact ⟨s,rfl,paired,marked,cursor⟩
      | true =>
        refine ⟨s.forceMarksDeleted,rfl,rfl,?_,fun c found clean _ => ?_⟩
        · intro gone
          cases gone
        simp only [LiveStore.forceMarksDeleted] at found
        split_ifs at found with stood
        rw [Bool.or_eq_true, not_or, Option.not_isSome_iff_eq_none] at stood
        exact cursor c found clean stood.1
    simp only [is]
    have anew : Holds term ⟨t,.walking (markOf t.db) none true⟩ :=
      ⟨paired,marked,cursor,rfl,fun _ => rfl,fun old => by cases old⟩
    split
    · rename_i c found
      split_ifs with resumed
      · simp only [Bool.and_eq_true, Option.isNone_iff_eq_none] at resumed
        obtain ⟨⟨⟨absent,_⟩,clean⟩,_⟩ := resumed
        refine ⟨paired,marked,cursor,rfl,?_,fun _ => ⟨absent,cursor c found clean absent⟩⟩
        intro new
        cases new
      · exact anew
    · exact anew

theorem Holds.chunk {s : LiveStore} {mark : Mark} {after : Option Address} {fresh : Bool}
    (paired : s.Paired) (phase : (LivePhase.walking mark after fresh).Holds term s) (ending : ChunkEnd) :
    Holds term (chunk term s mark after fresh ending) := by
  obtain ⟨own,new,resumed⟩ := phase
  -- a fresh walk starts over emptied tables
  obtain ⟨t,made,db,absent,both,through⟩ : ∃ t : LiveStore, (if fresh then s.cleared else s) = t ∧ t.db = s.db ∧
      t.countsThrough = none ∧ t.Paired ∧ t.Through term after := by
    cases fresh with
    | true =>
      rw [new rfl]
      refine ⟨s.cleared,rfl,rfl,rfl,rfl,?_⟩
      unfold LiveStore.Through
      rw [throughNone]
      exact keptNothing
    | false =>
      obtain ⟨absent,through⟩ := resumed rfl
      exact ⟨s,rfl,rfl,absent,paired,through⟩
  unfold LiveMember.chunk
  rw [made]
  rw [← db] at own
  cases ending with
  | through =>
    have exact := throughExact through
    exact ⟨rfl,fun _ => exact,nofun,exact,rfl⟩
  | full n =>
    have marks : t.countsThrough = some (markOf t.db) → False := by
      rw [absent]
      nofun
    refine ⟨both,fun is => (marks is).elim,fun c found clean => ?_,own,nofun,fun _ => ⟨absent,throughChunk through n⟩⟩
    cases found
    cases clean
  | stopped n =>
    have marks : t.countsThrough = some (markOf t.db) → False := by
      rw [absent]
      nofun
    refine ⟨both,fun is => (marks is).elim,fun c found _ _ => ?_,trivial⟩
    cases found
    exact throughChunk through n

theorem Holds.step (holds : Holds term m) (step : LiveStep) : Holds term (m.step term step) := by
  obtain ⟨s,phase⟩ := m
  cases step with
  | start forced ours =>
    cases phase with
    | closed => exact holds.start forced ours
    | walking mark after fresh => exact holds
    | serving => exact holds
  | chunk ending =>
    cases phase with
    | closed => exact holds
    | walking mark after fresh => exact Holds.chunk holds.paired holds.phase ending
    | serving => exact holds
  | transaction t commits =>
    cases phase with
    | closed => exact holds
    | walking mark after fresh => exact holds
    | serving =>
      obtain ⟨exact,walk⟩ := holds.phase
      cases made : t.run term s with
      | none =>
        have same : LiveMember.step term ⟨s,.serving⟩ (.transaction t commits) = ⟨s,.serving⟩ := by
          simp only [LiveMember.step, made]
        rw [same]
        exact holds
      | some x =>
        cases commits with
        | false =>
          have same : LiveMember.step term ⟨s,.serving⟩ (.transaction t false) = ⟨s,.serving⟩ := by
            simp [LiveMember.step, made]
          rw [same]
          exact holds
        | true =>
          have next : LiveMember.step term ⟨s,.serving⟩ (.transaction t true) = ⟨x.committed,.serving⟩ := by
            simp [LiveMember.step, made]
          have paid := (transactionPayable exact made).committed
          have marks := (Marked.transaction ⟨holds.paired,walk⟩ made).committed
          rw [next]
          refine ⟨marks.paired,fun _ => paid,fun c found => ?_,paid,marks.walk⟩
          rw [marks.walk] at found
          cases found
  | exit => exact ⟨holds.paired,holds.marked,holds.cursor,trivial⟩

theorem Holds.run (holds : Holds term m) (steps : List LiveStep) : Holds term (m.run term steps) := by
  unfold LiveMember.run
  induction steps generalizing m with
  | nil => exact holds
  | cons step rest ih => exact ih (holds.step step)

/- A store that carries no mark and no cursor, as a new one and a restored one do, whatever its records are and
whatever is left in the derived tables. -/
def unmarked (db : Tables) (kept : Walked) : LiveMember := ⟨⟨db,kept.counts,kept.digests,none,none,none⟩,.closed⟩

theorem unmarkedHolds (db : Tables) (kept : Walked) : Holds term (unmarked db kept) := ⟨rfl,nofun,nofun,trivial⟩

end LiveMember

/- Exactness in terms of what is read of a collection. -/
theorem exactReads {s : LiveStore} (exact : s.Exact term) (coll : CollectionId) :
    s.liveCount coll = (liveSet s.db.docs coll).card ∧
    ((s.keptRow coll).getD .new).digest = xorLive term (liveSet s.db.docs coll) ∧
    ∀ key r, s.db.docs.get ⟨coll,key⟩ = some r → r.stamp.hlc ≤ ((s.keptRow coll).getD .new).maxw.get r.stamp.node := by
  refine ⟨?_,?_,fun key r found => ?_⟩
  · rw [← liveCountCard]
    exact exact.counts coll
  · rw [← xorInLive]
    exact exact.digests coll
  · exact exact.reached (⟨coll,key⟩,r) (SortedMap.memEntries.mpr found)

/- Along every run, while the member serves and wherever a mark matches. -/
theorem keptExact (term : DocKey → Stamp → Digest) (db : Tables) (kept : Walked) (steps : List LiveStep)
    (coll : CollectionId) :
    let m := (LiveMember.unmarked db kept).run term steps
    (m.phase = .serving ∨ m.store.countsAreCurrent = true ∨ m.store.markMatches = true) →
      m.store.liveCount coll = (liveSet m.store.db.docs coll).card ∧
      ((m.store.keptRow coll).getD .new).digest = xorLive term (liveSet m.store.db.docs coll) ∧
      ∀ key r, m.store.db.docs.get ⟨coll,key⟩ = some r →
        r.stamp.hlc ≤ ((m.store.keptRow coll).getD .new).maxw.get r.stamp.node := by
  intro m held
  have holds : LiveMember.Holds term m := (LiveMember.unmarkedHolds db kept).run steps
  refine exactReads ?_ coll
  rcases held with serving | counts | digests
  · have phase := holds.phase
    rw [serving] at phase
    exact phase.1
  · exact holds.marked (by simpa [LiveStore.countsAreCurrent] using counts)
  · have paired := holds.paired
    have mark : m.store.digestsThrough = some (format,markOf m.store.db) := by
      simpa [LiveStore.markMatches] using digests
    rw [LiveStore.Paired, mark] at paired
    obtain ⟨own,there,is⟩ := Option.map_eq_some_iff.mp paired.symm
    cases is
    exact holds.marked there

/- An open of a new store, a document and a delete of it that is given up, and the next open, whose mark matches. -/
theorem keptExactAgain :
    let stamp : Stamp := ⟨⟨5,0⟩,2⟩
    let steps : List LiveStep := [.start false true,.chunk .through,
      .transaction (.write [.put ⟨1,[0]⟩ (.live stamp []),.append ⟨stamp,.insert,1,some [0],some []⟩ .raise]) true,
      .transaction (.write [.put ⟨1,[0]⟩ (.tombstone ⟨⟨6,0⟩,2⟩)]) false,.exit,.start false true]
    let m := (LiveMember.unmarked (.fresh .empty) ⟨.empty,.empty⟩).run (fun _ stamp => BitVec.ofNat 128 stamp.node) steps
    m.phase = .serving ∧ m.store.liveCount 1 = 1 ∧ m.store.liveCount 1 = (liveSet m.store.db.docs 1).card := by
  refine ⟨rfl,rfl,?_⟩
  exact (keptExact _ _ _ _ 1 (Or.inl rfl)).1

end

end Kimmy.Store
