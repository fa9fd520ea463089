import Kimmy.Store.LiveRuns

/-!
The self-check of a kept digest row (`digest_probe.rs`). The row and the records are read in one state; a difference is
corrected later, by a delta, on whatever the row has become since. Commits move the row by deltas of their own, so the
difference is still there to be taken away, unless the row was restarted: then it is put in.
-/
namespace Kimmy.Store
open Merge

inductive SelfCheck where
  | busy
  | exact
  | corrected
  deriving DecidableEq

section
variable (term : DocKey → Stamp → Digest)

/- `fold_walked`. -/
def foldWalked (rows : SortedMap CollectionId DigestRow) (x : Address × DocRecord) : SortedMap CollectionId DigestRow :=
  (Walked.fold term ⟨.empty,rows⟩ x).digests

/- The budget: bytes read, and a clock that may run out at any row. -/
structure ScanBudget where
  bytes : Nat
  late : Nat → Bool

variable (size : Address × DocRecord → Nat) (budget : ScanBudget)

def walkHeaderRows (row bytes : Nat) : List (Address × DocRecord) → SortedMap CollectionId DigestRow →
    Option (SortedMap CollectionId DigestRow)
  | [], walked => some walked
  | x :: rest, walked =>
      if budget.bytes < bytes + size x || budget.late row then none
      else walkHeaderRows (row + 1) (bytes + size x) rest (foldWalked term walked x)

/- The row a walk of the collection's headers gives; `none` if the budget was spent first. -/
def walkHeaders (t : Tables) (coll : CollectionId) : Option DigestRow :=
  (walkHeaderRows term size budget 0 0 (t.docs.entries.filter fun x => x.1.collection = coll) .empty).map fun walked =>
    (walked.get coll).getD .new

def drifted (kept walked : DigestRow) : Bool :=
  kept.digest != walked.digest ||
    walked.maxw.positions.entries.any fun x => (kept.maxw.positions.get x.1).all fun held => held < x.2

def raiseAll (row : DigestRow) (maxw : VersionVector) : DigestRow :=
  maxw.positions.entries.foldl (fun row x => row.raiseMaxw ⟨x.2,x.1⟩) row

/- `taken`: another check runs. The row and the records are the snapshot's, the correction is of the store as it is now. -/
def verifyDigestRow (taken : Bool) (coll : CollectionId) (snapshot now : LiveStore) : SelfCheck × LiveStore :=
  if taken then (.busy,now)
  else match walkHeaders term size budget snapshot.db coll with
    | none => (.busy,now)
    | some walked =>
        let kept := (snapshot.keptRow coll).getD .new
        if !drifted kept walked then (.exact,now)
        else if (now.db.collections.get coll).isNone then (.busy,now)
        else
          let row := (now.keptRow coll).getD .new
          let row := { row with digest := row.digest ^^^ (kept.digest ^^^ walked.digest) }
          (.corrected,{ now with digests := now.digests.insert coll (raiseAll row walked.maxw) })

/-! The commits between. -/

def LiveStore.after (s : LiveStore) (t : Transaction) : LiveStore := ((t.run term s).map LiveTxn.committed).getD s

def LiveStore.afterAll (s : LiveStore) (between : List Transaction) : LiveStore := between.foldl (LiveStore.after term) s

/- A write that makes the collection anew. -/
def makesAnew (coll : CollectionId) (x : LiveTxn) : WriteStep → Bool
  | .create made => made = coll && (x.store.db.collections.get coll).isNone
  | _ => false

def createsAnew (coll : CollectionId) : LiveTxn → List WriteStep → Bool
  | _, [] => false
  | x, step :: rest => makesAnew coll x step || match x.writeStep term step with
      | some y => createsAnew coll y rest
      | none => false

/- A commit that restarts the row: the collection is made anew, or the last chunk of its purge takes the row with it. -/
def restarts (coll : CollectionId) (s : LiveStore) (t : Transaction) : Bool :=
  (t.run term s).any fun x => match t with
    | .write steps => createsAnew term coll s.begun steps
    | .purge _ => (x.pending.digest coll).forgetRow
    | _ => false

def restartedBy (coll : CollectionId) : LiveStore → List Transaction → Bool
  | _, [] => false
  | s, t :: rest => restarts term coll s t || restartedBy coll (s.after term t) rest

end

/-! Rows apart. A transaction writes the records and gathers what it owes without reading a row. -/

def LiveStore.onRows (s : LiveStore) (w : Walked) : LiveStore := { s with counts := w.counts, digests := w.digests }

def LiveTxn.onRows (x : LiveTxn) (w : Walked) : LiveTxn := { x with store := x.store.onRows w }

section
variable {term : DocKey → Stamp → Digest} {x : LiveTxn} {w : Walked}

theorem onRowsRemove (a : Address) : (x.onRows w).removeRecord term a = (x.removeRecord term a).onRows w := by
  have same : (x.onRows w).docs = x.docs := rfl
  unfold LiveTxn.removeRecord
  rw [same]
  split_ifs <;> rfl

theorem onRowsAppend (entry : OplogEntry) (position : Position) : (x.onRows w).append entry position = (x.append entry position).onRows w := by
  have same : (x.onRows w).store.db = x.store.db := rfl
  unfold LiveTxn.append
  rw [same]
  simp only
  split_ifs <;> rfl

/- What a fold of steps that commute with the rows does. -/
theorem onRowsFold {α : Type} {f : LiveTxn → α → LiveTxn} (each : ∀ (x : LiveTxn) (w : Walked) a, f (x.onRows w) a = (f x a).onRows w)
    (list : List α) : ∀ (x : LiveTxn) (w : Walked), list.foldl f (x.onRows w) = (list.foldl f x).onRows w := by
  induction list with
  | nil => exact fun _ _ => rfl
  | cons a rest ih =>
    intro x w
    rw [List.foldl_cons, List.foldl_cons, each, ih]

theorem onRowsRemoveAll (rows : List Address) : (x.onRows w).removeAll term rows = (x.removeAll term rows).onRows w :=
  onRowsFold (fun _ _ a => onRowsRemove a) rows x w

theorem onRowsTombstones (s : LiveStore) (expired : List (Address × Stamp)) (cutoff : Hlc) :
    removeTombstones term (s.onRows w) expired cutoff = (removeTombstones term s expired cutoff).onRows w := by
  unfold removeTombstones
  refine onRowsFold (fun x w found => ?_) expired s.begun w
  have same : (x.onRows w).docs = x.docs := rfl
  rw [same]
  split
  · split_ifs
    · exact onRowsRemove found.1
    · rfl
  · rfl

theorem onRowsRestore (a : Address) (entry : Option OplogEntry) :
    restore term (x.onRows w) a entry = (restore term x a entry).map (·.onRows w) := by
  cases entry with
  | none => exact congrArg some (onRowsRemove a)
  | some entry =>
    simp only [restore]
    split_ifs
    · rfl
    · cases entry.body <;> rfl

theorem onRowsRestoreAll (plan : List (Address × Option OplogEntry)) : ∀ x : LiveTxn,
    restoreAll term (x.onRows w) plan = (restoreAll term x plan).map (·.onRows w) := by
  induction plan with
  | nil => exact fun _ => rfl
  | cons item rest ih =>
    intro x
    rw [restoreAll, restoreAll, onRowsRestore]
    cases restore term x item.1 item.2 with
    | none => rfl
    | some y => exact ih (y.reindexed item.1 (x.store.db.image item.1))

theorem onRowsRewind (r : Rewind) (s : LiveStore) : r.run term (s.onRows w) = (r.run term s).map (·.onRows w) := by
  have restored := @onRowsRestoreAll term w r.plan s.begun
  unfold Rewind.run
  have begun : (s.onRows w).begun = s.begun.onRows w := rfl
  rw [begun, restored]
  cases restoreAll term s.begun r.plan with
  | none => rfl
  | some x =>
    let doomed := (x.store.db.oplog.entries.map Prod.fst).filter fun stamp => r.target < stamp.hlc
    let cut := x.removeEntries (doomed.foldl Tables.removeEntry x.store.db)
    exact congrArg some (@onRowsFold _ (fun x entry => x.append entry .raise) (fun _ _ entry => onRowsAppend entry .raise) r.reports
      (cut.withDb { cut.store.db with versions := r.versions, witnessed := r.witnessed }) w)

/- A creation restarts the row of its collection in either. -/
theorem onRowsStep (coll : CollectionId) (step : WriteStep) (x : LiveTxn) (w : Walked) : ∃ rows,
    (x.onRows w).writeStep term step = (x.writeStep term step).map (·.onRows ⟨w.counts,rows⟩) ∧
    rows.get coll = (if makesAnew coll x step then none else w.digests.get coll) ∧
    ∀ y, x.writeStep term step = some y →
      y.store.digests.get coll = if makesAnew coll x step then none else x.store.digests.get coll := by
  cases step with
  | put a record =>
    refine ⟨w.digests,rfl,rfl,fun y made => ?_⟩
    cases made
    rfl
  | bare a stamp =>
    refine ⟨w.digests,rfl,rfl,fun y made => ?_⟩
    cases made
    rfl
  | drop other =>
    refine ⟨w.digests,rfl,rfl,fun y made => ?_⟩
    cases made
    rfl
  | append entry position =>
    refine ⟨w.digests,congrArg some (onRowsAppend entry position),rfl,fun y made => ?_⟩
    cases made
    rw [if_neg (by simp [makesAnew])]
    unfold LiveTxn.append
    simp only
    split_ifs <;> rfl
  | create made =>
    have db : (x.onRows w).store.db = x.store.db := rfl
    simp only [LiveTxn.writeStep, LiveTxn.create, db]
    by_cases stands : (x.store.db.collections.get made).isSome = true
    · have known : ¬makesAnew coll x (.create made) = true := by
        intro both
        obtain ⟨same,none⟩ := Bool.and_eq_true_iff.mp both
        rw [decide_eq_true_eq] at same
        rw [same, Option.isSome_iff_ne_none] at stands
        exact stands (Option.isNone_iff_eq_none.mp none)
      refine ⟨w.digests,?_,?_,fun y is => ?_⟩
      · rw [if_pos stands, if_pos stands]
        rfl
      · rw [if_neg known]
      · rw [if_pos stands] at is
        cases is
        rw [if_neg known]
    · have new : (x.store.db.collections.get made).isNone = true := by simpa using stands
      have gone : ∀ rows : SortedMap CollectionId DigestRow, (rows.remove made).get coll =
          if makesAnew coll x (.create made) then none else rows.get coll := by
        intro rows
        rw [SortedMap.getRemove, makesAnew]
        by_cases same : coll = made
        · rw [if_pos same, if_pos]
          rw [same]
          simp [new]
        · rw [if_neg same, if_neg]
          simp [Ne.symm same]
      refine ⟨w.digests.remove made,?_,gone w.digests,fun y is => ?_⟩
      · rw [if_neg stands, if_neg stands]
        split_ifs <;> rfl
      · rw [if_neg stands] at is
        split_ifs at is
        cases is
        exact gone x.store.digests

theorem onRowsSteps (coll : CollectionId) (steps : List WriteStep) : ∀ (x : LiveTxn) (w : Walked), ∃ rows,
    (x.onRows w).writeSteps term steps = (x.writeSteps term steps).map (·.onRows ⟨w.counts,rows⟩) ∧
    ∀ y, x.writeSteps term steps = some y →
      rows.get coll = (if createsAnew term coll x steps then none else w.digests.get coll) ∧
      y.store.digests.get coll = if createsAnew term coll x steps then none else x.store.digests.get coll := by
  induction steps with
  | nil =>
    intro x w
    refine ⟨w.digests,rfl,fun y made => ?_⟩
    cases made
    exact ⟨rfl,rfl⟩
  | cons step rest ih =>
    intro x w
    obtain ⟨first,one,row,own⟩ := @onRowsStep term coll step x w
    rw [LiveTxn.writeSteps, LiveTxn.writeSteps, one]
    cases made : x.writeStep term step with
    | none => exact ⟨w.digests,rfl,fun _ is => by cases is⟩
    | some y =>
      obtain ⟨rows,all,later⟩ := ih y ⟨w.counts,first⟩
      refine ⟨rows,all,fun z done => ?_⟩
      have again := later z done
      rw [row, own y made] at again
      simp only [createsAnew, made]
      by_cases anew : makesAnew coll x step = true
      · rw [if_pos anew, if_pos anew, ite_self] at again
        rw [anew, Bool.true_or, if_pos rfl, if_pos rfl]
        exact again
      · rw [if_neg anew, if_neg anew] at again
        rw [Bool.eq_false_iff.mpr anew, Bool.false_or]
        exact again

theorem onRowsPurged (s : LiveStore) (coll : CollectionId) : purged term (s.onRows w) coll = (purged term s coll).onRows w := by
  have db : (s.onRows w).db = s.db := rfl
  have begun : (s.onRows w).begun = s.begun.onRows w := rfl
  unfold purged
  simp only
  rw [db, begun, onRowsRemoveAll]
  split_ifs <;> rfl

theorem purgedRow (s : LiveStore) (other coll : CollectionId) : (purged term s other).store.digests.get coll = s.digests.get coll := by
  have removed : ∀ (rows : List Address) (x : LiveTxn), (x.removeAll term rows).store.digests = x.store.digests := by
    intro rows
    unfold LiveTxn.removeAll
    induction rows with
    | nil => exact fun _ => rfl
    | cons a rest ih =>
      intro x
      rw [List.foldl_cons, ih]
      unfold LiveTxn.removeRecord
      split_ifs <;> rfl
  unfold purged
  simp only
  split_ifs
  all_goals exact congrArg (fun rows => SortedMap.get rows coll) (removed _ _)

/-! The difference. -/

/- The rows a store would have were they exact, and how far the kept row of a collection is from its own: `d` apart, with the
highest stamps no lower than those already `seen`. -/
structure Apart (term : DocKey → Stamp → Digest) (coll : CollectionId) (d : Digest) (seen : VersionVector) (s : LiveStore)
    (w : Walked) : Prop where
  exact : (s.onRows w).Exact term
  digest : ((w.digests.get coll).getD .new).digest = ((s.digests.get coll).getD .new).digest ^^^ d
  reached : ∀ node, ((w.digests.get coll).getD .new).maxw.get node ≤
    max (((s.digests.get coll).getD .new).maxw.get node) (seen.get node)

variable {coll : CollectionId} {d : Digest} {seen : VersionVector}

theorem onRowsCommitted (x : LiveTxn) (w : Walked) : ∃ rows : Walked, (x.onRows w).committed = x.committed.onRows rows ∧
    rows.digests.get coll = (x.pending.digest coll).flush (w.digests.get coll) := by
  refine ⟨(x.onRows w).committed.kept,?_,committedDigests (x.onRows w) coll⟩
  unfold LiveTxn.committed LiveStore.flush
  have pending : (x.onRows w).pending = x.pending := rfl
  rw [pending]
  simp only
  cases x.pending.mark <;> rfl

/- A commit moves both rows by what it owes, or forgets both. -/
theorem apartCommitted {x : LiveTxn} {w : Walked} (payable : Payable term (x.onRows w))
    (digest : ((w.digests.get coll).getD .new).digest = ((x.store.digests.get coll).getD .new).digest ^^^ d)
    (reached : ∀ node, ((w.digests.get coll).getD .new).maxw.get node ≤
      max (((x.store.digests.get coll).getD .new).maxw.get node) (seen.get node)) :
    ∃ rows, Apart term coll (if (x.pending.digest coll).forgetRow then 0 else d) seen x.committed rows := by
  obtain ⟨rows,same,row⟩ := @onRowsCommitted coll x w
  have exact := payable.committed
  rw [same] at exact
  refine ⟨rows,exact,?_,fun node => ?_⟩
  · rw [row, committedDigests]
    cases forgets : (x.pending.digest coll).forgetRow with
    | true =>
      rw [forgottenRow _ forgets, forgottenRow _ forgets, if_pos rfl]
      exact BitVec.xor_zero.symm
    | false =>
      rw [(flushedRow _ forgets).1, (flushedRow _ forgets).1, digest]
      simp only [Bool.false_eq_true, if_false]
      rw [BitVec.xor_assoc, BitVec.xor_assoc, BitVec.xor_comm d]
  · rw [row, committedDigests]
    cases forgets : (x.pending.digest coll).forgetRow with
    | true =>
      rw [forgottenRow _ forgets, forgottenRow _ forgets]
      exact le_max_left _ _
    | false =>
      rw [(flushedRow _ forgets).2, (flushedRow _ forgets).2]
      have here := reached node
      exact max_le (here.trans (max_le_max (le_max_left _ _) le_rfl)) ((le_max_right _ _).trans (le_max_left _ _))

/- The others restart nothing. -/
theorem runRows {s : LiveStore} {t : Transaction} {x : LiveTxn} (made : t.run term s = some x)
    (other : (∃ expired cutoff, t = .tombstones expired cutoff) ∨ (∃ keys, t = .retention keys) ∨ ∃ r, t = .rewind r) :
    x.store.digests.get coll = s.digests.get coll ∧ ∀ w : Walked, t.run term (s.onRows w) = some (x.onRows w) := by
  have both : ∀ w : Walked, t.run term (s.onRows w) = some (x.onRows w) := by
    intro w
    rcases other with ⟨expired,cutoff,rfl⟩ | ⟨keys,rfl⟩ | ⟨r,rfl⟩
    · cases made
      exact congrArg some (onRowsTombstones s expired cutoff)
    · cases made
      rfl
    · have same := @onRowsRewind term w r s
      have own : r.run term s = some x := made
      rw [own] at same
      exact same
  -- The rows it is run over are the rows it leaves, so they are its own.
  have own := both s.kept
  have self : s.onRows s.kept = s := rfl
  rw [self, made] at own
  have digests : x.store.digests = s.digests := by
    have is := Option.some.inj own
    exact congrArg (fun y : LiveTxn => y.store.digests) is
  exact ⟨by rw [digests],both⟩

/- One commit. -/
theorem apartAfter {s : LiveStore} {w : Walked} (apart : Apart term coll d seen s w) (t : Transaction) :
    ∃ rows, Apart term coll (if restarts term coll s t then 0 else d) seen (s.after term t) rows := by
  unfold LiveStore.after restarts
  cases made : t.run term s with
  | none => exact ⟨w,apart⟩
  | some x =>
    rw [Option.map_some, Option.getD_some, Option.any_some]
    have rest : ((∃ expired cutoff, t = .tombstones expired cutoff) ∨ (∃ keys, t = .retention keys) ∨ ∃ r, t = .rewind r) →
        Sound term (x.onRows w) → ∃ rows, Apart term coll d seen x.committed rows := by
      intro other sound
      have same := (@runRows term coll s t x made other).1
      have kept : (x.pending.digest coll).forgetRow = false := sound.keeping coll
      have next := @apartCommitted term coll d seen x w sound.payable (by rw [same]; exact apart.digest)
        (by rw [same]; exact apart.reached)
      rw [kept] at next
      exact next
    cases t with
    | write steps =>
      obtain ⟨rows,all,each⟩ := @onRowsSteps term coll steps s.begun w
      have done : s.begun.writeSteps term steps = some x := made
      obtain ⟨row,own⟩ := each x done
      rw [done] at all
      have sound := writeStepsSound (Sound.ofExact apart.exact) (fun _ _ => rfl) all
      have kept : (x.pending.digest coll).forgetRow = false := sound.keeping coll
      have begun : s.begun.store.digests = s.digests := rfl
      simp only
      by_cases anew : createsAnew term coll s.begun steps = true
      · rw [if_pos anew] at row own ⊢
        have next := @apartCommitted term coll 0 seen x ⟨w.counts,rows⟩ sound.payable
          (by simp only [row, own]; exact BitVec.xor_zero.symm) (by simp only [row, own]; exact fun _ => le_max_left _ _)
        rw [ite_self] at next
        exact next
      · rw [if_neg anew] at row own ⊢
        rw [begun] at own
        have next := @apartCommitted term coll d seen x ⟨w.counts,rows⟩ sound.payable
          (by simp only [row, own]; exact apart.digest) (by simp only [row, own]; exact apart.reached)
        rw [kept] at next
        exact next
    | purge other =>
      have is := purgeIsPurged made
      have payable := @purgedPayable term (s.onRows w) other apart.exact
      rw [onRowsPurged, ← is] at payable
      have same : x.store.digests.get coll = s.digests.get coll := by
        rw [is]
        exact purgedRow s other coll
      exact apartCommitted payable (by rw [same]; exact apart.digest) (by rw [same]; exact apart.reached)
    | tombstones expired cutoff =>
      refine rest (Or.inl ⟨expired,cutoff,rfl⟩) ?_
      cases made
      rw [← onRowsTombstones]
      exact tombstonesSound apart.exact expired cutoff
    | retention keys =>
      refine rest (Or.inr (Or.inl ⟨keys,rfl⟩)) ?_
      cases made
      exact (Sound.ofExact apart.exact).removeEntries (removingDocs ..)
    | rewind r =>
      refine rest (Or.inr (Or.inr ⟨r,rfl⟩)) ?_
      have own : r.run term s = some x := made
      have twin := @onRowsRewind term w r s
      rw [own] at twin
      exact rewindSound apart.exact twin

theorem apartAfterAll (between : List Transaction) : ∀ {s : LiveStore} {w : Walked} {d : Digest}, Apart term coll d seen s w →
    ∃ rows, Apart term coll (if restartedBy term coll s between then 0 else d) seen (s.afterAll term between) rows := by
  induction between with
  | nil => exact fun apart => ⟨_,apart⟩
  | cons t rest ih =>
    intro s w d apart
    obtain ⟨rows,next⟩ := apartAfter apart t
    obtain ⟨last,all⟩ := ih next
    refine ⟨last,?_⟩
    have drift : (if restartedBy term coll s (t :: rest) then 0 else d) =
        if restartedBy term coll (s.after term t) rest then 0 else if restarts term coll s t then 0 else d := by
      simp only [restartedBy, Bool.or_eq_true]
      by_cases first : restarts term coll s t = true
      · rw [if_pos (Or.inl first), if_pos first, ite_self]
      · rw [if_neg first]
        simp only [first, Bool.false_eq_true, false_or]
    rw [drift]
    exact all

/-! The check. -/

theorem walkHeaderRowsAll {size : Address × DocRecord → Nat} {budget : ScanBudget} (rows : List (Address × DocRecord)) :
    ∀ {row bytes : Nat} {walked out : SortedMap CollectionId DigestRow}, walkHeaderRows term size budget row bytes rows walked = some out →
      out = rows.foldl (foldWalked term) walked := by
  induction rows with
  | nil =>
    intro row bytes walked out is
    cases is
    rfl
  | cons x rest ih =>
    intro row bytes walked out is
    rw [walkHeaderRows] at is
    split_ifs at is
    exact ih is

/- Only the records of the collection move its row. -/
theorem foldUnder (coll : CollectionId) (rows : List (Address × DocRecord)) : ∀ {walked under : SortedMap CollectionId DigestRow},
    walked.get coll = under.get coll → (rows.foldl (foldWalked term) walked).get coll =
      ((rows.filter fun x => x.1.collection = coll).foldl (foldWalked term) under).get coll := by
  have step : ∀ (walked : SortedMap CollectionId DigestRow) (x : Address × DocRecord), (foldWalked term walked x).get coll =
      if coll = x.1.collection then some ((if x.2.isLive then { (walked.get x.1.collection).getD .new with
          digest := ((walked.get x.1.collection).getD .new).digest ^^^ term x.1.key x.2.stamp }
        else ((walked.get x.1.collection).getD .new).raiseBare x.2.stamp).raiseMaxw x.2.stamp) else walked.get coll := fun _ _ =>
    SortedMap.getInsert ..
  induction rows with
  | nil => exact fun same => same
  | cons x rest ih =>
    intro walked under same
    by_cases own : x.1.collection = coll
    · rw [List.filter_cons_of_pos (by simp [own]), List.foldl_cons, List.foldl_cons]
      refine ih ?_
      rw [step, step, if_pos own.symm, if_pos own.symm, own, same]
    · rw [List.filter_cons_of_neg (by simp [own]), List.foldl_cons]
      refine ih ?_
      rw [step, if_neg (Ne.symm own), same]

theorem foldDigestsApart (rows : List (Address × DocRecord)) : ∀ w : Walked,
    (rows.foldl (Walked.fold term) w).digests = rows.foldl (foldWalked term) w.digests := by
  induction rows with
  | nil => exact fun _ => rfl
  | cons x rest ih => exact fun w => ih (w.fold term x)

/- The walk reads the row the collection would have were it exact. -/
theorem walkHeadersRow {size : Address × DocRecord → Nat} {budget : ScanBudget} {t : Tables} {coll : CollectionId} {walked : DigestRow}
    (is : walkHeaders term size budget t coll = some walked) :
    ((t.docs.entries.foldl (Walked.fold term) ⟨.empty,.empty⟩).digests.get coll).getD .new = walked := by
  obtain ⟨rows,read,rfl⟩ := Option.map_eq_some_iff.mp is
  rw [walkHeaderRowsAll _ read, foldDigestsApart]
  exact congrArg (Option.getD · DigestRow.new) (foldUnder coll t.docs.entries rfl)

def LiveStore.RowRight (term : DocKey → Stamp → Digest) (s : LiveStore) (coll : CollectionId) : Prop :=
  ((s.keptRow coll).getD .new).digest = xorLive term (liveSet s.db.docs coll)

def LiveStore.RowReaches (s : LiveStore) (coll : CollectionId) : Prop :=
  ∀ key r, s.db.docs.get ⟨coll,key⟩ = some r → r.stamp.hlc ≤ ((s.keptRow coll).getD .new).maxw.get r.stamp.node

theorem raiseAllDigest (row : DigestRow) (maxw : VersionVector) : (raiseAll row maxw).digest = row.digest := by
  unfold raiseAll
  induction maxw.positions.entries generalizing row with
  | nil => rfl
  | cons x rest ih => exact ih _

theorem raiseAllReaches (row : DigestRow) (maxw : VersionVector) (node : NodeId) :
    max (row.maxw.get node) (maxw.get node) ≤ (raiseAll row maxw).maxw.get node := by
  have grows : ∀ (pairs : List (NodeId × Hlc)) (row : DigestRow),
      row.maxw.get node ≤ (pairs.foldl (fun row x => row.raiseMaxw ⟨x.2,x.1⟩) row).maxw.get node ∧
      ∀ hlc, (node,hlc) ∈ pairs → hlc ≤ (pairs.foldl (fun row x => row.raiseMaxw ⟨x.2,x.1⟩) row).maxw.get node := by
    intro pairs
    induction pairs with
    | nil => exact fun _ => ⟨le_rfl,nofun⟩
    | cons x rest ih =>
      intro row
      have one : (row.raiseMaxw ⟨x.2,x.1⟩).maxw.get node = if node = x.1 then max (row.maxw.get node) x.2 else row.maxw.get node :=
        VersionVector.getObserve ..
      obtain ⟨up,each⟩ := ih (row.raiseMaxw ⟨x.2,x.1⟩)
      rw [one] at up
      refine ⟨?_,fun hlc member => ?_⟩
      · refine le_trans ?_ up
        split_ifs
        · exact le_max_left _ _
        · exact le_rfl
      · rcases List.mem_cons.mp member with rfl | later
        · rw [if_pos rfl] at up
          exact (le_max_right _ _).trans up
        · exact each hlc later
  obtain ⟨up,each⟩ := grows maxw.positions.entries row
  refine max_le up ?_
  cases held : maxw.positions.get node with
  | none =>
    rw [VersionVector.get, held]
    exact VersionVector.zeroLe _
  | some hlc =>
    rw [VersionVector.get, held]
    exact each hlc (SortedMap.memEntries.mpr held)

theorem xorCancel {a b d e : Digest} (is : b = a ^^^ e) : a ^^^ d = b ↔ d = e := by
  rw [is]
  exact BitVec.xor_right_inj a

/- The rows a walk of the snapshot gives, and how far the kept row is from them. -/
theorem apartSnapshot {size : Address × DocRecord → Nat} {budget : ScanBudget} {snapshot : LiveStore} {coll : CollectionId}
    {walked : DigestRow} (is : walkHeaders term size budget snapshot.db coll = some walked) :
    Apart term coll (((snapshot.keptRow coll).getD .new).digest ^^^ walked.digest) walked.maxw snapshot
      (snapshot.db.docs.entries.foldl (Walked.fold term) ⟨.empty,.empty⟩) := by
  have row := walkHeadersRow is
  refine ⟨walkedKept _,?_,fun node => ?_⟩
  · rw [row]
    rw [LiveStore.keptRow, ← BitVec.xor_assoc, BitVec.xor_self]
    exact BitVec.zero_xor.symm
  · rw [row]
    exact le_max_right _ _

/- The walked digest is the one the snapshot's row is right to have. -/
theorem walkedRight {size : Address × DocRecord → Nat} {budget : ScanBudget} {snapshot : LiveStore} {coll : CollectionId}
    {walked : DigestRow} (is : walkHeaders term size budget snapshot.db coll = some walked) :
    snapshot.RowRight term coll ↔ ((snapshot.keptRow coll).getD .new).digest ^^^ walked.digest = 0 := by
  have exact := (exactReads (apartSnapshot is).exact coll).2.1
  have row := walkHeadersRow is
  have same : walked.digest = xorLive term (liveSet snapshot.db.docs coll) := by
    rw [← row]
    exact exact
  rw [LiveStore.RowRight, ← same]
  exact BitVec.xor_eq_zero_iff.symm

/- The row after a correction, over what the commits between have left of it. -/
theorem correctedRow {now : LiveStore} {w : Walked} {fix : Digest} {walked : DigestRow}
    (apart : Apart term coll d walked.maxw now w) :
    let row := (now.keptRow coll).getD .new
    let fixed : LiveStore := { now with
      digests := now.digests.insert coll (raiseAll { row with digest := row.digest ^^^ fix } walked.maxw) }
    (fixed.RowRight term coll ↔ fix = d) ∧ fixed.RowReaches coll := by
  intro row fixed
  obtain ⟨_,digest,reached⟩ := exactReads apart.exact coll
  have kept : (fixed.keptRow coll).getD .new = raiseAll { row with digest := row.digest ^^^ fix } walked.maxw := by
    have got : fixed.keptRow coll = some (raiseAll { row with digest := row.digest ^^^ fix } walked.maxw) := by
      refine (SortedMap.getInsert ..).trans ?_
      rw [if_pos rfl]
    rw [got]
    rfl
  refine ⟨?_,fun key r found => ?_⟩
  · rw [LiveStore.RowRight, kept, raiseAllDigest]
    exact xorCancel (digest.symm.trans apart.digest)
  · rw [kept]
    have raised := raiseAllReaches { row with digest := row.digest ^^^ fix } walked.maxw r.stamp.node
    exact (reached key r found).trans ((apart.reached r.stamp.node).trans raised)

/- Whatever is committed between the read and the correction, the correction is right exactly when the row it is made to is the
one that was read, moved on, or nothing was wrong with the digest. -/
theorem selfCheckRepairs (term : DocKey → Stamp → Digest) (size : Address × DocRecord → Nat) (budget : ScanBudget) (taken : Bool)
    (coll : CollectionId) (snapshot : LiveStore) (between : List Transaction) :
    let now := snapshot.afterAll term between
    let outcome := verifyDigestRow term size budget taken coll snapshot now
    (outcome.1 = .corrected →
      ((outcome.2.RowRight term coll ∧ outcome.2.RowReaches coll ∧ (now.RowRight term coll → outcome.2.RowRight term coll)) ↔
        (restartedBy term coll snapshot between = false ∨ snapshot.RowRight term coll))) ∧
    (outcome.1 ≠ .corrected → outcome.2 = now) ∧
    ((now.db.collections.get coll).isNone = true → outcome.2 = now) := by
  intro now outcome
  have unfolded : outcome = verifyDigestRow term size budget taken coll snapshot now := rfl
  unfold verifyDigestRow at unfolded
  by_cases busy : taken = true
  · rw [if_pos busy] at unfolded
    rw [unfolded]
    exact ⟨nofun,fun _ => rfl,fun _ => rfl⟩
  rw [if_neg busy] at unfolded
  cases read : walkHeaders term size budget snapshot.db coll with
  | none =>
    simp only [read] at unfolded
    rw [unfolded]
    exact ⟨nofun,fun _ => rfl,fun _ => rfl⟩
  | some walked =>
    simp only [read] at unfolded
    split_ifs at unfolded with fine stands
    · rw [unfolded]
      exact ⟨nofun,fun _ => rfl,fun _ => rfl⟩
    · rw [unfolded]
      exact ⟨nofun,fun _ => rfl,fun _ => rfl⟩
    -- the correction is made
    · obtain ⟨rows,apart⟩ := apartAfterAll between (apartSnapshot read)
      obtain ⟨right,reaches⟩ := @correctedRow term coll _ now rows
        (((snapshot.keptRow coll).getD .new).digest ^^^ walked.digest) walked apart
      rw [unfolded]
      refine ⟨fun _ => ?_,fun other => (other rfl).elim,fun gone => (stands gone).elim⟩
      rw [walkedRight read]
      constructor
      · intro ⟨correct,_,_⟩
        have is := right.mp correct
        cases restarted : restartedBy term coll snapshot between with
        | true =>
          rw [restarted, if_pos rfl] at is
          exact Or.inr is
        | false => exact Or.inl rfl
      · intro fine
        have same : ((snapshot.keptRow coll).getD .new).digest ^^^ walked.digest =
            if restartedBy term coll snapshot between then 0 else ((snapshot.keptRow coll).getD .new).digest ^^^ walked.digest := by
          rcases fine with steady | nothing
          · rw [steady]
            rfl
          · rw [nothing, ite_self]
        have correct := right.mpr same
        exact ⟨correct,reaches,fun _ => correct⟩

/- A collection of one record whose row was lost; between the read and the correction it is dropped, purged and created again.
Its new row is right, and the correction puts the old record's term in it. -/
theorem selfCheckBreaks :
    let term : DocKey → Stamp → Digest := fun _ _ => 1
    let snapshot : LiveStore := ((LiveMember.unmarked (.fresh .empty) ⟨.empty,.empty⟩).store.after term
      (.write [.create 1,.put ⟨1,[0]⟩ (.live ⟨⟨5,0⟩,2⟩ [])]))
    let drifted : LiveStore := { snapshot with digests := .empty }
    let now := drifted.afterAll term [.write [.drop 1],.purge 1,.write [.create 1]]
    let outcome := verifyDigestRow term (fun _ => 0) ⟨0,fun _ => false⟩ false 1 drifted now
    outcome.1 = .corrected ∧ now.RowRight term 1 ∧ ¬outcome.2.RowRight term 1 := by
  refine ⟨rfl,?_,?_⟩
  · rfl
  · intro right
    have nothing : ((1 : Digest)) = 0 := right
    exact absurd nothing (by decide)

end

end Kimmy.Store
