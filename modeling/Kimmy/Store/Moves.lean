import Kimmy.Store.Engine
import Mathlib.Logic.Relation

/-!
Everything a write of any kind can do to an engine, as a few moves. What holds along every
run of moves holds of every sequence of local, bulk, scoped and replicated writes, aborted
ones included.
-/
namespace Kimmy.Store
open Merge

/- `given` are the entries that replication may bring. -/
inductive Move (given : OplogEntry → Prop) : Engine → Engine → Prop where
  | called (e : Engine) (more : List Call) : Move given e (e.called more)
  | indexed (e : Engine) (entries : SortedMap IndexKey Unit) (collections : SortedMap CollectionId CollectionMeta)
      (known : ∀ coll, (collections.get coll).isSome = (e.db.collections.get coll).isSome) :
      Move given e { e with db := { e.db with entries := entries, collections := collections } }
  | wrote (e : Engine) (coll : CollectionId) (key : DocKey) (kind : OpKind) (body : Option Document)
      (document : kind.isDocument = true) (shape : body = none ↔ kind = .delete) :
      Move given e (e.write coll key kind body)
  | observed (e : Engine) (coll : CollectionId) (kind : OpKind) (own : kind.isLocalObservation = true) :
      Move given e (e.observe coll kind)
  | merged (e : Engine) (entry : OplogEntry) (position : Position) (key : DocKey) (got : given entry)
      (named : entry.docId = some key)
      (wins : ∀ current, e.db.docs.get ⟨entry.collection,key⟩ = some current → current.stamp < entry.stamp) :
      Move given e ({ e with
        db := ((e.db.putRecord ⟨entry.collection,key⟩ entry.incoming).appendOplogAt entry position).1 }.witness
          entry.stamp)
  | owed (e : Engine) (entry : OplogEntry) (position : Position) (key : DocKey) (got : given entry)
      (named : entry.docId = some key) (placed : position ≠ .hold)
      (tombstone : ∃ current, e.db.docs.get ⟨entry.collection,key⟩ = some current ∧
        current.isLive = false ∧ current.stamp = entry.stamp)
      (missing : e.db.deleteEntryIsOwed entry.stamp = true) (delete : entry.kind = .delete ∧ entry.body = none) :
      Move given e ({ e with db := (e.db.appendOplogAt entry position).1 }.witness entry.stamp)
  | released (e : Engine) (entry : OplogEntry) (got : given entry) :
      Move given e ({ e with db := (e.db.releaseHeldInPosition entry.stamp).1 }.witness entry.stamp)

abbrev Moves (given : OplogEntry → Prop) : Engine → Engine → Prop := Relation.ReflTransGen (Move given)

namespace Moves
variable {given : OplogEntry → Prop} {e x y : Engine}

/- The clock takes calls and nothing else about the member changes. -/
structure SameMember (x y : Engine) : Prop where
  node : y.node = x.node
  physicalNowMs : y.physicalNowMs = x.physicalNowMs
  resumed : y.resumed = x.resumed
  calls : ∃ more, y.calls = x.calls ++ more

theorem sameRefl (x : Engine) : SameMember x x := ⟨rfl,rfl,rfl,[],(List.append_nil _).symm⟩

theorem sameTrans {x y z : Engine} (first : SameMember x y) (second : SameMember y z) : SameMember x z := by
  obtain ⟨more, calls⟩ := first.calls
  obtain ⟨again, calls'⟩ := second.calls
  refine ⟨second.node.trans first.node,second.physicalNowMs.trans first.physicalNowMs,
    second.resumed.trans first.resumed,more ++ again,?_⟩
  rw [calls', calls, List.append_assoc]

theorem sameMove (move : Move given x y) : SameMember x y := by
  cases move with
  | called more => exact ⟨rfl,rfl,rfl,more,rfl⟩
  | indexed => exact ⟨rfl,rfl,rfl,[],(List.append_nil _).symm⟩
  | wrote => exact ⟨rfl,rfl,rfl,_,rfl⟩
  | observed => exact ⟨rfl,rfl,rfl,_,rfl⟩
  | merged => exact ⟨rfl,rfl,rfl,_,rfl⟩
  | owed => exact ⟨rfl,rfl,rfl,_,rfl⟩
  | released => exact ⟨rfl,rfl,rfl,_,rfl⟩

theorem same (moves : Moves given x y) : SameMember x y := by
  induction moves with
  | refl => exact sameRefl x
  | tail _ move ih => exact sameTrans ih (sameMove move)

theorem widen {wider : OplogEntry → Prop} (moves : Moves given x y) (le : ∀ entry, given entry → wider entry) :
    Moves wider x y := by
  refine Relation.ReflTransGen.mono (fun x y move => ?_) _ _ moves
  cases move with
  | called more => exact .called x more
  | indexed entries collections known => exact .indexed x entries collections known
  | wrote coll key kind body document shape => exact .wrote x coll key kind body document shape
  | observed coll kind own => exact .observed x coll kind own
  | merged entry position key got named wins => exact .merged x entry position key (le entry got) named wins
  | owed entry position key got named placed tombstone missing delete =>
      exact .owed x entry position key (le entry got) named placed tombstone missing delete
  | released entry got => exact .released x entry (le entry got)

/- All that is left of an aborted transaction is what its clock was asked. -/
theorem abortCalled {tried : Engine} (same : SameMember e tried) : ∃ more, e.abort tried = e.called more := by
  obtain ⟨node, physical, resumed, more, calls⟩ := same
  refine ⟨more,?_⟩
  cases tried
  simp only at node physical resumed calls
  simp only [Engine.abort, Engine.called, node, physical, resumed, calls]

theorem aborted {tried : Engine} (moves : Moves given e tried) : Moves given e (e.abort tried) := by
  obtain ⟨more, only⟩ := abortCalled (same moves)
  rw [only]
  exact .single (.called e more)

theorem settled (e : Engine) (coll : CollectionId) (done : Maintained) :
    Move given e { e with db := e.db.settle coll done } := by
  refine .indexed e _ _ fun c => ?_
  cases defined : e.db.collections.get coll with
  | none => rfl
  | some definition =>
      rw [SortedMap.getInsert]
      split_ifs with here
      · rw [here, defined]
        rfl
      · rfl

theorem maintained {coll old new key} {t : Tables} (accepted : e.db.maintain coll old new key = .ok t) :
    ∃ done, maintainLocal e.db.entries coll (e.db.currentIndexes coll) old new key true = .ok done ∧
      t = e.db.settle coll done := by
  unfold Tables.maintain at accepted
  cases result : maintainLocal e.db.entries coll (e.db.currentIndexes coll) old new key true with
  | error error =>
      rw [result] at accepted
      cases accepted
  | ok done =>
      rw [result] at accepted
      cases accepted
      exact ⟨done,rfl,rfl⟩

theorem ofMaintain {coll old new key} {t : Tables} (accepted : e.db.maintain coll old new key = .ok t) :
    Move given e { e with db := t } := by
  obtain ⟨done, _, rfl⟩ := maintained accepted
  exact settled e coll done

/- What a check that passed has found and done. -/
theorem checked {coll draft seen} {next : Engine} (passed : e.checkInsert coll draft seen = .ok next) :
    (∀ record, e.db.docs.get ⟨coll,draft.key⟩ = some record → record.isLive = false) ∧ draft.key ∉ seen ∧
      ∃ t, e.db.maintain coll none (some draft.body) draft.key = .ok t ∧ next = { e with db := t } := by
  unfold Engine.checkInsert at passed
  split_ifs at passed with admitted occupied
  simp only [Bool.or_eq_true, not_or, List.contains_iff_mem] at occupied
  refine ⟨fun record found => ?_,occupied.2,?_⟩
  · rw [found] at occupied
    simpa using occupied.1
  · cases result : e.db.maintain coll none (some draft.body) draft.key with
    | error error =>
        rw [result] at passed
        cases passed
    | ok t =>
        rw [result] at passed
        cases passed
        exact ⟨t,rfl,rfl⟩

theorem ofCheck {coll draft seen} {next : Engine} (passed : e.checkInsert coll draft seen = .ok next) :
    Move given e next := by
  obtain ⟨_, _, t, accepted, rfl⟩ := checked passed
  exact ofMaintain accepted

theorem inserted {coll : CollectionId} {draft : Engine.Draft} : Move given e (e.writeInsert coll draft) :=
  .wrote e coll draft.key .insert (some draft.body) rfl (by simp)

theorem ofInsert {coll draft} {next : Engine} (passed : e.insertInTxn coll draft = .ok next) :
    Moves given e next := by
  unfold Engine.insertInTxn at passed
  cases result : e.checkInsert coll draft [] with
  | error error =>
      rw [result] at passed
      cases passed
  | ok middle =>
      rw [result] at passed
      cases passed
      exact .tail (.single (ofCheck result)) inserted

theorem ofChecks {coll} : ∀ {drafts : List Engine.Draft} {seen} {e next : Engine},
    e.checkInserts coll seen drafts = .ok next → Moves given e next
  | [], _, _, _, passed => by cases passed; exact .refl
  | draft :: rest, seen, e, next, passed => by
      unfold Engine.checkInserts at passed
      cases result : e.checkInsert coll draft seen with
      | error error =>
          rw [result] at passed
          cases passed
      | ok middle =>
          rw [result] at passed
          exact .head (ofCheck result) (ofChecks passed)

theorem ofWrites {coll} : ∀ {drafts : List Engine.Draft} {e : Engine},
    Moves given e (drafts.foldl (fun e draft => e.writeInsert coll draft) e)
  | [], _ => .refl
  | _ :: _, _ => .head inserted ofWrites

theorem ofInsertMany {coll drafts} {next : Engine} (passed : e.insertManyInTxn coll drafts = .ok next) :
    Moves given e next := by
  unfold Engine.insertManyInTxn at passed
  cases result : e.checkInserts coll [] drafts with
  | error error =>
      rw [result] at passed
      cases passed
  | ok middle =>
      rw [result] at passed
      cases passed
      exact (ofChecks result).trans ofWrites

/- A replace that writes has maintained the indexes from the image that stood. -/
theorem replaced {coll : CollectionId} {r : Engine.Replacement} {next : Engine}
    (passed : e.replaceInTxn coll r = .ok next) :
    next = e ∨ ∃ body t kind, e.db.maintain coll (e.db.image ⟨coll,r.key⟩) (some body) r.key = .ok t ∧
      body = r.compose (e.db.image ⟨coll,r.key⟩) ∧ (kind = .replace ∨ kind = .insert) ∧
      next = { e with db := t }.write coll r.key kind (some body) := by
  unfold Engine.replaceInTxn at passed
  simp only at passed
  split_ifs at passed with stale unmatched unchanged admitted existed
  · cases passed
    exact Or.inl rfl
  · cases passed
    exact Or.inl rfl
  all_goals
    generalize accepted : e.db.maintain _ _ _ _ = result at passed
    cases result with
    | error error => cases passed
    | ok t =>
        cases passed
        refine Or.inr ⟨_,t,_,accepted,rfl,?_,rfl⟩
        first | exact Or.inl rfl | exact Or.inr rfl

theorem ofReplace {coll r} {next : Engine} (passed : e.replaceInTxn coll r = .ok next) : Moves given e next := by
  obtain rfl | ⟨body, t, kind, accepted, _, kinds, rfl⟩ := replaced passed
  · exact .refl
  · refine .tail (.single (ofMaintain accepted)) (.wrote _ coll r.key kind (some body) ?_ ?_)
    · rcases kinds with rfl | rfl <;> rfl
    · rcases kinds with rfl | rfl <;> simp

/- A delete that writes has taken the image that stood out of the indexes. -/
theorem deleted {coll key guard} {next : Engine} (passed : e.deleteInTxn coll key guard = .ok next) :
    next = e ∨ ∃ image t, e.db.image ⟨coll,key⟩ = some image ∧
      e.db.maintain coll (some image) none key = .ok t ∧ next = { e with db := t }.write coll key .delete none := by
  unfold Engine.deleteInTxn at passed
  split at passed
  · cases passed
    exact Or.inl rfl
  next record found =>
    split at passed
    · cases passed
      exact Or.inl rfl
    next image live =>
      generalize verdict : guard record.stamp image = decided at passed
      cases decided with
      | error error => cases passed
      | ok approved =>
          cases approved with
          | false =>
              cases passed
              exact Or.inl rfl
          | true =>
              cases passed
              refine Or.inr ⟨image,_,?_,rfl,rfl⟩
              rw [Tables.image, found]
              exact live

theorem ofDelete {coll key guard} {next : Engine} (passed : e.deleteInTxn coll key guard = .ok next) :
    Moves given e next := by
  obtain rfl | ⟨image, t, _, accepted, rfl⟩ := deleted passed
  · exact .refl
  · exact .tail (.single (ofMaintain accepted)) (.wrote _ coll key .delete none rfl (by simp))

theorem ofWrite {w : Engine.LocalWrite} {next : Engine} (passed : e.writeInTxn w = .ok next) :
    Moves given e next := by
  cases w with
  | insert coll draft => exact ofInsert passed
  | replace coll r => exact ofReplace passed
  | delete coll key guard => exact ofDelete passed

theorem ofScope : ∀ {writes : List Engine.LocalWrite} {e : Engine}, Moves given e (e.scope writes).1
  | [], _ => .refl
  | w :: rest, e => by
      unfold Engine.scope
      cases result : e.writeInTxn w with
      | error error => exact .refl
      | ok middle => exact (ofWrite result).trans ofScope

theorem ofBatch {writes closed} : Moves given e (e.writeBatch writes closed) := by
  unfold Engine.writeBatch
  simp only
  split_ifs with committed
  · exact ofScope
  · exact aborted ofScope

theorem ofCommit {result : Except StorageError Engine} (each : ∀ {next}, result = .ok next → Moves given e next) :
    Moves given e (e.commit result) := by
  cases result with
  | error error => exact .refl
  | ok next => exact each rfl

/-! Replication. -/

theorem ofUnkeyed {coll key} : ∀ {filings : List UnkeyedFiling} {e : Engine},
    Moves given e (e.appendUnkeyed coll key filings)
  | [], _ => .refl
  | _ :: _, _ => .head (.observed _ _ _ rfl) ofUnkeyed

/- A merge with a record that the entry beats is the entry's own. -/
theorem winner {existing : Option DocRecord} {entry : OplogEntry}
    (wins : ∀ current, existing = some current → current.stamp < entry.stamp) :
    Engine.mergedWith existing entry.incoming = entry.incoming := by
  cases existing with
  | none => rfl
  | some current =>
      have stamped : entry.incoming.stamp = entry.stamp := by
        unfold OplogEntry.incoming
        cases entry.body <;> rfl
      simp only [Engine.mergedWith, DocRecord.merge, stamped, wins current rfl, if_true]

theorem ofRemote {entry : OplogEntry} {position : Position} (got : given entry) :
    Moves given e (e.applyRemoteInTxn entry position).1 := by
  unfold Engine.applyRemoteInTxn
  split
  · exact .single (.called e _)
  next key named =>
    simp only
    split_ifs with wins owed inWindow
    · have beats : ∀ current, e.db.docs.get ⟨entry.collection,key⟩ = some current → current.stamp < entry.stamp := by
        intro current found
        simpa [found] using wins
      rw [winner beats]
      refine .trans (.tail (.single (settled e entry.collection ?_)) ?_) ofUnkeyed
      · exact (maintainRemote e.db.entries entry.collection (e.db.currentIndexes entry.collection)
          (e.db.image ⟨entry.collection,key⟩) entry.incoming.document key).2
      · exact .merged _ entry position key got named beats
    · unfold Engine.owes at owed
      simp only [Bool.and_eq_true, decide_eq_true_eq, Option.isNone_iff_eq_none] at owed
      obtain ⟨⟨⟨⟨placed, kind⟩, body⟩, tombstone⟩, missing⟩ := owed
      refine .single (.owed e entry position key got named (by simpa using placed) ?_ missing ⟨kind,body⟩)
      cases found : e.db.docs.get ⟨entry.collection,key⟩ with
      | none => simp [found] at tombstone
      | some current =>
          refine ⟨current,rfl,?_⟩
          simpa [found] using tombstone
    · exact .single (.released e entry got)
    · exact .single (.called e _)

theorem ofApplyAll {position} : ∀ {entries : List OplogEntry} {e : Engine}, (∀ entry ∈ entries, given entry) →
    Moves given e (e.applyAll position entries).1
  | [], _, _ => .refl
  | entry :: _, _, all =>
      (ofRemote (all entry List.mem_cons_self)).trans
        (ofApplyAll fun x member => all x (List.mem_cons_of_mem _ member))

theorem ofReport : ∀ {reports : List Engine.Report} {e : Engine}, Moves given e (e.report reports)
  | [], _ => .refl
  | _ :: _, _ => .head (.observed _ _ _ rfl) ofReport

theorem ofReplicate {position entries commits} (all : ∀ entry ∈ entries, given entry) :
    Moves given e (e.replicate position entries commits) := by
  unfold Engine.replicate
  simp only
  split_ifs with committed
  · exact (ofApplyAll all).trans ofReport
  · exact aborted (ofApplyAll all)

end Moves

/- The entries an operation brings from elsewhere. -/
def Op.received : Op → List OplogEntry
  | .replicated _ entries _ => entries
  | _ => []

theorem Moves.ofStep {given : OplogEntry → Prop} {e : Engine} {op : Op} (all : ∀ entry ∈ op.received, given entry) :
    Moves given e (e.step op) := by
  cases op with
  | write w => exact ofCommit ofWrite
  | insertMany coll drafts => exact ofCommit ofInsertMany
  | batch writes closed => exact ofBatch
  | replicated position entries commits => exact ofReplicate all

end Kimmy.Store
