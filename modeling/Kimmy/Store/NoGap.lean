import Kimmy.Store.NoHole
import Kimmy.Store.Retention

/-!
Retention opens no gap. Beside every member stands a shadow of it from which nothing was ever
collected: what a member does it does as its shadow would, since a write is never decided by
the log alone. The shadows have no hole; and a window cut from what is left of a log is one
its shadow could have served, if all that is gone was held by the requester.
-/
namespace Kimmy.Store
open Merge

/-! Shadows. -/

/- A member and its shadow: `gone` are the entries that retention has taken from the member. -/
structure Shadow (gone : Stamp → Prop) (e g : Engine) : Prop where
  node : e.node = g.node
  physicalNowMs : e.physicalNowMs = g.physicalNowMs
  resumed : e.resumed = g.resumed
  calls : e.calls = g.calls
  docs : e.db.docs = g.db.docs
  versions : e.db.versions = g.db.versions
  witnessed : e.db.witnessed = g.db.witnessed
  collections : e.db.collections = g.db.collections
  entries : e.db.entries = g.db.entries
  unheld : e.db.held = .empty ∧ g.db.held = .empty
  taken : ∀ s, gone s → e.db.oplog.get s = none ∧ (g.db.oplog.get s).isSome = true ∧ s.hlc ≤ e.db.collected.get s.node
  kept : ∀ s, ¬ gone s → e.db.oplog.get s = g.db.oplog.get s
  known : ∀ s x, g.db.oplog.get s = some x → s.hlc ≤ g.clock.last
  covered : ∀ s x, g.db.oplog.get s = some x → s.hlc ≤ g.db.versions.get s.node

namespace Shadow
variable {gone : Stamp → Prop} {e g : Engine}

theorem clock (shadow : Shadow gone e g) : e.clock = g.clock := by
  unfold Engine.clock
  rw [shadow.resumed, shadow.calls]

theorem nextStamp (shadow : Shadow gone e g) : e.nextStamp = g.nextStamp := by
  unfold Engine.nextStamp
  rw [shadow.clock, shadow.physicalNowMs, shadow.calls, shadow.node]

theorem nextCall (shadow : Shadow gone e g) : e.nextCall = g.nextCall := by
  unfold Engine.nextCall
  rw [shadow.physicalNowMs, shadow.calls]

theorem room (shadow : Shadow gone e g) : e.Room ↔ g.Room := by
  unfold Engine.Room
  rw [shadow.resumed, shadow.calls]

/- What the member's log has, its shadow's has. -/
theorem logged (shadow : Shadow gone e g) {s : Stamp} {x : OplogEntry} (found : e.db.oplog.get s = some x) :
    g.db.oplog.get s = some x := by
  by_cases taken : gone s
  · cases (shadow.taken s taken).1.symm.trans found
  · rw [←shadow.kept s taken]
    exact found

theorem absent (shadow : Shadow gone e g) {s : Stamp} (fresh : g.db.oplog.get s = none) :
    ¬ gone s ∧ e.db.oplog.get s = none := by
  have stays : ¬ gone s := fun taken => by simpa [fresh] using (shadow.taken s taken).2.1
  exact ⟨stays,(shadow.kept s stays).trans fresh⟩

/- Retention takes from the member alone. -/
theorem removed (shadow : Shadow gone e g) (keys : List Stamp) :
    Shadow (fun s => gone s ∨ (s ∈ keys ∧ (e.db.oplog.get s).isSome = true))
      { e with db := e.db.removeOplogEntries keys } g := by
  have after := Removal.after keys ⟨e.db,none,.new⟩
  have grows : ∀ o, e.db.collected.get o ≤ (e.db.removeOplogEntries keys).collected.get o := by
    intro o
    unfold Tables.removeOplogEntries
    simp only [VersionVector.getMerge]
    exact (after.collected ▸ le_refl _ : e.db.collected.get o ≤ (e.db.removing keys).tables.collected.get o).trans
      (le_max_left _ _)
  refine ⟨shadow.node,shadow.physicalNowMs,shadow.resumed,shadow.calls,after.docs.trans shadow.docs,
    after.versions.trans shadow.versions,after.witnessed.trans shadow.witnessed,
    after.collections.trans shadow.collections,after.entries.trans shadow.entries,
    ⟨after.unheld shadow.unheld.1,shadow.unheld.2⟩,fun s taken => ?_,fun s stays => ?_,shadow.known,shadow.covered⟩
  · have log := after.log s
    rcases taken with before | ⟨named, there⟩
    · obtain ⟨none', some', mark⟩ := shadow.taken s before
      refine ⟨?_,some',mark.trans (grows _)⟩
      refine log.trans ?_
      split_ifs
      · rfl
      · exact none'
    · refine ⟨log.trans (if_pos named),?_,?_⟩
      · obtain ⟨x, found⟩ := Option.isSome_iff_exists.mp there
        rw [shadow.logged found]
        rfl
      · unfold Tables.removeOplogEntries
        simp only [VersionVector.getMerge]
        exact (after.marked s named there).trans (le_max_right _ _)
  · rw [not_or, not_and] at stays
    refine (after.log s).trans ?_
    split_ifs with named
    · have gone' := Option.not_isSome_iff_eq_none.mp (stays.2 named)
      exact gone'.symm.trans (shadow.kept s stays.1)
    · exact shadow.kept s stays.1

/-! Both do the same. -/

theorem called (shadow : Shadow gone e g) (more : List Call) (clock : g.clock.last ≤ (g.called more).clock.last) :
    Shadow gone (e.called more) (g.called more) :=
  ⟨shadow.node,shadow.physicalNowMs,shadow.resumed,congrArg (· ++ more) shadow.calls,shadow.docs,shadow.versions,
    shadow.witnessed,shadow.collections,shadow.entries,shadow.unheld,shadow.taken,shadow.kept,
    fun s x found => (shadow.known s x found).trans clock,shadow.covered⟩

theorem edited (shadow : Shadow gone e g) (docs : SortedMap Address DocRecord) (entries : SortedMap IndexKey Unit)
    (collections : SortedMap CollectionId CollectionMeta) :
    Shadow gone { e with db := { e.db with docs := docs, entries := entries, collections := collections } }
      { g with db := { g.db with docs := docs, entries := entries, collections := collections } } :=
  ⟨shadow.node,shadow.physicalNowMs,shadow.resumed,shadow.calls,rfl,shadow.versions,shadow.witnessed,rfl,rfl,
    shadow.unheld,shadow.taken,shadow.kept,shadow.known,shadow.covered⟩

/- An entry in position that neither has. -/
theorem appended (shadow : Shadow gone e g) (x : OplogEntry) (position : Position) (placed : position ≠ .hold)
    (fresh : g.db.oplog.get x.stamp = none) (more : List Call)
    (clock : max g.clock.last x.stamp.hlc ≤ (g.called more).clock.last) :
    Shadow gone ({ e with db := (e.db.appendOplogAt x position).1 }.called more)
      ({ g with db := (g.db.appendOplogAt x position).1 }.called more) := by
  obtain ⟨stays, fresh'⟩ := shadow.absent fresh
  have shape : ∀ t : Tables, t.oplog.get x.stamp = none → t.held = .empty →
      (t.appendOplogAt x position).1.versions = t.versions.raise x.stamp ∧
      (t.appendOplogAt x position).1.witnessed = t.witnessed.raise x.stamp ∧
      (t.appendOplogAt x position).1.held = .empty := by
    intro t absent unheld
    have removed : t.held.remove x.stamp = .empty := by
      refine SortedMap.ext fun s => ?_
      rw [SortedMap.getRemove, unheld]
      split_ifs
      · rfl
      · rfl
    unfold Tables.appendOplogAt
    rw [absent]
    cases position with
    | raise => exact ⟨rfl,rfl,removed⟩
    | inWindow => exact ⟨rfl,rfl,removed⟩
    | hold => exact absurd rfl placed
  obtain ⟨versions, witnessed, unheld⟩ := shape e.db fresh' shadow.unheld.1
  obtain ⟨versions', witnessed', unheld'⟩ := shape g.db fresh shadow.unheld.2
  have data := Tables.appendData e.db x position
  have data' := Tables.appendData g.db x position
  refine ⟨shadow.node,shadow.physicalNowMs,shadow.resumed,congrArg (· ++ more) shadow.calls,
    data.docs.trans (shadow.docs.trans data'.docs.symm),?_,?_,
    data.collections.trans (shadow.collections.trans data'.collections.symm),
    data.entries.trans (shadow.entries.trans data'.entries.symm),⟨unheld,unheld'⟩,fun s taken => ?_,fun s still => ?_,
    fun s y found => ?_,fun s y found => ?_⟩
  · exact versions.trans (shadow.versions ▸ versions'.symm)
  · exact witnessed.trans (shadow.witnessed ▸ witnessed'.symm)
  · obtain ⟨none', some', mark⟩ := shadow.taken s taken
    have other : s ≠ x.stamp := fun same => stays (same ▸ taken)
    simp only [Engine.called, Tables.appendLog, SortedMap.getInsert, if_neg other]
    exact ⟨none',some',data.collected ▸ mark⟩
  · simp only [Engine.called, Tables.appendLog, SortedMap.getInsert]
    split_ifs
    · rfl
    · exact shadow.kept s still
  · simp only [Engine.called, Tables.appendLog, SortedMap.getInsert] at found
    split_ifs at found with same
    · exact same ▸ (le_max_right _ _).trans clock
    · exact (shadow.known s y found).trans ((le_max_left _ _).trans clock)
  · simp only [Engine.called, Tables.appendLog, SortedMap.getInsert] at found ⊢
    rw [versions', VersionVector.getRaise]
    split_ifs at found with same
    · rw [if_pos (congrArg Stamp.node same), same]
      exact le_max_right _ _
    · split_ifs
      · exact (shadow.covered s y found).trans (le_max_left _ _)
      · exact shadow.covered s y found

/- A stamp minted with room is in no log. -/
theorem minted (shadow : Shadow gone e g) (room : (e.called [e.nextCall]).Room) :
    g.db.oplog.get g.nextStamp = none ∧
      max g.clock.last g.nextStamp.hlc ≤ (g.called [g.nextCall]).clock.last := by
  have room' : (g.called [g.nextCall]).Room := by
    unfold Engine.Room Engine.called at room ⊢
    rw [←shadow.resumed, ←shadow.calls, ←shadow.nextCall]
    exact room
  obtain ⟨above, last⟩ := nextStampFresh room'
  refine ⟨Option.eq_none_iff_forall_ne_some.mpr fun x found => ?_,max_le ?_ ?_⟩
  · exact absurd (shadow.known _ x found) (not_le.mpr above)
  · exact above.le.trans last.ge
  · exact last.ge

theorem observed (shadow : Shadow gone e g) (coll : CollectionId) (kind : OpKind) (room : (e.observe coll kind).Room) :
    Shadow gone (e.observe coll kind) (g.observe coll kind) := by
  obtain ⟨fresh, clock⟩ := shadow.minted room
  have same := shadow.appended (g.observation coll kind) .raise (by decide) fresh [g.nextCall] clock
  have entry : e.observation coll kind = g.observation coll kind := by
    unfold Engine.observation
    rw [shadow.nextStamp]
  unfold Engine.observe
  rw [entry, shadow.nextCall]
  exact same

theorem wrote (shadow : Shadow gone e g) (coll : CollectionId) (key : DocKey) (kind : OpKind) (body : Option Document)
    (room : (e.write coll key kind body).Room) :
    Shadow gone (e.write coll key kind body) (g.write coll key kind body) := by
  obtain ⟨fresh, clock⟩ := shadow.minted room
  have put := shadow.edited (g.db.docs.insert ⟨coll,key⟩ (OplogEntry.incoming ⟨g.nextStamp,kind,coll,some key,body⟩))
    g.db.entries g.db.collections
  have same := put.appended ⟨g.nextStamp,kind,coll,some key,body⟩ .raise (by decide) fresh
    [g.nextCall] clock
  unfold Engine.write
  rw [shadow.nextStamp, shadow.nextCall]
  have record : e.db.putRecord ⟨coll,key⟩ (OplogEntry.incoming ⟨g.nextStamp,kind,coll,some key,body⟩) =
      { e.db with
        docs := g.db.docs.insert ⟨coll,key⟩ (OplogEntry.incoming ⟨g.nextStamp,kind,coll,some key,body⟩)
        entries := g.db.entries
        collections := g.db.collections } := by
    unfold Tables.putRecord
    rw [shadow.docs, ←shadow.entries, ←shadow.collections]
  simp only [Engine.called, record]
  exact same

/- The moves of a member that is brought nothing are open to its shadow. -/
theorem move {y : Engine} (shadow : Shadow gone e g) (move : Move (fun _ => False) e y) (room : y.Room) :
    ∃ z, Move (fun _ => False) g z ∧ Shadow gone y z := by
  cases move with
  | called more =>
      refine ⟨g.called more,.called g more,shadow.called more ?_⟩
      have later : (g.called more).Room := by
        unfold Engine.Room Engine.called at room ⊢
        rw [←shadow.resumed, ←shadow.calls]
        exact room
      have member : Moves.SameMember g (g.called more) := ⟨rfl,rfl,rfl,more,rfl⟩
      exact (roomBefore member later).2
  | indexed entries collections known =>
      refine ⟨_,.indexed g entries collections (shadow.collections ▸ known),?_⟩
      exact ⟨shadow.node,shadow.physicalNowMs,shadow.resumed,shadow.calls,shadow.docs,shadow.versions,shadow.witnessed,rfl,
        rfl,shadow.unheld,shadow.taken,shadow.kept,shadow.known,shadow.covered⟩
  | wrote coll key kind body document shape =>
      exact ⟨_,.wrote g coll key kind body document shape,shadow.wrote coll key kind body room⟩
  | observed coll kind own =>
      exact ⟨_,.observed g coll kind own,shadow.observed coll kind room⟩
  | merged entry position key got named wins => exact got.elim
  | owed entry position key got named placed tombstone missing delete => exact got.elim
  | released entry got => exact got.elim

theorem moves {y : Engine} (shadow : Shadow gone e g) (moves : Moves (fun _ => False) e y) (room : y.Room) :
    ∃ z, Moves (fun _ => False) g z ∧ Shadow gone y z := by
  induction moves with
  | refl => exact ⟨g,.refl,shadow⟩
  | tail _ last ih =>
      obtain ⟨z, before, same⟩ := ih (roomBefore (Moves.sameMove last) room).1
      obtain ⟨w, after, same'⟩ := same.move last room
      exact ⟨w,before.tail after,same'⟩

theorem unkeyed (coll : CollectionId) (key : DocKey) : ∀ (filings : List UnkeyedFiling) {e g : Engine},
    Shadow gone e g → (e.appendUnkeyed coll key filings).Room →
    Shadow gone (e.appendUnkeyed coll key filings) (g.appendUnkeyed coll key filings)
  | [], _, _, shadow, _ => shadow
  | filing :: rest, e, g, shadow, room => by
      have later : Moves (fun _ => False) (e.observe coll (.unkeyedDocument ⟨filing.index,key,filing.cause⟩))
          (e.appendUnkeyed coll key (filing :: rest)) := Moves.ofUnkeyed
      have same := shadow.observed coll (.unkeyedDocument ⟨filing.index,key,filing.cause⟩)
        (roomBefore (Moves.same later) room).1
      exact unkeyed coll key rest same room

theorem reported : ∀ {reports : List Engine.Report} {e g : Engine}, Shadow gone e g → (e.report reports).Room →
    Shadow gone (e.report reports) (g.report reports)
  | [], _, _, shadow, _ => shadow
  | report :: rest, e, g, shadow, room => by
      have later : Moves (fun _ => False) (e.logUniqueViolation report) (e.report (report :: rest)) :=
        Moves.ofReport
      have same := shadow.observed report.collection (Engine.violationKind e.db report)
        (roomBefore (Moves.same later) room).1
      have kind : Engine.violationKind e.db report = Engine.violationKind g.db report := by
        unfold Engine.violationKind Tables.image
        rw [shadow.docs]
      refine reported (e := e.logUniqueViolation report) (g := g.logUniqueViolation report) ?_ room
      unfold Engine.logUniqueViolation
      rw [←kind]
      exact same

/-! A replicated entry. -/

/- A tombstone that stands was logged, so its entry is owed to neither. -/
theorem owesNothing (shadow : Shadow gone e g) (entry : OplogEntry) (position : Position) (existing : Option DocRecord)
    (positive : ∀ s x, g.db.oplog.get s = some x → .zero < s.hlc)
    (logged : ∀ current, existing = some current → (g.db.oplog.get current.stamp).isSome = true) :
    Engine.owes e.db entry position existing = false ∧ Engine.owes g.db entry position existing = false := by
  have never : ∀ t : Tables, (∀ current, existing = some current → t.deleteEntryIsOwed current.stamp = false) →
      Engine.owes t entry position existing = false := by
    intro t not
    unfold Engine.owes
    cases existing with
    | none => simp
    | some current =>
        by_cases same : current.stamp = entry.stamp
        · rw [←same, not current rfl, Bool.and_false]
        · simp [same]
  refine ⟨never _ fun current there => ?_,never _ fun current there => ?_⟩
  · obtain ⟨x, found⟩ := Option.isSome_iff_exists.mp (logged current there)
    unfold Tables.deleteEntryIsOwed
    by_cases taken : gone current.stamp
    · have mark := (shadow.taken _ taken).2.2
      cases held : e.db.collected.positions.get current.stamp.node with
      | none =>
          rw [VersionVector.get, held] at mark
          exact absurd mark (not_le.mpr (positive _ x found))
      | some hlc =>
          rw [VersionVector.get, held] at mark
          have reached : ¬ hlc < current.stamp.hlc := not_lt.mpr mark
          simp [reached]
    · rw [shadow.kept _ taken, found]
      rfl
  · unfold Tables.deleteEntryIsOwed
    obtain ⟨x, found⟩ := Option.isSome_iff_exists.mp (logged current there)
    rw [found]
    rfl

theorem maintained (shadow : Shadow gone e g) (a : Address) (record : DocRecord) (coll : CollectionId)
    (done : Maintained) :
    Shadow gone { e with db := (e.db.putRecord a record).settle coll done }
      { g with db := (g.db.putRecord a record).settle coll done } := by
  refine ⟨shadow.node,shadow.physicalNowMs,shadow.resumed,shadow.calls,congrArg (·.insert a record) shadow.docs,
    shadow.versions,shadow.witnessed,?_,rfl,shadow.unheld,shadow.taken,shadow.kept,shadow.known,shadow.covered⟩
  unfold Tables.settle Tables.putRecord
  simp only [shadow.collections]

theorem appendFresh {t : Tables} {x : OplogEntry} (fresh : t.oplog.get x.stamp = none) (position : Position) :
    (t.appendOplogAt x position).2 = false := by
  unfold Tables.appendOplogAt
  rw [fresh]
  rfl

theorem remote (shadow : Shadow gone e g) {entry : OplogEntry}
    (positive : ∀ s x, g.db.oplog.get s = some x → .zero < s.hlc)
    (settled : ∀ a, Settles g.db.oplog a (g.db.docs.get a))
    (consistent : ∀ x, g.db.oplog.get entry.stamp = some x → x = entry)
    (room : (e.applyRemoteInTxn entry .inWindow).1.Room) :
    Shadow gone (e.applyRemoteInTxn entry .inWindow).1 (g.applyRemoteInTxn entry .inWindow).1 ∧
      (e.applyRemoteInTxn entry .inWindow).2 = (g.applyRemoteInTxn entry .inWindow).2 := by
  have witnessed : ∀ y : Engine, max y.clock.last entry.stamp.hlc ≤ (y.witness entry.stamp).clock.last :=
    fun y => (witnessClock y entry.stamp).ge
  unfold Engine.applyRemoteInTxn at room ⊢
  cases named : entry.docId with
  | none =>
      rw [named] at room
      exact ⟨shadow.called _ ((le_max_left _ _).trans (witnessed g)),rfl⟩
  | some key =>
      simp only [named, shadow.docs] at room ⊢
      have owes := shadow.owesNothing entry .inWindow (g.db.docs.get ⟨entry.collection,key⟩) positive
        fun current there => by
          have known := settled ⟨entry.collection,key⟩
          rw [there] at known
          obtain ⟨⟨x, found, _⟩, _⟩ := known
          rw [found]
          rfl
      simp only [owes.1, owes.2, Bool.false_eq_true, if_false, if_true] at room ⊢
      split_ifs at room ⊢ with wins
      · -- neither has the entry, which beats the record that stands
        have fresh : g.db.oplog.get entry.stamp = none := by
          cases held : g.db.oplog.get entry.stamp with
          | none => rfl
          | some x =>
              have same := consistent x held
              subst same
              have known := settled ⟨x.collection,key⟩
              have there : x.address = some ⟨x.collection,key⟩ := by
                rw [OplogEntry.address, named]
                rfl
              cases current : g.db.docs.get ⟨x.collection,key⟩ with
              | none =>
                  rw [current] at known
                  exact absurd there (known _ x held)
              | some record =>
                  rw [current] at known
                  have below := known.2 _ x held there
                  rw [current] at wins
                  simp only [Option.all_some, decide_eq_true_eq] at wins
                  exact absurd wins (not_lt.mpr below)
        have rows : (e.db.putRecord ⟨entry.collection,key⟩ (Engine.mergedWith (g.db.docs.get ⟨entry.collection,key⟩)
            entry.incoming)).entries = (g.db.putRecord ⟨entry.collection,key⟩ (Engine.mergedWith
            (g.db.docs.get ⟨entry.collection,key⟩) entry.incoming)).entries := shadow.entries
        have indexes : (e.db.putRecord ⟨entry.collection,key⟩ (Engine.mergedWith (g.db.docs.get ⟨entry.collection,key⟩)
            entry.incoming)).currentIndexes entry.collection = (g.db.putRecord ⟨entry.collection,key⟩ (Engine.mergedWith
            (g.db.docs.get ⟨entry.collection,key⟩) entry.incoming)).currentIndexes entry.collection := by
          unfold Tables.currentIndexes Tables.putRecord
          simp only [shadow.collections]
        rw [rows, indexes] at room ⊢
        generalize Engine.mergedWith (g.db.docs.get ⟨entry.collection,key⟩) entry.incoming = winner at room ⊢
        generalize maintainRemote _ _ _ _ _ _ = result at room ⊢
        have put := shadow.maintained ⟨entry.collection,key⟩ winner entry.collection result.2
        obtain ⟨_, fresh'⟩ := shadow.absent fresh
        have added := put.appended entry .inWindow (by decide) fresh _ (witnessed _)
        refine ⟨added.unkeyed entry.collection key result.2.filings room,?_⟩
        have never := appendFresh (t := (e.db.putRecord ⟨entry.collection,key⟩ winner).settle entry.collection result.2)
          (x := entry) fresh' .inWindow
        have never' := appendFresh (t := (g.db.putRecord ⟨entry.collection,key⟩ winner).settle entry.collection result.2)
          (x := entry) fresh .inWindow
        exact congrArg (Engine.RemoteApplied.applied result.1) (never.trans never'.symm)
      · have unheld : ∀ t : Tables, t.held = .empty → t.releaseHeldInPosition entry.stamp = (t,false) := by
          intro t empty
          unfold Tables.releaseHeldInPosition
          rw [empty]
          rfl
        rw [unheld _ shadow.unheld.1, unheld _ shadow.unheld.2]
        exact ⟨shadow.called _ ((le_max_left _ _).trans (witnessed g)),rfl⟩

/-! A window. -/

section
variable {s : Cluster} {n : NodeId}

theorem positive (steady : s.Steady) (moved : Moves s.Written (s.engines n) g) (room : g.Room) :
    ∀ u x, g.db.oplog.get u = some x → .zero < u.hlc := by
  intro u x found
  rcases addsMoves moved room u x found with old | ⟨_, above⟩ | written
  · exact steady.positive n u x old
  · exact (VersionVector.zeroLe _).trans_lt above
  · rw [←(steady.within moved room).agreed.stamped u x found]
    exact steady.positive _ _ x written

theorem one (shadow : Shadow gone e g) (steady : s.Steady) (moved : Moves s.Written (s.engines n) g)
    {entry : OplogEntry} (written : s.Written entry)
    (room : ∀ y reports, e.applyOne entry = some (y,reports) → y.Room) :
    (e.applyOne entry = none ∧ g.applyOne entry = none) ∨
      ∃ y z reports, e.applyOne entry = some (y,reports) ∧ g.applyOne entry = some (z,reports) ∧ Shadow gone y z := by
  unfold Engine.applyOne at room ⊢
  rw [shadow.collections] at room ⊢
  split_ifs at room ⊢ with skipped unknown
  · exact Or.inr ⟨e,g,[],rfl,rfl,shadow⟩
  · exact Or.inl ⟨rfl,rfl⟩
  · have later : (e.applyRemoteInTxn entry .inWindow).1.Room := room _ _ rfl
    have step : Moves s.Written e (e.applyRemoteInTxn entry .inWindow).1 := Moves.ofRemote written
    have before : g.Room := shadow.room.mp (roomBefore (Moves.same step) later).1
    have within := steady.within moved before
    have same := shadow.remote (positive steady moved before) within.agreed.settled (fun x found => ?_) later
    · refine Or.inr ⟨(e.applyRemoteInTxn entry .inWindow).1,(g.applyRemoteInTxn entry .inWindow).1,
        Engine.reportsOf entry (g.applyRemoteInTxn entry .inWindow).2,?_,rfl,same.1⟩
      rw [←same.2]
    · rcases (within.consistent (steady.brings written)).1 with absent | held
      · cases absent.symm.trans found
      · exact Option.some.inj (found.symm.trans held)

theorem window (steady : s.Steady) (theirs : VersionVector) : ∀ {entries : List OplogEntry} {e g : Engine}
    {pending : List Engine.Report} {witnessed : VersionVector} {stoppedAt : Option Stamp}, Shadow gone e g →
    Moves s.Written (s.engines n) g → (∀ x ∈ entries, s.Written x) →
    (Engine.applyEntries theirs ⟨e,pending,witnessed,stoppedAt⟩ entries).engine.Room →
    ∃ y z pending' witnessed' stoppedAt',
      Engine.applyEntries theirs ⟨e,pending,witnessed,stoppedAt⟩ entries = ⟨y,pending',witnessed',stoppedAt'⟩ ∧
      Engine.applyEntries theirs ⟨g,pending,witnessed,stoppedAt⟩ entries = ⟨z,pending',witnessed',stoppedAt'⟩ ∧
      Shadow gone y z
  | [], e, g, pending, witnessed, stoppedAt, shadow, _, _, _ => ⟨e,g,pending,witnessed,stoppedAt,rfl,rfl,shadow⟩
  | entry :: rest, e, g, pending, witnessed, stoppedAt, shadow, moved, written, room => by
      have later : ∀ x ∈ rest, s.Written x := fun x member => written x (List.mem_cons_of_mem _ member)
      have here := written entry List.mem_cons_self
      unfold Engine.applyEntries at room ⊢
      split_ifs at room ⊢ with above
      · exact window steady theirs shadow moved later room
      · have rooms : ∀ y reports, e.applyOne entry = some (y,reports) → y.Room := by
          intro y reports applied
          rw [applied] at room
          exact (roomBefore (Moves.same (Cluster.movesEntries theirs ⟨y,_,_,_⟩ later)) room).1
        rcases shadow.one steady moved here rooms with ⟨stops, stops'⟩ | ⟨y, z, reports, applied, applied', same⟩
        · rw [stops, stops']
          exact ⟨e,g,pending,witnessed,some entry.stamp,rfl,rfl,shadow⟩
        · simp only [applied, applied'] at room ⊢
          exact window steady theirs same (moved.trans (Cluster.movesOne here applied')) later room

theorem absorbed (shadow : Shadow gone e g) (witnessed : VersionVector) :
    Shadow gone (e.absorbWitnessed witnessed) (g.absorbWitnessed witnessed) :=
  ⟨shadow.node,shadow.physicalNowMs,shadow.resumed,shadow.calls,shadow.docs,shadow.versions,
    congrArg (·.merge witnessed) shadow.witnessed,shadow.collections,shadow.entries,shadow.unheld,shadow.taken,
    shadow.kept,shadow.known,shadow.covered⟩

theorem aborted {y z : Engine} (shadow : Shadow gone e g) (tried : Shadow gone y z)
    (clock : g.clock.last ≤ z.clock.last) : Shadow gone (e.abort y) (g.abort z) :=
  ⟨tried.node,tried.physicalNowMs,tried.resumed,tried.calls,shadow.docs,shadow.versions,shadow.witnessed,
    shadow.collections,shadow.entries,shadow.unheld,shadow.taken,shadow.kept,
    fun u x found => (shadow.known u x found).trans clock,shadow.covered⟩

theorem batch (shadow : Shadow gone e (s.engines n)) (steady : s.Steady) (theirs : VersionVector) (askedPartial : Bool)
    (window : OplogWindow) (commits : Bool) (written : ∀ x ∈ window.entries, s.Written x)
    (room : (e.applyBatchRun theirs askedPartial window commits).Room) :
    Shadow gone (e.applyBatchRun theirs askedPartial window commits)
      ((s.engines n).applyBatchRun theirs askedPartial window commits) := by
  have moves := Cluster.movesEntries theirs ⟨s.engines n,[],.new,none⟩ written
  unfold Engine.applyBatchRun at room ⊢
  have inside : (Engine.applyEntries theirs ⟨e,[],.new,none⟩ window.entries).engine.Room := by
    generalize Engine.applyEntries theirs ⟨e,[],.new,none⟩ window.entries = taken at room ⊢
    simp only at room
    split_ifs at room
    · have reports (v : VersionVector) : Moves (fun _ => False) (taken.engine.absorbWitnessed v)
          ((taken.engine.absorbWitnessed v).report taken.pending) := Moves.ofReport
      exact (roomBefore (Moves.same (reports _)) room).1
    · exact room
  obtain ⟨y, z, pending, witnessed, stoppedAt, here, there, same⟩ :=
    Shadow.window steady theirs shadow .refl written inside
  rw [here] at inside
  rw [there] at moves
  simp only [here, there] at room ⊢
  split_ifs at room ⊢
  · exact (same.absorbed _).reported room
  · exact shadow.aborted (same.absorbed _) (roomBefore (Moves.same moves) (same.room.mp inside)).2

end

end Shadow

/-! Runs. -/

namespace Serving

/- The cluster of the shadows has seen the same messages. -/
structure Shadowed (s : Serving) (g : Cluster) (gone : NodeId → Stamp → Prop) : Prop where
  steady : g.Steady
  shadows : ∀ n, Shadow (gone n) (s.cluster.engines n) (g.engines n)
  noted : g.noted = s.cluster.noted
  advertised : g.advertised = s.cluster.advertised
  asked : g.asked = s.cluster.asked
  answered : g.answered = s.cluster.answered
  served : ∀ ask ∈ s.served, ask ∈ s.cluster.asked

/- A step of the members, with one of their shadows: no shadow forgets, and what is gone of a
member was in its shadow's log before. -/
structure Follows (g : Cluster) (s : Serving) (h : Cluster) (gone : NodeId → Stamp → Prop) : Prop where
  shadowed : s.Shadowed h gone
  log : ∀ n u x, (g.engines n).db.oplog.get u = some x → (h.engines n).db.oplog.get u = some x
  past : ∀ n u, gone n u → ((g.engines n).db.oplog.get u).isSome = true

section
variable {s : Serving} {g : Cluster} {gone : NodeId → Stamp → Prop}

/- Only messages were sent. -/
theorem Shadowed.told (shadowed : s.Shadowed g gone) {t : Serving} {h : Cluster} (steady : h.Steady)
    (engines : t.cluster.engines = s.cluster.engines) (same : h.engines = g.engines)
    (noted : h.noted = t.cluster.noted) (advertised : h.advertised = t.cluster.advertised)
    (asked : h.asked = t.cluster.asked) (answered : h.answered = t.cluster.answered)
    (served : ∀ ask ∈ t.served, ask ∈ t.cluster.asked) : Follows g t h gone := by
  refine ⟨⟨steady,fun n => ?_,noted,advertised,asked,answered,served⟩,fun n u x found => ?_,fun n u taken => ?_⟩
  · rw [engines, same]
    exact shadowed.shadows n
  · rwa [same]
  · exact ((shadowed.shadows n).taken u taken).2.1

/- One member moves on, and its shadow with it. -/
theorem Shadowed.put (shadowed : s.Shadowed g gone) {n : NodeId} {e z : Engine} (steady : (g.put n z).Steady)
    (same : Shadow (gone n) e z)
    (kept : ∀ u x, (g.engines n).db.oplog.get u = some x → z.db.oplog.get u = some x) :
    Follows g { s with cluster := s.cluster.put n e } (g.put n z) gone := by
  refine ⟨⟨steady,fun m => ?_,shadowed.noted,shadowed.advertised,shadowed.asked,shadowed.answered,shadowed.served⟩,
    fun m u x found => ?_,fun m u taken => ((shadowed.shadows m).taken u taken).2.1⟩
  · simp only [Cluster.putEngines]
    split_ifs with here
    · exact here ▸ same
    · exact shadowed.shadows m
  · rw [Cluster.putEngines]
    split_ifs with here
    · exact kept u x (here ▸ found)
    · exact found

theorem Shadowed.wrote (shadowed : s.Shadowed g gone) {node : NodeId} {op : Op} (alone : op.received = [])
    (room : ((s.cluster.engines node).step op).Room) :
    ∃ h, Follows g { s with cluster := s.cluster.put node ((s.cluster.engines node).step op) } h gone := by
  have moves : Moves (fun _ => False) (s.cluster.engines node) ((s.cluster.engines node).step op) :=
    Moves.ofStep fun entry member => by
      rw [alone] at member
      exact absurd member List.not_mem_nil
  obtain ⟨z, moved, same⟩ := (shadowed.shadows node).moves moves room
  have later := same.room.mp room
  refine ⟨g.put node z,shadowed.put (shadowed.steady.alone moved later) same ?_⟩
  exact (shadowed.steady.within (moved.widen fun _ => False.elim) later).kept

/- What is gone and the requester lacks, the verdict finds. -/
theorem Shadowed.lacks (shadowed : s.Shadowed g gone) {n : NodeId} {u : Stamp} (taken : gone n u) {held : VersionVector}
    (uncovered : ¬ held.Covers u) : (s.tables n).serveVerdict .new held = .collected := by
  have shadow := shadowed.shadows n
  obtain ⟨_, there, mark⟩ := shadow.taken u taken
  obtain ⟨x, found⟩ := Option.isSome_iff_exists.mp there
  have behind : held.get u.node < u.hlc := not_le.mp uncovered
  have covered := shadow.covered u x found
  rw [←shadow.versions] at covered
  refine if_pos (List.any_eq_true.mpr ?_)
  have ahead := behind.trans_le covered
  cases position : (s.cluster.engines n).db.versions.positions.get u.node with
  | none =>
      rw [VersionVector.get.eq_def (s.cluster.engines n).db.versions, position] at ahead
      exact absurd ahead (not_lt.mpr (VersionVector.zeroLe _))
  | some hlc =>
      refine ⟨(u.node,hlc),SortedMap.memEntries.mpr position,?_⟩
      rw [VersionVector.get.eq_def (s.cluster.engines n).db.versions, position] at ahead
      simp only [Bool.and_eq_true, decide_eq_true_eq]
      exact ⟨ahead,behind.trans_le mark⟩

/- A window that was walked for while all that is gone was held by the requester. -/
theorem Shadowed.walked (shadowed : s.Shadowed g gone) {ask : AskEntries} (member : ask ∈ s.served)
    (serves : s.verdict ask = .serve) {spent : Option (Nat → Bool)} {window : OplogWindow}
    (cut : (s.tables ask.peer).entriesForPeer ask.first ask.limit (some ask.mine) ask.marked spent = window)
    (sent : (!ask.askedPartial && window.passedThrough.isSome) = false) : g.Answers ask window := by
  have asks : g.Asks ask := shadowed.steady.asked ask (shadowed.asked ▸ shadowed.served ask member)
  refine shadowed.steady.answersFrom asks (fun u x found => (shadowed.shadows ask.peer).logged found)
    (fun a x highest covers uncovered => ?_) cut sent
  have stays : ¬ gone ask.peer x.stamp := fun taken => by
    have refused := shadowed.lacks taken uncovered
    unfold verdict at serves
    rw [refused] at serves
    cases serves
  exact ((shadowed.shadows ask.peer).kept _ stays).trans (asks.theirs.logged a x highest covers)

/- No step sets a clock back. -/
theorem sameStep (s : Serving) (step : ServingStep) (n : NodeId) :
    Moves.SameMember (s.cluster.engines n) ((s.step step).cluster.engines n) := by
  cases step with
  | plain step =>
      cases step with
      | serve asked spent => exact Moves.sameRefl _
      | write node op => exact Cluster.sameStep s.cluster (.write node op) n
      | note node => exact Cluster.sameStep s.cluster (.note node) n
      | advertise node => exact Cluster.sameStep s.cluster (.advertise node) n
      | ask i j limit marked askedPartial => exact Cluster.sameStep s.cluster (.ask i j limit marked askedPartial) n
      | apply i commits => exact Cluster.sameStep s.cluster (.apply i commits) n
  | judge i =>
      unfold Serving.step
      simp only
      split
      · split_ifs <;> exact Moves.sameRefl _
      · exact Moves.sameRefl _
  | walk i spent =>
      unfold Serving.step
      simp only
      split
      · split_ifs <;> exact Moves.sameRefl _
      · exact Moves.sameRefl _
  | collect node cutoff =>
      unfold Serving.step
      simp only
      split <;> exact Moves.sameRefl _
  | scan i chunk =>
      unfold Serving.step
      simp only
      split <;> exact Moves.sameRefl _
  | remove i =>
      unfold Serving.step
      simp only
      split
      · simp only [Cluster.putEngines]
        split_ifs with here
        · exact here ▸ ⟨rfl,rfl,rfl,[],(List.append_nil _).symm⟩
        · exact Moves.sameRefl _
      · exact Moves.sameRefl _

theorem Shadowed.still (shadowed : s.Shadowed g gone) : Follows g s g gone :=
  shadowed.told shadowed.steady rfl rfl shadowed.noted shadowed.advertised shadowed.asked shadowed.answered
    shadowed.served

/- A window that is applied takes nothing from the log. -/
theorem batchKept (steady : g.Steady) {n : NodeId} (theirs : VersionVector) (askedPartial : Bool) (window : OplogWindow)
    (commits : Bool) (written : ∀ x ∈ window.entries, g.Written x)
    (room : ((g.engines n).applyBatchRun theirs askedPartial window commits).Room) (u : Stamp) (x : OplogEntry)
    (held : (g.engines n).db.oplog.get u = some x) :
    ((g.engines n).applyBatchRun theirs askedPartial window commits).db.oplog.get u = some x := by
  have moves := Cluster.movesEntries theirs ⟨g.engines n,[],.new,none⟩ written
  unfold Engine.applyBatchRun at room ⊢
  generalize Engine.applyEntries theirs ⟨g.engines n,[],.new,none⟩ window.entries = taken at moves room ⊢
  simp only at room ⊢
  split_ifs at room ⊢
  · generalize tried : taken.engine.absorbWitnessed _ = y at room ⊢
    have reports : Moves (fun _ => False) y (y.report taken.pending) := Moves.ofReport
    have before : y.Room := (roomBefore (Moves.same reports) room).1
    have within : Within g.feed (g.engines n) y := by
      rw [←tried] at before ⊢
      exact (steady.within moves before).moved ⟨rfl,rfl,rfl,[],(List.append_nil _).symm⟩ before rfl rfl
    exact (within.moves (reports.widen fun _ => False.elim) room).kept u x held
  · exact held

theorem Shadowed.plain (shadowed : s.Shadowed g gone) (step : ClusterStep)
    (room : ∀ n, ((s.step (.plain step)).cluster.engines n).Room) :
    ∃ h, Follows g (s.step (.plain step)) h gone := by
  have rooms : ∀ n, (g.engines n).Room := fun n =>
    (shadowed.shadows n).room.mp (roomBefore (sameStep s (.plain step) n) (room n)).1
  cases step with
  | write node op =>
      have own := room node
      cases op with
      | replicated position entries commits => exact ⟨g,shadowed.still⟩
      | write w =>
          refine shadowed.wrote rfl ?_
          simpa [Serving.step, Cluster.step, Cluster.putEngines] using own
      | insertMany coll drafts =>
          refine shadowed.wrote rfl ?_
          simpa [Serving.step, Cluster.step, Cluster.putEngines] using own
      | batch writes closed =>
          refine shadowed.wrote rfl ?_
          simpa [Serving.step, Cluster.step, Cluster.putEngines] using own
  | serve asked spent => exact ⟨g,shadowed.still⟩
  | note node =>
      refine ⟨_,shadowed.told (shadowed.steady.step (.note node) rooms) rfl rfl ?_ shadowed.advertised shadowed.asked
        shadowed.answered shadowed.served⟩
      simp only [Cluster.step, Serving.step, shadowed.noted, (shadowed.shadows node).witnessed]
  | advertise node =>
      refine ⟨_,shadowed.told (shadowed.steady.step (.advertise node) rooms) rfl rfl shadowed.noted ?_ shadowed.asked
        shadowed.answered shadowed.served⟩
      simp only [Cluster.step, Serving.step, shadowed.advertised, (shadowed.shadows node).versions]
  | ask i j limit marked askedPartial =>
      have steady := shadowed.steady.step (.ask i j limit marked askedPartial) fun n => by
        unfold Cluster.step
        simp only
        split
        · split <;> exact rooms n
        · exact rooms n
      unfold Serving.step Cluster.step at *
      simp only [shadowed.noted, shadowed.advertised] at steady ⊢
      split at steady
      next requester mine peer theirs first second =>
        split at steady
        next low threshold =>
          refine ⟨_,shadowed.told steady rfl rfl rfl rfl ?_ shadowed.answered ?_⟩
          · simp only [shadowed.asked]
          · exact fun ask member => List.mem_append_left _ (shadowed.served ask member)
        · exact ⟨g,shadowed.still⟩
      · exact ⟨g,shadowed.still⟩
  | apply i commits =>
      unfold Serving.step Cluster.step at room ⊢
      simp only at room ⊢
      cases found : s.cluster.answered[i]? with
      | none => exact ⟨g,shadowed.still⟩
      | some x =>
          obtain ⟨ask, window⟩ := x
          simp only [found] at room ⊢
          have own := room ask.requester
          rw [Cluster.putEngines, if_pos rfl] at own
          have answers := shadowed.steady.answered (ask,window) (shadowed.answered ▸ List.mem_of_getElem? found)
          have same := (shadowed.shadows ask.requester).batch shadowed.steady ask.theirs ask.askedPartial window commits
            answers.written own
          have later := same.room.mp own
          exact ⟨_,shadowed.put (shadowed.steady.applied answers commits later) same
            (batchKept shadowed.steady ask.theirs ask.askedPartial window commits answers.written later)⟩

theorem Shadowed.step (shadowed : s.Shadowed g gone) {step : ServingStep} (undisturbed : s.Undisturbed step)
    (room : ∀ n, ((s.step step).cluster.engines n).Room) : ∃ h gone', Follows g (s.step step) h gone' := by
  cases step with
  | plain step =>
      obtain ⟨h, follows⟩ := shadowed.plain step room
      exact ⟨h,gone,follows⟩
  | judge i =>
      unfold Serving.step
      simp only
      split
      next ask found =>
        split_ifs
        · refine ⟨g,gone,shadowed.told shadowed.steady rfl rfl shadowed.noted shadowed.advertised shadowed.asked
            shadowed.answered fun x member => ?_⟩
          rcases List.mem_append.mp member with old | new
          · exact shadowed.served x old
          · rw [List.mem_singleton.mp new]
            exact List.mem_of_getElem? found
        · exact ⟨g,gone,shadowed.told shadowed.steady rfl rfl shadowed.noted shadowed.advertised shadowed.asked
            shadowed.answered shadowed.served⟩
      · exact ⟨g,gone,shadowed.still⟩
  | walk i spent =>
      unfold Serving.step
      simp only
      split
      next ask found =>
        split_ifs with cut
        · exact ⟨g,gone,shadowed.still⟩
        · have answers := shadowed.walked (List.mem_of_getElem? found) (undisturbed ask found) rfl (by simpa using cut)
          have steady : Cluster.Steady { g with answered := g.answered ++ [(ask,_)] } :=
            shadowed.steady.told rfl shadowed.steady.noted shadowed.steady.advertised shadowed.steady.asked
              fun x member => by
                rcases List.mem_append.mp member with old | new
                · exact shadowed.steady.answered x old
                · rw [List.mem_singleton.mp new]
                  exact answers
          exact ⟨_,gone,shadowed.told steady rfl rfl shadowed.noted shadowed.advertised shadowed.asked
            (congrArg (· ++ _) shadowed.answered) shadowed.served⟩
      · exact ⟨g,gone,shadowed.still⟩
  | collect node cutoff =>
      unfold Serving.step
      simp only
      split
      · exact ⟨g,gone,shadowed.told shadowed.steady rfl rfl shadowed.noted shadowed.advertised shadowed.asked
          shadowed.answered shadowed.served⟩
      · exact ⟨g,gone,shadowed.still⟩
  | scan i chunk =>
      unfold Serving.step
      simp only
      split
      · exact ⟨g,gone,shadowed.told shadowed.steady rfl rfl shadowed.noted shadowed.advertised shadowed.asked
          shadowed.answered shadowed.served⟩
      · exact ⟨g,gone,shadowed.still⟩
  | remove i =>
      unfold Serving.step
      simp only
      split
      next pass found =>
        have shadow := (shadowed.shadows pass.node).removed pass.keys
        refine ⟨g,fun m u => gone m u ∨ (m = pass.node ∧ u ∈ pass.keys ∧
          ((s.cluster.engines m).db.oplog.get u).isSome = true),⟨shadowed.steady,fun m => ?_,shadowed.noted,
          shadowed.advertised,shadowed.asked,shadowed.answered,shadowed.served⟩,fun _ _ _ found => found,
          fun m u taken => ?_⟩
        · simp only [Cluster.putEngines]
          split_ifs with here
          · subst here
            simpa using shadow
          · simpa [here] using shadowed.shadows m
        · rcases taken with before | ⟨_, _, there⟩
          · exact ((shadowed.shadows m).taken u before).2.1
          · obtain ⟨x, held⟩ := Option.isSome_iff_exists.mp there
            rw [(shadowed.shadows m).logged held]
            rfl
      · exact ⟨g,gone,shadowed.still⟩

end

/- After a run: a shadow's log is all that its member ever held. -/
structure Remembers (s : Serving) (steps : List ServingStep) (g : Cluster) (gone : NodeId → Stamp → Prop) : Prop where
  shadowed : (s.run steps).Shadowed g gone
  held : ∀ n x, (g.engines n).db.oplog.get x.stamp = some x ↔ s.EverHeld steps n x

theorem runAppend (s : Serving) (steps more : List ServingStep) : s.run (steps ++ more) = (s.run steps).run more :=
  List.foldl_append

theorem undisturbedAppend (s : Serving) (steps more : List ServingStep) :
    s.UndisturbedRun (steps ++ more) ↔ s.UndisturbedRun steps ∧ (s.run steps).UndisturbedRun more := by
  induction steps generalizing s with
  | nil => simp [UndisturbedRun, run]
  | cons step rest ih =>
      simp only [List.cons_append, UndisturbedRun, ih, and_assoc]
      rfl

theorem everHeldSnoc {s : Serving} {steps : List ServingStep} {step : ServingStep} {n : NodeId} {x : OplogEntry} :
    s.EverHeld (steps ++ [step]) n x ↔
      s.EverHeld steps n x ∨ ((s.run (steps ++ [step])).tables n).oplog.get x.stamp = some x := by
  constructor
  · rintro ⟨k, found⟩
    by_cases inside : k ≤ steps.length
    · rw [List.take_append_of_le_length inside] at found
      exact Or.inl ⟨k,found⟩
    · rw [List.take_of_length_le (by simp; omega)] at found
      exact Or.inr found
  · rintro (⟨k, found⟩ | found)
    · refine ⟨min k steps.length,?_⟩
      rw [List.take_append_of_le_length (min_le_right _ _), ←List.take_eq_take_min]
      exact found
    · exact ⟨(steps ++ [step]).length,by rwa [List.take_length]⟩

theorem openedRemembers (physicalNowMs : NodeId → Nat → Fin (2 ^ 64))
    (collections : NodeId → SortedMap CollectionId CollectionMeta) :
    (opened physicalNowMs collections).Remembers [] (.opened physicalNowMs collections) fun _ _ => False := by
  refine ⟨⟨Cluster.openedSteady physicalNowMs collections,fun n => ?_,rfl,rfl,rfl,rfl,nofun⟩,fun n x => ?_⟩
  · exact ⟨rfl,rfl,rfl,rfl,rfl,rfl,rfl,rfl,rfl,⟨rfl,rfl⟩,fun _ => False.elim,fun _ _ => rfl,nofun,nofun⟩
  · refine ⟨nofun,?_⟩
    rintro ⟨k, found⟩
    rw [List.take_nil] at found
    cases found

theorem remembers (physicalNowMs : NodeId → Nat → Fin (2 ^ 64))
    (collections : NodeId → SortedMap CollectionId CollectionMeta) (steps : List ServingStep)
    (room : ∀ n, (((opened physicalNowMs collections).run steps).cluster.engines n).Room)
    (undisturbed : (opened physicalNowMs collections).UndisturbedRun steps) :
    ∃ g gone, (opened physicalNowMs collections).Remembers steps g gone := by
  induction steps using List.reverseRecOn with
  | nil => exact ⟨_,_,openedRemembers physicalNowMs collections⟩
  | append_singleton steps step ih =>
      generalize opened physicalNowMs collections = s at room undisturbed ih ⊢
      have last : s.run (steps ++ [step]) = (s.run steps).step step := runAppend s steps [step]
      rw [last] at room
      obtain ⟨before, now⟩ := (undisturbedAppend s steps [step]).mp undisturbed
      obtain ⟨g, gone, shadowed, held⟩ := ih (fun n => (roomBefore (sameStep _ step n) (room n)).1) before
      obtain ⟨h, gone', follows⟩ := shadowed.step now.1 room
      refine ⟨h,gone',last ▸ follows.shadowed,fun n x => ?_⟩
      rw [everHeldSnoc, ←held, last]
      constructor
      · intro found
        by_cases taken : gone' n x.stamp
        · obtain ⟨y, there⟩ := Option.isSome_iff_exists.mp (follows.past n _ taken)
          have same := (follows.log n _ y there).symm.trans found
          exact Or.inl (there.trans same)
        · exact Or.inr (((follows.shadowed.shadows n).kept _ taken).trans found)
      · rintro (old | now)
        · exact follows.log n _ x old
        · exact (follows.shadowed.shadows n).logged now

/- As long as no clock is asked for a stamp above the last there is, and nothing that a requester
lacks is collected between the verdict on its request and the walk: in every state of every
run, a member whose vector covers the highest write ever made to a document holds it, and a
requester that lacks an entry its peer has lost is answered that it is beyond the horizon. -/
theorem noGap (physicalNowMs : NodeId → Nat → Fin (2 ^ 64))
    (collections : NodeId → SortedMap CollectionId CollectionMeta) (steps : List ServingStep)
    (room : ∀ n, (((opened physicalNowMs collections).run steps).cluster.engines n).Room)
    (undisturbed : (opened physicalNowMs collections).UndisturbedRun steps) :
    let s := (opened physicalNowMs collections).run steps
    (∀ n a x, (opened physicalNowMs collections).HighestMade steps a x → (s.tables n).witnessed.Covers x.stamp →
      (s.tables n).docs.get a = some x.outcome) ∧
    ∀ i ask x, s.cluster.asked[i]? = some ask → (opened physicalNowMs collections).Lost steps ask.peer x →
      ¬ ask.mine.Covers x.stamp → s.step (.judge i) = { s with refused := s.refused ++ [ask] } := by
  intro s
  obtain ⟨g, gone, shadowed, held⟩ := remembers physicalNowMs collections steps room undisturbed
  have steady := shadowed.steady
  constructor
  · intro n a x highest covers
    have shadow := shadowed.shadows n
    have most : g.Highest a x :=
      ⟨(held _ x).mpr highest.made,highest.there,fun y written => highest.highest y ((held _ y).mp written)⟩
    have covers' : (g.engines n).db.witnessed.Covers x.stamp := shadow.witnessed ▸ covers
    exact (congrArg (·.get a) shadow.docs).trans (steady.record most ((steady.backs n).logged a x most covers'))
  · intro i ask x asked lost uncovered
    have there := (held ask.peer x).mpr lost.held
    have taken : gone ask.peer x.stamp := by
      by_contra stays
      have kept := ((shadowed.shadows ask.peer).kept _ stays).symm.trans lost.gone
      cases there.symm.trans kept
    have refused := shadowed.lacks taken uncovered
    have verdict : s.verdict ask ≠ .serve := by
      unfold Serving.verdict
      rw [refused]
      decide
    simp only [Serving.step, asked, if_neg verdict]

/-! A member that neither writes, asks nor collects. -/

def names (n : NodeId) : ServingStep → Prop
  | .plain step => Cluster.names n step
  | .collect node _ => node = n
  | _ => False

structure Aside (start : Engine) (n : NodeId) (s : Serving) : Prop where
  cluster : Cluster.Aside start n s.cluster
  served : ∀ ask ∈ s.served, ask.requester ≠ n
  passes : ∀ pass ∈ s.passes, pass.node ≠ n

theorem Aside.step {start : Engine} {n : NodeId} {s : Serving} (aside : Aside start n s) {step : ServingStep}
    (unnamed : ¬ names n step) : Aside start n (s.step step) := by
  obtain ⟨cluster, served, passes⟩ := aside
  cases step with
  | plain step =>
      have moved := cluster.step unnamed
      cases step <;> first | exact ⟨moved,served,passes⟩ | exact ⟨cluster,served,passes⟩
  | judge i =>
      unfold Serving.step
      simp only
      split
      next ask found =>
        split_ifs
        · refine ⟨cluster,fun x member => ?_,passes⟩
          rcases List.mem_append.mp member with old | new
          · exact served x old
          · rw [List.mem_singleton.mp new]
            exact cluster.asked ask (List.mem_of_getElem? found)
        · exact ⟨cluster,served,passes⟩
      · exact ⟨cluster,served,passes⟩
  | walk i spent =>
      unfold Serving.step
      simp only
      split
      next ask found =>
        split_ifs
        · exact ⟨cluster,served,passes⟩
        · refine ⟨⟨cluster.same,cluster.noted,cluster.asked,fun x member => ?_⟩,served,passes⟩
          rcases List.mem_append.mp member with old | new
          · exact cluster.answered x old
          · rw [List.mem_singleton.mp new]
            exact served ask (List.mem_of_getElem? found)
      · exact ⟨cluster,served,passes⟩
  | collect node cutoff =>
      unfold Serving.step
      simp only
      split
      · refine ⟨cluster,served,fun pass member => ?_⟩
        rcases List.mem_append.mp member with old | new
        · exact passes pass old
        · rw [List.mem_singleton.mp new]
          exact unnamed
      · exact ⟨cluster,served,passes⟩
  | scan i chunk =>
      unfold Serving.step
      simp only
      split
      next pass found =>
        refine ⟨cluster,served,fun other member => ?_⟩
        rcases List.mem_or_eq_of_mem_set member with old | new
        · exact passes other old
        · rw [new]
          exact passes pass (List.mem_of_getElem? found)
      · exact ⟨cluster,served,passes⟩
  | remove i =>
      unfold Serving.step
      simp only
      split
      next pass found => exact ⟨cluster.put (passes pass (List.mem_of_getElem? found)),served,passes⟩
      · exact ⟨cluster,served,passes⟩

theorem Aside.run {start : Engine} {n : NodeId} {s : Serving} (aside : Aside start n s) {steps : List ServingStep}
    (unnamed : ∀ step ∈ steps, ¬ names n step) : Aside start n (s.run steps) := by
  induction steps generalizing s with
  | nil => exact aside
  | cons step rest ih =>
      exact ih (aside.step (unnamed step List.mem_cons_self)) fun x member => unnamed x (List.mem_cons_of_mem _ member)

/-! Between the verdict and the walk. -/

/- A writes two documents; B asks for them and is told that it can be served; A collects the
first, and then cuts the window. -/
def collectedBetween : List ServingStep :=
  [.plain (.write 0 Cluster.flip),.plain (.write 0 (.write (.insert 0 ⟨[2],[("b",.int32 1)],true⟩))),
    .plain (.note 1),.plain (.advertise 0),.plain (.ask 0 0 8 [] true),.judge 0,
    .collect 0 ⟨9,0⟩,.scan 0 1024,.remove 0,.walk 0 none,.plain (.apply 0 true)]

def quiet : Serving := opened (fun _ _ => 0) fun _ => Cluster.books

/- Members other than A and B take no part. -/
theorem othersAside {steps : List ServingStep} (few : ∀ step ∈ steps, ∀ n, names n step → n = 0 ∨ n = 1) {n : NodeId}
    (first : n ≠ 0) (second : n ≠ 1) : (quiet.run steps).cluster.engines n = .opened n (fun _ => 0) Cluster.books := by
  have start : Aside (.opened n (fun _ => 0) Cluster.books) n quiet :=
    ⟨Cluster.openedAside (fun _ _ => 0) (fun _ => Cluster.books) n,nofun,nofun⟩
  refine (start.run fun step member named => ?_).cluster.same
  rcases few step member n named with here | here
  · exact first here
  · exact second here

theorem collectedFew : ∀ step ∈ collectedBetween, ∀ n, names n step → n = 0 ∨ n = 1 := by
  intro step member n named
  simp only [collectedBetween, List.mem_cons, List.not_mem_nil, or_false] at member
  rcases member with rfl | rfl | rfl | rfl | rfl | rfl | rfl | rfl | rfl | rfl | rfl <;>
    simp_all [names, Cluster.names]

/- What A and B ever held of their own, read off a run of theirs. -/
theorem madeBelow {steps : List ServingStep} {top : Stamp}
    (few : ∀ step ∈ steps, ∀ n, names n step → n = 0 ∨ n = 1)
    (own : ∀ j ∈ List.range (steps.length + 1), ∀ r ∈ ((quiet.run (steps.take j)).tables 0).oplog.entries,
      r.2.address = some ⟨0,[1]⟩ → r.1 ≤ top)
    (none' : ∀ j ∈ List.range (steps.length + 1), ∀ r ∈ ((quiet.run (steps.take j)).tables 1).oplog.entries, r.1.node = 0)
    {y : OplogEntry} (made : quiet.Made steps y) (there : y.address = some ⟨0,[1]⟩) : y.stamp ≤ top := by
  obtain ⟨k, found⟩ := made
  have listed : min k steps.length ∈ List.range (steps.length + 1) :=
    List.mem_range.mpr (Nat.lt_succ_of_le (min_le_right _ _))
  by_cases first : y.stamp.node = 0
  · rw [first, List.take_eq_take_min] at found
    exact own _ listed _ (SortedMap.memEntries.mpr found) there
  · by_cases second : y.stamp.node = 1
    · rw [second, List.take_eq_take_min] at found
      exact absurd (none' _ listed _ (SortedMap.memEntries.mpr found)) first
    · have unnamed : ∀ step ∈ steps.take k, ∀ n, names n step → n = 0 ∨ n = 1 :=
        fun step member => few step (List.mem_of_mem_take member)
      rw [tables, othersAside unnamed first second] at found
      cases found

/- The first write of A. -/
def firstWrite : OplogEntry := ⟨⟨⟨0,1⟩,0⟩,.insert,0,some [1],some [("a",.int32 1)]⟩

theorem gapBetween : ∃ a x, quiet.HighestMade collectedBetween a x ∧
    ((quiet.run collectedBetween).tables 1).witnessed.Covers x.stamp ∧
    ((quiet.run collectedBetween).tables 1).docs.get a ≠ some x.outcome := by
  refine ⟨⟨0,[1]⟩,firstWrite,⟨⟨1,by decide +kernel⟩,rfl,?_⟩,by decide +kernel,by decide +kernel⟩
  exact fun y made there => madeBelow collectedFew (by decide +kernel) (by decide +kernel) made there

/- The window is cut first: B has the document, and one that knows nothing is refused. -/
def collectedAfter : List ServingStep :=
  [.plain (.write 0 Cluster.flip),.plain (.write 0 (.write (.insert 0 ⟨[2],[("b",.int32 1)],true⟩))),
    .plain (.note 1),.plain (.advertise 0),.plain (.ask 0 0 8 [] true),.judge 0,.walk 0 none,
    .collect 0 ⟨9,0⟩,.scan 0 1024,.remove 0,.plain (.apply 0 true)]

theorem afterFew : ∀ step ∈ collectedAfter, ∀ n, names n step → n = 0 ∨ n = 1 := by
  intro step member n named
  simp only [collectedAfter, List.mem_cons, List.not_mem_nil, or_false] at member
  rcases member with rfl | rfl | rfl | rfl | rfl | rfl | rfl | rfl | rfl | rfl | rfl <;>
    simp_all [names, Cluster.names]

theorem noGapHere : ((quiet.run collectedAfter).tables 1).docs.get ⟨0,[1]⟩ = some firstWrite.outcome ∧
    ∃ ask, (quiet.run collectedAfter).cluster.asked[0]? = some ask ∧
      (quiet.run collectedAfter).step (.judge 0) =
        { quiet.run collectedAfter with refused := (quiet.run collectedAfter).refused ++ [ask] } := by
  have room : ∀ n, ((quiet.run collectedAfter).cluster.engines n).Room := by
    intro n
    by_cases first : n = 0
    · rw [first]
      decide +kernel
    by_cases second : n = 1
    · rw [second]
      decide +kernel
    rw [othersAside afterFew first second]
    trivial
  have undisturbed : quiet.UndisturbedRun collectedAfter := by
    refine ⟨trivial,trivial,trivial,trivial,trivial,trivial,fun ask found => ?_,trivial,trivial,trivial,trivial,trivial⟩
    have serves : ∀ ask ∈ (quiet.run (collectedAfter.take 6)).served,
        (quiet.run (collectedAfter.take 6)).verdict ask = .serve := by decide +kernel
    exact serves ask (List.mem_of_getElem? found)
  obtain ⟨holds, refuses⟩ := noGap (fun _ _ => 0) (fun _ => Cluster.books) collectedAfter room undisturbed
  constructor
  · refine holds 1 ⟨0,[1]⟩ firstWrite ⟨⟨1,by decide +kernel⟩,rfl,fun y made there => ?_⟩ (by decide +kernel)
    exact madeBelow afterFew (by decide +kernel) (by decide +kernel) made there
  · have lacks : ∀ ask ∈ (quiet.run collectedAfter).cluster.asked, ask.peer = 0 ∧ ¬ ask.mine.Covers firstWrite.stamp := by
      decide +kernel
    obtain ⟨ask, asked⟩ := Option.isSome_iff_exists.mp
      (show ((quiet.run collectedAfter).cluster.asked[0]?).isSome = true by decide +kernel)
    obtain ⟨peer, uncovered⟩ := lacks ask (List.mem_of_getElem? asked)
    have lost : quiet.Lost collectedAfter ask.peer firstWrite := by
      rw [peer]
      exact ⟨⟨1,by decide +kernel⟩,by decide +kernel⟩
    exact ⟨ask,asked,refuses 0 ask firstWrite asked lost uncovered⟩

end Serving

end Kimmy.Store
