import Kimmy.LastWriter
import Kimmy.Store.Moves

/-!
The log and the data agree: the document table is the last-writer-wins fold of the oplog,
after any sequence of writes. A local write is put over what stands without a comparison,
so this rests on the clock minting above everything it has seen.
-/
namespace Kimmy.Store
open Merge

/- A document entry names its document, and has a body unless it is a delete. -/
structure OplogEntry.WellFormed (entry : OplogEntry) : Prop where
  named : entry.docId.isSome = entry.kind.isDocument
  bodied : entry.kind.isDocument = true → (entry.body = none ↔ entry.kind = .delete)

/- What an entry settles its document to: a tombstone where it is a delete and a live record
where it is a write. -/
def OplogEntry.outcome (entry : OplogEntry) : DocRecord :=
  if entry.kind = .delete then .tombstone entry.stamp else .live entry.stamp (entry.body.getD [])

/- The last-writer-wins fold of a log at one address. -/
def lastWrite (log : SortedMap Stamp OplogEntry) (a : Address) : Option DocRecord :=
  LastWriter.fold DocRecord.stamp ((log.values.filter fun entry => entry.address = some a).map OplogEntry.outcome)

def LogAgrees (t : Tables) : Prop := ∀ a, t.docs.get a = lastWrite t.oplog a

/-! Honest feeds: one write stands behind a stamp. -/

/- The writes of all other members. -/
structure Feed where
  write : Stamp → OplogEntry
  stamped : ∀ s, (write s).stamp = s
  formed : ∀ s, (write s).WellFormed

/- A member's own entry comes back only as it was logged, and any other as its origin wrote it. -/
def Feed.Brings (feed : Feed) (node : NodeId) (log : SortedMap Stamp OplogEntry) (entry : OplogEntry) : Prop :=
  if entry.stamp.node = node then log.get entry.stamp = some entry else entry = feed.write entry.stamp

theorem Feed.brings (feed : Feed) {node : NodeId} {log : SortedMap Stamp OplogEntry} {s : Stamp}
    (other : s.node ≠ node) : feed.Brings node log (feed.write s) := by
  rw [Brings, feed.stamped, if_neg other]

/- What the log says of an address, read off its entries. -/
def Settles (log : SortedMap Stamp OplogEntry) (a : Address) : Option DocRecord → Prop
  | none => ∀ s x, log.get s = some x → x.address ≠ some a
  | some r => (∃ x, log.get r.stamp = some x ∧ x.address = some a ∧ x.incoming = r) ∧
      ∀ s x, log.get s = some x → x.address = some a → s ≤ r.stamp

structure Agreed (feed : Feed) (e : Engine) : Prop where
  stamped : ∀ s x, e.db.oplog.get s = some x → x.stamp = s
  formed : ∀ s x, e.db.oplog.get s = some x → x.WellFormed
  foreign : ∀ s x, e.db.oplog.get s = some x → s.node ≠ e.node → x = feed.write s
  known : ∀ s x, e.db.oplog.get s = some x → s.hlc ≤ e.clock.last
  settled : ∀ a, Settles e.db.oplog a (e.db.docs.get a)

theorem incomingStamp (entry : OplogEntry) : entry.incoming.stamp = entry.stamp := by
  unfold OplogEntry.incoming
  cases entry.body <;> rfl

theorem outcomeStamp (entry : OplogEntry) : entry.outcome.stamp = entry.stamp := by
  unfold OplogEntry.outcome
  split_ifs <;> rfl

theorem outcomeIncoming {entry : OplogEntry} {a : Address} (formed : entry.WellFormed)
    (there : entry.address = some a) : entry.outcome = entry.incoming := by
  have document : entry.kind.isDocument = true := by
    rw [←formed.named]
    unfold OplogEntry.address at there
    cases named : entry.docId with
    | none => simp [named] at there
    | some key => rfl
  unfold OplogEntry.outcome OplogEntry.incoming
  cases body : entry.body with
  | none => rw [if_pos ((formed.bodied document).mp body)]
  | some image =>
      rw [if_neg fun delete => ?_]
      · rfl
      · rw [(formed.bodied document).mpr delete] at body
        cases body

/- The invariant is the fold. -/
theorem Agreed.agrees {feed : Feed} {e : Engine} (agreed : Agreed feed e) : LogAgrees e.db := by
  intro a
  have listed {x : OplogEntry} : x ∈ e.db.oplog.values.filter (fun entry => entry.address = some a) ↔
      e.db.oplog.get x.stamp = some x ∧ x.address = some a := by
    rw [List.mem_filter, SortedMap.memValues, decide_eq_true_iff]
    refine and_congr_left fun _ => ⟨?_,fun found => ⟨_,found⟩⟩
    rintro ⟨s, found⟩
    rwa [agreed.stamped s x found]
  have settled := agreed.settled a
  unfold lastWrite
  cases held : e.db.docs.get a with
  | none =>
      rw [held] at settled
      refine (LastWriter.foldNone.mpr ?_).symm
      rw [List.map_eq_nil_iff, List.eq_nil_iff_forall_not_mem]
      exact fun x member => settled _ x (listed.mp member).1 (listed.mp member).2
  | some r =>
      rw [held] at settled
      obtain ⟨⟨x, found, there, rfl⟩, all⟩ := settled
      rw [incomingStamp] at found all
      refine (LastWriter.foldEq ?_ ⟨?_,?_⟩).symm
      · intro u inU v inV same
        obtain ⟨y, inY, rfl⟩ := List.mem_map.mp inU
        obtain ⟨z, inZ, rfl⟩ := List.mem_map.mp inV
        rw [outcomeStamp, outcomeStamp] at same
        have one := (listed.mp inY).1
        rw [same, (listed.mp inZ).1] at one
        rw [Option.some.inj one]
      · refine List.mem_map.mpr ⟨x,listed.mpr ⟨found,there⟩,?_⟩
        exact outcomeIncoming (agreed.formed _ x found) there
      · intro u inU
        obtain ⟨y, inY, rfl⟩ := List.mem_map.mp inU
        rw [outcomeStamp, incomingStamp]
        exact all _ y (listed.mp inY).1 (listed.mp inY).2

section
variable {log : SortedMap Stamp OplogEntry} {x : OplogEntry} {a : Address}

theorem settlesElsewhere {r : Option DocRecord} (consistent : log.get x.stamp = none ∨ log.get x.stamp = some x)
    (away : x.address ≠ some a) (settles : Settles log a r) : Settles (log.insert x.stamp x) a r := by
  have back : ∀ s y, (log.insert x.stamp x).get s = some y → y.address = some a → log.get s = some y := by
    intro s y found there
    rw [SortedMap.getInsert] at found
    split_ifs at found with same
    · cases found
      exact absurd there away
    · exact found
  cases r with
  | none => exact fun s y found there => settles s y (back s y found there) there
  | some r =>
      obtain ⟨⟨y, found, there, same⟩, all⟩ := settles
      refine ⟨⟨y,?_,there,same⟩,fun s z found there => all s z (back s z found there) there⟩
      rw [SortedMap.getInsert]
      split_ifs with own
      · rw [own] at found
        rcases consistent with fresh | held
        · cases fresh.symm.trans found
        · exact held.symm.trans found
      · exact found

theorem settlesOwn (there : x.address = some a)
    (above : ∀ s y, log.get s = some y → y.address = some a → s ≤ x.stamp) :
    Settles (log.insert x.stamp x) a (some x.incoming) := by
  rw [Settles, incomingStamp]
  refine ⟨⟨x,by simp,there,rfl⟩,fun s y found at' => ?_⟩
  rw [SortedMap.getInsert] at found
  split_ifs at found with same
  · exact same.le
  · exact above s y found at'

end

/- An entry that the log either lacks or has just so. -/
theorem Agreed.put {feed : Feed} {e y : Engine} {x : OplogEntry} (agreed : Agreed feed e)
    (node : y.node = e.node) (log : y.db.oplog = e.db.oplog.insert x.stamp x) (formed : x.WellFormed)
    (foreign : x.stamp.node ≠ e.node → x = feed.write x.stamp) (clock : e.clock.last ≤ y.clock.last)
    (known : x.stamp.hlc ≤ y.clock.last)
    (settled : ∀ a, Settles (e.db.oplog.insert x.stamp x) a (y.db.docs.get a)) : Agreed feed y := by
  have cases' : ∀ s z, y.db.oplog.get s = some z → (s = x.stamp ∧ z = x) ∨ e.db.oplog.get s = some z := by
    intro s z found
    rw [log, SortedMap.getInsert] at found
    split_ifs at found with same
    · exact Or.inl ⟨same,(Option.some.inj found).symm⟩
    · exact Or.inr found
  refine ⟨fun s z found => ?_,fun s z found => ?_,fun s z found other => ?_,fun s z found => ?_,fun a => ?_⟩
  · rcases cases' s z found with ⟨rfl, rfl⟩ | held
    · rfl
    · exact agreed.stamped s z held
  · rcases cases' s z found with ⟨rfl, rfl⟩ | held
    · exact formed
    · exact agreed.formed s z held
  · rw [node] at other
    rcases cases' s z found with ⟨rfl, rfl⟩ | held
    · exact foreign other
    · exact agreed.foreign s z held other
  · rcases cases' s z found with ⟨rfl, rfl⟩ | held
    · exact known
    · exact (agreed.known s z held).trans clock
  · rw [log]
    exact settled a

/- The clock alone moves. -/
theorem Agreed.moved {feed : Feed} {e y : Engine} (agreed : Agreed feed e) (node : y.node = e.node)
    (log : y.db.oplog = e.db.oplog) (docs : y.db.docs = e.db.docs) (clock : e.clock.last ≤ y.clock.last) :
    Agreed feed y := by
  refine ⟨?_,?_,?_,?_,?_⟩
  · rw [log]
    exact agreed.stamped
  · rw [log]
    exact agreed.formed
  · rw [log, node]
    exact agreed.foreign
  · rw [log]
    exact fun s x found => (agreed.known s x found).trans clock
  · rw [log, docs]
    exact agreed.settled

/-! Clocks. -/

def Engine.Room (e : Engine) : Prop := HlcClock.Room e.resumed e.calls

instance (e : Engine) : Decidable e.Room := HlcClock.decidableRoom e.resumed e.calls

theorem roomBefore {x y : Engine} (same : Moves.SameMember x y) (room : y.Room) :
    x.Room ∧ x.clock.last ≤ y.clock.last := by
  obtain ⟨_, _, resumed, more, calls⟩ := same
  unfold Engine.Room at room
  rw [resumed, calls, HlcClock.roomAppend] at room
  refine ⟨room.1,?_⟩
  unfold Engine.clock
  rw [resumed, calls, HlcClock.after, HlcClock.after, List.foldl_append]
  exact HlcClock.afterLe room.2

/- A stamp minted with room is above all the clock knows. -/
theorem nextStampFresh {e : Engine} (room : (e.called [e.nextCall]).Room) :
    e.clock.last < e.nextStamp.hlc ∧ (e.called [e.nextCall]).clock.last = e.nextStamp.hlc := by
  have last := (HlcClock.roomAppend.mp room).2.1
  refine ⟨HlcClock.aboveStrict.mpr last,?_⟩
  unfold Engine.clock Engine.called
  rw [HlcClock.after, List.foldl_append]
  rfl

theorem witnessClock (e : Engine) (stamp : Stamp) :
    (e.witness stamp).clock.last = max e.clock.last stamp.hlc := by
  have last : (e.witness stamp).clock = e.clock.witness stamp.hlc := by
    unfold Engine.witness Engine.clock Engine.called
    rw [HlcClock.after, List.foldl_append]
    rfl
  rw [last, HlcClock.witnessLast]

/-! One operation. -/

/- Inside an operation the log has kept what it held at the start. -/
structure Within (feed : Feed) (start e : Engine) : Prop where
  agreed : Agreed feed e
  node : e.node = start.node
  kept : ∀ s x, start.db.oplog.get s = some x → e.db.oplog.get s = some x

section
variable {feed : Feed} {start e y : Engine} {entry : OplogEntry}

/- An entry that is brought is the one the log holds, if it holds one. -/
theorem Within.consistent (within : Within feed start e) (got : feed.Brings start.node start.db.oplog entry) :
    (e.db.oplog.get entry.stamp = none ∨ e.db.oplog.get entry.stamp = some entry) ∧ entry.WellFormed ∧
      (entry.stamp.node ≠ e.node → entry = feed.write entry.stamp) := by
  rw [within.node]
  unfold Feed.Brings at got
  split_ifs at got with own
  · have held := within.kept _ _ got
    exact ⟨Or.inr held,within.agreed.formed _ _ held,fun other => absurd own other⟩
  · refine ⟨?_,?_,fun _ => got⟩
    · cases held : e.db.oplog.get entry.stamp with
      | none => exact Or.inl rfl
      | some x =>
          have one := within.agreed.foreign _ x held (within.node ▸ own)
          rw [one, ←got]
          exact Or.inr rfl
    · rw [got]
      exact feed.formed _

theorem Within.keptInsert (within : Within feed start e)
    (consistent : e.db.oplog.get entry.stamp = none ∨ e.db.oplog.get entry.stamp = some entry) :
    ∀ s x, start.db.oplog.get s = some x → (e.db.oplog.insert entry.stamp entry).get s = some x := by
  intro s x found
  have held := within.kept s x found
  rw [SortedMap.getInsert]
  split_ifs with same
  · rw [same] at held
    rcases consistent with absent | one
    · cases absent.symm.trans held
    · exact one.symm.trans held
  · exact held

/- The member's own entry, minted above everything: its document, if it has one, is put. -/
theorem Within.minted (within : Within feed start e) (entry : OplogEntry) (node : y.node = e.node)
    (log : y.db.oplog = e.db.oplog.insert entry.stamp entry) (formed : entry.WellFormed)
    (own : entry.stamp.node = e.node) (above : e.clock.last < entry.stamp.hlc)
    (last : y.clock.last = entry.stamp.hlc)
    (docs : ∀ a, y.db.docs.get a = if entry.address = some a then some entry.incoming else e.db.docs.get a) :
    Within feed start y := by
  have higher : ∀ s x, e.db.oplog.get s = some x → s < entry.stamp := fun s x found =>
    stampLtIff.mpr (Or.inl ((within.agreed.known s x found).trans_lt above))
  have fresh : e.db.oplog.get entry.stamp = none :=
    Option.eq_none_iff_forall_ne_some.mpr fun x found => lt_irrefl _ (higher _ x found)
  refine ⟨within.agreed.put node log formed (fun other => absurd own other) (last ▸ above.le) last.ge fun a => ?_,
    node.trans within.node,?_⟩
  · rw [docs]
    split_ifs with here
    · exact settlesOwn here fun s x found _ => (higher s x found).le
    · exact settlesElsewhere (Or.inl fresh) here (within.agreed.settled a)
  · rw [log]
    exact within.keptInsert (Or.inl fresh)

theorem Within.wrote (within : Within feed start e) {coll key kind body} (document : kind.isDocument = true)
    (shape : body = none ↔ kind = .delete) (room : (e.write coll key kind body).Room) :
    Within feed start (e.write coll key kind body) := by
  obtain ⟨above, last⟩ := nextStampFresh (e := e) room
  have log : (e.write coll key kind body).db.oplog =
      e.db.oplog.insert e.nextStamp ⟨e.nextStamp,kind,coll,some key,body⟩ := Tables.appendLog _ _ _
  refine within.minted ⟨e.nextStamp,kind,coll,some key,body⟩ rfl log ⟨document.symm,fun _ => shape⟩ rfl above last
    fun a => ?_
  simp only [Engine.write, Tables.appendOplog, Tables.appendDocs, Tables.putRecord, SortedMap.getInsert,
    OplogEntry.address, Option.map_some, Option.some.injEq, eq_comm, Engine.called]

theorem Within.observed (within : Within feed start e) {coll kind} (own : kind.isLocalObservation = true)
    (room : (e.observe coll kind).Room) : Within feed start (e.observe coll kind) := by
  obtain ⟨above, last⟩ := nextStampFresh (e := e) room
  have apart : kind.isDocument = false := by
    cases kind <;> first | rfl | cases own
  have log : (e.observe coll kind).db.oplog = e.db.oplog.insert e.nextStamp ⟨e.nextStamp,kind,coll,none,none⟩ :=
    Tables.appendLog _ _ _
  refine within.minted ⟨e.nextStamp,kind,coll,none,none⟩ rfl log ⟨apart.symm,fun document => ?_⟩ rfl above last
    fun a => ?_
  · rw [apart] at document
    cases document
  · simp [Engine.observe, Tables.appendOplog, OplogEntry.address, Engine.called]

theorem Within.merged (within : Within feed start e) {position key}
    (got : feed.Brings start.node start.db.oplog entry) (named : entry.docId = some key)
    (wins : ∀ current, e.db.docs.get ⟨entry.collection,key⟩ = some current → current.stamp < entry.stamp) :
    Within feed start ({ e with
      db := ((e.db.putRecord ⟨entry.collection,key⟩ entry.incoming).appendOplogAt entry position).1 }.witness
        entry.stamp) := by
  obtain ⟨consistent, formed, foreign⟩ := within.consistent got
  have there : entry.address = some ⟨entry.collection,key⟩ := by rw [OplogEntry.address, named]; rfl
  have last := witnessClock { e with
    db := ((e.db.putRecord ⟨entry.collection,key⟩ entry.incoming).appendOplogAt entry position).1 } entry.stamp
  have log : ((e.db.putRecord ⟨entry.collection,key⟩ entry.incoming).appendOplogAt entry position).1.oplog =
      e.db.oplog.insert entry.stamp entry := Tables.appendLog _ _ _
  refine ⟨within.agreed.put rfl log formed foreign (last.symm ▸ le_max_left _ _) (last.symm ▸ le_max_right _ _)
    fun a => ?_,within.node,?_⟩
  · have docs : ((e.db.putRecord ⟨entry.collection,key⟩ entry.incoming).appendOplogAt entry position).1.docs.get a =
        if a = ⟨entry.collection,key⟩ then some entry.incoming else e.db.docs.get a := by
      rw [Tables.appendDocs]
      exact SortedMap.getInsert ..
    refine docs.symm ▸ ?_
    split_ifs with here
    · subst here
      refine settlesOwn there fun s x found at' => ?_
      have settled := within.agreed.settled ⟨entry.collection,key⟩
      cases held : e.db.docs.get ⟨entry.collection,key⟩ with
      | none =>
          rw [held] at settled
          exact absurd at' (settled s x found)
      | some current =>
          rw [held] at settled
          exact (settled.2 s x found at').trans (wins current held).le
    · refine settlesElsewhere consistent ?_ (within.agreed.settled a)
      rw [there]
      exact fun same => here (Option.some.inj same).symm
  · exact fun s x found => log.symm ▸ within.keptInsert consistent s x found

theorem Within.moved (within : Within feed start e) (same : Moves.SameMember e y) (room : y.Room)
    (log : y.db.oplog = e.db.oplog) (docs : y.db.docs = e.db.docs) : Within feed start y := by
  refine ⟨within.agreed.moved same.node log docs (roomBefore same room).2,same.node.trans within.node,?_⟩
  rw [log]
  exact within.kept

theorem Within.move (within : Within feed start e) (move : Move (feed.Brings start.node start.db.oplog) e y)
    (room : y.Room) : Within feed start y := by
  have same := Moves.sameMove move
  cases move with
  | called more => exact within.moved same room rfl rfl
  | indexed entries collections known => exact within.moved same room rfl rfl
  | wrote coll key kind body document shape => exact within.wrote document shape room
  | observed coll kind own => exact within.observed own room
  | merged entry position key got named wins => exact within.merged got named wins
  | owed entry position key got named placed tombstone missing delete =>
      -- the tombstone that stands was put by an entry, which is still in the log
      obtain ⟨current, found, _, stamped⟩ := tombstone
      have settled := within.agreed.settled ⟨entry.collection,key⟩
      rw [found] at settled
      obtain ⟨⟨x, logged, _⟩, _⟩ := settled
      rw [stamped] at logged
      simp [Tables.deleteEntryIsOwed, logged] at missing
  | released entry got => exact within.moved same room (Tables.releaseLog _ _) (Tables.releaseDocs _ _)

theorem Within.moves (within : Within feed start e) (moves : Moves (feed.Brings start.node start.db.oplog) e y)
    (room : y.Room) : Within feed start y := by
  induction moves with
  | refl => exact within
  | tail _ move ih => exact (ih (roomBefore (Moves.sameMove move) room).1).move move room

end

/- Runs of entries as they come. -/
def Engine.receive (e : Engine) (runs : List (Position × List OplogEntry)) : Engine :=
  runs.foldl (fun e run => e.replicate run.1 run.2 true) e

theorem observeDocs (e : Engine) (coll : CollectionId) (kind : OpKind) : (e.observe coll kind).db.docs = e.db.docs :=
  Tables.appendDocs _ _ _

theorem unkeyedDocs (coll : CollectionId) (key : DocKey) : ∀ (filings : List UnkeyedFiling) (e : Engine),
    (e.appendUnkeyed coll key filings).db.docs = e.db.docs
  | [], _ => rfl
  | filing :: rest, e =>
      (unkeyedDocs coll key rest _).trans (observeDocs e coll (.unkeyedDocument ⟨filing.index,key,filing.cause⟩))

/- Whatever else it does, a replicated entry is merged into its document by stamp. -/
theorem remoteDocs (e : Engine) (entry : OplogEntry) (position : Position) (a : Address) :
    (e.applyRemoteInTxn entry position).1.db.docs.get a =
      if entry.address = some a then LastWriter.keep DocRecord.stamp (e.db.docs.get a) entry.incoming
      else e.db.docs.get a := by
  unfold Engine.applyRemoteInTxn OplogEntry.address
  split
  next unnamed => simp [unnamed, Engine.witness, Engine.called]
  next key named =>
    simp only [named, Option.map_some, Option.some.injEq, eq_comm (b := a)]
    by_cases here : a = ⟨entry.collection,key⟩
    · subst here
      rw [if_pos rfl]
      cases held : e.db.docs.get ⟨entry.collection,key⟩ with
      | none =>
          simp [unkeyedDocs, Engine.witness, Engine.called, Tables.settle, Tables.putRecord, Engine.mergedWith,
            LastWriter.keep]
      | some current =>
          by_cases wins : current.stamp < entry.stamp
          · simp [unkeyedDocs, Engine.witness, Engine.called, Tables.settle, Tables.putRecord, Engine.mergedWith,
              DocRecord.merge, LastWriter.keep, wins, incomingStamp]
          · simp only [Option.all_some, wins, decide_false, Bool.false_eq_true, if_false, LastWriter.keep,
              incomingStamp]
            split_ifs
            · simpa [Engine.witness, Engine.called] using held
            · simpa [Engine.witness, Engine.called] using held
            · simpa [Engine.witness, Engine.called] using held
    · rw [if_neg here]
      split_ifs
      · simp [unkeyedDocs, Engine.witness, Engine.called, Tables.settle, Tables.putRecord, here]
      · simp [Engine.witness, Engine.called]
      · simp [Engine.witness, Engine.called]
      · simp [Engine.witness, Engine.called]

end Kimmy.Store
