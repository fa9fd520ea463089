import Kimmy.Store.Delivery
import Kimmy.Store.Roaming

/-!
A stream that goes on at another member delivers every entry there that its client lacks. Every entry
of the log is covered by the servable vector or marked as held, so the two searches for the start agree;
and what a token claims its stream has taken, or came with, or was appended late.
-/
namespace Kimmy.Store
open Merge Positions

/-! The arrival index and the marks. -/

/- Every entry is servable or marked. -/
structure Placed (t : Tables) : Prop extends Ordered t where
  marked : ∀ s x, t.oplog.get s = some x → t.versions.Covers s ∨ (t.held.get s).isSome = true

/- An entry beyond the vector. -/
def Beyond (delivered : VersionVector) (s : Stamp) : Prop := delivered.get s.node < s.hlc

theorem notBeyond {delivered : VersionVector} {s : Stamp} : ¬ Beyond delivered s ↔ delivered.Covers s := not_lt

/- What a search may answer. -/
def Least (t : Tables) (delivered : VersionVector) : Option Nat → Prop
  | none => ∀ q s, t.arrival.get q = some s → ¬ Beyond delivered s
  | some p => (∃ s, t.arrival.get p = some s ∧ Beyond delivered s) ∧
      ∀ q s, t.arrival.get q = some s → Beyond delivered s → p ≤ q

namespace Seek

/- The bound is at or below the position of every origin that was found active. -/
def Bounds (delivered : VersionVector) (s : Seek) (node : NodeId) : Prop :=
  ∃ b, s.bound = some b ∧ b ≤ delivered.get node

theorem boundsActive {delivered : VersionVector} {s : Seek} {node : NodeId} (bounds : s.Bounds delivered node)
    (other : NodeId) (hlc : Hlc) : (active delivered s other hlc).Bounds delivered node := by
  obtain ⟨b, is, le⟩ := bounds
  unfold active
  split_ifs
  · refine ⟨min b (delivered.get other),?_,(min_le_left _ _).trans le⟩
    unfold lower
    rw [is]
    rfl
  · exact ⟨b,is,le⟩

theorem activeBounds {delivered : VersionVector} (s : Seek) {node : NodeId} {hlc : Hlc} (ahead : delivered.get node < hlc) :
    (active delivered s node hlc).Bounds delivered node := by
  unfold active lower
  rw [if_pos ahead]
  cases s.bound with
  | none => exact ⟨_,rfl,le_refl _⟩
  | some b => exact ⟨_,rfl,min_le_right _ _⟩

/- The servable vector's origins. -/
theorem activeAll {delivered : VersionVector} {entries : List (NodeId × Hlc)} : ∀ {s : Seek},
    (∀ node, s.Bounds delivered node → (entries.foldl (fun s x => active delivered s x.1 x.2) s).Bounds delivered node) ∧
      ∀ node hlc, (node,hlc) ∈ entries → delivered.get node < hlc →
        (entries.foldl (fun s x => active delivered s x.1 x.2) s).Bounds delivered node := by
  induction entries with
  | nil => exact fun {s} => ⟨fun _ => id,fun _ _ member => absurd member List.not_mem_nil⟩
  | cons x rest ih =>
      intro s
      obtain ⟨kept, all⟩ := @ih (active delivered s x.1 x.2)
      refine ⟨fun node bounds => kept node (boundsActive bounds _ _),fun node hlc member ahead => ?_⟩
      rcases List.mem_cons.mp member with rfl | later
      · exact kept node (activeBounds s ahead)
      · exact all node hlc later ahead

/- What a search has learnt so far. -/
def Right (t : Tables) (delivered : VersionVector) (s : Seek) : Prop :=
  match s.phase with
  | .held marks => s.best = none ∧
      ∀ stamp, (t.held.get stamp).isSome = true → Beyond delivered stamp → stamp ∈ marks ∨ s.Bounds delivered stamp.node
  | .range rows => (∀ x ∈ rows, t.arrivalSeq.get x.1 = some x.2) ∧
      (∀ q stamp, t.arrival.get q = some stamp → Beyond delivered stamp → (stamp,q) ∈ rows ∨ ∃ b, s.best = some b ∧ b ≤ q) ∧
      ∀ b, s.best = some b → ∃ stamp, t.arrival.get b = some stamp ∧ Beyond delivered stamp

variable {t : Tables} {delivered : VersionVector} {s : Seek}

theorem rightNew (t : Tables) (delivered : VersionVector) : (new t).Right t delivered := by
  refine ⟨rfl,fun stamp held _ => Or.inl ?_⟩
  obtain ⟨mark, found⟩ := Option.isSome_iff_exists.mp held
  exact List.mem_map.mpr ⟨(stamp,mark),SortedMap.memEntries.mpr found,rfl⟩

/- Every entry beyond the vector is of an active origin. -/
theorem bounded (placed : Placed t) (right : s.Right t delivered) (read : s.phase = .held []) {q : Nat} {stamp : Stamp}
    (found : t.arrival.get q = some stamp) (beyond : Beyond delivered stamp) :
    (t.versions.positions.entries.foldl (fun s x => active delivered s x.1 x.2) s).Bounds delivered stamp.node := by
  unfold Right at right
  rw [read] at right
  obtain ⟨kept, all⟩ := @activeAll delivered t.versions.positions.entries s
  obtain ⟨x, logged, _⟩ := placed.backed q stamp found
  rcases placed.marked stamp x logged with covers | held
  · have positive : t.versions.get stamp.node = (t.versions.positions.get stamp.node).getD .zero := rfl
    cases there : t.versions.positions.get stamp.node with
    | none =>
        unfold VersionVector.Covers at covers
        rw [positive, there] at covers
        exact absurd (lt_of_lt_of_le beyond covers) (not_lt.mpr (VersionVector.zeroLe _))
    | some hlc =>
        unfold VersionVector.Covers at covers
        rw [positive, there] at covers
        exact all stamp.node hlc (SortedMap.memEntries.mpr there) (lt_of_lt_of_le beyond covers)
  · rcases right.2 stamp held beyond with wrong | bounds
    · exact absurd wrong List.not_mem_nil
    · exact kept _ bounds

theorem activeBest (delivered : VersionVector) : ∀ (entries : List (NodeId × Hlc)) (s : Seek),
    (entries.foldl (fun s x => active delivered s x.1 x.2) s).best = s.best
  | [], _ => rfl
  | x :: rest, s => by
      rw [List.foldl_cons, activeBest delivered rest]
      unfold active lower
      split_ifs <;> rfl

theorem stepRight (placed : Placed t) (right : s.Right t delivered) :
    (∀ found, (s.step t delivered).2 = some found → Least t delivered found) ∧
      ((s.step t delivered).2 = none → (s.step t delivered).1.Right t delivered) := by
  obtain ⟨phase, bound, best⟩ := s
  cases phase with
  | held marks =>
      cases marks with
      | cons mark marks =>
          refine ⟨fun found is => absurd is.symm (Option.some_ne_none found),fun _ => ?_⟩
          obtain ⟨empty, marked⟩ := right
          have phase : ∀ s : Seek, (active delivered s mark.node mark.hlc).phase = s.phase := fun s => by
            unfold active lower
            split_ifs <;> rfl
          unfold step Right
          simp only [phase]
          refine ⟨(activeBest delivered [(mark.node,mark.hlc)] _).trans empty,fun stamp held beyond => ?_⟩
          rcases marked stamp held beyond with inside | bounds
          · rcases List.mem_cons.mp inside with rfl | later
            · exact Or.inr (activeBounds _ beyond)
            · exact Or.inl later
          · exact Or.inr (boundsActive (s := ⟨.held marks,bound,best⟩) bounds _ _)
      | nil =>
          have all := fun (q : Nat) (stamp : Stamp) => @bounded _ _ _ placed right rfl q stamp
          have none' := activeBest delivered t.versions.positions.entries ⟨.held [],bound,best⟩
          unfold step
          simp only
          generalize t.versions.positions.entries.foldl (fun s x => active delivered s x.1 x.2) ⟨.held [],bound,best⟩ = after
            at all none'
          cases lowest : after.bound with
          | none =>
              refine ⟨fun found is => ?_,fun wrong => absurd wrong (Option.some_ne_none _)⟩
              cases Option.some.inj is
              intro q stamp there beyond
              obtain ⟨b, is, _⟩ := all q stamp there beyond
              cases lowest.symm.trans is
          | some b =>
              refine ⟨fun found is => absurd is.symm (Option.some_ne_none found),fun _ => ?_⟩
              refine ⟨fun x member => (SortedMap.memRange.mp member).1,fun q stamp there beyond => Or.inl ?_,fun c is => ?_⟩
              · refine SortedMap.memRange.mpr ⟨(placed.places stamp q).mpr there,?_⟩
                obtain ⟨c, is, le⟩ := all q stamp there beyond
                cases Option.some.inj (lowest.symm.trans is)
                rw [←not_lt, stampLtIff]
                rintro (below | ⟨_, below⟩)
                · exact absurd (lt_of_le_of_lt le beyond) (not_lt.mpr below.le)
                · exact absurd below (Fin.not_lt_zero _)
              · have empty : after.best = some c := is
                rw [none', right.1] at empty
                cases empty
  | range rows =>
      obtain ⟨placedRows, covers, found⟩ := right
      cases rows with
      | nil =>
          refine ⟨fun answer is => ?_,fun wrong => absurd wrong (Option.some_ne_none _)⟩
          cases Option.some.inj is
          cases best with
          | none =>
              intro q stamp there beyond
              rcases covers q stamp there beyond with wrong | ⟨b, is, _⟩
              · exact absurd wrong List.not_mem_nil
              · cases is
          | some b =>
              refine ⟨found b rfl,fun q stamp there beyond => ?_⟩
              rcases covers q stamp there beyond with wrong | ⟨c, is, le⟩
              · exact absurd wrong List.not_mem_nil
              · cases Option.some.inj is
                exact le
      | cons row rows =>
          obtain ⟨stamp, seq⟩ := row
          refine ⟨fun answer is => absurd is.symm (Option.some_ne_none answer),fun _ => ?_⟩
          have here := (placed.places stamp seq).mp (placedRows _ List.mem_cons_self)
          unfold step
          simp only
          split_ifs with beyond
          · refine ⟨fun x member => placedRows x (List.mem_cons_of_mem _ member),fun q other there ahead => ?_,fun b is => ?_⟩
            · rcases covers q other there ahead with member | ⟨b, is, le⟩
              · rcases List.mem_cons.mp member with same | later
                · obtain ⟨rfl, rfl⟩ := Prod.mk.inj same
                  refine Or.inr ⟨_,rfl,?_⟩
                  cases best with
                  | none => exact le_refl _
                  | some c => exact min_le_right _ _
                · exact Or.inl later
              · refine Or.inr ⟨_,rfl,?_⟩
                have best' : best = some b := is
                rw [best']
                exact (min_le_left _ _).trans le
            · cases best with
              | none =>
                  cases Option.some.inj is
                  exact ⟨stamp,here,beyond⟩
              | some c =>
                  cases Option.some.inj is
                  rcases min_choice c seq with first | second
                  · simp only [Option.elim_some, first]
                    exact found c rfl
                  · simp only [Option.elim_some, second]
                    exact ⟨stamp,here,beyond⟩
          · refine ⟨fun x member => placedRows x (List.mem_cons_of_mem _ member),fun q other there ahead => ?_,found⟩
            rcases covers q other there ahead with member | rest
            · rcases List.mem_cons.mp member with same | later
              · obtain ⟨rfl, rfl⟩ := Prod.mk.inj same
                exact absurd ahead beyond
              · exact Or.inl later
            · exact Or.inr rest

end Seek

/- The walk has passed only entries that the vector covers. -/
theorem raceLeast {t : Tables} {delivered : VersionVector} (placed : Placed t) : ∀ {rows : List (Nat × Stamp)} {seek : Seek},
    seek.Right t delivered → (∀ x ∈ rows, t.arrival.get x.1 = some x.2) → rows.Pairwise (fun x y => x.1 < y.1) →
      (∀ q s, t.arrival.get q = some s → Beyond delivered s → (q,s) ∈ rows) →
      Least t delivered (race t delivered seek rows)
  | rows, seek, right, placedRows, sorted, passed => by
      obtain ⟨answers, goesOn⟩ := Seek.stepRight placed right
      unfold race
      cases answer : (seek.step t delivered).2 with
      | some found => exact answers found answer
      | none =>
          cases rows with
          | nil => exact fun q s there beyond => absurd (passed q s there beyond) List.not_mem_nil
          | cons row rest =>
              obtain ⟨seq, stamp⟩ := row
              obtain ⟨least, tail⟩ := List.pairwise_cons.mp sorted
              simp only
              split_ifs with beyond
              · refine ⟨⟨stamp,placedRows _ List.mem_cons_self,beyond⟩,fun q s there ahead => ?_⟩
                rcases List.mem_cons.mp (passed q s there ahead) with same | later
                · exact (Prod.mk.inj same).1.ge
                · exact (least _ later).le
              · refine raceLeast placed (goesOn answer) (fun x member => placedRows x (List.mem_cons_of_mem _ member)) tail
                  fun q s there ahead => ?_
                rcases List.mem_cons.mp (passed q s there ahead) with same | later
                · obtain ⟨rfl, rfl⟩ := Prod.mk.inj same
                  exact absurd ahead beyond
                · exact later

/- Everything before the start is covered. -/
theorem Placed.firstArrivalBeyond {t : Tables} (placed : Placed t) (delivered : VersionVector) :
    (∀ q s, t.arrival.get q = some s → q < t.firstArrivalBeyond delivered → delivered.Covers s) ∧
      t.firstArrivalBeyond delivered ≤ t.nextArrival := by
  have least := raceLeast placed (Seek.rightNew t delivered) (fun x member => SortedMap.memEntry.mp member)
    t.arrival.sorted fun q s there _ => SortedMap.memEntries.mpr there
  unfold Tables.firstArrivalBeyond
  cases found : race t delivered (.new t) t.arrival.entries with
  | none =>
      rw [found] at least
      exact ⟨fun q s there _ => notBeyond.mp (least q s there),le_refl _⟩
  | some p =>
      rw [found] at least
      obtain ⟨⟨s, there, _⟩, first⟩ := least
      refine ⟨fun q s there below => ?_,(Tables.belowNext there).le⟩
      by_contra ahead
      exact absurd (first q s there (not_le.mp ahead)) (not_le.mpr below)

/-! What changes the tables. -/

theorem coversRaise {v : VersionVector} {s : Stamp} (stamp : Stamp) (covers : v.Covers s) : (v.raise stamp).Covers s :=
  covers.trans (VersionVector.raiseLe v stamp s.node)

theorem raiseCovers (v : VersionVector) (stamp : Stamp) : (v.raise stamp).Covers stamp := by
  unfold VersionVector.Covers
  rw [VersionVector.getRaise, if_pos rfl]
  exact le_max_right _ _

section
variable {t : Tables} {entry : OplogEntry}

theorem placedFresh (collections : SortedMap CollectionId CollectionMeta) : Placed (.fresh collections) :=
  ⟨(arrivedFresh collections).ordered,fun _ _ held => by cases held⟩

theorem Placed.appendFresh (placed : Placed t) (position : Position) (fresh : t.oplog.get entry.stamp = none) :
    Placed (t.appendOplogAt entry position).1 := by
  refine ⟨(placed.toOrdered.appendFresh position fresh).1,fun s x held => ?_⟩
  rw [Tables.appendLog, SortedMap.getInsert] at held
  unfold Tables.appendOplogAt
  simp only [fresh, Option.isSome_none, Bool.false_eq_true, if_false]
  by_cases own : s = entry.stamp
  · subst own
    cases position with
    | hold =>
        refine Or.inr ?_
        simp only [SortedMap.getInsert, if_true]
        rfl
    | raise => exact Or.inl (raiseCovers _ _)
    | inWindow => exact Or.inl (raiseCovers _ _)
  · rw [if_neg own] at held
    rcases placed.marked s x held with covers | marked
    · refine Or.inl ?_
      cases position with
      | hold => exact covers
      | raise => exact coversRaise _ covers
      | inWindow => exact coversRaise _ covers
    · refine Or.inr ?_
      cases position with
      | hold =>
          simp only [SortedMap.getInsert, if_neg own]
          exact marked
      | raise =>
          simp only [SortedMap.getRemove, if_neg own]
          exact marked
      | inWindow =>
          simp only [SortedMap.getRemove, if_neg own]
          exact marked

theorem Placed.release (placed : Placed t) (stamp : Stamp) : Placed (t.releaseHeldInPosition stamp).1 := by
  obtain ⟨arrival, seq⟩ := Tables.releaseArrival t stamp
  refine ⟨⟨?_,?_⟩,fun s x held => ?_⟩
  · rw [arrival, Tables.releaseLog]
    exact placed.backed
  · rw [arrival, seq]
    exact placed.places
  · rw [Tables.releaseLog] at held
    unfold Tables.releaseHeldInPosition
    split
    · exact placed.marked s x held
    · simp only
      split_ifs with gone
      · refine (placed.marked s x held).imp_right fun marked => ?_
        rw [SortedMap.getRemove, if_neg]
        · exact marked
        · intro same
          rw [same, Option.isNone_iff_eq_none.mp gone] at held
          cases held
      · by_cases own : s = stamp
        · exact Or.inl (own ▸ raiseCovers _ _)
        · refine (placed.marked s x held).imp (coversRaise _) fun marked => ?_
          show ((t.held.remove stamp).get s).isSome = true
          rw [SortedMap.getRemove, if_neg own]
          exact marked

theorem Placed.appendHeld (placed : Placed t) (position : Position) (held : t.oplog.get entry.stamp = some entry) :
    Placed (t.appendOplogAt entry position).1 := by
  have log : t.oplog.insert entry.stamp entry = t.oplog := by
    refine SortedMap.ext fun s => ?_
    rw [SortedMap.getInsert]
    split_ifs with same
    · rw [same, held]
    · rfl
  unfold Tables.appendOplogAt
  simp only [held, Option.isSome_some, if_true, log]
  split_ifs
  · exact placed.release entry.stamp
  · exact placed

/- An entry goes with its row. -/
theorem removeEntryRows (ordered : Ordered t) (key : Stamp) (q : Nat) (s : Stamp) :
    (t.removeEntry key).arrival.get q = some s ↔ t.arrival.get q = some s ∧ s ≠ key := by
  unfold Tables.removeEntry
  simp only
  cases there : t.arrivalSeq.get key with
  | none =>
      refine ⟨fun found => ⟨found,fun same => ?_⟩,And.left⟩
      rw [same] at found
      cases there.symm.trans ((ordered.places key q).mpr found)
  | some seq =>
      have own := (ordered.places key seq).mp there
      simp only [SortedMap.getRemove]
      split_ifs with same
      · subst same
        refine iff_of_false (by simp) fun found => ?_
        exact absurd (Option.some.inj (own.symm.trans found.1)).symm found.2
      · refine ⟨fun found => ⟨found,fun is => ?_⟩,And.left⟩
        rw [is] at found
        exact same (Option.some.inj (((ordered.places key q).mpr found).symm.trans there))

theorem Placed.removeEntry (placed : Placed t) (key : Stamp) : Placed (t.removeEntry key) := by
  have rows := removeEntryRows placed.toOrdered key
  refine ⟨⟨fun q s found => ?_,fun s q => ?_⟩,fun s x held => ?_⟩
  · obtain ⟨was, other⟩ := (rows q s).mp found
    obtain ⟨x, held, stamped⟩ := placed.backed q s was
    refine ⟨x,?_,stamped⟩
    show (t.oplog.remove key).get s = some x
    rw [SortedMap.getRemove, if_neg other]
    exact held
  · show (t.arrivalSeq.remove key).get s = some q ↔ _
    rw [rows, SortedMap.getRemove]
    split_ifs with same
    · exact iff_of_false (by simp) fun wrong => wrong.2 same
    · rw [placed.places]
      exact (and_iff_left same).symm
  · have logged : (t.oplog.remove key).get s = some x := held
    rw [SortedMap.getRemove] at logged
    split_ifs at logged with same
    refine (placed.marked s x logged).imp_right fun marked => ?_
    show ((t.held.remove key).get s).isSome = true
    rw [SortedMap.getRemove, if_neg same]
    exact marked

/- A removal takes only the rows of its keys. -/
structure Removed (keys : List Stamp) (t u : Tables) : Prop where
  placed : Placed u
  less : ∀ q s, u.arrival.get q = some s → t.arrival.get q = some s
  kept : ∀ q s, t.arrival.get q = some s → s ∉ keys → u.arrival.get q = some s
  log : ∀ s x, u.oplog.get s = some x → t.oplog.get s = some x
  witnessed : u.witnessed = t.witnessed

theorem removing : ∀ (keys : List Stamp) (removal : Removal), Placed removal.tables →
    Removed keys removal.tables (keys.foldl Removal.take removal).tables
  | [], _, placed => ⟨placed,fun _ _ => id,fun _ _ there _ => there,fun _ _ => id,rfl⟩
  | key :: rest, removal, placed => by
      have next : Placed (removal.take key).tables ∧
          (∀ q s, (removal.take key).tables.arrival.get q = some s → removal.tables.arrival.get q = some s) ∧
          ∀ q s, removal.tables.arrival.get q = some s → s ≠ key → (removal.take key).tables.arrival.get q = some s := by
        unfold Removal.take
        split_ifs
        · exact ⟨placed,fun _ _ => id,fun _ _ there _ => there⟩
        · have rows := removeEntryRows placed.toOrdered key
          exact ⟨placed.removeEntry key,fun q s found => ((rows q s).mp found).1,fun q s there other => (rows q s).mpr ⟨there,other⟩⟩
      obtain ⟨after, less, kept, log, witnessed⟩ := removing rest (removal.take key) next.1
      refine ⟨after,fun q s found => next.2.1 q s (less q s found),fun q s there outside => ?_,fun s x held => ?_,
        witnessed.trans (Removal.takeSame removal key).2.2.1⟩
      · have other := List.ne_of_not_mem_cons outside
        exact kept q s (next.2.2 q s there other) (List.not_mem_of_not_mem_cons outside)
      · have before := log s x held
        rw [Removal.takeLog] at before
        split_ifs at before
        exact before

theorem Placed.removes (placed : Placed t) (keys : List Stamp) : Removed keys t (t.removeOplogEntries keys) := by
  obtain ⟨⟨ordered, marked⟩, less, kept, log, witnessed⟩ := removing keys ⟨t,none,.new⟩ placed
  exact ⟨⟨⟨ordered.backed,ordered.places⟩,marked⟩,less,kept,log,witnessed⟩

/- The newest arrival stays, so no position is given twice. -/
def KeepsNewest (t : Tables) (keys : List Stamp) : Prop :=
  ∀ row, t.arrival.entries.getLast? = some row → row.2 ∉ keys

theorem Removed.next {keys : List Stamp} {u : Tables} (removed : Removed keys t u) (keeps : KeepsNewest t keys) :
    t.nextArrival ≤ u.nextArrival := by
  unfold Tables.nextArrival
  cases last : t.arrival.entries.getLast? with
  | none => exact Nat.zero_le _
  | some row =>
      have there := SortedMap.memEntry.mp (List.mem_of_getLast? last)
      exact Tables.belowNext (removed.kept row.1 row.2 there (keeps row last))

theorem Removed.rows {keys : List Stamp} {u : Tables} (removed : Removed keys t u) {x : Nat × OplogEntry}
    (member : x ∈ Watching.arrivals u) : x ∈ Watching.arrivals t := by
  obtain ⟨s, placed, held⟩ := memArrivals.mp member
  exact memArrivals.mpr ⟨s,removed.less _ s placed,removed.log s _ held⟩

end

/-! The invariant. -/

namespace Host

/- A stream's client has the entry already, or it was appended late, at a stamp that the member's
vector covered. -/
def Excused (h : Host) (s : RoamingStream) (x : OplogEntry) : Prop :=
  (∃ token, s.source = some token ∧ token.delivered.Covers x.stamp) ∨ x.stamp ∈ h.late

/- In scope, of the collection's present life, and no end of the stream. -/
def Due (s : RoamingStream) (x : OplogEntry) : Prop :=
  s.scope.inScope x = true ∧ s.beforeFloor x = false ∧ s.endsScope x = false

/- An open stream has taken everything from its start to `p`; `rows` are in its batch. -/
structure Keeps (h : Host) (s : RoamingStream) (p : Nat) (rows : List (Nat × OplogEntry)) : Prop where
  lower : s.start ≤ p
  upper : p ≤ s.base.position
  bound : s.base.position ≤ h.tables.nextArrival
  replay : s.base.replay = rows.map Prod.snd
  increasing : Increasing rows
  inside : ∀ x ∈ rows, p ≤ x.1 ∧ x.1 < s.base.position
  waits : ∀ x ∈ Watching.arrivals h.tables, p ≤ x.1 → x.1 < s.base.position → x ∈ rows
  taken : ∀ x ∈ Watching.arrivals h.tables, s.start ≤ x.1 → x.1 < p → x.2 ∈ s.taken
  claimed : ∀ x ∈ Watching.arrivals h.tables, p ≤ x.1 → s.base.delivered.Covers x.2.stamp → h.Excused s x.2
  known : ∀ stamp, s.base.delivered.Covers stamp →
    (∃ token, s.source = some token ∧ token.delivered.Covers stamp) ∨ h.tables.witnessed.Covers stamp
  pending : ∀ v, s.base.pending = some v → (∀ node, v.get node ≤ h.tables.witnessed.get node) ∧
    ∀ x ∈ Watching.arrivals h.tables, s.base.position ≤ x.1 → v.Covers x.2.stamp → x.2.stamp ∈ h.late
  due : ∀ x ∈ s.taken, Due s x → s.clientHas x = false → ∃ token, .change x token ∈ s.events
  only : ∀ x token, .change x token ∈ s.events → Due s x ∧ s.clientHas x = false
  skip : s.base.skip = s.source.map (·.delivered)
  before : ∀ token, s.source = some token → token.issuer ≠ h.node →
    ∀ x ∈ Watching.arrivals h.tables, x.1 < s.start → token.delivered.Covers x.2.stamp

structure Sound (h : Host) : Prop where
  placed : Placed h.tables
  zero : ∀ x ∈ Watching.arrivals h.tables, x.2.stamp.hlc ≤ .zero → x.2.stamp ∈ h.late
  streams : ∀ s, h.stream = some s → ∃ p rows, Keeps h s p rows

/- The log goes on beside a stream. -/
structure Grows (h g : Host) : Prop where
  node : g.node = h.node
  next : h.tables.nextArrival ≤ g.tables.nextArrival
  rows : ∀ x ∈ Watching.arrivals g.tables, x ∈ Watching.arrivals h.tables ∨
    (h.tables.nextArrival ≤ x.1 ∧ (h.tables.witnessed.Covers x.2.stamp → x.2.stamp ∈ g.late))
  witnessed : ∀ node, h.tables.witnessed.get node ≤ g.tables.witnessed.get node
  late : ∀ s ∈ h.late, s ∈ g.late

variable {h g : Host} {s : RoamingStream} {p : Nat} {rows : List (Nat × OplogEntry)}

theorem Grows.excused (grows : Grows h g) {x : OplogEntry} (excused : h.Excused s x) : g.Excused s x :=
  excused.imp_right (grows.late _)

theorem Grows.zero (grows : Grows h g) (zero : ∀ x ∈ Watching.arrivals h.tables, x.2.stamp.hlc ≤ .zero → x.2.stamp ∈ h.late)
    (x : Nat × OplogEntry) (member : x ∈ Watching.arrivals g.tables) (none' : x.2.stamp.hlc ≤ .zero) :
    x.2.stamp ∈ g.late := by
  rcases grows.rows x member with old | ⟨_, late⟩
  · exact grows.late _ (zero x old none')
  · exact late (none'.trans (VersionVector.zeroLe _))

theorem Grows.keeps (grows : Grows h g) (keeps : Keeps h s p rows) : Keeps g s p rows := by
  obtain ⟨lower, upper, bound, replay, increasing, inside, waits, taken, claimed, known, pending, due, only, skip, before⟩ :=
    keeps
  have covers {v : VersionVector} (stamp : Stamp) (le : ∀ node, v.get node ≤ h.tables.witnessed.get node)
      (covered : v.Covers stamp) : h.tables.witnessed.Covers stamp := covered.trans (le _)
  refine ⟨lower,upper,bound.trans grows.next,replay,increasing,inside,fun x member low high => ?_,fun x member low high => ?_,
    fun x member low covered => ?_,fun stamp covered => ?_,fun v is => ⟨fun node => ?_,fun x member low covered => ?_⟩,due,only,
    skip,fun token is other x member below => ?_⟩
  · rcases grows.rows x member with old | ⟨new, _⟩
    · exact waits x old low high
    · omega
  · rcases grows.rows x member with old | ⟨new, _⟩
    · exact taken x old low high
    · omega
  · rcases grows.rows x member with old | ⟨_, late⟩
    · exact grows.excused (claimed x old low covered)
    · exact (known _ covered).imp_right late
  · exact (known stamp covered).imp_right fun seen => seen.trans (grows.witnessed _)
  · exact ((pending v is).1 node).trans (grows.witnessed node)
  · rcases grows.rows x member with old | ⟨_, late⟩
    · exact grows.late _ ((pending v is).2 x old low covered)
    · exact late (covers _ (pending v is).1 covered)
  · rcases grows.rows x member with old | ⟨new, _⟩
    · exact before token is (grows.node ▸ other) x old below
    · omega

/- The rows stay, and the vector may grow. -/
theorem growsStill (tables : Tables) (stateHeld : VersionVector) (arrival : tables.arrival = h.tables.arrival)
    (log : tables.oplog = h.tables.oplog) (witnessed : ∀ node, h.tables.witnessed.get node ≤ tables.witnessed.get node) :
    Grows h { h with tables := tables, stateHeld := stateHeld } := by
  refine ⟨rfl,?_,fun x member => Or.inl ?_,witnessed,fun s => id⟩
  · unfold Tables.nextArrival
    rw [arrival]
  · unfold Watching.arrivals at member ⊢
    rwa [arrival, log] at member

theorem appendGrows (placed : Placed h.tables) (entry : OplogEntry) (position : Position) :
    Placed (h.append entry position).tables ∧ Grows h (h.append entry position) ∧
      (h.append entry position).stream = h.stream := by
  unfold append
  cases found : h.tables.oplog.get entry.stamp with
  | none =>
      obtain ⟨_, arrivals⟩ := placed.toOrdered.appendFresh position found
      obtain ⟨arrival, _⟩ := Tables.appendFresh position found
      refine ⟨placed.appendFresh position found,⟨rfl,?_,fun x member => ?_,fun node => ?_,fun s old => ?_⟩,rfl⟩
      · have last : (h.tables.appendOplogAt entry position).1.arrival.get h.tables.nextArrival = some entry.stamp := by
          rw [arrival, SortedMap.getInsert, if_pos rfl]
        exact (Tables.belowNext last).le
      · simp only at member
        rw [arrivals] at member
        rcases List.mem_append.mp member with old | new
        · exact Or.inl old
        · rw [List.mem_singleton.mp new]
          refine Or.inr ⟨le_refl _,fun covers => ?_⟩
          simp only [if_pos covers]
          exact List.mem_append_right _ (List.mem_singleton_self _)
      · exact Tables.raisedWitnessed (Tables.appendRaised _ _ _) node
      · simp only
        split_ifs
        · exact List.mem_append_left _ old
        · exact old
  | some held =>
      simp only
      split_ifs with same
      · subst same
        obtain ⟨arrival, _⟩ := Tables.appendHeld position found
        have log : (h.tables.appendOplogAt held position).1.oplog = h.tables.oplog := by
          rw [Tables.appendLog]
          refine SortedMap.ext fun s => ?_
          rw [SortedMap.getInsert]
          split_ifs with own
          · rw [own, found]
          · rfl
        exact ⟨placed.appendHeld position found,growsStill _ h.stateHeld arrival log fun node =>
          Tables.raisedWitnessed (Tables.appendRaised _ _ _) node,rfl⟩
      · exact ⟨placed,growsStill h.tables h.stateHeld rfl rfl fun _ => le_refl _,rfl⟩

theorem releaseGrows (placed : Placed h.tables) (stamp : Stamp) :
    Placed (h.step (.release stamp)).tables ∧ Grows h (h.step (.release stamp)) ∧
      (h.step (.release stamp)).stream = h.stream :=
  ⟨placed.release stamp,growsStill _ h.stateHeld (Tables.releaseArrival _ _).1 (Tables.releaseLog _ _) fun node =>
    Tables.raisedWitnessed (Tables.releaseRaised _ _) node,rfl⟩

theorem mergeLe (v other : VersionVector) (node : NodeId) : v.get node ≤ (v.merge other).get node := by
  rw [VersionVector.getMerge]
  exact le_max_left _ _

theorem grantGrows (placed : Placed h.tables) (granted : VersionVector) :
    Placed (h.absorbVersionVector granted).tables ∧ Grows h (h.absorbVersionVector granted) ∧
      (h.absorbVersionVector granted).stream = h.stream := by
  unfold absorbVersionVector
  refine ⟨⟨⟨placed.backed,placed.places⟩,fun s x held => ?_⟩,growsStill _ _ rfl rfl fun node => mergeLe _ _ node,rfl⟩
  simp only
  rcases placed.marked s x held with covers | marked
  · exact Or.inl (covers.trans (mergeLe _ _ _))
  · by_cases covered : granted.Covers s
    · refine Or.inl (covered.trans ?_)
      rw [VersionVector.getMerge]
      exact le_max_right _ _
    · refine Or.inr ?_
      rw [SortedMap.getRetain]
      obtain ⟨mark, there⟩ := Option.isSome_iff_exists.mp marked
      simp [there, covered, Option.filter]

/- No position is given twice while a stream is open. -/
def Allowed (h : Host) : HostStep → Prop
  | .collect keys => h.stream.isSome = true → KeepsNewest h.tables keys
  | _ => True

theorem collectSound (sound : Sound h) (keys : List Stamp) (allowed : h.Allowed (.collect keys)) :
    Sound (h.step (.collect keys)) := by
  have removed := sound.placed.removes keys
  refine ⟨removed.placed,fun x member => sound.zero x (removed.rows member),fun s is => ?_⟩
  have opened : h.stream = some s := is
  obtain ⟨p, rows, keeps⟩ := sound.streams s opened
  have grows : Grows h (h.step (.collect keys)) := by
    refine ⟨rfl,removed.next (allowed (by rw [opened]; rfl)),fun x member => Or.inl (removed.rows member),fun node => ?_,
      fun s => id⟩
    show h.tables.witnessed.get node ≤ (h.tables.removeOplogEntries keys).witnessed.get node
    rw [removed.witnessed]
  exact ⟨p,rows,grows.keeps keeps⟩

theorem Sound.grows (sound : Sound h) (step : Placed g.tables ∧ Grows h g ∧ g.stream = h.stream) : Sound g := by
  obtain ⟨placed, grows, same⟩ := step
  refine ⟨placed,grows.zero sound.zero,fun s is => ?_⟩
  obtain ⟨p, rows, keeps⟩ := sound.streams s (same ▸ is)
  exact ⟨p,rows,grows.keeps keeps⟩

/-! The stream's own steps. -/

/- One entry of the batch has been taken: a change is handed over for what is due and not with the
client, and for nothing else. -/
structure Took (node : NodeId) (s r : RoamingStream) (entry : OplogEntry) (rest : List OplogEntry) : Prop where
  scope : r.scope = s.scope
  floor : r.incarnationFloor = s.incarnationFloor
  source : r.source = s.source
  start : r.start = s.start
  base : ∃ finished, r.base = { s.base with replay := rest, finished := finished }
  taken : r.taken = s.taken ++ [entry]
  event : ∃ event : Option ChangeEvent, r.events = s.events ++ event.toList ∧
    (Due s entry → s.clientHas entry = false → event = some (.change entry ⟨entry.stamp,node,s.base.delivered⟩)) ∧
    ∀ x token, event = some (.change x token) → x = entry ∧ token = ⟨entry.stamp,node,s.base.delivered⟩ ∧
      Due s entry ∧ s.clientHas entry = false

theorem took {node : NodeId} {entry : OplogEntry} {rest : List OplogEntry} (running : s.base.finished = false)
    (batch : s.base.replay = entry :: rest) : Took node s (s.take node) entry rest := by
  unfold RoamingStream.take
  rw [running, batch]
  simp only
  unfold RoamingStream.accept
  by_cases due : Due s entry ∧ s.clientHas entry = false
  · obtain ⟨⟨scope, floor, ends⟩, lacks⟩ := due
    rw [if_neg (by simp [scope]), if_neg (by simp [floor]), if_neg (by simp [lacks]), if_neg (by simp [ends])]
    refine ⟨rfl,rfl,rfl,rfl,⟨_,rfl⟩,rfl,_,rfl,fun _ _ => rfl,fun x token is => ?_⟩
    obtain ⟨rfl, rfl⟩ := ChangeEvent.change.inj (Option.some.inj is)
    exact ⟨rfl,rfl,⟨scope,floor,ends⟩,lacks⟩
  · -- passed over, or the end of the stream
    have silent (finished : Bool) {event : Option ChangeEvent} (none' : event = none ∨ event = some .invalidate) :
        Took node s { s with
          base := { s.base with replay := rest, finished := finished }
          taken := s.taken ++ [entry]
          events := s.events ++ event.toList } entry rest := by
      refine ⟨rfl,rfl,rfl,rfl,⟨_,rfl⟩,rfl,event,rfl,fun goes lacks => absurd ⟨goes,lacks⟩ due,fun x token is => ?_⟩
      rcases none' with rfl | rfl
      · cases is
      · cases Option.some.inj is
    split_ifs with out floor has ends passes
    · exact silent _ (Or.inl rfl)
    · exact silent _ (Or.inl rfl)
    · exact silent _ (Or.inl rfl)
    · exact silent _ (Or.inl rfl)
    · exact silent _ (Or.inr rfl)
    all_goals
      refine absurd ⟨⟨?_,?_,?_⟩,?_⟩ due
      · simpa using out
      · simpa using floor
      · simpa using ends
      · simpa using has

/- Streams that judge alike. -/
theorem judgesAlike {r : RoamingStream} (scope : r.scope = s.scope) (floor : r.incarnationFloor = s.incarnationFloor)
    (skip : r.base.skip = s.base.skip) (x : OplogEntry) :
    (Due r x ↔ Due s x) ∧ r.clientHas x = s.clientHas x := by
  unfold Due RoamingStream.beforeFloor RoamingStream.endsScope RoamingStream.clientHas
  rw [scope, floor, skip]
  exact ⟨Iff.rfl,rfl⟩

theorem Took.keeps {r : RoamingStream} {entry : OplogEntry} {rest : List OplogEntry} {q : Nat}
    {later : List (Nat × OplogEntry)} (took : Took h.node s r entry rest) (keeps : Keeps h s p ((q,entry) :: later))
    (more : rest = later.map Prod.snd) : Keeps h r (q + 1) later := by
  obtain ⟨lower, upper, bound, _, increasing, inside, waits, taken, claimed, known, pending, due, only, skip, before⟩ := keeps
  obtain ⟨scope, floor, source, start, ⟨finished, base⟩, same, event, events, delivers, delivered⟩ := took
  obtain ⟨low, high⟩ := inside (q,entry) List.mem_cons_self
  obtain ⟨least, tail⟩ := List.pairwise_cons.mp increasing
  simp only at low high
  have alike := judgesAlike (s := s) (r := r) scope floor (by rw [base])
  have place : r.base.position = s.base.position := by
    rw [base]
    rfl
  have vector : r.base.delivered = s.base.delivered := by rw [base]
  refine ⟨by omega,by omega,place ▸ bound,by rw [base]; exact more,tail,fun x member => ?_,fun x member low' below => ?_,
    fun x member low' below => ?_,fun x member low' covered => ?_,fun stamp covered => ?_,fun v is => ?_,
    fun x member goes lacks => ?_,fun x token member => ?_,?_,fun token is other x member below => ?_⟩
  · have above := least x member
    have within := inside x (List.mem_cons_of_mem _ member)
    simp only at above
    omega
  · rw [place] at below
    rcases List.mem_cons.mp (waits x member (by omega) below) with rfl | inside
    · simp only at low'
      omega
    · exact inside
  · rw [same]
    by_cases earlier : x.1 < p
    · exact List.mem_append_left _ (taken x member (by omega) earlier)
    · rcases List.mem_cons.mp (waits x member (by omega) (by omega)) with rfl | inside
      · exact List.mem_append_right _ (List.mem_singleton_self _)
      · have above := least x inside
        simp only at above
        omega
  · rw [vector] at covered
    unfold Excused
    rw [source]
    exact claimed x member (by omega) covered
  · rw [vector] at covered
    rw [source]
    exact known stamp covered
  · rw [place]
    refine pending v ?_
    rw [base] at is
    exact is
  · rw [(alike x).1] at goes
    rw [(alike x).2] at lacks
    rw [same] at member
    rw [events]
    rcases List.mem_append.mp member with old | new
    · obtain ⟨token, there⟩ := due x old goes lacks
      exact ⟨token,List.mem_append_left _ there⟩
    · rw [List.mem_singleton.mp new] at goes lacks ⊢
      rw [delivers goes lacks]
      exact ⟨_,List.mem_append_right _ (List.mem_singleton_self _)⟩
  · rw [(alike x).1, (alike x).2]
    rw [events] at member
    rcases List.mem_append.mp member with old | new
    · exact only x token old
    · obtain ⟨rfl, _, goes, lacks⟩ := delivered x token (Option.mem_toList.mp new)
      exact ⟨goes,lacks⟩
  · rw [base, source]
    exact skip
  · rw [source] at is
    exact before token is other x member (start ▸ below)

theorem takes (s : RoamingStream) (node : NodeId) :
    s.take node = s ∨ ∃ entry rest, s.base.replay = entry :: rest ∧ Took node s (s.take node) entry rest := by
  cases running : s.base.finished with
  | true =>
      refine Or.inl ?_
      unfold RoamingStream.take
      rw [running]
  | false =>
      cases batch : s.base.replay with
      | nil =>
          refine Or.inl ?_
          unfold RoamingStream.take
          rw [running, batch]
      | cons entry rest => exact Or.inr ⟨entry,rest,rfl,took running batch⟩

theorem takeKeeps (keeps : Keeps h s p rows) : ∃ q rest, Keeps h (s.take h.node) q rest := by
  rcases takes s h.node with same | ⟨entry, rest, batch, took⟩
  · exact ⟨p,rows,by rw [same]; exact keeps⟩
  · have replay := keeps.replay
    rw [batch] at replay
    cases rows with
    | nil => cases replay
    | cons row later =>
        obtain ⟨q, x⟩ := row
        obtain ⟨first, more⟩ := List.cons.inj replay
        cases first
        exact ⟨q + 1,later,took.keeps keeps more⟩

theorem mergeCovers {u v : VersionVector} {stamp : Stamp} (covers : (u.merge v).Covers stamp) :
    u.Covers stamp ∨ v.Covers stamp := by
  unfold VersionVector.Covers at covers ⊢
  rw [VersionVector.getMerge] at covers
  exact le_max_iff.mp covers

/- What the last read covered is behind the stream once its batch is empty. -/
theorem Keeps.settled (keeps : Keeps h s p rows) (empty : s.base.replay = []) :
    Keeps h { s with base := s.base.settlePending } s.base.position [] ∧ s.base.settlePending.position = s.base.position ∧
      s.base.settlePending.replay = [] ∧ s.base.settlePending.pending = none := by
  obtain ⟨lower, upper, bound, replay, _, _, waits, taken, claimed, known, pending, due, only, skip, before⟩ := keeps
  have none' : rows = [] := List.map_eq_nil_iff.mp (replay.symm.trans empty)
  have nothing (x : Nat × OplogEntry) (member : x ∈ Watching.arrivals h.tables) (low : p ≤ x.1) :
      s.base.position ≤ x.1 := by
    by_contra below
    have there := waits x member low (not_le.mp below)
    rw [none'] at there
    exact List.not_mem_nil there
  have done (x : Nat × OplogEntry) (member : x ∈ Watching.arrivals h.tables) (low : s.start ≤ x.1)
      (below : x.1 < s.base.position) : x.2 ∈ s.taken := by
    refine taken x member low ?_
    by_contra beyond
    exact absurd (nothing x member (not_lt.mp beyond)) (not_le.mpr below)
  unfold ChangeStream.settlePending
  cases waiting : s.base.pending with
  | none =>
      exact ⟨⟨lower.trans upper,le_refl _,bound,empty,List.Pairwise.nil,fun x member => absurd member List.not_mem_nil,
        fun x _ low high => absurd low (not_le.mpr high),done,fun x member low => claimed x member (upper.trans low),known,
        pending,due,only,skip,before⟩,rfl,empty,waiting⟩
  | some v =>
      obtain ⟨seen, late⟩ := pending v waiting
      refine ⟨⟨lower.trans upper,le_refl _,bound,empty,List.Pairwise.nil,fun x member => absurd member List.not_mem_nil,
        fun x _ low high => absurd low (not_le.mpr high),done,fun x member low covered => ?_,fun stamp covered => ?_,
        nofun,due,only,skip,before⟩,rfl,empty,rfl⟩
      · rcases mergeCovers covered with old | new
        · exact claimed x member (upper.trans low) old
        · exact Or.inr (late x member low new)
      · rcases mergeCovers covered with old | new
        · exact known stamp old
        · exact Or.inr (new.trans (seen _))

/- A read that went on to `f`. -/
theorem Keeps.readTo {f : Nat} {out : List OplogEntry} {witnessed : Option VersionVector} {c : ChangeStream}
    (keeps : Keeps h { s with base := c } c.position []) (drained : c.replay = []) (idle : c.pending = none)
    (low : c.position ≤ f) (bound : f ≤ h.tables.nextArrival)
    (batch : out = (between (Watching.arrivals h.tables) c.position f).map Prod.snd)
    (nothing : out = [] → ∀ x ∈ Watching.arrivals h.tables, x.1 < c.position)
    (vector : ∀ v, witnessed = some v → v = h.tables.witnessed ∧ ∀ x ∈ Watching.arrivals h.tables, x.1 < f) :
    ∃ q rest, Keeps h { s with base := if out.isEmpty then { c with
        nextReplayFrom := some f
        delivered := match witnessed with
          | some witnessed => c.delivered.merge witnessed
          | none => c.delivered }
      else { c with nextReplayFrom := some f, replay := out, pending := witnessed } } q rest := by
  obtain ⟨lower, upper, _, replay, _, _, waits, taken, claimed, known, pending, due, only, skip, before⟩ := keeps
  split_ifs with blank
  · have last := nothing (List.isEmpty_iff.mp blank)
    refine ⟨f,[],lower.trans low,le_refl _,bound,drained,List.Pairwise.nil,fun x member => absurd member List.not_mem_nil,
      fun x _ low' high => absurd low' (not_le.mpr high),fun x member low' _ => taken x member low' (last x member),
      fun x member low' _ => absurd (last x member) (not_lt.mpr (low.trans low')),fun stamp covered => ?_,fun v is => ?_,due,only,
      skip,before⟩
    · cases witnessed with
      | none => exact known stamp covered
      | some v =>
          obtain ⟨rfl, _⟩ := vector v rfl
          rcases mergeCovers covered with old | new
          · exact known stamp old
          · exact Or.inr new
    · cases idle.symm.trans is
  · refine ⟨c.position,between (Watching.arrivals h.tables) c.position f,lower,low,bound,batch,
      (arrivalsIncreasing h.tables).filter _,fun x member => (memBetween.mp member).2,
      fun x member low' high => memBetween.mpr ⟨member,low',high⟩,taken,claimed,known,fun v is => ?_,due,only,skip,before⟩
    obtain ⟨rfl, above⟩ := vector v is
    exact ⟨fun _ => le_refl _,fun x member low' _ => absurd (above x member) (not_lt.mpr low')⟩

theorem readKeeps (placed : Placed h.tables) (keeps : Keeps h s p rows) (empty : s.base.replay = []) (limit : Nat) :
    (∃ q rest, Keeps h { s with base := s.base.read h.tables limit } q rest) ∧
      (h.tables.arrival.entries.length ≤ limit → (s.base.read h.tables limit).finished = true ∨
        ∀ x ∈ Watching.arrivals h.tables, x.1 < (s.base.read h.tables limit).position) := by
  obtain ⟨settled, place, drained, idle⟩ := keeps.settled empty
  rw [←place] at settled
  unfold ChangeStream.read
  generalize s.base.settlePending = c at settled place drained idle
  simp only
  by_cases collected : (h.tables.oldestArrivalSeq.any fun oldest => c.position < oldest) = true
  · rw [if_pos collected]
    obtain ⟨lower, upper, bound, replay, increasing, inside, waits, taken, claimed, known, pending, due, only, skip, before⟩ :=
      settled
    exact ⟨⟨c.position,[],lower,upper,bound,replay,increasing,inside,waits,taken,claimed,known,pending,due,only,skip,before⟩,
      fun _ => Or.inl rfl⟩
  · rw [if_neg collected]
    obtain ⟨f, low, high, batch, last, vector, nothing, all⟩ := readSpan placed.toOrdered c.position limit
    have bound : f ≤ h.tables.nextArrival := high.trans (max_le settled.bound (le_refl _))
    generalize h.tables.readArrivalBatch c.position limit = result at batch last vector nothing
    subst last
    obtain ⟨out, witnessed, reached⟩ := result
    cases reached with
    | none =>
        refine ⟨settled.readTo drained idle low bound batch nothing vector,fun fits => Or.inr ?_⟩
        split_ifs
        · exact all fits
        · exact all fits
    | some q =>
        refine ⟨settled.readTo drained idle low bound batch nothing vector,fun fits => Or.inr ?_⟩
        split_ifs
        · exact all fits
        · exact all fits

/-! Openings. -/

theorem openedKeeps (scope : WatchScope) (floor : Option (CollectionId × Stamp)) (below : Option Hlc) {opened : Opened}
    {source : Option ResumeToken} (bound : opened.start ≤ h.tables.nextArrival)
    (claimed : ∀ x ∈ Watching.arrivals h.tables, opened.start ≤ x.1 → opened.delivered.Covers x.2.stamp →
      (∃ token, source = some token ∧ token.delivered.Covers x.2.stamp) ∨ x.2.stamp ∈ h.late)
    (known : ∀ stamp, opened.delivered.Covers stamp →
      (∃ token, source = some token ∧ token.delivered.Covers stamp) ∨ h.tables.witnessed.Covers stamp)
    (skip : opened.skip = source.map (·.delivered))
    (before : ∀ token, source = some token → token.issuer ≠ h.node →
      ∀ x ∈ Watching.arrivals h.tables, x.1 < opened.start → token.delivered.Covers x.2.stamp) :
    ∀ s, (h.opened scope opened floor below source).stream = some s →
      ∃ p rows, Keeps (h.opened scope opened floor below source) s p rows := by
  intro s is
  cases Option.some.inj is
  exact ⟨opened.start,[],le_refl _,le_refl _,bound,rfl,List.Pairwise.nil,fun x member => absurd member List.not_mem_nil,
    fun x _ low high => absurd low (not_le.mpr high),fun x _ low high => absurd low (not_le.mpr high),
    claimed,known,nofun,fun x member => absurd member List.not_mem_nil,
    fun x token member => absurd member List.not_mem_nil,skip,before⟩

theorem Keeps.moved (keeps : Keeps h s p rows) (presented : Option Presented) (stream : Option RoamingStream) :
    Keeps { h with presented := presented, stream := stream } s p rows := by
  obtain ⟨lower, upper, bound, replay, increasing, inside, waits, taken, claimed, known, pending, due, only, skip, before⟩ :=
    keeps
  exact ⟨lower,upper,bound,replay,increasing,inside,waits,taken,claimed,known,pending,due,only,skip,before⟩

theorem Sound.closed (sound : Sound h) (none' : h.stream = none) (presented : Option Presented) :
    Sound { h with presented := presented } := by
  refine ⟨sound.placed,sound.zero,fun s is => ?_⟩
  cases none'.symm.trans is

theorem opensSound (sound : Sound h) (scope : WatchScope) (hlc : Option Hlc) (life : Life) :
    Sound (h.step (.opens scope hlc life)) := by
  simp only [step]
  split_ifs
  · exact sound
  · refine ⟨sound.placed,sound.zero,openedKeeps _ _ _ ?_ (fun x member low covers => ?_) (fun stamp covers => ?_) ?_ nofun⟩
    · refine max_le ?_ (min_le_right _ _)
      cases hlc with
      | none => exact le_refl _
      | some hlc =>
          show h.tables.firstArrivalAtOrAfter hlc ≤ h.tables.nextArrival
          unfold Tables.firstArrivalAtOrAfter
          cases found : h.tables.arrival.entries.find? fun x => hlc ≤ x.2.hlc with
          | none => exact le_refl _
          | some x => exact (Tables.belowNext (SortedMap.memEntry.mp (List.mem_of_find?_eq_some found))).le
    · cases hlc with
      | none =>
          have beyond : h.tables.nextArrival ≤ x.1 := (le_max_left _ _).trans low
          exact absurd (arrivalsBelow member) (not_lt.mpr beyond)
      | some hlc => exact Or.inr (sound.zero x member covers)
    · cases hlc with
      | none => exact Or.inr covers
      | some hlc => exact Or.inr (covers.trans (VersionVector.zeroLe _))
    · cases hlc <;> rfl

theorem presentSound (sound : Sound h) (scope : WatchScope) (token : ResumeToken) (discarded : Bool) (life : Life) :
    Sound (h.present scope token discarded life) := by
  unfold present
  split_ifs with closed own
  · exact sound
  · unfold Tables.resumeAtIssuer
    cases found : h.tables.arrivalSeq.get token.stamp with
    | none => exact sound
    | some seq =>
        have placed := (sound.placed.places token.stamp seq).mp found
        refine ⟨sound.placed,sound.zero,openedKeeps _ _ _ (Tables.belowNext placed) (fun x _ _ covers => ?_)
          (fun stamp covers => ?_) rfl fun other is foreign => ?_⟩
        · exact Or.inl ⟨token,rfl,covers⟩
        · exact Or.inl ⟨token,rfl,covers⟩
        · cases Option.some.inj is
          exact absurd own foreign
  · have none' : h.stream = none := by
      cases opened : h.stream with
      | none => rfl
      | some s => simp [opened] at closed
    exact sound.closed none' _

theorem goesOnSound (sound : Sound h) (none' : h.stream = none) (scope : WatchScope) (life : Life) :
    Sound (h.goesOn scope life) := by
  have closed := sound.closed none'
  unfold goesOn
  split
  · exact sound
  · split_ifs
    · exact closed _
    · exact closed _
  · split_ifs
    · exact closed _
    · exact closed _
  · rename_i token _
    split_ifs
    · obtain ⟨before, bound⟩ := sound.placed.firstArrivalBeyond token.delivered
      refine ⟨sound.placed,sound.zero,openedKeeps _ _ _ bound (fun x _ _ covers => Or.inl ⟨token,rfl,covers⟩)
        (fun stamp covers => Or.inl ⟨token,rfl,covers⟩) rfl fun other is _ x member below => ?_⟩
      cases Option.some.inj is
      obtain ⟨s, placed, held⟩ := memArrivals.mp member
      obtain ⟨y, logged, stamped⟩ := sound.placed.backed _ s placed
      cases Option.some.inj (held.symm.trans logged)
      rw [stamped]
      exact before x.1 s placed below
    · exact closed _

theorem stepSound (sound : Sound h) (step : HostStep) (allowed : h.Allowed step) : Sound (h.step step) := by
  cases step with
  | append entry position => exact sound.grows (appendGrows sound.placed entry position)
  | release stamp => exact sound.grows (releaseGrows sound.placed stamp)
  | witness seen =>
      refine sound.grows ⟨⟨⟨sound.placed.backed,sound.placed.places⟩,sound.placed.marked⟩,?_,rfl⟩
      exact growsStill _ h.stateHeld rfl rfl fun node => mergeLe _ _ node
  | grant granted => exact sound.grows (grantGrows sound.placed granted)
  | collect keys => exact collectSound sound keys allowed
  | opens scope start life => exact opensSound sound scope start life
  | present scope token discarded life => exact presentSound sound scope token discarded life
  | goesOn scope life =>
      simp only [Host.step]
      split_ifs with open'
      · exact sound
      · exact goesOnSound sound (by simpa using open') scope life
  | read limit =>
      refine ⟨sound.placed,sound.zero,fun r is => ?_⟩
      obtain ⟨s, opened, made⟩ := Option.map_eq_some_iff.mp is
      obtain ⟨p, rows, keeps⟩ := sound.streams s opened
      split_ifs at made with ready
      · subst made
        have empty := List.isEmpty_iff.mp (Bool.and_eq_true_iff.mp ready).1
        obtain ⟨⟨q, rest, next⟩, _⟩ := readKeeps sound.placed keeps empty limit
        exact ⟨q,rest,next.moved _ _⟩
      · subst made
        exact ⟨p,rows,keeps.moved _ _⟩
  | take =>
      refine ⟨sound.placed,sound.zero,fun r is => ?_⟩
      obtain ⟨s, opened, rfl⟩ := Option.map_eq_some_iff.mp is
      obtain ⟨p, rows, keeps⟩ := sound.streams s opened
      obtain ⟨q, rest, next⟩ := takeKeeps keeps
      exact ⟨q,rest,next.moved _ _⟩
  | closes => exact ⟨sound.placed,sound.zero,fun _ is => by cases is⟩

/-! Runs. -/

def AllAllowed (h : Host) : List HostStep → Prop
  | [] => True
  | step :: rest => h.Allowed step ∧ (h.step step).AllAllowed rest

theorem freshSound (node : NodeId) (collections : SortedMap CollectionId CollectionMeta) : Sound (fresh node collections) :=
  ⟨placedFresh collections,fun _ member => absurd member List.not_mem_nil,fun _ is => by cases is⟩

theorem runSound {steps : List HostStep} : ∀ {h : Host}, Sound h → h.AllAllowed steps → Sound (h.run steps) := by
  induction steps with
  | nil => exact fun sound _ => sound
  | cons step rest ih => exact fun sound allowed => ih (stepSound sound step allowed.1) allowed.2

theorem takesAllowed : ∀ (n : Nat) (h : Host), h.AllAllowed (List.replicate n .take)
  | 0, _ => trivial
  | n + 1, h => ⟨trivial,takesAllowed n (h.step .take)⟩

theorem stepNode (h : Host) (step : HostStep) : (h.step step).node = h.node := by
  cases step with
  | append entry position =>
      simp only [Host.step, append]
      split
      · rfl
      · split_ifs <;> rfl
  | opens scope start life =>
      simp only [Host.step]
      split_ifs <;> rfl
  | present scope token discarded life =>
      simp only [Host.step, present]
      split_ifs
      · rfl
      · split <;> rfl
      · rfl
  | goesOn scope life =>
      simp only [Host.step, goesOn]
      split_ifs
      · rfl
      · split
        · rfl
        · split_ifs <;> rfl
        · split_ifs <;> rfl
        · split_ifs <;> rfl
  | release _ => rfl
  | witness _ => rfl
  | grant _ => rfl
  | collect _ => rfl
  | read _ => rfl
  | take => rfl
  | closes => rfl

theorem runNode : ∀ (steps : List HostStep) (h : Host), (h.run steps).node = h.node
  | [], _ => rfl
  | step :: rest, h => (runNode rest (h.step step)).trans (stepNode h step)

/- The stream goes on and has handed over everything that has arrived. -/
def CaughtUp (h : Host) : Prop :=
  ∃ s, h.stream = some s ∧ s.base.finished = false ∧ s.base.replay = [] ∧ h.tables.arrival.range s.base.position = []

def Ended (h : Host) : Prop := ∃ s, h.stream = some s ∧ s.base.finished = true

theorem runAppend (h : Host) (steps more : List HostStep) : h.run (steps ++ more) = (h.run steps).run more :=
  List.foldl_append

/- Taking as often as the batch is long empties it, or the stream ends before. -/
theorem drain : ∀ {batch : List OplogEntry} {h : Host} {s : RoamingStream}, h.stream = some s → s.base.replay = batch →
    ∃ c, (h.run (List.replicate batch.length .take)).stream = some c ∧ (c.base.finished = true ∨ c.base.replay = []) ∧
      c.base.position = s.base.position ∧ (h.run (List.replicate batch.length .take)).tables = h.tables := by
  intro batch
  induction batch with
  | nil => exact fun {h s} opened empty => ⟨s,opened,Or.inr empty,rfl,rfl⟩
  | cons entry rest ih =>
      intro h s opened batch
      have next : (h.step .take).stream = some (s.take h.node) := by
        show h.stream.map _ = _
        rw [opened]
        rfl
      cases running : s.base.finished with
      | true =>
          -- a stream that has ended takes nothing
          have still : ∀ (n : Nat) {g : Host}, g.stream = some s → (g.run (List.replicate n .take)).stream = some s ∧
              (g.run (List.replicate n .take)).tables = g.tables := by
            intro n
            induction n with
            | zero => exact fun is => ⟨is,rfl⟩
            | succ n more =>
                intro g is
                have same : (g.step .take).stream = some s := by
                  show g.stream.map _ = _
                  rw [is]
                  simp only [Option.map_some, RoamingStream.take, running]
                obtain ⟨last, tables⟩ := more same
                exact ⟨last,tables⟩
          obtain ⟨last, tables⟩ := still (entry :: rest).length opened
          exact ⟨s,last,Or.inl running,rfl,tables⟩
      | false =>
          obtain ⟨finished, base⟩ := (@took _ h.node _ _ running batch).base
          obtain ⟨c, last, ended, place, tables⟩ := ih next (by rw [base])
          refine ⟨c,last,ended,place.trans ?_,tables⟩
          rw [base]
          rfl

/- An open stream comes to the end by reading and taking, unless it ends before. -/
theorem catchesUp (sound : Sound h) (opened : h.stream = some s) :
    ∃ more, (∀ step ∈ more, step = .take ∨ ∃ limit, step = .read limit) ∧
      ((h.run more).CaughtUp ∨ (h.run more).Ended) := by
  have takes (n : Nat) : ∀ step ∈ List.replicate n HostStep.take, step = .take ∨ ∃ limit, step = .read limit :=
    fun step member => Or.inl (List.eq_of_mem_replicate member)
  obtain ⟨c, after, ended, _, tables⟩ := drain opened rfl
  have later := runSound sound (takesAllowed s.base.replay.length h)
  generalize first : h.run (List.replicate s.base.replay.length .take) = g at after tables later
  by_cases finished : c.base.finished = true
  · exact ⟨_,takes s.base.replay.length,Or.inr ⟨c,first ▸ after,finished⟩⟩
  · have empty := ended.resolve_left finished
    obtain ⟨p, rows, keeps⟩ := later.streams c after
    obtain ⟨_, whole⟩ := readKeeps later.placed keeps empty g.tables.arrival.entries.length
    have stream : (g.step (.read g.tables.arrival.entries.length)).stream =
        some { c with base := c.base.read g.tables g.tables.arrival.entries.length } := by
      show g.stream.map _ = _
      rw [after]
      simp only [Option.map_some, empty, List.isEmpty_nil, Bool.true_and]
      rw [if_pos (by simpa using finished)]
    rcases whole (le_refl _) with collected | all
    · refine ⟨List.replicate s.base.replay.length .take ++ [.read g.tables.arrival.entries.length],fun step member => ?_,?_⟩
      · rcases List.mem_append.mp member with taken | more
        · exact takes _ step taken
        · exact Or.inr ⟨_,List.mem_singleton.mp more⟩
      · rw [runAppend, first]
        exact Or.inr ⟨_,stream,collected⟩
    · obtain ⟨d, final, drained, place, last⟩ := drain stream rfl
      refine ⟨List.replicate s.base.replay.length .take ++ .read g.tables.arrival.entries.length :: List.replicate
        (c.base.read g.tables g.tables.arrival.entries.length).replay.length .take,fun step member => ?_,?_⟩
      · rcases List.mem_append.mp member with taken | more
        · exact takes _ step taken
        · rcases List.mem_cons.mp more with rfl | taken
          · exact Or.inr ⟨_,rfl⟩
          · exact takes _ step taken
      · rw [runAppend, first]
        show CaughtUp ((g.step _).run _) ∨ Ended ((g.step _).run _)
        by_cases end' : d.base.finished = true
        · exact Or.inr ⟨d,final,end'⟩
        · refine Or.inl ⟨d,final,by simpa using end',drained.resolve_left end',?_⟩
          rw [last, List.eq_nil_iff_forall_not_mem]
          rintro ⟨q, stamp⟩ there
          obtain ⟨placed, beyond⟩ := SortedMap.memRange.mp there
          obtain ⟨x, held, _⟩ := later.placed.backed q stamp placed
          rw [place] at beyond
          exact absurd (all (q,x) (memArrivals.mpr ⟨stamp,placed,held⟩)) (not_lt.mpr beyond)

/- What a token claims its stream has taken, or came with, or it lies before the stream's start, or was
appended late. -/
theorem Keeps.claims (keeps : Keeps h s p rows) {node : NodeId} {x : OplogEntry} {token : ResumeToken}
    (handed : (s.take node).events = s.events ++ [.change x token]) :
    token.issuer = node ∧ ∀ y ∈ Watching.arrivals h.tables, token.delivered.Covers y.2.stamp →
      y.1 < s.start ∨ y.2 ∈ (s.take node).taken ∨ h.Excused s y.2 := by
  rcases takes s node with same | ⟨entry, rest, _, took⟩
  · rw [same] at handed
    exact absurd (List.append_right_eq_self.mp handed.symm) (List.cons_ne_nil _ _)
  · obtain ⟨event, events, _, delivered⟩ := took.event
    rw [events] at handed
    have is : event = some (.change x token) := by
      cases event with
      | none => cases List.append_cancel_left handed
      | some event =>
          obtain ⟨rfl, _⟩ := List.cons.inj (List.append_cancel_left handed)
          rfl
    obtain ⟨_, rfl, _⟩ := delivered x token is
    refine ⟨rfl,fun y member covers => ?_⟩
    by_cases early : y.1 < s.start
    · exact Or.inl early
    · by_cases done : y.1 < p
      · refine Or.inr (Or.inl ?_)
        rw [took.taken]
        exact List.mem_append_left _ (keeps.taken y member (not_lt.mp early) done)
      · exact Or.inr (Or.inr (keeps.claimed y member (not_lt.mp done) covers))

theorem Keeps.brings (keeps : Keeps h s p rows) {token : ResumeToken} (resumed : s.source = some token)
    (foreign : token.issuer ≠ h.node) (empty : s.base.replay = []) (tail : h.tables.arrival.range s.base.position = [])
    (y : Nat × OplogEntry) (member : y ∈ Watching.arrivals h.tables) (due : Due s y.2)
    (lacks : ¬ token.delivered.Covers y.2.stamp) : ∃ given, .change y.2 given ∈ s.events := by
  have skip := keeps.skip
  rw [resumed] at skip
  have unheld : s.clientHas y.2 = false := by
    unfold RoamingStream.clientHas
    rw [skip]
    simp [lacks]
  have none' : rows = [] := List.map_eq_nil_iff.mp (keeps.replay.symm.trans empty)
  by_cases early : y.1 < s.start
  · exact absurd (keeps.before token resumed foreign y member early) lacks
  · by_cases done : y.1 < p
    · exact keeps.due y.2 (keeps.taken y member (not_lt.mp early) done) due unheld
    · by_cases inside : y.1 < s.base.position
      · have there := keeps.waits y member (not_lt.mp done) inside
        rw [none'] at there
        exact absurd there List.not_mem_nil
      · obtain ⟨stamp, placed, _⟩ := memArrivals.mp member
        have there : (y.1,stamp) ∈ h.tables.arrival.range s.base.position :=
          SortedMap.memRange.mpr ⟨placed,not_lt.mp inside⟩
        rw [tail] at there
        exact absurd there List.not_mem_nil

theorem Keeps.lacked (keeps : Keeps h s p rows) {token : ResumeToken} (resumed : s.source = some token) (y : OplogEntry)
    (given : ResumeToken) (member : .change y given ∈ s.events) :
    Due s y ∧ (y.kind.isLocalObservation = true ∨ ¬ token.delivered.Covers y.stamp) := by
  obtain ⟨due, lacks⟩ := keeps.only y given member
  have skip := keeps.skip
  rw [resumed] at skip
  refine ⟨due,?_⟩
  unfold RoamingStream.clientHas at lacks
  rw [skip] at lacks
  by_cases own : y.kind.isLocalObservation = true
  · exact Or.inl own
  · refine Or.inr ?_
    simpa [own] using lacks

/- A token that one member's stream hands over, and the stream that another member opens with it, in
runs in which no arrival position is given twice beside an open stream. -/
theorem resumedElsewhere (a b : NodeId) (other : a ≠ b) (here there : SortedMap CollectionId CollectionMeta)
    (issuing serving : List HostStep) (first : (fresh a here).AllAllowed issuing) (second : (fresh b there).AllAllowed serving)
    (s r : RoamingStream) (x : OplogEntry) (token : ResumeToken) (issues : ((fresh a here).run issuing).stream = some s)
    (handed : (s.take a).events = s.events ++ [.change x token])
    (serves : ((fresh b there).run serving).stream = some r) (resumed : r.source = some token) :
    (∀ y ∈ Watching.arrivals ((fresh a here).run issuing).tables, token.delivered.Covers y.2.stamp →
      y.1 < s.start ∨ y.2 ∈ (s.take a).taken ∨ ((fresh a here).run issuing).Excused s y.2) ∧
    (((fresh b there).run serving).CaughtUp → ∀ y ∈ Watching.arrivals ((fresh b there).run serving).tables, Due r y.2 →
      ¬ token.delivered.Covers y.2.stamp → ∃ given, .change y.2 given ∈ r.events) ∧
    (∀ y given, .change y given ∈ r.events →
      Due r y ∧ (y.kind.isLocalObservation = true ∨ ¬ token.delivered.Covers y.stamp)) ∧
    ∃ more, (∀ step ∈ more, step = .take ∨ ∃ limit, step = .read limit) ∧
      ((((fresh b there).run serving).run more).CaughtUp ∨ (((fresh b there).run serving).run more).Ended) := by
  have server := runSound (freshSound b there) second
  obtain ⟨p, rows, keeps⟩ := (runSound (freshSound a here) first).streams s issues
  obtain ⟨q, rest, goes⟩ := server.streams r serves
  obtain ⟨issuer, claims⟩ := keeps.claims handed
  have foreign : token.issuer ≠ ((fresh b there).run serving).node := by
    rw [issuer, runNode]
    exact other
  refine ⟨claims,fun caught => ?_,goes.lacked resumed,catchesUp server serves⟩
  obtain ⟨c, same, _, empty, tail⟩ := caught
  cases Option.some.inj (serves.symm.trans same)
  exact goes.brings resumed foreign empty tail

/-! A report that the vector covers. -/

def plain (ms : Fin (2 ^ 64)) (node : NodeId) : OplogEntry := ⟨⟨⟨ms,0⟩,node⟩,.insert,0,some [1],some [("a",.int32 1)]⟩

/- Member 1 filed a document unkeyed, and its peers never hear of that. -/
def report : OplogEntry := ⟨⟨⟨3,0⟩,1⟩,.unkeyedDocument ⟨"i",[1],.tooManyKeys⟩,0,none,none⟩

/- Member 0 has seen member 1's later write before its stream opens. -/
def issuingRun : List HostStep :=
  [.append (plain 5 1) .raise,.opens .cluster none ⟨none,none,0⟩,.append (plain 6 0) .raise,.read 8]

def carried : ResumeToken := ⟨⟨⟨6,0⟩,0⟩,0,VersionVector.new.raise ⟨⟨5,0⟩,1⟩⟩

def servingRun : List HostStep :=
  [.append (plain 2 2) .raise,.append report .raise,.append (plain 5 1) .raise,.present .cluster carried false ⟨none,none,0⟩,
    .goesOn .cluster ⟨none,none,0⟩,.goesOn .cluster ⟨none,none,0⟩,.goesOn .cluster ⟨none,none,0⟩,.read 8,.take,.take,.take]

theorem issuingHands : ∃ s, ((fresh 0 .empty).run issuingRun).stream = some s ∧
    (s.take 0).events = s.events ++ [.change (plain 6 0) carried] := by
  have hands : (((fresh 0 .empty).run issuingRun).stream.map fun s => (s.events,(s.take 0).events)) =
      some ([],[.change (plain 6 0) carried]) := by decide +kernel
  obtain ⟨s, is, events⟩ := Option.map_eq_some_iff.mp hands
  obtain ⟨before, after⟩ := Prod.mk.inj events
  exact ⟨s,is,by rw [after, before]; rfl⟩

theorem servingResumes : ∃ r, ((fresh 1 .empty).run servingRun).stream = some r ∧ r.source = some carried ∧
    .change report ⟨report.stamp,1,carried.delivered⟩ ∈ r.events := by
  have serves : (((fresh 1 .empty).run servingRun).stream.map fun r => (r.source,
      decide (ChangeEvent.change report ⟨report.stamp,1,carried.delivered⟩ ∈ r.events))) = some (some carried,true) := by
    decide +kernel
  obtain ⟨r, is, events⟩ := Option.map_eq_some_iff.mp serves
  obtain ⟨source, member⟩ := Prod.mk.inj events
  exact ⟨r,is,source,of_decide_eq_true member⟩

/- The report is delivered although the token's vector covers it. -/
theorem reportDelivered : ∃ s r, ((fresh 0 .empty).run issuingRun).stream = some s ∧
    (s.take 0).events = s.events ++ [.change (plain 6 0) carried] ∧
    ((fresh 1 .empty).run servingRun).stream = some r ∧ r.source = some carried ∧
    ∃ y given, .change y given ∈ r.events ∧ carried.delivered.Covers y.stamp := by
  obtain ⟨s, issues, handed⟩ := issuingHands
  obtain ⟨r, serves, resumed, member⟩ := servingResumes
  exact ⟨s,r,issues,handed,serves,resumed,report,_,member,by decide +kernel⟩

theorem resumedHere : ∃ s r, ((fresh 0 .empty).run issuingRun).stream = some s ∧
    ((fresh 1 .empty).run servingRun).stream = some r ∧
    (∀ y given, .change y given ∈ r.events →
      Due r y ∧ (y.kind.isLocalObservation = true ∨ ¬ carried.delivered.Covers y.stamp)) := by
  obtain ⟨s, issues, handed⟩ := issuingHands
  obtain ⟨r, serves, resumed, _⟩ := servingResumes
  exact ⟨s,r,issues,serves,(resumedElsewhere 0 1 (by decide) .empty .empty issuingRun servingRun
    ⟨trivial,trivial,trivial,trivial,trivial⟩
    ⟨trivial,trivial,trivial,trivial,trivial,trivial,trivial,trivial,trivial,trivial,trivial,trivial⟩
    s r _ _ issues handed serves resumed).2.2.1⟩

end Host

end Kimmy.Store
