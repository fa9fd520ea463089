import Kimmy.Store.Agreement
import Kimmy.Store.Pull

/-!
What a served window holds and proves, and what the moves of a member do to its vectors and
to its log.
-/
namespace Kimmy.Store
open Merge

/-! Windows. -/

/- The rows examined are the first of the range. The window took what was kept of them, and
says where it ended. -/
structure Examined (skip : Stamp → Bool) (keep : OplogEntry → Bool) (rows : List (Stamp × OplogEntry))
    (taken : List OplogEntry) (window : OplogWindow) : Prop where
  split : ∃ seen rest, rows = seen ++ rest ∧
    window.entries = taken ++ (seen.filter fun row => !skip row.1 && keep row.2).map Prod.snd ∧
    (window.exhausted = true → rest = []) ∧
    (window.exhausted = false → ∃ row, seen.getLast? = some row ∧
      (∀ p, window.passedThrough = some p → p = row.1) ∧
      (window.passedThrough = none → window.entries.getLast? = some row.2 ∧ window.scannedTo = row.2.stamp.hlc))

theorem walkExamined (limit : Nat) (skip : Stamp → Bool) (keep : OplogEntry → Bool)
    (budget : Option ((Nat → Bool) × Hlc)) :
    ∀ (rows : List (Stamp × OplogEntry)) (examined : Nat) (window : OplogWindow),
    window.exhausted = true → window.passedThrough = none →
    Examined skip keep rows window.entries (walkOplog limit skip keep budget rows examined window)
  | [], _, window, whole, _ => ⟨[],[],rfl,by simp [walkOplog],fun _ => rfl,fun cut => by
      rw [walkOplog, whole] at cut
      cases cut⟩
  | (stamp,entry) :: rest, examined, window, whole, open' => by
      have entries : (window.examine skip keep stamp entry).entries =
          window.entries ++ ([(stamp,entry)].filter fun row => !skip row.1 && keep row.2).map Prod.snd := by
        unfold OplogWindow.examine
        by_cases skipped : skip stamp = true
        · simp [skipped]
        · by_cases kept : keep entry = true
          · simp [skipped, kept]
          · simp [skipped, kept]
      have still : (window.examine skip keep stamp entry).exhausted = true ∧
          (window.examine skip keep stamp entry).passedThrough = none := by
        unfold OplogWindow.examine
        split_ifs
        · exact ⟨whole,open'⟩
        · exact ⟨whole,open'⟩
        · exact ⟨whole,open'⟩
      unfold walkOplog
      simp only
      split_ifs with full spent
      · refine ⟨[(stamp,entry)],rest,rfl,entries,nofun,fun _ => ⟨(stamp,entry),rfl,fun p found => ?_,fun _ => ?_⟩⟩
        · cases still.2.symm.trans found
        · simp only [Bool.and_eq_true, Bool.not_eq_true'] at full
          simp [OplogWindow.examine, full.1.1, full.1.2]
      · refine ⟨[(stamp,entry)],rest,rfl,entries,nofun,fun _ => ⟨(stamp,entry),rfl,fun p found => ?_,nofun⟩⟩
        exact (Option.some.inj found).symm
      · obtain ⟨seen, more, split, taken, all, cut⟩ :=
          walkExamined limit skip keep budget rest (examined + 1) _ still.1 still.2
        refine ⟨(stamp,entry) :: seen,more,by rw [split]; rfl,?_,all,fun ended => ?_⟩
        · rw [taken, entries, List.append_assoc, ←List.map_append, ←List.filter_append]
          rfl
        · obtain ⟨row, last, rest⟩ := cut ended
          refine ⟨row,?_,rest⟩
          rw [List.getLast?_cons, last]
          rfl

/- Up to there the rows were examined. -/
def WindowEnd.Reaches : WindowEnd → Stamp → Prop
  | .exhausted, _ => True
  | .through last, stamp => stamp ≤ last
  | .before stop, stamp => stamp < stop

theorem reachesBelow {ended : WindowEnd} {s u : Stamp} (reached : ended.Reaches u) (le : s ≤ u) : ended.Reaches s := by
  cases ended with
  | exhausted => trivial
  | through last => exact le.trans reached
  | before stop => exact lt_of_le_of_lt le reached

theorem coverageGet (theirs : VersionVector) (f : NodeId → Hlc) (node : NodeId) :
    VersionVector.get ⟨theirs.positions.mapValues fun node theirMax => min theirMax (f node)⟩ node =
      min (theirs.get node) (f node) := by
  unfold VersionVector.get
  rw [SortedMap.getMapValues]
  cases theirs.positions.get node with
  | none => exact (min_eq_left (VersionVector.zeroLe _)).symm
  | some hlc => rfl

theorem coverageLe (theirs : VersionVector) (ended : WindowEnd) (node : NodeId) :
    (coverageUpTo theirs ended).get node ≤ theirs.get node := by
  cases ended with
  | exhausted => exact le_refl _
  | through last =>
      rw [coverageUpTo, coverageGet theirs fun node => if node ≤ last.node then last.hlc else last.hlc.predecessor]
      exact min_le_left _ _
  | before stop =>
      rw [coverageUpTo, coverageGet theirs fun node => if node < stop.node then stop.hlc else stop.hlc.predecessor]
      exact min_le_left _ _

/- What is covered was advertised, and the window reached it. -/
theorem coverageSound {theirs : VersionVector} {ended : WindowEnd} {s : Stamp} (positive : .zero < s.hlc)
    (covers : (coverageUpTo theirs ended).Covers s) : theirs.Covers s ∧ ended.Reaches s := by
  have before {k : Hlc} (le : s.hlc ≤ k.predecessor) : s.hlc < k := by
    rcases predecessorBelow le with below | zero
    · exact below
    · exact absurd zero positive.ne'
  cases ended with
  | exhausted => exact ⟨covers,trivial⟩
  | through last =>
      rw [coverageUpTo, VersionVector.Covers,
        coverageGet theirs fun node => if node ≤ last.node then last.hlc else last.hlc.predecessor] at covers
      refine ⟨(le_min_iff.mp covers).1,?_⟩
      have reached := (le_min_iff.mp covers).2
      split_ifs at reached with sorted
      · rw [WindowEnd.Reaches, ←not_lt, stampLtIff]
        rintro (above | ⟨same, above⟩)
        · exact absurd above (not_lt.mpr reached)
        · exact absurd above (not_lt.mpr sorted)
      · exact (stampLtIff.mpr (Or.inl (before reached))).le
  | before stop =>
      rw [coverageUpTo, VersionVector.Covers,
        coverageGet theirs fun node => if node < stop.node then stop.hlc else stop.hlc.predecessor] at covers
      refine ⟨(le_min_iff.mp covers).1,?_⟩
      have reached := (le_min_iff.mp covers).2
      split_ifs at reached with sorted
      · rcases lt_or_eq_of_le reached with below | same
        · exact stampLtIff.mpr (Or.inl below)
        · exact stampLtIff.mpr (Or.inr ⟨same,sorted⟩)
      · exact stampLtIff.mpr (Or.inl (before reached))

/- A window that was cut ends at the last row it examined. -/
theorem windowEndThrough {window : OplogWindow} {askedPartial : Bool} {row : Stamp × OplogEntry}
    (whole : window.exhausted = false) (stamped : row.2.stamp = row.1)
    (sent : (!askedPartial && window.passedThrough.isSome) = false)
    (passed : ∀ p, window.passedThrough = some p → p = row.1)
    (full : window.passedThrough = none → window.entries.getLast? = some row.2 ∧ window.scannedTo = row.2.stamp.hlc) :
    windowEnd window askedPartial none = .through row.1 := by
  unfold windowEnd
  cases budgeted : window.passedThrough with
  | none =>
      obtain ⟨final, scanned⟩ := full budgeted
      simp only [whole, Option.filter_none, final, scanned, le_refl, if_true, stamped]
  | some p =>
      have asked : askedPartial = true := by simpa [budgeted] using sent
      subst asked
      rw [passed p budgeted, whole, Option.filter_some]
      rfl

/- What a window holds of the log it was cut from. -/
structure Cut (log : SortedMap Stamp OplogEntry) (start : Hlc) (skip : Stamp → Bool) (keep : OplogEntry → Bool)
    (askedPartial : Bool) (window : OplogWindow) : Prop where
  logged : ∀ x ∈ window.entries, log.get x.stamp = some x
  above : ∀ x ∈ window.entries, start ≤ x.stamp.hlc
  sorted : window.entries.Pairwise fun x y => x.stamp < y.stamp
  reached : ∀ x ∈ window.entries, (windowEnd window askedPartial none).Reaches x.stamp
  complete : ∀ s x, log.get s = some x → start ≤ s.hlc → skip s = false → keep x = true →
    (windowEnd window askedPartial none).Reaches s → x ∈ window.entries

theorem cut {t : Tables} {start : Hlc} {limit : Nat} {skip : Stamp → Bool} {keep : OplogEntry → Bool}
    {budget : Option ((Nat → Bool) × Hlc)} {askedPartial : Bool}
    (stamped : ∀ s x, t.oplog.get s = some x → x.stamp = s)
    (sent : (!askedPartial && (t.readOplogLinear start limit skip keep budget).passedThrough.isSome) = false) :
    Cut t.oplog start skip keep askedPartial (t.readOplogLinear start limit skip keep budget) := by
  unfold Tables.readOplogLinear at *
  obtain ⟨seen, rest, split, taken, all, cut⟩ := walkExamined limit skip keep budget (t.oplog.range ⟨start,0⟩) 0
    ⟨[],.zero,true,none⟩ rfl rfl
  generalize walkOplog limit skip keep budget (t.oplog.range ⟨start,0⟩) 0 ⟨[],.zero,true,none⟩ = window at *
  rw [List.nil_append] at taken
  have sorted : (seen ++ rest).Pairwise fun x y => x.1 < y.1 := split ▸ SortedMap.rangeSorted t.oplog ⟨start,0⟩
  have row : ∀ r ∈ seen ++ rest, t.oplog.get r.1 = some r.2 ∧ r.2.stamp = r.1 ∧ start ≤ r.1.hlc := fun r member => by
    obtain ⟨held, low⟩ := SortedMap.memRange.mp (split ▸ member)
    refine ⟨held,stamped _ _ held,?_⟩
    by_contra below
    exact absurd low (not_le.mpr (stampLtIff.mpr (Or.inl (not_le.mp below))))
  have ends : ∀ r ∈ seen ++ rest, (windowEnd window askedPartial none).Reaches r.1 ↔ r ∈ seen := by
    intro r member
    cases whole : window.exhausted with
    | true =>
        have ended : windowEnd window askedPartial none = .exhausted := by simp [windowEnd, whole]
        rw [all whole, List.append_nil] at member
        rw [ended]
        exact iff_of_true trivial member
    | false =>
        obtain ⟨last, ended, passed, full⟩ := cut whole
        obtain ⟨before, shape⟩ := List.getLast?_eq_some_iff.mp ended
        rw [windowEndThrough whole (row last (List.mem_append_left _ (List.mem_of_getLast? ended))).2.1 sent passed full]
        subst shape
        constructor
        · intro reached
          rcases List.mem_append.mp member with inside | later
          · exact inside
          · have above := (List.pairwise_append.mp sorted).2.2 last
              (List.mem_append_right _ (List.mem_singleton.mpr rfl)) r later
            exact absurd reached (not_le.mpr above)
        · intro inside
          rcases List.mem_append.mp inside with earlier | here
          · exact ((List.pairwise_append.mp (List.pairwise_append.mp sorted).1).2.2 r earlier last
              (List.mem_singleton.mpr rfl)).le
          · rw [List.mem_singleton.mp here]
            exact le_refl _
  have listed : ∀ x, x ∈ window.entries ↔ ∃ r ∈ seen, (!skip r.1 && keep r.2) = true ∧ r.2 = x := by
    intro x
    rw [taken, List.mem_map]
    simp only [List.mem_filter, and_assoc]
  refine ⟨fun x member => ?_,fun x member => ?_,?_,fun x member => ?_,fun s x held above passed own reached => ?_⟩
  · obtain ⟨r, inside, _, rfl⟩ := (listed x).mp member
    obtain ⟨held, named, _⟩ := row r (List.mem_append_left _ inside)
    rw [named]
    exact held
  · obtain ⟨r, inside, _, rfl⟩ := (listed x).mp member
    obtain ⟨_, named, low⟩ := row r (List.mem_append_left _ inside)
    rw [named]
    exact low
  · rw [taken]
    refine List.pairwise_map.mpr (List.Pairwise.imp_of_mem ?_ ((List.pairwise_append.mp sorted).1.filter _))
    intro r q first second below
    rw [(row r (List.mem_append_left _ (List.mem_filter.mp first).1)).2.1,
      (row q (List.mem_append_left _ (List.mem_filter.mp second).1)).2.1]
    exact below
  · obtain ⟨r, inside, _, rfl⟩ := (listed x).mp member
    rw [(row r (List.mem_append_left _ inside)).2.1]
    exact (ends r (List.mem_append_left _ inside)).mpr inside
  · have ranged : (s,x) ∈ seen ++ rest := by
      rw [←split, SortedMap.memRange]
      refine ⟨held,?_⟩
      rcases lt_or_eq_of_le above with below | same
      · exact (stampLtIff.mpr (Or.inl below)).le
      · rw [←not_lt, stampLtIff]
        rintro (above | ⟨_, above⟩)
        · exact absurd above (not_lt.mpr same.le)
        · exact absurd above (Fin.not_lt_zero _)
    refine (listed x).mpr ⟨(s,x),(ends (s,x) ranged).mp reached,?_,rfl⟩
    simp [passed, own]

/- What a served window holds, as the requester reads it. -/
structure Served (log : SortedMap Stamp OplogEntry) (first : Hlc) (mine : VersionVector) (askedPartial : Bool)
    (window : OplogWindow) : Prop where
  logged : ∀ x ∈ window.entries, log.get x.stamp = some x
  sorted : window.entries.Pairwise fun x y => x.stamp < y.stamp
  reached : ∀ x ∈ window.entries, (windowEnd window askedPartial none).Reaches x.stamp
  complete : ∀ s x, log.get s = some x → first ≤ s.hlc → ¬ mine.Covers s → x.kind.isLocalObservation = false →
    (windowEnd window askedPartial none).Reaches s → x ∈ window.entries

theorem foldMinLe (first : Hlc) : ∀ starts : List Hlc, starts.foldl min first ≤ first
  | [] => le_refl _
  | start :: rest => (foldMinLe (min first start) rest).trans (min_le_left _ _)

theorem served {t : Tables} {first : Hlc} {limit : Nat} {mine : VersionVector} {marked : List MarkedRange}
    {spent : Option (Nat → Bool)} {askedPartial : Bool} (stamped : ∀ s x, t.oplog.get s = some x → x.stamp = s)
    (sent : (!askedPartial && (t.entriesForPeer first limit (some mine) marked spent).passedThrough.isSome) = false) :
    Served t.oplog first mine askedPartial (t.entriesForPeer first limit (some mine) marked spent) := by
  unfold Tables.entriesForPeer at *
  simp only [Option.isSome_some, if_true, Option.any_some] at *
  obtain ⟨logged, _, sorted, reached, complete⟩ := cut stamped sent
  refine ⟨logged,sorted,reached,fun s x held above uncovered own => complete s x held ?_ ?_ ?_⟩
  · exact (foldMinLe first _).trans above
  · simp [uncovered]
  · simp [own]

/-! What moves do to the vectors and the log. -/

/- A vector is raised by an own stamp, or by one that was brought. -/
structure Raises (given : OplogEntry → Prop) (x y : Engine) : Prop where
  grows : ∀ o, x.db.witnessed.get o ≤ y.db.witnessed.get o
  ordered : (∀ o, x.db.versions.get o ≤ x.db.witnessed.get o) → ∀ o, y.db.versions.get o ≤ y.db.witnessed.get o
  raised : ∀ o h, h ≤ y.db.witnessed.get o → h ≤ x.db.witnessed.get o ∨ (o = x.node ∧ h ≤ y.clock.last) ∨
    ∃ z, given z ∧ z.stamp.node = o ∧ h ≤ z.stamp.hlc

section
variable {given : OplogEntry → Prop} {x y z : Engine}

theorem raisesSame (versions : y.db.versions = x.db.versions) (witnessed : y.db.witnessed = x.db.witnessed) :
    Raises given x y := by
  refine ⟨fun o => ?_,fun ordered o => ?_,fun o h le => Or.inl ?_⟩
  · rw [witnessed]
  · rw [versions, witnessed]
    exact ordered o
  · rwa [witnessed] at le

theorem raisesAt {stamp : Stamp} (raised : Tables.Raised x.db y.db stamp)
    (source : (stamp.node = x.node ∧ stamp.hlc ≤ y.clock.last) ∨ ∃ z, given z ∧ z.stamp = stamp) : Raises given x y := by
  rcases raised with ⟨versions, witnessed⟩ | ⟨versions, witnessed⟩
  · exact raisesSame versions witnessed
  · refine ⟨fun o => ?_,fun ordered o => ?_,fun o h le => ?_⟩
    · rw [witnessed]
      exact VersionVector.raiseLe _ _ _
    · rw [versions, witnessed, VersionVector.getRaise, VersionVector.getRaise]
      split_ifs
      · exact max_le_max (ordered o) (le_refl _)
      · exact ordered o
    · rw [witnessed, VersionVector.getRaise] at le
      split_ifs at le with own
      · rcases le_max_iff.mp le with before | now
        · exact Or.inl before
        · rcases source with ⟨node, clock⟩ | ⟨z, got, rfl⟩
          · exact Or.inr (Or.inl ⟨own.trans node,now.trans clock⟩)
          · exact Or.inr (Or.inr ⟨z,got,own.symm,now⟩)
      · exact Or.inl le

theorem calledClock (e : Engine) : (e.called [e.nextCall]).clock.last = e.nextStamp.hlc := by
  unfold Engine.clock Engine.called
  rw [HlcClock.after, List.foldl_append]
  rfl

theorem raisesMove (move : Move given x y) : Raises given x y := by
  cases move with
  | called more => exact raisesSame rfl rfl
  | indexed entries collections known => exact raisesSame rfl rfl
  | wrote coll key kind body document shape =>
      exact raisesAt (Tables.appendRaised _ _ _) (Or.inl ⟨rfl,(calledClock x).ge⟩)
  | observed coll kind own => exact raisesAt (Tables.appendRaised _ _ _) (Or.inl ⟨rfl,(calledClock x).ge⟩)
  | merged entry position key got named wins => exact raisesAt (Tables.appendRaised _ _ _) (Or.inr ⟨entry,got,rfl⟩)
  | owed entry position key got named placed tombstone missing delete =>
      exact raisesAt (Tables.appendRaised _ _ _) (Or.inr ⟨entry,got,rfl⟩)
  | released entry got => exact raisesAt (Tables.releaseRaised _ _) (Or.inr ⟨entry,got,rfl⟩)

theorem raisesTrans (same : y.node = x.node) (clock : y.clock.last ≤ z.clock.last) (first : Raises given x y)
    (second : Raises given y z) : Raises given x z := by
  refine ⟨fun o => (first.grows o).trans (second.grows o),fun ordered => second.ordered (first.ordered ordered),
    fun o h le => ?_⟩
  rcases second.raised o h le with before | ⟨own, now⟩ | brought
  · rcases first.raised o h before with before | ⟨own, now⟩ | brought
    · exact Or.inl before
    · exact Or.inr (Or.inl ⟨own,now.trans clock⟩)
    · exact Or.inr (Or.inr brought)
  · exact Or.inr (Or.inl ⟨own.trans same,now⟩)
  · exact Or.inr (Or.inr brought)

theorem raisesMoves (moves : Moves given x y) (room : y.Room) : Raises given x y := by
  induction moves with
  | refl => exact raisesSame rfl rfl
  | tail moves move ih =>
      obtain ⟨before, clock⟩ := roomBefore (Moves.sameMove move) room
      exact raisesTrans (Moves.same moves).node clock (ih before) (raisesMove move)

/- What is new in the log is an own entry above the clock, or was brought. -/
def Adds (given : OplogEntry → Prop) (x y : Engine) : Prop :=
  ∀ s e, y.db.oplog.get s = some e → x.db.oplog.get s = some e ∨ (s.node = x.node ∧ x.clock.last < s.hlc) ∨ given e

theorem addsLog {entry : OplogEntry} (log : y.db.oplog = x.db.oplog.insert entry.stamp entry)
    (source : (entry.stamp.node = x.node ∧ x.clock.last < entry.stamp.hlc) ∨ given entry) : Adds given x y := by
  intro s e found
  rw [log, SortedMap.getInsert] at found
  split_ifs at found with same
  · obtain rfl := Option.some.inj found
    rw [same]
    exact Or.inr source
  · exact Or.inl found

theorem addsMove (move : Move given x y) (room : y.Room) : Adds given x y := by
  cases move with
  | called more => exact fun _ _ found => Or.inl found
  | indexed entries collections known => exact fun _ _ found => Or.inl found
  | wrote coll key kind body document shape =>
      exact addsLog (Tables.appendLog _ _ _) (Or.inl ⟨rfl,(nextStampFresh (e := x) room).1⟩)
  | observed coll kind own => exact addsLog (Tables.appendLog _ _ _) (Or.inl ⟨rfl,(nextStampFresh (e := x) room).1⟩)
  | merged entry position key got named wins => exact addsLog (Tables.appendLog _ _ _) (Or.inr got)
  | owed entry position key got named placed tombstone missing delete =>
      exact addsLog (Tables.appendLog _ _ _) (Or.inr got)
  | released entry got =>
      intro s e found
      exact Or.inl ((Tables.releaseLog _ _) ▸ found)

theorem addsMoves (moves : Moves given x y) (room : y.Room) : Adds given x y := by
  induction moves with
  | refl => exact fun _ _ found => Or.inl found
  | tail moves move ih =>
      obtain ⟨before, clock⟩ := roomBefore (Moves.sameMove move) room
      intro s e found
      rcases addsMove move room s e found with held | ⟨own, above⟩ | got
      · exact ih before s e held
      · refine Or.inr (Or.inl ⟨own.trans (Moves.same moves).node,?_⟩)
        exact ((roomBefore (Moves.same moves) before).2).trans_lt above
      · exact Or.inr (Or.inr got)

end

end Kimmy.Store
