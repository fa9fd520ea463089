import Kimmy.Store.Elsewhere

/-!
The seek that starts a change stream answers as the walk does, each run alone to its end, in every
state that appends and releases of held marks lead to.
-/
namespace Kimmy.Store
open Merge Positions

/-! The two searches, each on its own. -/

/- `Walk`: in the order of arrival, to the first row beyond the vector. -/
def walkBeyond (delivered : VersionVector) : List (Nat × Stamp) → Option Nat
  | [] => none
  | (seq,stamp) :: rest => if delivered.get stamp.node < stamp.hlc then some seq else walkBeyond delivered rest

namespace Seek

/- The rows that are left to read, and the turn from the marks to the range. -/
def left (t : Tables) (s : Seek) : Nat :=
  match s.phase with
  | .held marks => marks.length + t.arrivalSeq.entries.length + 1
  | .range rows => rows.length

theorem activePhase (delivered : VersionVector) (s : Seek) (node : NodeId) (hlc : Hlc) :
    (active delivered s node hlc).phase = s.phase := by
  unfold active lower
  split_ifs <;> rfl

theorem stepLeft {t : Tables} {delivered : VersionVector} {s : Seek} (goesOn : (s.step t delivered).2 = none) :
    (s.step t delivered).1.left t < s.left t := by
  obtain ⟨phase, bound, best⟩ := s
  cases phase with
  | held marks =>
      cases marks with
      | nil =>
          unfold step at goesOn ⊢
          simp only at goesOn ⊢
          split at goesOn
          · cases goesOn
          · rename_i lowest is
            simp only [left, List.length_nil]
            have shorter : (t.arrivalSeq.range ⟨lowest,0⟩).length ≤ t.arrivalSeq.entries.length :=
              (List.dropWhile_sublist _).length_le
            omega
      | cons mark marks =>
          unfold step left
          simp only [activePhase, List.length_cons]
          omega
  | range rows =>
      cases rows with
      | nil =>
          unfold step at goesOn
          cases goesOn
      | cons row rows =>
          unfold step left
          simp only
          split_ifs <;> exact Nat.lt_succ_self _

/- One row at a time until there is an answer. -/
def search (t : Tables) (delivered : VersionVector) (s : Seek) : Option Nat :=
  match _answer : (s.step t delivered).2 with
  | some found => found
  | none => search t delivered (s.step t delivered).1
  termination_by s.left t
  decreasing_by exact stepLeft _answer

theorem searchLeast {t : Tables} {delivered : VersionVector} (placed : Placed t) (s : Seek) (right : s.Right t delivered) :
    Least t delivered (s.search t delivered) := by
  induction s using search.induct t delivered with
  | case1 s found answer =>
      rw [search]
      split
      · rename_i other is
        exact (stepRight placed right).1 other is
      · rename_i is
        cases answer.symm.trans is
  | case2 s answer ih =>
      rw [search]
      split
      · rename_i other is
        cases answer.symm.trans is
      · exact ih ((stepRight placed right).2 answer)

end Seek

theorem walkLeast {delivered : VersionVector} : ∀ {rows : List (Nat × Stamp)}, rows.Pairwise (fun x y => x.1 < y.1) →
    match walkBeyond delivered rows with
    | none => ∀ x ∈ rows, ¬ Beyond delivered x.2
    | some p => (∃ x ∈ rows, x.1 = p ∧ Beyond delivered x.2) ∧ ∀ x ∈ rows, Beyond delivered x.2 → p ≤ x.1
  | [], _ => nofun
  | (seq,stamp) :: rest, sorted => by
      obtain ⟨least, tail⟩ := List.pairwise_cons.mp sorted
      unfold walkBeyond
      split_ifs with beyond
      · refine ⟨⟨(seq,stamp),List.mem_cons_self,rfl,beyond⟩,fun x member _ => ?_⟩
        rcases List.mem_cons.mp member with rfl | later
        · exact le_refl _
        · exact (least x later).le
      · have further := @walkLeast delivered _ tail
        cases found : walkBeyond delivered rest with
        | none =>
            rw [found] at further
            intro x member
            rcases List.mem_cons.mp member with rfl | later
            · exact beyond
            · exact further x later
        | some p =>
            rw [found] at further
            obtain ⟨⟨x, member, is, ahead⟩, first⟩ := further
            refine ⟨⟨x,List.mem_cons_of_mem _ member,is,ahead⟩,fun y there past => ?_⟩
            rcases List.mem_cons.mp there with rfl | later
            · exact absurd past beyond
            · exact first y later past

theorem walkTablesLeast (t : Tables) (delivered : VersionVector) :
    Least t delivered (walkBeyond delivered t.arrival.entries) := by
  have walked := @walkLeast delivered _ t.arrival.sorted
  cases found : walkBeyond delivered t.arrival.entries with
  | none =>
      rw [found] at walked
      exact fun q s there => walked (q,s) (SortedMap.memEntries.mpr there)
  | some p =>
      rw [found] at walked
      obtain ⟨⟨x, member, is, ahead⟩, first⟩ := walked
      refine ⟨⟨x.2,?_,ahead⟩,fun q s there past => first (q,s) (SortedMap.memEntries.mpr there) past⟩
      exact is ▸ SortedMap.memEntry.mp member

/- There is one answer. -/
theorem leastUnique {t : Tables} {delivered : VersionVector} : ∀ {a b : Option Nat},
    Least t delivered a → Least t delivered b → a = b
  | none, none, _, _ => rfl
  | none, some _, nothing, ⟨⟨s, there, beyond⟩, _⟩ => absurd beyond (nothing _ s there)
  | some _, none, ⟨⟨s, there, beyond⟩, _⟩, nothing => absurd beyond (nothing _ s there)
  | some p, some q, ⟨⟨s, atP, beyondP⟩, firstP⟩, ⟨⟨r, atQ, beyondQ⟩, firstQ⟩ =>
      congrArg some (Nat.le_antisymm (firstP q r atQ beyondQ) (firstQ p s atP beyondP))

/-! The states. -/

/- A release names the entry that arrived in position, or is what a snapshot's coverage takes with it. -/
inductive TablesStep where
  | append (entry : OplogEntry) (position : Position)
  | release (stamp : Stamp)
  | releaseUnder (granted : VersionVector)

namespace Tables

/- `release_held_under`, with the raising that it comes after. -/
def absorbGranted (t : Tables) (granted : VersionVector) : Tables :=
  { t with
    versions := t.versions.merge granted
    witnessed := t.witnessed.merge granted
    held := t.held.retain fun stamp _ => !decide (granted.Covers stamp) }

def step (t : Tables) : TablesStep → Tables
  | .append entry position => (t.appendOplogAt entry position).1
  | .release stamp => (t.releaseHeldInPosition stamp).1
  | .releaseUnder granted => t.absorbGranted granted

def run (t : Tables) (steps : List TablesStep) : Tables := steps.foldl step t

end Tables

variable {t : Tables}

/- An entry written again takes the place of the one that is there. -/
theorem Placed.rewritten (placed : Placed t) {entry held : OplogEntry} (there : t.oplog.get entry.stamp = some held) :
    Placed { t with oplog := t.oplog.insert entry.stamp entry } := by
  refine ⟨⟨fun q s found => ?_,placed.places⟩,fun s x logged => ?_⟩
  · simp only [SortedMap.getInsert]
    split_ifs with same
    · exact ⟨entry,rfl,same.symm⟩
    · exact placed.backed q s found
  · simp only [SortedMap.getInsert] at logged
    split_ifs at logged with same
    · exact placed.marked s held (same ▸ there)
    · exact placed.marked s x logged

theorem Placed.append (placed : Placed t) (entry : OplogEntry) (position : Position) :
    Placed (t.appendOplogAt entry position).1 := by
  cases there : t.oplog.get entry.stamp with
  | none => exact placed.appendFresh position there
  | some held =>
      unfold Tables.appendOplogAt
      simp only [there, Option.isSome_some, if_true]
      split_ifs
      · exact (placed.rewritten there).release entry.stamp
      · exact placed.rewritten there

theorem Placed.absorb (placed : Placed t) (granted : VersionVector) : Placed (t.absorbGranted granted) := by
  refine ⟨⟨placed.backed,placed.places⟩,fun s x held => ?_⟩
  by_cases under : granted.Covers s
  · refine Or.inl ?_
    show s.hlc ≤ (t.versions.merge granted).get s.node
    rw [VersionVector.getMerge]
    exact under.trans (le_max_right _ _)
  · rcases placed.marked s x held with covers | marked
    · exact Or.inl (covers.trans (Host.mergeLe _ _ _))
    · refine Or.inr ?_
      show ((t.held.retain fun stamp _ => !decide (granted.Covers stamp)).get s).isSome = true
      rw [SortedMap.getRetain]
      simpa [under] using marked

theorem Placed.step (placed : Placed t) : ∀ step, Placed (t.step step)
  | .append entry position => placed.append entry position
  | .release stamp => placed.release stamp
  | .releaseUnder granted => placed.absorb granted

theorem Placed.run : ∀ (steps : List TablesStep) {t : Tables}, Placed t → Placed (t.run steps)
  | [], _, placed => placed
  | step :: rest, _, placed => Placed.run rest (placed.step step)

/- Every entry is servable or marked, and the seek, the walk and the race of the two agree on the first
arrival beyond any vector. -/
theorem seekIsWalk (collections : SortedMap CollectionId CollectionMeta) (steps : List TablesStep)
    (delivered : VersionVector) :
    let t := (Tables.fresh collections).run steps
    (∀ s x, t.oplog.get s = some x → s.hlc ≤ t.versions.get s.node ∨ (t.held.get s).isSome = true) ∧
      (Seek.new t).search t delivered = walkBeyond delivered t.arrival.entries ∧
      t.firstArrivalBeyond delivered = (walkBeyond delivered t.arrival.entries).getD t.nextArrival := by
  intro t
  have placed : Placed t := Placed.run steps (placedFresh collections)
  have walked := walkTablesLeast t delivered
  refine ⟨placed.marked,leastUnique (Seek.searchLeast placed _ (Seek.rightNew t delivered)) walked,?_⟩
  have raced := raceLeast placed (Seek.rightNew t delivered) (fun x member => SortedMap.memEntry.mp member)
    t.arrival.sorted fun q s there _ => SortedMap.memEntries.mpr there
  unfold Tables.firstArrivalBeyond
  rw [leastUnique raced walked]

end Kimmy.Store
