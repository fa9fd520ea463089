import Kimmy.Webhook.Progress

/-!
When a pass stops a subscription. The retention check compares the least position among the
origins that trail with one horizon for every origin, so it can stop a subscription that has lost
nothing; the marks that retention keeps for each origin tell the two apart.
-/
namespace Kimmy.Webhook
open Merge Store

/-! What a pass has read. -/

/- A pass that has read the progress still agrees with what is recorded. -/
structure Current (m : Member) : Prop where
  unstarted : m.started = none → m.passing = .idle
  reading : ∀ progress, m.passing = .reading progress → progress = m.progress
  compared : ∀ progress current first, m.passing = .compared progress current first →
    progress = m.progress ∧ progress.behind current = some first

section
variable {m n : Member}

theorem Current.same (current : Current m) (started : n.started = m.started) (progress : n.progress = m.progress)
    (passing : n.passing = m.passing) : Current n := by
  obtain ⟨unstarted, reading, compared⟩ := current
  rw [←started, ←passing] at unstarted
  rw [←progress, ←passing] at reading compared
  exact ⟨unstarted,reading,compared⟩

theorem Current.rests (idle : m.passing = .idle) : Current m := by
  refine ⟨fun _ => idle,fun _ stage => ?_,fun _ _ _ stage => ?_⟩
  · rw [idle] at stage
    cases stage
  · rw [idle] at stage
    cases stage

/- Past its check a pass does not return to its reads. -/
theorem Current.later (current : Current m) (busy : m.passing ≠ .idle) {passing : Passing}
    (reading : ∀ progress, passing ≠ .reading progress)
    (compared : ∀ progress current first, passing ≠ .compared progress current first)
    (started : n.started = m.started) (stage : n.passing = passing) : Current n := by
  refine ⟨fun none' => ?_,fun _ there => ?_,fun _ _ _ there => ?_⟩
  · rw [started] at none'
    exact absurd (current.unstarted none') busy
  · exact absurd (stage.symm.trans there) (reading _)
  · exact absurd (stage.symm.trans there) (compared _ _ _)

theorem Current.appended (current : Current m) {entry : OplogEntry} (done : m.append entry = some n) : Current n := by
  rw [(Webhook.appended done).same]
  exact current.same rfl rfl rfl

theorem planLater (c : Config) (db : Tables) (progress current : VersionVector) (first : Hlc) (stale : Bool) :
    (∀ p, plan c db progress current first stale ≠ .reading p) ∧
      ∀ p v h, plan c db progress current first stale ≠ .compared p v h := by
  unfold plan
  simp only
  split_ifs <;> exact ⟨fun _ => Passing.noConfusion,fun _ _ _ => Passing.noConfusion⟩

theorem Current.step {c : Config} (current : Current m) (step : Step) : Current (m.step c step) := by
  unfold Member.step
  cases step with
  | append entry =>
      simp only
      cases done : m.append entry with
      | none => exact current
      | some n => exact current.appended done
  | collect cutoff =>
      simp only
      split <;> exact current.same rfl rfl rfl
  | scan i chunk =>
      simp only
      split <;> exact current.same rfl rfl rfl
  | remove i =>
      simp only
      split <;> exact current.same rfl rfl rfl
  | register =>
      simp only
      split_ifs with begun
      · exact current
      · exact .rests (current.unstarted (Option.not_isSome_iff_eq_none.mp begun))
  | readProgress =>
      simp only
      split
      next stage =>
        split_ifs with ready
        · refine ⟨fun none' => ?_,fun v there => ?_,fun _ _ _ there => ?_⟩
          · simp only at none'
            simp [none'] at ready
          · cases there
            rfl
          · cases there
        · exact current
      · exact current
  | readVector ready =>
      simp only
      split
      next progress stage =>
        split
        next first behind =>
          split_ifs
          · refine ⟨fun none' => ?_,fun _ there => ?_,fun v w h there => ?_⟩
            · exact absurd ((current.unstarted none').symm.trans stage) Passing.noConfusion
            · cases there
            · cases there
              exact ⟨current.reading _ stage,behind⟩
          · exact .rests rfl
        · exact .rests rfl
      · exact current
  | check written =>
      simp only
      split
      next progress vector first stage =>
        split_ifs
        · unfold Member.invalidate
          split <;> exact .rests rfl
        · refine current.later (fun idle => ?_) (fun _ => Passing.noConfusion) (fun _ _ _ => Passing.noConfusion) rfl rfl
          rw [stage] at idle
          cases idle
      · exact current
  | plan stale =>
      simp only
      split
      next progress vector first stage =>
        have later := planLater c m.db progress vector first stale
        refine current.later (fun idle => ?_) later.1 later.2 rfl rfl
        rw [stage] at idle
        cases idle
      · exact current
  | deliver taken =>
      simp only
      split
      next progress vector through stamps stage =>
        split_ifs
        · refine current.later (fun idle => ?_) (fun _ => Passing.noConfusion) (fun _ _ _ => Passing.noConfusion) rfl rfl
          rw [stage] at idle
          cases idle
        · exact .rests rfl
      · exact current
  | record written =>
      simp only
      split
      next progress stage => split <;> exact .rests rfl
      · exact current
  | restart => exact .rests rfl

end

theorem runCurrent (c : Config) (steps : List Step) : Current (.run c .opened steps) := by
  induction steps using List.reverseRecOn with
  | nil => exact .rests rfl
  | append_singleton steps step ih =>
      rw [Member.runAppend]
      exact ih.step step

/- Of any run, undisturbed or not. -/
theorem runKept (c : Config) (steps : List Step) : Kept (.run c .opened steps) (Member.EverHeld c .opened steps) := by
  induction steps using List.reverseRecOn with
  | nil => exact (openedSound c).kept
  | append_singleton steps step ih =>
      rw [Member.everHeldSnoc, Member.runAppend]
      exact ih.step step

/-! Losses. -/

theorem lacksCollectedIff {held mine collected : VersionVector} : lacksCollected held mine collected = true ↔
    ∃ o, held.get o < mine.get o ∧ held.get o < collected.get o := by
  unfold lacksCollected
  rw [List.any_eq_true]
  constructor
  · rintro ⟨⟨o, hlc⟩, member, both⟩
    simp only [Bool.and_eq_true, decide_eq_true_eq] at both
    refine ⟨o,?_,both.2⟩
    rw [VersionVector.get.eq_def mine, SortedMap.memEntries.mp member]
    exact both.1
  · rintro ⟨o, trails, lacks⟩
    cases there : mine.positions.get o with
    | none =>
        rw [VersionVector.get.eq_def mine, there] at trails
        exact absurd trails (not_lt.mpr (VersionVector.zeroLe _))
    | some hlc =>
        rw [VersionVector.get.eq_def mine, there] at trails
        refine ⟨(o,hlc),SortedMap.memEntries.mpr there,?_⟩
        simp only [Bool.and_eq_true, decide_eq_true_eq]
        exact ⟨trails,lacks⟩

/- The marks say of every origin whether an entry above a position has been collected. -/
theorem Kept.lost {m : Member} {past : OplogEntry → Prop} (kept : Kept m past) (progress : VersionVector) :
    lacksCollected progress m.db.versions m.db.collected = true ↔
      ∃ x, past x ∧ m.db.oplog.get x.stamp = none ∧ ¬ progress.Covers x.stamp := by
  rw [lacksCollectedIff]
  constructor
  · rintro ⟨o, _, lacks⟩
    obtain ⟨x, old, stamp, gone⟩ := kept.marked o ((VersionVector.zeroLe _).trans_lt lacks)
    refine ⟨x,old,gone,?_⟩
    rw [stamp]
    exact not_le.mpr lacks
  · rintro ⟨x, old, gone, uncovered⟩
    rcases kept.still x old with held | ⟨_, mark⟩
    · cases gone.symm.trans held
    · refine ⟨x.stamp.node,?_,(not_le.mp uncovered).trans_le mark⟩
      exact (not_le.mp uncovered).trans_le (kept.covered x old)

/- A check stops the subscription where the horizon is above the position it reads from. -/
theorem checkInvalidates {c : Config} {m : Member} {progress current : VersionVector} {first : Hlc}
    (stage : m.passing = .compared progress current first) (written : Option OplogEntry) :
    m.step c (.check written) = m.invalidate written ↔ first < m.collectedThrough := by
  unfold Member.step
  simp only [stage]
  have gone : m.behindHorizon first = true ↔ first < m.collectedThrough := by
    unfold Member.behindHorizon
    simp only [Bool.and_eq_true, decide_eq_true_eq]
    exact ⟨And.right,fun high => ⟨(VersionVector.zeroLe _).trans_lt high,high⟩⟩
  rw [←gone]
  constructor
  · intro same
    by_contra served
    rw [if_neg served] at same
    have stops : (m.invalidate written).passing = .idle := by
      unfold Member.invalidate
      split <;> rfl
    rw [←same] at stops
    cases stops
  · intro found
    rw [if_pos found]

/- In every state of every run: a pass that stops the subscription has lost something that the
progress does not cover, exactly if the marks of the origins say so wherever the horizon is above
the position that the pass reads from. -/
theorem onlyForLoss (c : Config) (steps : List Step) {progress current : VersionVector} {first : Hlc}
    (stage : (Member.run c .opened steps).passing = .compared progress current first) (written : Option OplogEntry) :
    let m := Member.run c .opened steps
    (m.step c (.check written) = m.invalidate written →
        ∃ x, Member.Lost c .opened steps x ∧ ¬ m.progress.Covers x.stamp) ↔
      ((m.progress.behind current).any (fun position => position < m.collectedThrough) = true →
        lacksCollected m.progress m.db.versions m.db.collected = true) := by
  intro m
  obtain ⟨same, behind⟩ := (runCurrent c steps).compared _ _ _ stage
  rw [checkInvalidates stage, (runKept c steps).lost, ←same, behind]
  simp only [Option.any_some, decide_eq_true_eq]
  constructor
  · intro claim high
    obtain ⟨x, lost, uncovered⟩ := claim high
    exact ⟨x,lost.held,lost.gone,uncovered⟩
  · intro marks high
    obtain ⟨x, held, gone, uncovered⟩ := marks high
    exact ⟨x,⟨held,gone⟩,uncovered⟩

/- The second event was delivered; the third was lost before the pass came to it. -/
theorem onlyForLossHere : ∃ x, Member.Lost plainConfig .opened deliveredThenLost x ∧
    ¬ (Member.run plainConfig .opened deliveredThenLost).progress.Covers x.stamp := by
  have stage : (Member.run plainConfig .opened deliveredThenLost).passing =
      .compared (Member.run plainConfig .opened deliveredThenLost).progress
        (Member.run plainConfig .opened deliveredThenLost).db.versions ⟨200,0⟩ := rfl
  refine (onlyForLoss plainConfig deliveredThenLost stage none).mpr (fun _ => by decide +kernel) ?_
  exact (checkInvalidates stage none).mpr (by decide +kernel)

/- Two entries that the progress covers are collected; then a member joins and writes. -/
def joinedLate : List Step :=
  [.append (insertOf 0 100 9 [1]),.append (insertOf 0 200 9 [2]),.register,.append (insertOf 0 300 9 [3]),
    .collect ⟨250,0⟩,.scan 0 1024,.remove 0,.append (insertOf 1 400 0 [4]),.readProgress,.readVector true]

/- Everything that the log of a run ever held. -/
def heldAlong (c : Config) (steps : List Step) : List (Stamp × OplogEntry) :=
  (List.range (steps.length + 1)).flatMap fun k => (Member.run c .opened (steps.take k)).db.oplog.entries

theorem heldAlongEver {c : Config} {steps : List Step} {x : OplogEntry} (held : Member.EverHeld c .opened steps x) :
    (x.stamp,x) ∈ heldAlong c steps := by
  obtain ⟨k, found⟩ := held
  refine List.mem_flatMap.mpr ⟨min k steps.length,List.mem_range.mpr (by omega),?_⟩
  rw [←List.take_eq_take_min]
  exact SortedMap.memEntries.mpr found

/- Nothing that the progress does not cover has been collected, and the pass stops the
subscription. -/
theorem stoppedForNothing : ((Member.run plainConfig .opened joinedLate).step plainConfig
      (.check (some (insertOf 0 500 9 [5])))).invalidated = true ∧
    ∀ x, Member.Lost plainConfig .opened joinedLate x →
      (Member.run plainConfig .opened joinedLate).progress.Covers x.stamp := by
  refine ⟨by decide +kernel,fun x lost => ?_⟩
  have all : ∀ r ∈ heldAlong plainConfig joinedLate,
      (Member.run plainConfig .opened joinedLate).db.oplog.get r.1 = none →
      (Member.run plainConfig .opened joinedLate).progress.Covers r.1 := by decide +kernel
  exact all _ (heldAlongEver lost.held) lost.gone

end Kimmy.Webhook
