import Kimmy.Confirm.Settled

/-!
Runs at one address: at most one driver at any time, and one wherever something waits; a flag that tells the batch from what came
after it; and for every confirmation the word it rests on.
-/
namespace Kimmy.Confirm
open Merge Store

/- The first ticket after the batch of the push in flight, once it is taken. -/
def Phase.since? : Phase → Option Nat
  | .batched _ _ _ since | .sending _ _ _ since => some since
  | .ended _ since => since
  | _ => none

/- A push that has ended says whether it took its batch. -/
def Phase.Batched : Phase → Prop
  | .ended (.failed failure) since => failure.snapshotted = since.isSome
  | .ended _ since => since.isSome = true
  | _ => True

namespace Confirmer

structure Sound (c : Confirmer) : Prop where
  drivers : c.drivers.length = if c.queue.any PeerQueue.driving then 1 else 0
  waits : ∀ queue, c.queue = some queue → queue.driving = false → queue.waiters = []
  issued : ∀ w ∈ c.waiters, w.ticket < c.issued
  since : ∀ phase ∈ c.drivers, ∀ since, phase.since? = some since → since ≤ c.issued
  flags : ∀ phase ∈ c.drivers, ∀ w ∈ c.waiters, w.preQueued = true ↔ ∃ since, phase.since? = some since ∧ w.ticket < since
  batched : ∀ phase ∈ c.drivers, phase.Batched
  said : ∀ phase ∈ c.drivers, ∀ answer since, phase = .ended (.answered answer) since → .answered answer ∈ c.said
  confirmed : ∀ w, (w,.confirmed) ∈ c.answers → ∃ word ∈ c.said, word.Vouches w

section
variable {config : ConfirmConfig} {addr : String} {c : Confirmer}

theorem soundNew : Sound .new := by
  refine ⟨rfl,fun queue no => ?_,fun w no => ?_,fun phase no => ?_,fun phase no => ?_,fun phase no => ?_,fun phase no => ?_,
    fun w no => ?_⟩
  all_goals cases no

/- A driver that is there is the only one, and its queue says so. -/
theorem Sound.only (sound : Sound c) {driver : Nat} {phase : Phase} (at' : c.drivers[driver]? = some phase) :
    driver = 0 ∧ c.drivers = [phase] ∧ ∃ queue, c.queue = some queue ∧ queue.driving = true := by
  have length := sound.drivers
  have inside : driver < c.drivers.length := (List.getElem?_eq_some_iff.mp at').1
  split_ifs at length with driving
  · obtain ⟨only,is⟩ := List.length_eq_one_iff.mp length
    rw [length] at inside
    obtain rfl : driver = 0 := by omega
    rw [is] at at'
    obtain rfl : only = phase := Option.some.inj at'
    obtain ⟨queue,there,drives⟩ := (Option.any_eq_true _ _).mp driving
    exact ⟨rfl,is,queue,there,drives⟩
  · rw [length] at inside
    omega

/- The state of a driver in one phase. -/
structure Driven (c : Confirmer) (queue : PeerQueue) (phase : Phase) : Prop where
  there : c.queue = some queue
  driving : queue.driving = true
  drivers : c.drivers = [phase]

theorem Driven.waiters {queue : PeerQueue} {phase : Phase} (driven : Driven c queue phase) : c.waiters = queue.waiters := by
  unfold Confirmer.waiters
  rw [driven.there]
  rfl

theorem Sound.driven (sound : Sound c) {driver : Nat} {phase : Phase} (at' : c.drivers[driver]? = some phase) :
    driver = 0 ∧ ∃ queue, Driven c queue phase := by
  obtain ⟨rfl,drivers,queue,there,driving⟩ := sound.only at'
  exact ⟨rfl,queue,there,driving,drivers⟩

/- What is left to show of a state with one driver. -/
theorem Driven.sound {queue : PeerQueue} {phase : Phase} (driven : Driven c queue phase)
    (issued : ∀ w ∈ queue.waiters, w.ticket < c.issued) (since : ∀ since, phase.since? = some since → since ≤ c.issued)
    (flags : ∀ w ∈ queue.waiters, w.preQueued = true ↔ ∃ since, phase.since? = some since ∧ w.ticket < since)
    (batched : phase.Batched)
    (said : ∀ answer since, phase = .ended (.answered answer) since → .answered answer ∈ c.said)
    (confirmed : ∀ w, (w,.confirmed) ∈ c.answers → ∃ word ∈ c.said, word.Vouches w) : Sound c := by
  have only : ∀ other ∈ c.drivers, other = phase := by
    intro other member
    rw [driven.drivers] at member
    exact List.mem_singleton.mp member
  refine ⟨?_,?_,?_,?_,?_,?_,?_,confirmed⟩
  · rw [driven.drivers, driven.there, Option.any_some, driven.driving]
    rfl
  · intro other is idle
    obtain rfl : queue = other := Option.some.inj (driven.there.symm.trans is)
    rw [driven.driving] at idle
    cases idle
  · rw [driven.waiters]
    exact issued
  · intro other member
    rw [only other member]
    exact since
  · intro other member
    rw [only other member, driven.waiters]
    exact flags
  · intro other member
    rw [only other member]
    exact batched
  · intro other member
    rw [only other member]
    exact said

/- A queue with no driver has nothing waiting. -/
theorem idleSound (drivers : c.drivers = []) (queue : ∀ q, c.queue = some q → q.driving = false ∧ q.waiters = [])
    (confirmed : ∀ w, (w,.confirmed) ∈ c.answers → ∃ word ∈ c.said, word.Vouches w) : Sound c := by
  have none : c.waiters = [] := by
    unfold waiters
    cases there : c.queue with
    | none => rfl
    | some q => exact (queue q there).2
  refine ⟨?_,fun q there _ => (queue q there).2,?_,?_,?_,?_,?_,confirmed⟩
  · rw [drivers, if_neg]
    · rfl
    · intro any
      obtain ⟨q,there,driving⟩ := (Option.any_eq_true _ _).mp any
      rw [(queue q there).1] at driving
      cases driving
  all_goals simp [drivers, none]

/- What leaves the driver alone: no waiter comes in, and none is confirmed. -/
theorem Sound.beside {d : Confirmer} (sound : Sound c) (drivers : d.drivers = c.drivers)
    (driving : d.queue.any PeerQueue.driving = c.queue.any PeerQueue.driving)
    (waits : ∀ queue, d.queue = some queue → queue.driving = false → queue.waiters = [])
    (waiters : ∀ w ∈ d.waiters, ∃ v ∈ c.waiters, w.ticket = v.ticket ∧ w.preQueued = v.preQueued) (issued : c.issued ≤ d.issued)
    (said : d.said = c.said) (confirmed : ∀ w, (w,.confirmed) ∈ d.answers → (w,.confirmed) ∈ c.answers) : Sound d := by
  refine ⟨?_,waits,?_,?_,?_,?_,?_,?_⟩
  · rw [drivers, driving]
    exact sound.drivers
  · intro w member
    obtain ⟨v,held,ticket,_⟩ := waiters w member
    have below := sound.issued v held
    omega
  · intro phase member since is
    rw [drivers] at member
    exact (sound.since phase member since is).trans issued
  · intro phase member w held
    rw [drivers] at member
    obtain ⟨v,there,ticket,flag⟩ := waiters w held
    rw [ticket, flag]
    exact sound.flags phase member v there
  · rw [drivers]
    exact sound.batched
  · rw [drivers, said]
    exact sound.said
  · intro w member
    rw [said]
    exact sound.confirmed w (confirmed w member)

/-! One step. -/

theorem meetWaiters (fate : Waiter → Fate) : (c.meet fate).waiters = c.waiters.filterMap fun w => (fate w).kept? := by
  unfold waiters meet
  cases c.queue with
  | none => rfl
  | some queue => rfl

theorem meetConfirmed {fate : Waiter → Fate} {w : Waiter} (member : (w,.confirmed) ∈ (c.meet fate).answers) :
    (fate w).resolution? = some .confirmed ∨ (w,.confirmed) ∈ c.answers := by
  rcases List.mem_append.mp member with new | old
  · obtain ⟨v,_,is⟩ := List.mem_filterMap.mp new
    obtain ⟨resolution,resolved,same⟩ := Option.map_eq_some_iff.mp is
    cases same
    exact Or.inl resolved
  · exact Or.inr old

theorem Driven.moved {queue : PeerQueue} {phase : Phase} (driven : Driven c queue phase) (next : Phase) :
    Driven (c.moved 0 next) queue next := by
  refine ⟨driven.there,driven.driving,?_⟩
  unfold Confirmer.moved
  rw [driven.drivers]
  rfl

/- A phase as far along, which has ended in no answer. -/
theorem Driven.movedSound {queue : PeerQueue} {phase next : Phase} (driven : Driven c queue phase) (sound : Sound c)
    (same : next.since? = phase.since?) (batched : next.Batched)
    (unanswered : ∀ answer since, next ≠ .ended (.answered answer) since) : Sound (c.moved 0 next) := by
  have only : phase ∈ c.drivers := by
    rw [driven.drivers]
    exact List.mem_singleton_self phase
  refine (driven.moved next).sound ?_ ?_ ?_ batched (fun answer since is => absurd is (unanswered answer since)) sound.confirmed
  · rw [← driven.waiters]
    exact sound.issued
  · rw [same]
    exact sound.since phase only
  · rw [same, ← driven.waiters]
    exact sound.flags phase only

theorem Sound.cancel (sound : Sound c) (ticket : Nat) : Sound (c.cancel ticket) := by
  cases there : c.queue with
  | none =>
    have same : c.cancel ticket = c := by
      unfold Confirmer.cancel
      rw [there]
      cases c
      exact congrArg (Confirmer.mk · _ _ _ _) there.symm
    rw [same]
    exact sound
  | some queue =>
    have held : c.waiters = queue.waiters := by
      unfold Confirmer.waiters
      rw [there]
      rfl
    have now : (c.cancel ticket).queue = some { queue with
        waiters := queue.waiters.map fun w => if w.ticket = ticket then { w with closed := true } else w } := by
      unfold Confirmer.cancel
      rw [there]
      rfl
    refine sound.beside rfl ?_ (fun other is idle => ?_) (fun w member => ?_) le_rfl rfl fun w => id
    · rw [now, there]
      rfl
    · rw [now] at is
      cases is
      have empty : queue.waiters = [] := sound.waits queue there idle
      simp only [empty, List.map_nil]
    · unfold Confirmer.waiters at member
      rw [now] at member
      obtain ⟨v,old,rfl⟩ := List.mem_map.mp member
      refine ⟨v,held ▸ old,?_⟩
      split_ifs <;> exact ⟨rfl,rfl⟩

/- Only a queue that nothing waits in and nobody drives is dropped. -/
theorem Sound.elsewhere (sound : Sound c) (now : Nat) : Sound (c.elsewhere config now) := by
  unfold Confirmer.elsewhere
  cases there : c.queue with
  | none => exact sound.beside rfl (by rw [there]; rfl) nofun nofun le_rfl rfl fun w => id
  | some queue =>
    cases idle : queue.idle now config.maxBackoff with
    | false =>
      have same : Option.filter (fun queue : PeerQueue => !queue.idle now config.maxBackoff) (some queue) = c.queue := by
        rw [there, Option.filter_some, idle]
        rfl
      rw [same]
      exact sound
    | true =>
      unfold PeerQueue.idle at idle
      simp only [Bool.and_eq_true, Bool.not_eq_true', List.isEmpty_iff] at idle
      have none : c.drivers = [] := by
        have length := sound.drivers
        rw [there, Option.any_some, idle.1.2, if_neg (by simp)] at length
        exact List.length_eq_zero_iff.mp length
      refine idleSound none (fun q is => ?_) sound.confirmed
      rw [Option.filter_some] at is
      split_ifs at is
      cases is
      exact ⟨idle.1.2,idle.1.1⟩

/- The queue an enqueue finds: its waiters and its driver, with the back-off of an older life of the member gone. -/
theorem foundQueue (generation : Option Nat) : ∃ queue : PeerQueue, queue.waiters = c.waiters ∧
    queue.driving = c.queue.any PeerQueue.driving ∧ ∀ now stamp node, c.enqueue now generation stamp node =
      if queue.backoff.any fun b => now < b.ends then
        { c with queue := some queue, issued := c.issued + 1, answers := (⟨c.issued,stamp,node,false,false⟩,backingOff) :: c.answers }
      else { c with
        queue := some { queue with waiters := queue.waiters ++ [⟨c.issued,stamp,node,false,false⟩], driving := true }
        drivers := if queue.driving then c.drivers else c.drivers ++ [.looping]
        issued := c.issued + 1 } := by
  refine ⟨_,?_,?_,fun now stamp node => rfl⟩
  · unfold Confirmer.waiters
    cases c.queue with
    | none => rfl
    | some queue =>
      simp only [Option.getD_some, Option.map_some]
      split_ifs <;> rfl
  · cases c.queue with
    | none => rfl
    | some queue =>
      simp only [Option.getD_some, Option.any_some]
      split_ifs <;> rfl

theorem Sound.enqueue (sound : Sound c) (now : Nat) (generation : Option Nat) (stamp : Stamp) (node : NodeId) :
    Sound (c.enqueue now generation stamp node) := by
  obtain ⟨queue,waiters,driving,is⟩ := @foundQueue c generation
  have empty : queue.driving = false → queue.waiters = [] := by
    intro idle
    rw [waiters]
    unfold Confirmer.waiters
    cases there : c.queue with
    | none => rfl
    | some q =>
      rw [driving, there] at idle
      exact sound.waits q there idle
  rw [is]
  split_ifs with backing drives
  · refine sound.beside rfl driving (fun q same idle => ?_) (fun w member => ⟨w,waiters ▸ member,rfl,rfl⟩) (Nat.le_succ _) rfl
      fun w member => ?_
    · cases same
      exact empty idle
    · rcases List.mem_cons.mp member with new | old
      · cases new
      · exact old
  · -- the driver that is there will carry it
    have length := sound.drivers
    rw [← driving, if_pos drives] at length
    obtain ⟨phase,drivers⟩ := List.length_eq_one_iff.mp length
    have only : phase ∈ c.drivers := by
      rw [drivers]
      exact List.mem_singleton_self phase
    refine @Driven.sound _ { queue with waiters := queue.waiters ++ [⟨c.issued,stamp,node,false,false⟩], driving := true } phase
      ⟨rfl,rfl,drivers⟩ (fun w member => ?_) (fun since at' => ?_) (fun w member => ?_) (sound.batched phase only) (sound.said phase only)
      sound.confirmed
    · rcases List.mem_append.mp member with old | new
      · exact Nat.lt_succ_of_lt (sound.issued w (waiters ▸ old))
      · cases List.mem_singleton.mp new
        exact Nat.lt_succ_self _
    · exact Nat.le_succ_of_le (sound.since phase only since at')
    · rcases List.mem_append.mp member with old | new
      · exact sound.flags phase only w (waiters ▸ old)
      · cases List.mem_singleton.mp new
        refine iff_of_false (by simp) ?_
        rintro ⟨since,at',below⟩
        exact absurd (sound.since phase only since at') (not_le.mpr below)
  · have idle : queue.driving = false := by simpa using drives
    have none : c.drivers = [] := by
      have length := sound.drivers
      rw [← driving, if_neg drives] at length
      exact List.length_eq_zero_iff.mp length
    refine @Driven.sound _ { queue with waiters := queue.waiters ++ [⟨c.issued,stamp,node,false,false⟩], driving := true } .looping
      ⟨rfl,rfl,?_⟩ (fun w member => ?_) nofun (fun w member => ?_) trivial nofun sound.confirmed
    · rw [none]
      rfl
    all_goals
      rw [empty idle] at member
      cases List.mem_singleton.mp member
    · exact Nat.lt_succ_self _
    · simp [Phase.since?]

theorem Sound.leaves (sound : Sound c) {queue : PeerQueue} {phase : Phase} (driven : Driven c queue phase)
    {answers : List (Waiter × Resolution)} (confirmed : ∀ w, (w,.confirmed) ∈ answers → (w,.confirmed) ∈ c.answers) :
    Sound ({ c with answers }.leaves 0 queue) := by
  refine idleSound ?_ (fun q is => ?_) fun w member => sound.confirmed w (confirmed w member)
  · unfold Confirmer.leaves
    simp only [driven.drivers]
    rfl
  · unfold Confirmer.leaves at is
    simp only at is
    split_ifs at is
    cases is
    exact ⟨rfl,rfl⟩

theorem Sound.loop (sound : Sound c) {queue : PeerQueue} (driven : Driven c queue .looping) : Sound (c.loop 0) := by
  have only : .looping ∈ c.drivers := by
    rw [driven.drivers]
    exact List.mem_singleton_self _
  unfold Confirmer.loop
  simp only [driven.there]
  split_ifs
  · exact sound.leaves driven fun w => id
  · have kept (w : Waiter) (member : w ∈ queue.waiters.filter fun w => !w.closed) : w ∈ c.waiters := by
      rw [driven.waiters]
      exact List.mem_of_mem_filter member
    refine @Driven.sound _ { queue with waiters := queue.waiters.filter fun w => !w.closed } .dialling ⟨rfl,driven.driving,?_⟩
      (fun w member => sound.issued w (kept w member)) nofun (fun w member => sound.flags _ only w (kept w member)) trivial nofun
      sound.confirmed
    unfold Confirmer.moved
    simp only [driven.drivers]
    rfl

theorem Sound.witnessed (sound : Sound c) {queue : PeerQueue} {theirNode : NodeId} (driven : Driven c queue (.asking theirNode))
    (held : VersionVector) : Sound (c.witnessed addr 0 theirNode held) := by
  unfold Confirmer.witnessed
  simp only [driven.there, Option.isNone_some, Bool.false_eq_true, if_false]
  generalize List.length _ = flagged
  refine @Driven.sound _ { queue with waiters := queue.waiters.filterMap fun w => (snapshotFate addr theirNode held w).kept? }
    (.batched theirNode held flagged c.issued) ⟨?_,driven.driving,?_⟩ (fun w member => ?_) (fun since is => ?_)
    (fun w member => ?_) trivial nofun fun w member => ?_
  · rfl
  · unfold Confirmer.moved meet
    simp only [driven.drivers]
    rfl
  · obtain ⟨v,old,kept⟩ := List.mem_filterMap.mp member
    rw [snapshotKept kept]
    exact sound.issued v (driven.waiters ▸ old)
  · cases is
    exact le_rfl
  · obtain ⟨v,old,kept⟩ := List.mem_filterMap.mp member
    rw [snapshotKept kept]
    exact iff_of_true rfl ⟨c.issued,rfl,sound.issued v (driven.waiters ▸ old)⟩
  · rcases meetConfirmed member with new | old
    · exact ⟨_,List.mem_cons_self,snapshotConfirmed new⟩
    · obtain ⟨word,there,vouches⟩ := sound.confirmed w old
      exact ⟨word,List.mem_cons_of_mem _ there,vouches⟩

/- Whatever stops it, the push has taken its batch. -/
theorem offeredPhase (theirNode : NodeId) (held : VersionVector) (flagged since : Nat) (served : Served) :
    (∃ sent versions, c.offered theirNode held flagged since served = .sending theirNode sent versions since) ∨
      (∃ unreached, c.offered theirNode held flagged since served = .ended (.nothingSent theirNode unreached) (some since)) ∨
      ∃ reason, c.offered theirNode held flagged since served = .ended (.failed ⟨false,true,some theirNode,reason⟩) (some since) := by
  unfold Confirmer.offered
  simp only
  split_ifs
  · exact Or.inr (Or.inl ⟨_,rfl⟩)
  · split
    · exact Or.inr (Or.inr ⟨_,rfl⟩)
    · split_ifs
      · exact Or.inr (Or.inl ⟨_,rfl⟩)
      · split
        · exact Or.inr (Or.inr ⟨_,rfl⟩)
        · exact Or.inr (Or.inl ⟨_,rfl⟩)
        · split
          · exact Or.inr (Or.inr ⟨_,rfl⟩)
          · split_ifs
            · exact Or.inr (Or.inl ⟨_,rfl⟩)
            · exact Or.inl ⟨_,_,rfl⟩
            · exact Or.inr (Or.inl ⟨_,rfl⟩)

theorem Sound.serve (sound : Sound c) {queue : PeerQueue} {theirNode : NodeId} {held : VersionVector} {flagged since : Nat}
    (driven : Driven c queue (.batched theirNode held flagged since)) (served : Served) :
    Sound (c.moved 0 (c.offered theirNode held flagged since served)) := by
  rcases @offeredPhase c theirNode held flagged since served with ⟨sent,versions,is⟩ | ⟨unreached,is⟩ | ⟨reason,is⟩
  · rw [is]
    exact driven.movedSound sound rfl trivial nofun
  · rw [is]
    exact driven.movedSound sound rfl rfl nofun
  · rw [is]
    exact driven.movedSound sound rfl rfl nofun

theorem Sound.pushed (sound : Sound c) {queue : PeerQueue} {theirNode : NodeId} {sent : List Stamp} {versions : VersionVector}
    {since : Nat} (driven : Driven c queue (.sending theirNode sent versions since)) (answer : Answer) :
    Sound ({ c with said := .answered answer :: c.said }.moved 0 (.ended (.answered answer) (some since))) := by
  have only : .sending theirNode sent versions since ∈ c.drivers := by
    rw [driven.drivers]
    exact List.mem_singleton_self _
  refine @Driven.sound _ queue (.ended (.answered answer) (some since)) ⟨driven.there,driven.driving,?_⟩ ?_ ?_ ?_ rfl
    (fun other s is => ?_) fun w member => ?_
  · unfold Confirmer.moved
    simp only [driven.drivers]
    rfl
  · rw [← driven.waiters]
    exact sound.issued
  · exact sound.since (.sending theirNode sent versions since) only
  · rw [← driven.waiters]
    exact sound.flags (.sending theirNode sent versions since) only
  · cases is
    exact List.mem_cons_self
  · obtain ⟨word,there,vouches⟩ := sound.confirmed w member
    exact ⟨word,List.mem_cons_of_mem _ there,vouches⟩

theorem Sound.fails (sound : Sound c) {queue : PeerQueue} {phase : Phase} (driven : Driven c queue phase) (reason : String) :
    Sound (c.moved 0 (failedAt reason phase)) := by
  cases phase with
  | dialling | asking | batched | sending => exact driven.movedSound sound rfl rfl nofun
  | looping | pausing => exact driven.movedSound sound rfl trivial nofun
  | ended result since =>
    have same : c.moved 0 (failedAt reason (.ended result since)) = c := by
      unfold Confirmer.moved
      rw [driven.drivers]
      cases c
      exact congrArg (Confirmer.mk _ · _ _ _) driven.drivers.symm
    rw [same]
    exact sound

/- The waiters the end of a push keeps are the next push's. -/
theorem Sound.settled (sound : Sound c) {queue : PeerQueue} {result : PushResult} {since : Option Nat}
    (driven : Driven c queue (.ended result since)) {next : Phase} (rests : next = .looping ∨ next = .pausing)
    (backoff : Option Backoff) : Sound { (c.meet (settleFate addr result)).moved 0 next with
      queue := some ⟨queue.waiters.filterMap fun w => (settleFate addr result w).kept?,queue.driving,backoff⟩ } := by
  have only : .ended result since ∈ c.drivers := by
    rw [driven.drivers]
    exact List.mem_singleton_self _
  have ahead : next.since? = none := by
    rcases rests with rfl | rfl <;> rfl
  refine @Driven.sound _ _ next ⟨rfl,driven.driving,?_⟩ (fun w member => ?_) (fun s is => ?_) (fun w member => ?_)
    ?_ (fun answer s is => ?_) fun w member => ?_
  · unfold Confirmer.moved meet
    simp only [driven.drivers]
    rfl
  · obtain ⟨v,old,kept⟩ := List.mem_filterMap.mp member
    rw [settleKept kept]
    exact sound.issued v (driven.waiters ▸ old)
  · rw [ahead] at is
    cases is
  · obtain ⟨v,old,kept⟩ := List.mem_filterMap.mp member
    rw [settleKept kept, ahead]
    simp
  · rcases rests with rfl | rfl <;> trivial
  · rcases rests with rfl | rfl <;> cases is
  · rcases meetConfirmed member with new | old
    · obtain ⟨answer,rfl,vouches⟩ := settleConfirmed new
      exact ⟨_,sound.said _ only answer since rfl,vouches⟩
    · exact sound.confirmed w old

theorem Sound.settle (sound : Sound c) {queue : PeerQueue} {result : PushResult} {since : Option Nat}
    (driven : Driven c queue (.ended result since)) (now : Nat) (generation : Option Nat) :
    Sound (c.settle config addr 0 result now generation) := by
  unfold Confirmer.settle
  simp only [driven.there]
  cases result with
  | answered answer =>
    have done := @Sound.settled addr c sound _ _ _ driven _ (.inl rfl) none
    unfold Confirmer.moved meet at *
    rw [driven.there] at *
    exact done
  | nothingSent theirNode unreached =>
    have done := @Sound.settled addr c sound _ _ _ driven _ (.inl rfl) queue.backoff
    unfold Confirmer.moved meet at *
    rw [driven.there] at *
    exact done
  | failed failure =>
    simp only
    split_ifs
    · have done := @Sound.settled addr c sound _ _ _ driven _ (.inl rfl) (some (nextBackoff config queue now generation))
      unfold Confirmer.moved meet at *
      rw [driven.there] at *
      exact done
    · have done := @Sound.settled addr c sound _ _ _ driven _ (.inr rfl) queue.backoff
      unfold Confirmer.moved meet at *
      rw [driven.there] at *
      exact done

theorem Sound.dies (sound : Sound c) {queue : PeerQueue} {phase : Phase} (driven : Driven c queue phase) : Sound (c.dies 0) := by
  unfold Confirmer.dies
  simp only [driven.there]
  refine sound.leaves driven fun w member => ?_
  rcases List.mem_append.mp member with new | old
  · obtain ⟨v,_,is⟩ := List.mem_map.mp new
    cases is
  · exact old

theorem Sound.step (sound : Sound c) (step : Step) : Sound (c.step config addr step) := by
  cases step with
  | enqueue now generation stamp node => exact sound.enqueue now generation stamp node
  | cancel ticket => exact sound.cancel ticket
  | elsewhere now => exact sound.elsewhere now
  | loop driver =>
    simp only [Confirmer.step]
    split
    next at' =>
      obtain ⟨rfl,queue,driven⟩ := sound.driven at'
      exact sound.loop driven
    · exact sound
  | dialled driver theirNode =>
    simp only [Confirmer.step]
    split
    next at' =>
      obtain ⟨rfl,queue,driven⟩ := sound.driven at'
      exact driven.movedSound sound rfl trivial nofun
    · exact sound
  | witnessed driver held =>
    simp only [Confirmer.step]
    split
    next at' =>
      obtain ⟨rfl,queue,driven⟩ := sound.driven at'
      exact sound.witnessed driven held
    · exact sound
  | serve driver served =>
    simp only [Confirmer.step]
    split
    next at' =>
      obtain ⟨rfl,queue,driven⟩ := sound.driven at'
      exact sound.serve driven served
    · exact sound
  | pushed driver reply =>
    simp only [Confirmer.step]
    split
    next at' =>
      obtain ⟨rfl,queue,driven⟩ := sound.driven at'
      exact sound.pushed driven _
    · exact sound
  | fails driver reason =>
    simp only [Confirmer.step]
    split
    next at' =>
      obtain ⟨rfl,queue,driven⟩ := sound.driven at'
      exact sound.fails driven reason
    · exact sound
  | settle driver now generation =>
    simp only [Confirmer.step]
    split
    next at' =>
      obtain ⟨rfl,queue,driven⟩ := sound.driven at'
      exact sound.settle driven now generation
    · exact sound
  | wake driver =>
    simp only [Confirmer.step]
    split
    next at' =>
      obtain ⟨rfl,queue,driven⟩ := sound.driven at'
      exact driven.movedSound sound rfl trivial nofun
    · exact sound
  | dies driver =>
    simp only [Confirmer.step]
    split
    next at' =>
      obtain ⟨rfl,queue,driven⟩ := sound.driven at'
      exact sound.dies driven
    · exact sound

theorem runSound (steps : List Step) : Sound (run config addr steps) :=
  List.foldlRecOn steps _ soundNew fun _ sound step _ => sound.step step

end
end Confirmer

end Kimmy.Confirm
