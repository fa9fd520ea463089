import Kimmy.Confirm.Answered

/-!
How long a change waits. The end of a push answers its whole batch, and the batch of the next one takes in all that came before it:
no change waits past the end of a second push.
-/
namespace Kimmy.Confirm
open Merge Store

/- What the end of a push keeps was not in its batch, and there was one. -/
theorem settleLate {addr : String} {result : PushResult} {w v : Waiter} (is : (settleFate addr result w).kept? = some v) :
    w.preQueued = false ∧ ∀ failure, result = .failed failure → failure.snapshotted = true := by
  cases result with
  | answered answer =>
    simp only [settleFate] at is
    split_ifs at is
    · cases is
    · split at is
      · cases is
      next carried =>
        rcases resolveCases w answer with ⟨_,resolved⟩ | passed
        · rw [carried] at resolved
          cases resolved
        · rw [carried] at passed
          unfold Passed at passed
          split_ifs at passed with early
          · obtain ⟨_,no,_⟩ := passed
            cases no
          · exact ⟨by simpa using early,fun failure no => by cases no⟩
  | nothingSent theirNode unreached =>
    simp only [settleFate] at is
    split_ifs at is with other early
    · cases is
    · cases is
    · exact ⟨by simpa using early,fun failure no => by cases no⟩
  | failed failure =>
    simp only [settleFate] at is
    split_ifs at is with other early sent
    · cases is
    · cases is
    · cases is
    · rw [Bool.or_eq_true, not_or] at early
      refine ⟨by simpa using early.1,fun own same => ?_⟩
      cases same
      simpa using early.2

namespace Confirmer
section
variable {config : ConfirmConfig} {addr : String} {c : Confirmer}

theorem settleWaiters {queue : PeerQueue} {driver : Nat} {result : PushResult} {now : Nat} {generation : Option Nat}
    (there : c.queue = some queue) : (c.settle config addr driver result now generation).waiters =
      c.waiters.filterMap fun w => (settleFate addr result w).kept? := by
  unfold settle
  simp only [there]
  rw [← meetWaiters]
  unfold waiters moved meet
  cases result with
  | answered answer =>
    simp only [there]
    rfl
  | nothingSent theirNode unreached => rfl
  | failed failure =>
    simp only
    split_ifs
    · simp only [there]
      rfl
    · rfl

/- Every waiter that the end of a push leaves came after its batch. -/
theorem Sound.settledLate (sound : Sound c) {driver : Nat} {result : PushResult} {since : Option Nat}
    (at' : c.drivers[driver]? = some (.ended result since)) {now : Nat} {generation : Option Nat} {w : Waiter}
    (left : w ∈ (c.settle config addr driver result now generation).waiters) : ∃ first, since = some first ∧ first ≤ w.ticket := by
  obtain ⟨rfl,queue,driven⟩ := sound.driven at'
  have member : .ended result since ∈ c.drivers := List.mem_of_getElem? at'
  rw [settleWaiters driven.there] at left
  obtain ⟨v,old,kept⟩ := List.mem_filterMap.mp left
  obtain ⟨late,took⟩ := settleLate kept
  cases since with
  | none =>
    have batched := sound.batched _ member
    cases result with
    | answered answer => cases batched
    | nothingSent theirNode unreached => cases batched
    | failed failure =>
      rw [Phase.Batched, took failure rfl] at batched
      cases batched
  | some first =>
    refine ⟨first,rfl,not_lt.mp fun below => ?_⟩
    rw [settleKept kept] at below
    have early := (sound.flags _ member v old).mpr ⟨first,rfl,below⟩
    rw [late] at early
    cases early

/-! The batch in flight. -/

theorem failedSince (reason : String) (phase : Phase) : (failedAt reason phase).since? = phase.since? := by
  cases phase <;> rfl

theorem movedSince {driver : Nat} {next phase : Phase} {since : Nat} (member : phase ∈ (c.moved driver next).drivers)
    (is : phase.since? = some since) (new : next.since? = some since → since = c.issued ∨ ∃ old ∈ c.drivers, old.since? = some since) :
    since = c.issued ∨ ∃ old ∈ c.drivers, old.since? = some since := by
  rcases List.mem_or_eq_of_mem_set member with old | rfl
  · exact Or.inr ⟨phase,old,is⟩
  · exact new is

/- A batch is taken of all that was issued. -/
theorem sinceStep {step : Step} {phase : Phase} {since : Nat} (member : phase ∈ (c.step config addr step).drivers)
    (is : phase.since? = some since) : since = c.issued ∨ ∃ old ∈ c.drivers, old.since? = some since := by
  have same (old : phase ∈ c.drivers) : since = c.issued ∨ ∃ old ∈ c.drivers, old.since? = some since := Or.inr ⟨phase,old,is⟩
  cases step with
  | enqueue now generation stamp node =>
    obtain ⟨queue,_,_,law⟩ := @foundQueue c generation
    simp only [Confirmer.step] at member
    rw [law] at member
    split_ifs at member
    · exact same member
    · exact same member
    · rcases List.mem_append.mp member with old | new
      · exact same old
      · rw [List.mem_singleton.mp new] at is
        cases is
  | cancel ticket => exact same member
  | elsewhere now => exact same member
  | loop driver =>
    simp only [Confirmer.step] at member
    split at member
    · unfold loop at member
      split at member
      · exact same (List.mem_of_mem_eraseIdx member)
      · simp only at member
        split_ifs at member
        · exact same (List.mem_of_mem_eraseIdx member)
        · exact @movedSince { c with queue := _ } _ _ _ _ member is fun no => by cases no
    · exact same member
  | dialled driver theirNode =>
    simp only [Confirmer.step] at member
    split at member
    · exact movedSince member is fun no => by cases no
    · exact same member
  | witnessed driver held =>
    simp only [Confirmer.step] at member
    split at member
    · unfold witnessed at member
      simp only at member
      split_ifs at member
      · exact @movedSince { c with said := _ } _ _ _ _ member is fun no => by cases no
      · refine @movedSince { c with queue := _, answers := _, said := _ } _ _ _ _ member is fun new => Or.inl ?_
        cases new
        rfl
    · exact same member
  | serve driver served =>
    simp only [Confirmer.step] at member
    split at member
    next theirNode held flagged first at' =>
      refine movedSince member is fun new => Or.inr ⟨_,List.mem_of_getElem? at',?_⟩
      rcases @offeredPhase c theirNode held flagged first served with ⟨sent,versions,law⟩ | ⟨unreached,law⟩ | ⟨reason,law⟩
      all_goals
        rw [law] at new
        exact new
    · exact same member
  | pushed driver reply =>
    simp only [Confirmer.step] at member
    split at member
    next theirNode sent versions first at' =>
      exact @movedSince { c with said := _ } _ _ _ _ member is fun new => Or.inr ⟨_,List.mem_of_getElem? at',new⟩
    · exact same member
  | fails driver reason =>
    simp only [Confirmer.step] at member
    split at member
    next old at' =>
      refine movedSince member is fun new => Or.inr ⟨old,List.mem_of_getElem? at',?_⟩
      rwa [failedSince] at new
    · exact same member
  | settle driver now generation =>
    simp only [Confirmer.step] at member
    split at member
    next result _ at' =>
      unfold settle at member
      split at member
      · exact movedSince member is fun no => by cases no
      · cases result with
        | answered answer => exact @movedSince { c with queue := _, answers := _ } _ _ _ _ member is fun no => by cases no
        | nothingSent theirNode unreached => exact @movedSince { c with queue := _, answers := _ } _ _ _ _ member is fun no => by cases no
        | failed failure =>
          simp only at member
          split_ifs at member <;> exact @movedSince { c with queue := _, answers := _ } _ _ _ _ member is fun no => by cases no
    · exact same member
  | wake driver =>
    simp only [Confirmer.step] at member
    split at member
    · exact movedSince member is fun no => by cases no
    · exact same member
  | dies driver =>
    simp only [Confirmer.step] at member
    split at member
    · unfold dies at member
      split at member
      · exact same (List.mem_of_mem_eraseIdx member)
      · exact same (List.mem_of_mem_eraseIdx member)
    · exact same member

/-! Pushes that end. -/

/- The push in flight, once it has its batch, has the change in it. -/
def Covered (c : Confirmer) (ticket : Nat) : Prop := ∀ phase ∈ c.drivers, ∀ since, phase.since? = some since → ticket < since

theorem Sound.settledCovered (sound : Sound c) {driver : Nat} {result : PushResult} {since : Option Nat}
    (at' : c.drivers[driver]? = some (.ended result since)) (now : Nat) (generation : Option Nat) (ticket : Nat) :
    (c.settle config addr driver result now generation).Covered ticket := by
  obtain ⟨rfl,queue,driven⟩ := sound.driven at'
  have rests : (c.settle config addr 0 result now generation).drivers = [.looping] ∨
      (c.settle config addr 0 result now generation).drivers = [.pausing] := by
    unfold Confirmer.settle
    simp only [driven.there]
    unfold Confirmer.moved meet
    rw [driven.drivers]
    cases result with
    | answered answer => exact Or.inl rfl
    | nothingSent theirNode unreached => exact Or.inl rfl
    | failed failure =>
      simp only
      split_ifs
      · exact Or.inl rfl
      · exact Or.inr rfl
  intro phase member since' is
  rcases rests with rests | rests
  all_goals
    rw [rests] at member
    rw [List.mem_singleton.mp member] at is
    cases is

/- How many pushes may yet end before the change is answered. -/
def Due (c : Confirmer) (ticket : Nat) : Nat → Prop
  | 0 => ticket ∉ c.waiters.map Waiter.ticket
  | 1 => c.Covered ticket
  | _ => True

theorem goneStep {step : Step} {ticket : Nat} (below : ticket < c.issued) (gone : ticket ∉ c.waiters.map Waiter.ticket) :
    ticket ∉ (c.step config addr step).waiters.map Waiter.ticket := by
  have absent (w : Waiter) (member : w ∈ c.waiters) : w.ticket ≠ ticket := fun same => gone (same ▸ List.mem_map_of_mem member)
  intro there
  obtain ⟨w,member,rfl⟩ := List.mem_map.mp there
  cases step with
  | enqueue now generation stamp node =>
    obtain ⟨queue,held,_,law⟩ := @foundQueue c generation
    simp only [Confirmer.step] at member
    rw [law] at member
    have old (inside : w ∈ queue.waiters) : False := absent w (held ▸ inside) rfl
    split_ifs at member
    · exact old member
    all_goals
      rcases List.mem_append.mp member with inside | new
      · exact old inside
      · rw [List.mem_singleton.mp new] at below
        exact absurd below (lt_irrefl _)
  | cancel other =>
    simp only [Confirmer.step] at member
    rw [cancelWaiters] at member
    obtain ⟨v,inside,same⟩ := List.mem_map.mp member
    refine absent v inside ?_
    rw [← same]
    split_ifs <;> rfl
  | _ =>
    obtain ⟨v,inside,same⟩ := (stepPasses (by simp) (by simp)).waits w member
    exact absent v inside same

theorem dueStep {step : Step} {ticket n : Nat} (below : ticket < c.issued) (due : c.Due ticket n) : (c.step config addr step).Due ticket n := by
  rcases n with _ | _ | n
  · exact goneStep below due
  · intro phase member since is
    rcases sinceStep member is with rfl | ⟨old,there,same⟩
    · exact below
    · exact due old there since same
  · trivial

theorem Sound.dueSettled (sound : Sound c) {driver : Nat} {result : PushResult} {since : Option Nat}
    (at' : c.drivers[driver]? = some (.ended result since)) (now : Nat) (generation : Option Nat) {ticket n : Nat} (due : c.Due ticket (n + 1)) :
    (c.settle config addr driver result now generation).Due ticket n := by
  rcases n with _ | _ | n
  · intro there
    obtain ⟨w,left,rfl⟩ := List.mem_map.mp there
    obtain ⟨first,rfl,after⟩ := sound.settledLate at' left
    have before := due _ (List.mem_of_getElem? at') first rfl
    omega
  · exact sound.settledCovered at' now generation ticket
  · trivial

/- The step is the end of a push. -/
def settles (c : Confirmer) : Step → Bool
  | .settle driver _ _ => match c.drivers[driver]? with
      | some (.ended _ _) => true
      | _ => false
  | _ => false

def settlements (config : ConfirmConfig) (addr : String) : Confirmer → List Step → Nat
  | _, [] => 0
  | c, step :: steps => (if c.settles step then 1 else 0) + settlements config addr (c.step config addr step) steps

theorem Sound.dueNext (sound : Sound c) {step : Step} {ticket n : Nat} (below : ticket < c.issued)
    (due : c.Due ticket ((if c.settles step then 1 else 0) + n)) : (c.step config addr step).Due ticket n := by
  split_ifs at due with ends
  · cases step with
    | settle driver now generation =>
      simp only [settles] at ends
      split at ends
      next result since at' =>
        rw [Nat.add_comm] at due
        simp only [Confirmer.step, at']
        exact sound.dueSettled at' now generation due
      · cases ends
    | _ => cases ends
  · rw [Nat.zero_add] at due
    exact dueStep below due

theorem issuedStep (step : Step) : c.issued ≤ (c.step config addr step).issued := by
  cases step with
  | enqueue now generation stamp node =>
    simp only [Confirmer.step]
    rw [enqueueIssued]
    exact Nat.le_succ _
  | cancel ticket => exact le_rfl
  | _ => exact (stepPasses (by simp) (by simp)).issued.ge

theorem Sound.dueRun (sound : Sound c) {ticket n : Nat} (below : ticket < c.issued) {steps : List Step}
    (due : c.Due ticket (settlements config addr c steps + n)) : (steps.foldl (Confirmer.step config addr) c).Due ticket n := by
  induction steps generalizing c with
  | nil => rwa [settlements, Nat.zero_add] at due
  | cons step steps ih =>
    rw [settlements, Nat.add_assoc] at due
    exact ih (sound.step step) (below.trans_le (issuedStep step)) (sound.dueNext below due)

theorem waitsTwoPushes (config : ConfirmConfig) (addr : String) (before after : List Step)
    (ended : 2 ≤ settlements config addr (run config addr before) after) : ∀ ticket < (run config addr before).issued,
      ticket ∉ (run config addr (before ++ after)).waiters.map Waiter.ticket ∧ (.cancel ticket ∉ before ++ after →
        ∃ x ∈ (run config addr (before ++ after)).answers, x.1.ticket = ticket) := by
  intro ticket below
  have joined : run config addr (before ++ after) = after.foldl (step config addr) (run config addr before) := List.foldl_append
  have gone : ticket ∉ (run config addr (before ++ after)).waiters.map Waiter.ticket := by
    rw [joined]
    refine @Sound.dueRun config addr _ (runSound before) ticket 0 below after ?_
    obtain ⟨n,is⟩ := Nat.exists_eq_add_of_le' ended
    rw [is]
    trivial
  refine ⟨gone,fun wanted => ?_⟩
  have issued : ticket < (run config addr (before ++ after)).issued := by
    rw [joined]
    refine below.trans_le ?_
    exact @List.foldlRecOn _ _ (fun d : Confirmer => (run config addr before).issued ≤ d.issued) after _ _ le_rfl
      fun d least step _ => least.trans (issuedStep step)
  rcases runPresent issued wanted with ⟨w,member,rfl,_⟩ | told
  · exact absurd (List.mem_map_of_mem member) gone
  · exact told

/- Two pushes that fail as they dial, the second for a change that came while the driver paused. -/
theorem dialledTwice : ∃ x ∈ (run ⟨1,8,2⟩ "peer" ([.enqueue 0 none ⟨⟨5,0⟩,1⟩ 2,.loop 0] ++ [.fails 0 "refused",.settle 0 3 none,
    .enqueue 4 none ⟨⟨6,0⟩,1⟩ 2,.wake 0,.loop 0,.fails 0 "refused",.settle 0 9 none])).answers, x.1.ticket = 0 :=
  (waitsTwoPushes ⟨1,8,2⟩ "peer" [.enqueue 0 none ⟨⟨5,0⟩,1⟩ 2,.loop 0] [.fails 0 "refused",.settle 0 3 none,
    .enqueue 4 none ⟨⟨6,0⟩,1⟩ 2,.wake 0,.loop 0,.fails 0 "refused",.settle 0 9 none] (by decide) 0 (by decide)).2 (by simp)

end
end Confirmer
end Kimmy.Confirm
