import Kimmy.Confirm.Driven

/-!
Every change that is queued is told once how it went. A ticket waits or was answered, never both, and none that is still wanted
is dropped; what waits has a driver, and the word a confirmation rests on was said.
-/
namespace Kimmy.Confirm
open Merge Store

namespace Confirmer
section
variable {config : ConfirmConfig} {addr : String} {c d : Confirmer}

/- Of those that wait and of those that were answered. -/
def tickets (c : Confirmer) : List Nat := c.waiters.map Waiter.ticket ++ c.answers.map fun x => x.1.ticket

/- No ticket is made, none is doubled, and none that is wanted goes missing. -/
structure Passes (c d : Confirmer) : Prop where
  issued : d.issued = c.issued
  once : ∀ ticket, d.tickets.count ticket ≤ c.tickets.count ticket
  wanted : ∀ w ∈ c.waiters, w.closed = false →
    (∃ v ∈ d.waiters, v.ticket = w.ticket ∧ v.closed = false) ∨ ∃ x ∈ d.answers, x.1.ticket = w.ticket
  answered : ∀ x ∈ c.answers, x ∈ d.answers
  waits : ∀ w ∈ d.waiters, ∃ v ∈ c.waiters, v.ticket = w.ticket

theorem passesSame (waiters : d.waiters = c.waiters) (answers : d.answers = c.answers) (issued : d.issued = c.issued) : Passes c d := by
  refine ⟨issued,fun ticket => ?_,fun w member wanted => ?_,fun x member => ?_,fun w member => ⟨w,?_,rfl⟩⟩
  · unfold tickets
    rw [waiters, answers]
  · rw [waiters]
    exact Or.inl ⟨w,member,rfl,wanted⟩
  · rw [answers]
    exact member
  · rw [← waiters]
    exact member

theorem Passes.trans {e : Confirmer} (first : Passes c d) (second : Passes d e) : Passes c e := by
  refine ⟨second.issued.trans first.issued,fun ticket => (second.once ticket).trans (first.once ticket),fun w member wanted => ?_,
    fun x member => second.answered x (first.answered x member),fun w member => ?_⟩
  · rcases first.wanted w member wanted with ⟨v,held,same,open'⟩ | ⟨x,told,same⟩
    · rw [← same]
      exact second.wanted v held open'
    · exact Or.inr ⟨x,second.answered x told,same⟩
  · obtain ⟨v,held,same⟩ := second.waits w member
    rw [← same]
    exact first.waits v held

/-! Under the lock. -/

theorem meetCount {fate : Waiter → Fate} (keeps : ∀ w v, (fate w).kept? = some v → v.ticket = w.ticket) (ticket : Nat)
    (ws : List Waiter) : ((ws.filterMap fun w => (fate w).kept?).map Waiter.ticket).count ticket +
      ((ws.filterMap fun w => (fate w).resolution?.map (Prod.mk w)).map fun x => x.1.ticket).count ticket ≤
        (ws.map Waiter.ticket).count ticket := by
  induction ws with
  | nil => simp
  | cons w ws ih =>
    have own := keeps w
    rw [List.filterMap_cons, List.filterMap_cons, List.map_cons, List.count_cons]
    generalize ws.filterMap (fun w => (fate w).kept?) = stay at ih ⊢
    generalize ws.filterMap (fun w => (fate w).resolution?.map (Prod.mk w)) = told at ih ⊢
    cases is : fate w with
    | dropped =>
      simp only [Fate.kept?, Fate.resolution?, Option.map_none]
      omega
    | resolved resolution =>
      simp only [Fate.kept?, Fate.resolution?, Option.map_some, List.map_cons, List.count_cons]
      omega
    | kept v =>
      have same : v.ticket = w.ticket := own v (by rw [is]; rfl)
      simp only [Fate.kept?, Fate.resolution?, Option.map_none, List.map_cons, List.count_cons, same]
      omega

theorem meetPasses {fate : Waiter → Fate}
    (keeps : ∀ w v, (fate w).kept? = some v → v.ticket = w.ticket ∧ v.closed = w.closed)
    (drops : ∀ w, w.closed = false → fate w ≠ .dropped) : Passes c (c.meet fate) := by
  refine ⟨rfl,fun ticket => ?_,fun w member wanted => ?_,fun x member => List.mem_append_right _ member,fun v member => ?_⟩
  · have least := meetCount (fun w v kept => (keeps w v kept).1) ticket c.waiters
    unfold tickets
    rw [meetWaiters]
    simp only [meet, List.map_append, List.count_append]
    omega
  · cases is : fate w with
    | dropped => exact absurd is (drops w wanted)
    | resolved resolution =>
      refine Or.inr ⟨(w,resolution),List.mem_append_left _ (List.mem_filterMap.mpr ⟨w,member,?_⟩),rfl⟩
      rw [is]
      rfl
    | kept v =>
      obtain ⟨same,closed⟩ := keeps w v (by rw [is]; rfl)
      refine Or.inl ⟨v,?_,same,closed.trans wanted⟩
      rw [meetWaiters]
      exact List.mem_filterMap.mpr ⟨w,member,by rw [is]; rfl⟩
  · rw [meetWaiters] at member
    obtain ⟨w,held,kept⟩ := List.mem_filterMap.mp member
    exact ⟨w,held,(keeps w v kept).1.symm⟩

theorem snapshotPasses (theirNode : NodeId) (held : VersionVector) : Passes c (c.meet (snapshotFate addr theirNode held)) := by
  refine meetPasses (fun w v kept => ?_) fun w wanted => ?_
  · rw [snapshotKept kept]
    exact ⟨rfl,rfl⟩
  · unfold snapshotFate
    rw [wanted, if_neg Bool.false_ne_true]
    intro is
    split_ifs at is

theorem settleFateSome (result : PushResult) (w : Waiter) : settleFate addr result w ≠ .dropped := by
  intro is
  cases result with
  | answered answer =>
    simp only [settleFate] at is
    split_ifs at is
    split at is <;> cases is
  | nothingSent theirNode unreached =>
    simp only [settleFate] at is
    split_ifs at is
  | failed failure =>
    simp only [settleFate] at is
    split_ifs at is

theorem settlePasses (result : PushResult) : Passes c (c.meet (settleFate addr result)) := by
  refine meetPasses (fun w v kept => ?_) fun w _ => settleFateSome result w
  rw [settleKept kept]
  exact ⟨rfl,rfl⟩

/-! One step. -/

theorem elsewherePasses (now : Nat) : Passes c (c.elsewhere config now) := by
  cases there : c.queue with
  | none =>
    refine passesSame ?_ rfl rfl
    unfold waiters elsewhere
    rw [there]
    rfl
  | some queue =>
    refine passesSame ?_ rfl rfl
    unfold waiters elsewhere
    rw [there, Option.filter_some]
    cases idle : queue.idle now config.maxBackoff with
    | false => rfl
    | true =>
      unfold PeerQueue.idle at idle
      simp only [Bool.and_eq_true, List.isEmpty_iff] at idle
      simp [idle.1.1]

theorem leavesWaiters (driver : Nat) (queue : PeerQueue) : (c.leaves driver queue).waiters = [] := by
  unfold waiters leaves
  simp only
  split_ifs <;> rfl

/- A driver that leaves has nothing to leave behind. -/
theorem leavesPasses {queue : PeerQueue} {driver : Nat} (closed : ∀ w ∈ c.waiters, w.closed = true) : Passes c (c.leaves driver queue) := by
  refine ⟨rfl,fun ticket => ?_,fun w member wanted => ?_,fun x => id,fun w member => ?_⟩
  · unfold tickets
    rw [leavesWaiters]
    simp [leaves]
  · rw [closed w member] at wanted
    cases wanted
  · rw [leavesWaiters] at member
    cases member

theorem noWaiters (none : c.queue = none) : c.waiters = [] := by
  unfold waiters
  rw [none]
  rfl

theorem loopPasses (driver : Nat) : Passes c (c.loop driver) := by
  cases there : c.queue with
  | none =>
    unfold loop
    rw [there]
    exact passesSame (by rw [noWaiters there]; rfl) rfl rfl
  | some queue =>
    have held : c.waiters = queue.waiters := by
      unfold waiters
      rw [there]
      rfl
    unfold loop
    simp only [there]
    split_ifs with empty
    · refine leavesPasses fun w member => ?_
      rw [held] at member
      have all := List.filter_eq_nil_iff.mp (List.isEmpty_iff.mp empty) w member
      simpa using all
    · refine ⟨rfl,fun ticket => ?_,fun w member wanted => Or.inl ⟨w,?_,rfl,wanted⟩,fun x => id,fun w member => ⟨w,?_,rfl⟩⟩
      · have fewer : ((queue.waiters.filter fun w => !w.closed).map Waiter.ticket).count ticket ≤
            (queue.waiters.map Waiter.ticket).count ticket := (List.filter_sublist.map _).count_le ticket
        unfold tickets
        rw [held]
        simp only [List.count_append]
        exact Nat.add_le_add_right fewer _
      · rw [held] at member
        exact List.mem_filter.mpr ⟨member,by rw [wanted]; rfl⟩
      · rw [held]
        exact List.mem_of_mem_filter member

theorem diesPasses (driver : Nat) : Passes c (c.dies driver) := by
  cases there : c.queue with
  | none =>
    unfold dies
    rw [there]
    exact passesSame (by rw [noWaiters there]; rfl) rfl rfl
  | some queue =>
    unfold dies
    simp only [there]
    refine ⟨rfl,fun ticket => ?_,fun w member wanted => Or.inr ⟨_,List.mem_append_left _ (List.mem_map_of_mem member),rfl⟩,
      fun x member => List.mem_append_right _ member,fun w member => ?_⟩
    · unfold tickets
      rw [leavesWaiters]
      simp only [leaves, List.map_nil, List.nil_append, List.map_append, List.map_map]
      exact le_rfl
    · rw [leavesWaiters] at member
      cases member

theorem witnessedPasses (driver : Nat) (theirNode : NodeId) (held : VersionVector) : Passes c (c.witnessed addr driver theirNode held) := by
  unfold witnessed
  simp only
  split_ifs
  · exact passesSame rfl rfl rfl
  · have said : Passes c { c with said := .witnessed theirNode held :: c.said } := passesSame rfl rfl rfl
    exact said.trans ((snapshotPasses theirNode held).trans (passesSame rfl rfl rfl))

theorem backedOff (backoff : Option Backoff) : Passes c { c with queue := c.queue.map fun q => { q with backoff := backoff } } := by
  refine passesSame ?_ rfl rfl
  unfold waiters
  cases c.queue with
  | none => rfl
  | some queue => rfl

theorem settledPasses (driver : Nat) (result : PushResult) (now : Nat) (generation : Option Nat) :
    Passes c (c.settle config addr driver result now generation) := by
  unfold settle
  cases c.queue with
  | none => exact passesSame rfl rfl rfl
  | some queue =>
    have met := @settlePasses addr c result
    cases result with
    | answered answer => exact met.trans ((backedOff none).trans (passesSame rfl rfl rfl))
    | nothingSent theirNode unreached => exact met.trans (passesSame rfl rfl rfl)
    | failed failure =>
      simp only
      split_ifs
      · exact met.trans ((backedOff _).trans (passesSame rfl rfl rfl))
      · exact met.trans (passesSame rfl rfl rfl)

/- A step that neither queues nor cancels. -/
theorem stepPasses {step : Step} (queues : ∀ now generation stamp node, step ≠ .enqueue now generation stamp node)
    (cancels : ∀ ticket, step ≠ .cancel ticket) : Passes c (c.step config addr step) := by
  cases step with
  | enqueue now generation stamp node => exact absurd rfl (queues now generation stamp node)
  | cancel ticket => exact absurd rfl (cancels ticket)
  | elsewhere now => exact elsewherePasses now
  | loop driver =>
    simp only [Confirmer.step]
    split
    · exact loopPasses driver
    · exact passesSame rfl rfl rfl
  | witnessed driver held =>
    simp only [Confirmer.step]
    split
    · exact witnessedPasses driver _ held
    · exact passesSame rfl rfl rfl
  | settle driver now generation =>
    simp only [Confirmer.step]
    split
    · exact settledPasses driver _ now generation
    · exact passesSame rfl rfl rfl
  | dies driver =>
    simp only [Confirmer.step]
    split
    · exact diesPasses driver
    · exact passesSame rfl rfl rfl
  | dialled | serve | pushed | fails | wake =>
    simp only [Confirmer.step]
    split <;> exact passesSame rfl rfl rfl

/-! Tickets. -/

structure Accounted (c : Confirmer) : Prop where
  once : c.tickets.Nodup
  below : ∀ ticket ∈ c.tickets, ticket < c.issued

theorem Accounted.passes (accounted : Accounted c) (passes : Passes c d) : Accounted d := by
  refine ⟨List.nodup_iff_count_le_one.mpr fun ticket => ?_,fun ticket member => ?_⟩
  · exact (passes.once ticket).trans (List.nodup_iff_count_le_one.mp accounted.once ticket)
  · rw [passes.issued]
    refine accounted.below ticket (List.count_pos_iff.mp ?_)
    exact (List.count_pos_iff.mpr member).trans_le (passes.once ticket)

theorem enqueueTickets (now : Nat) (generation : Option Nat) (stamp : Stamp) (node : NodeId) :
    (c.enqueue now generation stamp node).tickets.Perm (c.issued :: c.tickets) := by
  obtain ⟨queue,held,_,is⟩ := @foundQueue c generation
  rw [is]
  unfold tickets
  split_ifs
  · simp only [waiters, Option.map_some, Option.getD_some, held, List.map_cons]
    exact List.perm_middle
  all_goals
    simp only [waiters, Option.map_some, Option.getD_some, held, List.map_append, List.map_cons, List.map_nil]
    rw [List.append_assoc]
    exact List.perm_middle

theorem enqueueIssued (now : Nat) (generation : Option Nat) (stamp : Stamp) (node : NodeId) :
    (c.enqueue now generation stamp node).issued = c.issued + 1 := by
  obtain ⟨queue,_,_,is⟩ := @foundQueue c generation
  rw [is]
  split_ifs <;> rfl

theorem Accounted.enqueue (accounted : Accounted c) (now : Nat) (generation : Option Nat) (stamp : Stamp) (node : NodeId) :
    Accounted (c.enqueue now generation stamp node) := by
  have perm := @enqueueTickets c now generation stamp node
  refine ⟨perm.nodup_iff.mpr (List.nodup_cons.mpr ⟨fun old => absurd (accounted.below _ old) (lt_irrefl _),accounted.once⟩),
    fun ticket member => ?_⟩
  rw [enqueueIssued]
  rcases List.mem_cons.mp (perm.mem_iff.mp member) with rfl | old
  · exact Nat.lt_succ_self _
  · exact Nat.lt_succ_of_lt (accounted.below ticket old)

theorem cancelWaiters (ticket : Nat) : (c.cancel ticket).waiters =
    c.waiters.map fun w => if w.ticket = ticket then { w with closed := true } else w := by
  unfold waiters cancel
  cases c.queue with
  | none => rfl
  | some queue => rfl

theorem Accounted.cancel (accounted : Accounted c) (ticket : Nat) : Accounted (c.cancel ticket) := by
  have same : (c.cancel ticket).tickets = c.tickets := by
    unfold tickets
    rw [cancelWaiters, List.map_map]
    refine congrArg (· ++ _) (List.map_congr_left fun w _ => ?_)
    simp only [Function.comp_apply]
    split_ifs <;> rfl
  exact ⟨same ▸ accounted.once,same ▸ accounted.below⟩

theorem Accounted.step (accounted : Accounted c) (step : Step) : Accounted (c.step config addr step) := by
  cases step with
  | enqueue now generation stamp node => exact accounted.enqueue now generation stamp node
  | cancel ticket => exact accounted.cancel ticket
  | _ => exact accounted.passes (stepPasses (by simp) (by simp))

/- The change waits and is wanted, or was answered. -/
def Present (c : Confirmer) (ticket : Nat) : Prop :=
  (∃ w ∈ c.waiters, w.ticket = ticket ∧ w.closed = false) ∨ ∃ x ∈ c.answers, x.1.ticket = ticket

theorem Present.passes {ticket : Nat} (present : c.Present ticket) (passes : Passes c d) : d.Present ticket := by
  rcases present with ⟨w,member,rfl,wanted⟩ | ⟨x,told,same⟩
  · exact passes.wanted w member wanted
  · exact Or.inr ⟨x,passes.answered x told,same⟩

theorem presentEnqueue (now : Nat) (generation : Option Nat) (stamp : Stamp) (node : NodeId) {ticket : Nat}
    (present : ticket = c.issued ∨ c.Present ticket) : (c.enqueue now generation stamp node).Present ticket := by
  obtain ⟨queue,held,_,is⟩ := @foundQueue c generation
  rw [is]
  unfold Present
  split_ifs
  · rcases present with rfl | ⟨w,member,same,wanted⟩ | ⟨x,told,same⟩
    · exact Or.inr ⟨_,List.mem_cons_self,rfl⟩
    · rw [← held] at member
      exact Or.inl ⟨w,member,same,wanted⟩
    · exact Or.inr ⟨x,List.mem_cons_of_mem _ told,same⟩
  all_goals
    rcases present with rfl | ⟨w,member,same,wanted⟩ | ⟨x,told,same⟩
    · exact Or.inl ⟨_,List.mem_append_right _ (List.mem_singleton_self _),rfl,rfl⟩
    · exact Or.inl ⟨w,List.mem_append_left _ (held ▸ member),same,wanted⟩
    · exact Or.inr ⟨x,told,same⟩

theorem presentCancel {other ticket : Nat} (apart : ticket ≠ other) (present : c.Present ticket) : (c.cancel other).Present ticket := by
  rcases present with ⟨w,member,same,wanted⟩ | told
  · refine Or.inl ⟨w,?_,same,wanted⟩
    rw [cancelWaiters]
    refine List.mem_map.mpr ⟨w,member,if_neg ?_⟩
    rw [same]
    exact apart
  · exact Or.inr told

theorem presentStep {step : Step} {ticket : Nat} (wanted : step ≠ .cancel ticket) (earlier : ticket < c.issued → c.Present ticket)
    (issued : ticket < (c.step config addr step).issued) : (c.step config addr step).Present ticket := by
  cases step with
  | enqueue now generation stamp node =>
    refine presentEnqueue now generation stamp node ?_
    have below : ticket < c.issued + 1 := (@enqueueIssued c now generation stamp node) ▸ issued
    rcases Nat.lt_succ_iff_lt_or_eq.mp below with old | new
    · exact Or.inr (earlier old)
    · exact Or.inl new
  | cancel other => exact presentCancel (fun same => wanted (same ▸ rfl)) (earlier issued)
  | _ =>
    refine (earlier ?_).passes (stepPasses (by simp) (by simp))
    rwa [(stepPasses (by simp) (by simp)).issued] at issued

/-! Runs. -/

theorem runSnoc (steps : List Step) (step : Step) : run config addr (steps ++ [step]) = (run config addr steps).step config addr step := by
  unfold run
  rw [List.foldl_append]
  rfl

theorem runAccounted (steps : List Step) : Accounted (run config addr steps) :=
  List.foldlRecOn steps _ ⟨List.nodup_nil,nofun⟩ fun _ accounted step _ => Accounted.step accounted step

theorem runPresent {steps : List Step} {ticket : Nat} (issued : ticket < (run config addr steps).issued)
    (wanted : .cancel ticket ∉ steps) : (run config addr steps).Present ticket := by
  induction steps using List.reverseRecOn with
  | nil => cases issued
  | append_singleton steps step ih =>
    have earlier : .cancel ticket ∉ steps := fun before => wanted (List.mem_append_left _ before)
    have other : step ≠ .cancel ticket := by
      rintro rfl
      exact wanted (List.mem_append_right _ (List.mem_singleton_self _))
    rw [runSnoc] at issued ⊢
    exact presentStep other (fun old => ih old earlier) issued

theorem answeredOnce (config : ConfirmConfig) (addr : String) (steps : List Step) :
    let c := run config addr steps
    c.tickets.Nodup ∧ ∀ ticket < c.issued, .cancel ticket ∉ steps → ticket ∈ c.tickets := by
  intro c
  refine ⟨(runAccounted steps).once,fun ticket issued wanted => ?_⟩
  rcases runPresent issued wanted with ⟨w,member,rfl,_⟩ | ⟨x,told,rfl⟩
  · exact List.mem_append_left _ (List.mem_map_of_mem member)
  · exact List.mem_append_right _ (List.mem_map_of_mem told)

/-! What an answer says. -/

theorem settleAnswers {driver : Nat} {result : PushResult} {now : Nat} {generation : Option Nat} {w : Waiter} {resolution : Resolution}
    (told : (w,resolution) ∈ (c.settle config addr driver result now generation).answers) :
    (w,resolution) ∈ c.answers ∨ w ∈ c.waiters ∧ (settleFate addr result w).resolution? = some resolution := by
  have met (there : (w,resolution) ∈ (c.meet (settleFate addr result)).answers) :
      (w,resolution) ∈ c.answers ∨ w ∈ c.waiters ∧ (settleFate addr result w).resolution? = some resolution := by
    rcases List.mem_append.mp there with new | old
    · obtain ⟨v,member,is⟩ := List.mem_filterMap.mp new
      obtain ⟨own,resolved,same⟩ := Option.map_eq_some_iff.mp is
      cases same
      exact Or.inr ⟨member,resolved⟩
    · exact Or.inl old
  unfold settle at told
  split at told
  · exact Or.inl told
  · cases result with
    | answered answer => exact met told
    | nothingSent theirNode unreached => exact met told
    | failed failure =>
      simp only at told
      split_ifs at told <;> exact met told

theorem confirmsTruly (config : ConfirmConfig) (addr : String) (steps : List Step) :
    let c := run config addr steps
    (∀ w, (w,.confirmed) ∈ c.answers → ∃ word ∈ c.said, word.Vouches w) ∧
      c.drivers.length ≤ 1 ∧ (c.waiters ≠ [] → c.drivers.length = 1) ∧
      ∀ driver result since now generation, c.drivers[driver]? = some (.ended result (some since)) →
        ∀ w outcome reason, (w,.pending outcome reason) ∈ (c.step config addr (.settle driver now generation)).answers →
          (w,.pending outcome reason) ∉ c.answers → since ≤ w.ticket →
            outcome = .backoff ∨ outcome = .otherMember ∧ ∃ node, result.theirNode? = some node ∧ node ≠ w.node := by
  intro c
  have sound : Sound c := runSound steps
  refine ⟨sound.confirmed,?_,fun waiting => ?_,fun driver result since now generation at' w outcome reason told new after => ?_⟩
  · rw [sound.drivers]
    split_ifs <;> decide
  · rw [sound.drivers, if_pos]
    unfold waiters at waiting
    cases there : c.queue with
    | none =>
      rw [there] at waiting
      exact absurd rfl waiting
    | some queue =>
      rw [there] at waiting
      rw [Option.any_some]
      by_contra idle
      exact waiting (sound.waits queue there (by simpa using idle))
  · simp only [Confirmer.step, at'] at told
    have member : .ended result (some since) ∈ c.drivers := List.mem_of_getElem? at'
    rcases settleAnswers told with old | ⟨waits,resolved⟩
    · exact absurd old new
    · -- it came after the batch, so it does not carry the batch's flag
      have late : w.preQueued = false := by
        rw [Bool.eq_false_iff]
        intro flagged
        obtain ⟨own,is,below⟩ := (sound.flags _ member w waits).mp flagged
        cases is
        omega
      refine latePending late (fun failure is => ?_) resolved
      have batched := sound.batched _ member
      rw [is] at batched
      exact batched

end
end Confirmer
end Kimmy.Confirm
