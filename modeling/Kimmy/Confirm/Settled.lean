import Kimmy.Confirm.Queue

/-!
What a waiter can be told. A driver runs exactly while its queue says so, the flag of a waiter says whether it was queued before
the batch of the push in flight, and nothing confirms a change but the word of the member it names.
-/
namespace Kimmy.Confirm
open Merge Store

/-! The word of a member. -/

/- The window carried the change, at or below the vector it was introduced with, and stopped only past it. -/
def Answer.Reaches (answer : Answer) (stamp : Stamp) : Prop :=
  stamp.hlc ≤ answer.versions.get stamp.node ∧ ∃ index, answer.sent.findIdx? (· = stamp) = some index ∧
    ∀ stopped, answer.reply.stoppedAt = some stopped → ∃ stop, answer.sent.findIdx? (· = stopped) = some stop ∧ index < stop

/- The member took the change: its vector covers it, or a window reached it there and it was not refused. -/
def Said.Vouches : Said → Waiter → Prop
  | .witnessed node held, w => w.node = node ∧ w.stamp.hlc ≤ held.get w.stamp.node
  | .answered answer, w => w.node = answer.theirNode ∧ answer.Reaches w.stamp ∧ w.stamp ∉ answer.reply.refused

/- Of the batch it is answered, though not confirmed; what came later is carried. -/
def Passed (w : Waiter) (result : Option Resolution) : Prop :=
  if w.preQueued then ∃ resolution, result = some resolution ∧ resolution ≠ .confirmed else result = none

theorem passedOr {resolution : Resolution} (other : resolution ≠ .confirmed) (w : Waiter) :
    Passed w (if w.preQueued then some resolution else none) := by
  unfold Passed
  split_ifs
  · exact ⟨resolution,rfl,other⟩
  · rfl

/- What a window decides, by whether it reached the change. -/
theorem resolveCases (w : Waiter) (answer : Answer) :
    answer.Reaches w.stamp ∧ resolveAnswered w answer = some (if answer.reply.refused.contains w.stamp then .refused else .confirmed) ∨
      Passed w (resolveAnswered w answer) := by
  unfold resolveAnswered
  cases found : answer.sent.findIdx? (· = w.stamp) with
  | none => exact Or.inr (@passedOr notCarried nofun w)
  | some index =>
    simp only
    by_cases above : answer.versions.get w.stamp.node < w.stamp.hlc
    · rw [if_pos above]
      exact Or.inr (@passedOr notCarried nofun w)
    · rw [if_neg above]
      have reached := not_lt.mp above
      cases stopped : answer.reply.stoppedAt with
      | none =>
        refine Or.inl ⟨⟨reached,index,found,fun last is => ?_⟩,?_⟩
        · rw [stopped] at is
          cases is
        · exact (apply_ite some _ _ _).symm
      | some last =>
        simp only [Option.map_some]
        by_cases behind : ((answer.sent.findIdx? (· = last)).all (· ≤ index)) = true
        · rw [if_pos behind]
          refine Or.inr ?_
          unfold Passed
          cases w.preQueued with
          | false => rfl
          | true =>
            simp only [if_true, Bool.not_true, Bool.false_eq_true, if_false]
            split_ifs <;> exact ⟨_,rfl,nofun⟩
        · rw [if_neg behind]
          refine Or.inl ⟨⟨reached,index,found,fun stop is => ?_⟩,(apply_ite some _ _ _).symm⟩
          rw [stopped] at is
          cases is
          cases place : answer.sent.findIdx? (· = last) with
          | none =>
            rw [place] at behind
            exact absurd rfl behind
          | some stop =>
            rw [place] at behind
            exact ⟨stop,rfl,by simpa using behind⟩

theorem confirmedVouched {w : Waiter} {answer : Answer} (node : w.node = answer.theirNode)
    (is : resolveAnswered w answer = some .confirmed) : (Said.answered answer).Vouches w := by
  rcases resolveCases w answer with ⟨reaches,resolved⟩ | passed
  · rw [is] at resolved
    split_ifs at resolved with refused
    · cases resolved
    · exact ⟨node,reaches,by simpa using refused⟩
  · rw [is] at passed
    unfold Passed at passed
    split_ifs at passed
    obtain ⟨resolution,same,other⟩ := passed
    cases same
    exact absurd rfl other

/- A waiter that was not in the batch is confirmed or refused by a window, or carried. -/
theorem lateResolved {w : Waiter} {answer : Answer} {resolution : Resolution} (late : w.preQueued = false)
    (is : resolveAnswered w answer = some resolution) : resolution = .confirmed ∨ resolution = .refused := by
  rcases resolveCases w answer with ⟨_,resolved⟩ | passed
  · rw [is] at resolved
    split_ifs at resolved
    · cases resolved
      exact Or.inr rfl
    · cases resolved
      exact Or.inl rfl
  · unfold Passed at passed
    rw [late, is] at passed
    cases passed

/-! Fates. -/

theorem snapshotKept {addr : String} {theirNode : NodeId} {held : VersionVector} {w v : Waiter}
    (is : (snapshotFate addr theirNode held w).kept? = some v) : v = { w with preQueued := true } := by
  unfold snapshotFate at is
  split_ifs at is <;> first | cases is; rfl | cases is

theorem snapshotConfirmed {addr : String} {theirNode : NodeId} {held : VersionVector} {w : Waiter}
    (is : (snapshotFate addr theirNode held w).resolution? = some .confirmed) : (Said.witnessed theirNode held).Vouches w := by
  unfold snapshotFate at is
  split_ifs at is with closed other covered
  · cases is
  · cases is
  · exact ⟨not_not.mp other,covered⟩
  · cases is

theorem settleKept {addr : String} {result : PushResult} {w v : Waiter} (is : (settleFate addr result w).kept? = some v) :
    v = { w with preQueued := false } := by
  cases result with
  | answered answer =>
    simp only [settleFate] at is
    split_ifs at is
    · cases is
    · split at is
      · cases is
      · cases is
        rfl
  | nothingSent theirNode unreached =>
    simp only [settleFate] at is
    split_ifs at is
    · cases is
    · cases is
    · cases is
      rfl
  | failed failure =>
    simp only [settleFate] at is
    split_ifs at is with other early sent
    · cases is
    · cases is
    · cases is
    · cases is
      rw [Bool.or_eq_true, not_or] at early
      have late : w.preQueued = false := by simpa using early.1
      rw [← late]

theorem settleConfirmed {addr : String} {result : PushResult} {w : Waiter}
    (is : (settleFate addr result w).resolution? = some .confirmed) :
    ∃ answer, result = .answered answer ∧ (Said.answered answer).Vouches w := by
  cases result with
  | answered answer =>
    refine ⟨answer,rfl,?_⟩
    simp only [settleFate] at is
    split_ifs at is with other
    · cases is
    · split at is
      next resolution resolved =>
        cases is
        exact confirmedVouched (not_not.mp other) resolved
      · cases is
  | nothingSent theirNode unreached =>
    simp only [settleFate] at is
    split_ifs at is <;> cases is
  | failed failure =>
    simp only [settleFate] at is
    split_ifs at is <;> cases is

/- Whom the end of a push is about. -/
def PushResult.theirNode? : PushResult → Option NodeId
  | .answered answer => some answer.theirNode
  | .nothingSent theirNode _ => some theirNode
  | .failed failure => failure.theirNode

/- How a push that took its batch can leave a waiter that came later pending. -/
theorem latePending {addr : String} {result : PushResult} {w : Waiter} {outcome : ConfirmOutcome} {reason : String}
    (late : w.preQueued = false) (batched : ∀ failure, result = .failed failure → failure.snapshotted = true)
    (is : (settleFate addr result w).resolution? = some (.pending outcome reason)) :
    outcome = .backoff ∨ outcome = .otherMember ∧ ∃ node, result.theirNode? = some node ∧ node ≠ w.node := by
  cases result with
  | answered answer =>
    simp only [settleFate] at is
    split_ifs at is with other
    · cases is
      exact Or.inr ⟨rfl,answer.theirNode,rfl,Ne.symm other⟩
    · split at is
      next resolution resolved =>
        cases is
        rcases lateResolved late resolved with no | no
        · cases no
        · cases no
      · cases is
  | nothingSent theirNode unreached =>
    simp only [settleFate, late, Bool.false_eq_true, if_false] at is
    split_ifs at is with other
    · cases is
      exact Or.inr ⟨rfl,theirNode,rfl,Ne.symm other⟩
    · cases is
  | failed failure =>
    have took := batched failure rfl
    simp only [settleFate, late, took, Bool.not_true, Bool.or_self, Bool.false_eq_true, if_false] at is
    split_ifs at is with other sent
    · cases is
      obtain ⟨node,there,apart⟩ := (Option.any_eq_true _ _).mp other
      exact Or.inr ⟨rfl,node,there,by simpa using apart⟩
    · cases is
      exact Or.inl rfl
    · cases is

end Kimmy.Confirm
