import Kimmy.Repair.BackOff

/-!
Whole runs of the ledger's calls, for any keys, with the life of one key read off them.
-/
namespace Kimmy.Repair
open Store

inductive Call where
  | mayPlan (key : Key) (now : Nat)
  | started (key : Key) (now : Nat)
  | ended (key : Key) (now : Nat) (how : End)
  | judge (key : Key) (now : Nat) (judged : Judged)
  | expire (now : Nat)
  | confirmed (key : Key) (now : Nat)
  | isStopped (collection : CollectionId) (kind : LedgerKind) (now : Nat)
  | stoppedCollections (kind : LedgerKind) (now : Nat)
  | retain (held : List CollectionId) (members : Option (List NodeId))
  | setRotation (rotation : Nat)

def Call.apply (l : RepairLedger) : Call → RepairLedger
  | .mayPlan key now => (l.mayPlan key now).1
  | .started key now => l.started key now
  | .ended key now how => (l.ended key now how).1
  | .judge key now judged => (l.judge key now judged).1
  | .expire now => (l.expire now).1
  | .confirmed key now => (l.confirmed key now).1
  | .isStopped collection kind now => (l.isStopped collection kind now).1
  | .stoppedCollections kind now => (l.stoppedCollections kind now).1
  | .retain held members => l.retain held members
  | .setRotation rotation => l.setRotation rotation

/- The two that are told no time happen at the time of the call before. -/
def Call.time (last : Nat) : Call → Nat
  | .mayPlan _ now | .started _ now | .ended _ now _ | .judge _ now _ | .expire now | .confirmed _ now
  | .isStopped _ _ now | .stoppedCollections _ now => now
  | .retain .. | .setRotation _ => last

def entryOf (key : Key) (l : RepairLedger) : Entry := (l.entries.get key).getD .new

/- `allowed`: `may_plan` has said yes for the key since its last start. -/
structure Watch where
  ledger : RepairLedger
  last : Nat
  allowed : Bool

def Watch.spot (key : Key) (w : Watch) : Spot := ⟨entryOf key w.ledger,w.last⟩

def allows (key : Key) (w : Watch) : Call → Bool
  | .mayPlan k now => w.allowed || (decide (k = key) && decide ((w.ledger.mayPlan k now).2 = .yes))
  | .started k _ => w.allowed && decide (k ≠ key)
  | _ => w.allowed

def Watch.after (key : Key) (w : Watch) (call : Call) : Watch :=
  ⟨call.apply w.ledger,call.time w.last,allows key w call⟩

/- The calls the run may make: no time goes back, the key is started only when allowed, no repair of it finishes with
progress or is judged effective, and it is not pruned. -/
def lawful (key : Key) (w : Watch) (call : Call) : Bool :=
  decide (w.last ≤ call.time w.last) &&
  match call with
  | .started k _ => decide (k ≠ key) || w.allowed
  | .ended k _ how => decide (k ≠ key) || decide ((entryOf key w.ledger).phase ≠ .inFlight) || decide (how ≠ .finished true)
  | .judge k now judged => decide (k ≠ key) || decide ((w.ledger.judge k now judged).2 ≠ some .effective)
  | .retain held members => ((w.ledger.retain held members).entries.get key).isSome || (w.ledger.entries.get key).isNone
  | _ => true

/- What a call does to the key's repair, by the phase it finds and the one it leaves. -/
def observe (key : Key) (w : Watch) (call : Call) : Option Event :=
  let before := entryOf key w.ledger
  let after := entryOf key (call.apply w.ledger)
  let now := call.time w.last
  match before.phase, after.phase with
  | .idle, .inFlight => some (.started now)
  | .inFlight, .awaiting .. => some (.finished now)
  | .inFlight, .idle => some (.failed ⟨now,before.level,after.level⟩)
  | .awaiting endedAt .., .idle => some (.settled ⟨endedAt,before.level,after.level⟩)
  | _, _ => none

def follow (key : Key) : Watch → List Call → Option (Watch × List Event)
  | w, [] => some (w,[])
  | w, call :: calls =>
      if lawful key w call then do
        let (last,events) ← follow key (w.after key call) calls
        some (last,(observe key w call).toList ++ events)
      else none

attribute [local simp] Call.apply Call.time observe

/-! The calls that leave the entries alone. -/

@[simp] theorem rearmEntries (l : RepairLedger) (collection : CollectionId) (kind : LedgerKind) (now : Nat) :
    (l.rearm collection kind now).entries = l.entries := by
  unfold RepairLedger.rearm
  split
  · rfl
  · split
    · rfl
    · simp only
      split_ifs <;> rfl

@[simp] theorem isStoppedEntries (l : RepairLedger) (collection : CollectionId) (kind : LedgerKind) (now : Nat) :
    (l.isStopped collection kind now).1.entries = l.entries := rearmEntries ..

@[simp] theorem stoppedCollectionsEntries (l : RepairLedger) (kind : LedgerKind) (now : Nat) :
    (l.stoppedCollections kind now).1.entries = l.entries := by
  unfold RepairLedger.stoppedCollections
  refine List.foldlRecOn _ _ (motive := fun x : RepairLedger × Nat => x.1.entries = l.entries) rfl fun x same id _ => ?_
  exact (isStoppedEntries x.1 id kind now).trans same

@[simp] theorem mayPlanEntries (l : RepairLedger) (key : Key) (now : Nat) : (l.mayPlan key now).1.entries = l.entries := by
  unfold RepairLedger.mayPlan
  simp only
  split
  · exact rearmEntries ..
  · split
    · exact rearmEntries ..
    · split
      · exact rearmEntries ..
      · exact rearmEntries ..
      · split <;> exact rearmEntries ..

@[simp] theorem confirmedEntries (l : RepairLedger) (key : Key) (now : Nat) : (l.confirmed key now).1.entries = l.entries := by
  unfold RepairLedger.confirmed
  simp only
  split
  · rfl
  · split <;> rfl

/- `may_plan` says yes only when the key is idle and its back-off is over. -/
theorem mayPlanYes {l : RepairLedger} {key : Key} {now : Nat} (yes : (l.mayPlan key now).2 = .yes) :
    (entryOf key l).phase = .idle ∧ (entryOf key l).notBefore ≤ now := by
  unfold RepairLedger.mayPlan at yes
  simp only [rearmEntries] at yes
  unfold entryOf
  split at yes
  · cases yes
  · cases is : l.entries.get key with
    | none => exact ⟨rfl,Nat.zero_le _⟩
    | some entry =>
      rw [is] at yes
      simp only [Option.getD_some] at yes ⊢
      cases phase : entry.phase with
      | inFlight => rw [phase] at yes; cases yes
      | awaiting => rw [phase] at yes; cases yes
      | idle =>
        rw [phase] at yes
        simp only at yes
        split at yes
        · cases yes
        · exact ⟨rfl,by omega⟩

/-! What a call does to the key. -/

structure Watch.Sound (key : Key) (w : Watch) : Prop where
  allowed : w.allowed = true → (entryOf key w.ledger).phase = .idle ∧ (entryOf key w.ledger).notBefore ≤ w.last
  fruitless : ∀ t d p, (entryOf key w.ledger).phase = .awaiting t d p → p = false

theorem observeSame {key : Key} {w : Watch} {call : Call} (same : entryOf key (call.apply w.ledger) = entryOf key w.ledger) :
    observe key w call = none := by
  unfold observe
  simp only [same]
  cases (entryOf key w.ledger).phase <;> rfl

theorem putSame {l : RepairLedger} {key : Key} {entry : Entry} : entryOf key (l.put key entry) = entry := by
  simp [entryOf, RepairLedger.put]

theorem putOther {l : RepairLedger} {key k : Key} {entry : Entry} (other : k ≠ key) :
    entryOf key (l.put k entry) = entryOf key l := by
  simp [entryOf, RepairLedger.put, other.symm]

theorem endedOther {l : RepairLedger} {key k : Key} {now : Nat} {how : End} (other : k ≠ key) :
    entryOf key (l.ended k now how).1 = entryOf key l := by
  unfold RepairLedger.ended
  simp only
  split
  · rfl
  · split_ifs
    · rfl
    · split
      · split_ifs <;> exact putOther other
      · exact putOther other

theorem judgeOther {l : RepairLedger} {key k : Key} {now : Nat} {judged : Judged} (other : k ≠ key) :
    entryOf key (l.judge k now judged).1 = entryOf key l := by
  unfold RepairLedger.judge
  split
  · rfl
  · split
    · simp only
      split
      · exact putOther other
      · exact putOther other
    · rfl

theorem expireOf (l : RepairLedger) (key : Key) (now : Nat) :
    entryOf key (l.expire now).1 = (RepairLedger.expireEntry now (entryOf key l)).1 := by
  simp only [entryOf, RepairLedger.expire, SortedMap.getMapValues]
  cases l.entries.get key <;> rfl

theorem retainSame {l : RepairLedger} {key : Key} {held : List CollectionId} {members : Option (List NodeId)}
    (kept : ((l.retain held members).entries.get key).isSome = true ∨ (l.entries.get key).isNone = true) :
    entryOf key (l.retain held members) = entryOf key l := by
  unfold entryOf
  simp only [RepairLedger.retain, SortedMap.getRetain] at kept ⊢
  cases is : l.entries.get key with
  | none => rfl
  | some entry =>
    rw [is] at kept
    rcases kept with some | none
    · rw [Option.isSome_filter] at some
      rw [Option.filter_some, if_pos (by simpa using some)]
    · cases none

/- The step, with what the watch knows after it. -/
structure Follows (key : Key) (w : Watch) (call : Call) : Prop where
  later : w.last ≤ call.time w.last
  step : Step (call.time w.last) (entryOf key w.ledger) (observe key w call) (entryOf key (call.apply w.ledger))
  sound : (w.after key call).Sound key

theorem followsQuiet {key : Key} {w : Watch} {call : Call} (sound : w.Sound key) (later : w.last ≤ call.time w.last)
    (same : entryOf key (call.apply w.ledger) = entryOf key w.ledger)
    (asks : allows key w call = true → w.allowed = true ∨
      (entryOf key w.ledger).phase = .idle ∧ (entryOf key w.ledger).notBefore ≤ call.time w.last) : Follows key w call := by
  refine ⟨later,?_,fun allowed => ?_,fun t d p awaits => ?_⟩
  · rw [observeSame same, same]
    exact .quiet
  · have fits : (entryOf key w.ledger).phase = .idle ∧ (entryOf key w.ledger).notBefore ≤ call.time w.last := by
      rcases asks allowed with before | now
      · exact ⟨(sound.allowed before).1,(sound.allowed before).2.trans later⟩
      · exact now
    rwa [← same] at fits
  · exact sound.fruitless t d p (same ▸ awaits)

/- A call that changes the entry of a key that is in flight or awaited finds it not allowed. -/
theorem followsBusy {key : Key} {w : Watch} {call : Call} {entry : Entry} {event : Option Event} (sound : w.Sound key)
    (later : w.last ≤ call.time w.last) (busy : (entryOf key w.ledger).phase ≠ .idle) (asks : allows key w call = w.allowed)
    (after : entryOf key (call.apply w.ledger) = entry) (seen : observe key w call = event)
    (step : Step (call.time w.last) (entryOf key w.ledger) event entry)
    (fruitless : ∀ t d p, entry.phase = .awaiting t d p → p = false) : Follows key w call := by
  subst after seen
  exact ⟨later,step,fun allowed => absurd (sound.allowed (asks.symm.trans allowed)).1 busy,fruitless⟩

theorem entryHeld {key : Key} {l : RepairLedger} (busy : (entryOf key l).phase ≠ .idle) :
    l.entries.get key = some (entryOf key l) := by
  unfold entryOf at *
  cases is : l.entries.get key with
  | none =>
    rw [is] at busy
    exact absurd rfl busy
  | some entry => rfl

theorem endedIdle {key : Key} {l : RepairLedger} {now : Nat} {how : End} (ground : (entryOf key l).phase ≠ .inFlight) :
    (l.ended key now how).1 = l := by
  unfold RepairLedger.ended entryOf at *
  simp only
  cases is : l.entries.get key with
  | none => rfl
  | some entry =>
    rw [is] at ground
    simp only [Option.getD_some] at ground
    simp only [if_pos ground]

theorem followsEnded {key : Key} {w : Watch} {now : Nat} {how : End} (sound : w.Sound key) (later : w.last ≤ now)
    (law : (entryOf key w.ledger).phase ≠ .inFlight ∨ how ≠ .finished true) : Follows key w (.ended key now how) := by
  by_cases flight : (entryOf key w.ledger).phase = .inFlight
  · have busy : (entryOf key w.ledger).phase ≠ .idle := by rw [flight]; exact Phase.noConfusion
    have held := entryHeld busy
    have opened := not_not.mpr flight
    cases how with
    | transient why =>
      by_cases climbs : why.repeats ∨ ((entryOf key w.ledger).transientRun + 1).val % transientClimbEvery = 0
      · have after : entryOf key (w.ledger.ended key now (.transient why)).1 = Entry.climbed
            { entryOf key w.ledger with phase := .idle, transientRun := (entryOf key w.ledger).transientRun + 1 }
            (now + (climb (entryOf key w.ledger).level).backoff) := by
          simp only [RepairLedger.ended, held, if_neg opened, if_pos climbs, putSame, Entry.climbed]
        refine followsBusy sound later busy rfl after ?_ (.failClimb flight) fun t d p awaits => by cases awaits
        simp only [observe, Call.apply, after, flight, Entry.climbed, Call.time]
      · have after : entryOf key (w.ledger.ended key now (.transient why)).1 =
            { entryOf key w.ledger with phase := .idle, transientRun := (entryOf key w.ledger).transientRun + 1 } := by
          simp only [RepairLedger.ended, held, if_neg opened, if_neg climbs, putSame]
        have odd := fun multiple => climbs (.inr multiple)
        refine followsBusy sound later busy rfl after ?_ (.fail flight odd) fun t d p awaits => by cases awaits
        simp only [observe, Call.apply, after, flight, Call.time]
    | finished progress =>
      have none : progress = false := by
        rcases law with ground | fruitless
        · exact absurd flight ground
        · cases progress with
          | false => rfl
          | true => exact absurd rfl fruitless
      subst none
      have after : entryOf key (w.ledger.ended key now (.finished false)).1 =
          { entryOf key w.ledger with transientRun := 0, phase := .awaiting now (now + w.ledger.params.deadline) false } := by
        simp only [RepairLedger.ended, held, if_neg opened, putSame]
      refine followsBusy sound later busy rfl after ?_ (.finish flight) fun t d p awaits => by cases awaits; rfl
      simp only [observe, Call.apply, after, flight, Call.time]
  · exact followsQuiet sound later (congrArg (entryOf key) (endedIdle flight)) fun allowed => .inl allowed

theorem judgeIdle {key : Key} {l : RepairLedger} {now : Nat} {judged : Judged}
    (ground : ∀ t d p, (entryOf key l).phase ≠ .awaiting t d p) : (l.judge key now judged).1 = l := by
  unfold RepairLedger.judge entryOf at *
  cases is : l.entries.get key with
  | none => rfl
  | some entry =>
    rw [is] at ground
    simp only [Option.getD_some] at ground
    cases phase : entry.phase with
    | awaiting t d p => exact absurd phase (ground t d p)
    | idle => simp only [phase]
    | inFlight => simp only [phase]

theorem followsJudged {key : Key} {w : Watch} {now : Nat} {judged : Judged} (sound : w.Sound key) (later : w.last ≤ now)
    (law : (w.ledger.judge key now judged).2 ≠ some .effective) : Follows key w (.judge key now judged) := by
  cases phase : (entryOf key w.ledger).phase with
  | awaiting endedAt deadline progress =>
    have busy : (entryOf key w.ledger).phase ≠ .idle := by rw [phase]; exact Phase.noConfusion
    have held := entryHeld busy
    have none := sound.fruitless _ _ _ phase
    subst none
    cases judged with
    | effective => exact absurd (by simp only [RepairLedger.judge, held, phase]) law
    | ineffective =>
      have after : entryOf key (w.ledger.judge key now .ineffective).1 = Entry.climbed
          { entryOf key w.ledger with phase := .idle, unjudgedRun := 0, transientRun := 0 }
          (endedAt + (climb (entryOf key w.ledger).level).backoff) := by
        simp only [RepairLedger.judge, held, phase, Bool.false_eq_true, if_false, putSame, Entry.climbed]
      refine followsBusy sound later busy rfl after ?_ (.judged phase) fun t d p awaits => by cases awaits
      simp only [observe, Call.apply, after, phase, Entry.climbed]
  | idle =>
    have same := @judgeIdle key w.ledger now judged fun t d p => by rw [phase]; exact Phase.noConfusion
    exact followsQuiet sound later (congrArg (entryOf key) same) fun allowed => .inl allowed
  | inFlight =>
    have same := @judgeIdle key w.ledger now judged fun t d p => by rw [phase]; exact Phase.noConfusion
    exact followsQuiet sound later (congrArg (entryOf key) same) fun allowed => .inl allowed

theorem followsExpired {key : Key} {w : Watch} {now : Nat} (sound : w.Sound key) (later : w.last ≤ now) :
    Follows key w (.expire now) := by
  have after := expireOf w.ledger key now
  cases phase : (entryOf key w.ledger).phase with
  | awaiting endedAt deadline progress =>
    have busy : (entryOf key w.ledger).phase ≠ .idle := by rw [phase]; exact Phase.noConfusion
    have none := sound.fruitless _ _ _ phase
    subst none
    by_cases early : now < deadline
    · simp only [RepairLedger.expireEntry, phase, if_pos early] at after
      exact followsQuiet sound later after fun allowed => .inl allowed
    by_cases even : ((entryOf key w.ledger).unjudgedRun + 1).val % 2 = 0
    · simp only [RepairLedger.expireEntry, phase, if_neg early, Bool.false_eq_true, if_false, if_pos even] at after
      refine followsBusy sound later busy rfl after ?_ (.expiredClimb phase) fun t d p awaits => by cases awaits
      simp only [observe, Call.apply, after, phase]
    · simp only [RepairLedger.expireEntry, phase, if_neg early, Bool.false_eq_true, if_false, if_neg even] at after
      refine followsBusy sound later busy rfl after ?_ (.expired phase even) fun t d p awaits => by cases awaits
      simp only [observe, Call.apply, after, phase]
  | idle =>
    simp only [RepairLedger.expireEntry, phase] at after
    exact followsQuiet sound later after fun allowed => .inl allowed
  | inFlight =>
    simp only [RepairLedger.expireEntry, phase] at after
    exact followsQuiet sound later after fun allowed => .inl allowed

theorem followsStarted {key : Key} {w : Watch} {now : Nat} (sound : w.Sound key) (later : w.last ≤ now)
    (allowed : w.allowed = true) : Follows key w (.started key now) := by
  obtain ⟨idle,open'⟩ := sound.allowed allowed
  have after : entryOf key (w.ledger.started key now) = { entryOf key w.ledger with phase := .inFlight } := putSame
  have seen : observe key w (.started key now) = some (.started now) := by
    simp only [observe, Call.apply, after, idle, Call.time]
  refine ⟨later,?_,fun again => ?_,fun t d p awaits => ?_⟩
  · rw [seen]
    simp only [Call.apply, after]
    exact .start idle (open'.trans later)
  · simp [Watch.after, allows] at again
  · simp only [Watch.after, Call.apply, after] at awaits
    cases awaits

theorem entryOfEntries {key : Key} {l l' : RepairLedger} (same : l'.entries = l.entries) : entryOf key l' = entryOf key l := by
  rw [entryOf, entryOf, same]

theorem follows {key : Key} {w : Watch} {call : Call} (sound : w.Sound key) (law : lawful key w call = true) :
    Follows key w call := by
  obtain ⟨later,law⟩ := Bool.and_eq_true_iff.mp law
  have later := of_decide_eq_true later
  cases call with
  | mayPlan k now =>
    refine followsQuiet sound later (entryOfEntries (mayPlanEntries ..)) fun allowed => ?_
    rcases Bool.or_eq_true_iff.mp allowed with before | yes
    · exact .inl before
    · simp only [Bool.and_eq_true, decide_eq_true_eq] at yes
      obtain ⟨rfl,yes⟩ := yes
      exact .inr (mayPlanYes yes)
  | started k now =>
    by_cases mine : k = key
    · subst mine
      exact followsStarted sound later (by simpa using law)
    · exact followsQuiet sound later (putOther mine) fun allowed => .inl (Bool.and_eq_true_iff.mp allowed).1
  | ended k now how =>
    by_cases mine : k = key
    · subst mine
      exact followsEnded sound later (by simpa [or_iff_not_imp_left] using law)
    · exact followsQuiet sound later (endedOther mine) fun allowed => .inl allowed
  | judge k now judged =>
    by_cases mine : k = key
    · subst mine
      exact followsJudged sound later (by simpa using law)
    · exact followsQuiet sound later (judgeOther mine) fun allowed => .inl allowed
  | expire now => exact followsExpired sound later
  | confirmed k now => exact followsQuiet sound later (entryOfEntries (confirmedEntries ..)) fun allowed => .inl allowed
  | isStopped collection kind now =>
    exact followsQuiet sound later (entryOfEntries (isStoppedEntries ..)) fun allowed => .inl allowed
  | stoppedCollections kind now =>
    exact followsQuiet sound later (entryOfEntries (stoppedCollectionsEntries ..)) fun allowed => .inl allowed
  | retain held members =>
    exact followsQuiet sound later (retainSame (Bool.or_eq_true_iff.mp law)) fun allowed => .inl allowed
  | setRotation rotation => exact followsQuiet sound later rfl fun allowed => .inl allowed

theorem followLife {key : Key} : ∀ {calls : List Call} {w last : Watch} {events : List Event}, w.Sound key →
    follow key w calls = some (last,events) → Life (w.spot key) events (last.spot key) ∧ last.Sound key := by
  intro calls
  induction calls with
  | nil =>
    intro w last events sound run
    cases run
    exact ⟨.nil,sound⟩
  | cons call calls ih =>
    intro w last events sound run
    unfold follow at run
    split_ifs at run with law
    obtain ⟨⟨end',rest⟩,tail,is⟩ := Option.bind_eq_some_iff.mp run
    cases Option.some.inj is
    have step := follows sound law
    obtain ⟨life,done⟩ := ih step.sound tail
    exact ⟨.cons step.later step.step life,done⟩

/- Over a stretch of any run: the level does not fall; among six repairs that come to an end one climbs, or is at the
top level, and every later start is past the back-off counted from its end; and from the top level on at most six end
within a span shorter than the longest back-off. -/
theorem backsOff (key : Key) {start first last final : Watch} {early stretch late : List Call} {before events after : List Event}
    (fresh : start.allowed = false) (fruitless : ∀ t d p, (entryOf key start.ledger).phase = .awaiting t d p → p = false)
    (reached : follow key start early = some (first,before)) (run : follow key first stretch = some (last,events))
    (onward : follow key last late = some (final,after)) :
    (entryOf key first.ledger).level ≤ (entryOf key last.ledger).level ∧
    (6 ≤ (closings events).length → ∃ front x c rest, events = front ++ x :: rest ∧ x.closing = some c ∧
      c.after = (climb c.before).level ∧
      ∀ t, Event.started t ∈ rest ++ after → c.endedAt + (climb c.before).backoff ≤ t) ∧
    ((entryOf key first.ledger).level = maxLevel → ∀ a b, b < a + longest → endsWithin a b events ≤ 6) := by
  have sound : start.Sound key := ⟨fun allowed => absurd (fresh.symm.trans allowed) Bool.noConfusion,fruitless⟩
  obtain ⟨_,soundFirst⟩ := followLife sound reached
  obtain ⟨life,soundLast⟩ := followLife soundFirst run
  obtain ⟨lifeAfter,_⟩ := followLife soundLast onward
  refine ⟨lifeLevel life,fun six => ?_,fun top a b span => lifeSix span life top⟩
  have reserve := reserveFive (first.spot key).entry
  obtain ⟨front,x,c,rest,is,closes,⟨up,waits⟩,later⟩ := lifeClimbs life (by omega)
  refine ⟨front,x,c,rest,is,closes,up,fun t member => ?_⟩
  rcases List.mem_append.mp member with here | there
  · exact (later _ here).1 t rfl
  · exact ((lifeWaits lifeAfter waits).2 _ there).1 t rfl

def someKey : Key := ⟨1,1,.digest⟩

def unwatched : Watch := ⟨.new ⟨fromSecs 300⟩,0,false⟩

/- A repair cancelled while queued. -/
def cancelledAt (now : Nat) : List Call :=
  [.mayPlan someKey now,.started someKey now,.ended someKey now (.transient .cancelled)]

/- Two of them, one that is never judged, three of them. -/
def sixEnds : List Call :=
  cancelledAt 0 ++ cancelledAt 0 ++
  [.mayPlan someKey 0,.started someKey 0,.ended someKey 0 (.finished false),.expire (fromSecs 1800)] ++
  cancelledAt (fromSecs 1800) ++ cancelledAt (fromSecs 1800) ++ cancelledAt (fromSecs 1800)

theorem sixEndsBackOff : ∃ last events, follow someKey unwatched sixEnds = some (last,events) ∧
    (closings events).length = 6 ∧ ∃ front x c rest, events = front ++ x :: rest ∧ x.closing = some c ∧
      c.after = (climb c.before).level ∧ ∀ t, Event.started t ∈ rest ++ [] → c.endedAt + (climb c.before).backoff ≤ t := by
  have lawful : (follow someKey unwatched sixEnds).map (fun x => (closings x.2).length) = some 6 := by decide
  obtain ⟨⟨last,events⟩,run,six⟩ := Option.map_eq_some_iff.mp lawful
  have held := backsOff someKey rfl (fun t d p awaits => by cases awaits) (rfl : follow someKey unwatched [] = _) run
    (rfl : follow someKey last [] = _)
  exact ⟨last,events,run,six,held.2.1 six.ge⟩

end Kimmy.Repair
