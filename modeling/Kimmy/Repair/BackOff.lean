import Kimmy.Repair.Ledger
import Mathlib.Tactic.SplitIfs

/-!
What the ledger does to the repairs of one key. Its entry goes through one life whatever is called for other keys; of
six repairs that come to an end one climbs, and the next start waits out the back-off of the level it climbed to.
-/
namespace Kimmy.Repair
open Store

/- A repair that came to an end: when it ended, and the key's level before and after. -/
structure Closing where
  endedAt : Nat
  before : Nat
  after : Nat
  deriving DecidableEq, Repr

/- `failed` ends and is done; `finished` ends and waits for its probe, which `settled` says has come or has not come
in time. -/
inductive Event where
  | started (now : Nat)
  | finished (now : Nat)
  | failed (closing : Closing)
  | settled (closing : Closing)
  deriving DecidableEq, Repr

def Event.startedAt : Event → Option Nat
  | .started now => some now
  | _ => none

def Event.endedAt : Event → Option Nat
  | .finished now => some now
  | .failed c => some c.endedAt
  | _ => none

def Event.closing : Event → Option Closing
  | .failed c | .settled c => some c
  | _ => none

/-! The life of one entry. -/

/- The entry and the time of the last call. -/
structure Spot where
  entry : Entry
  last : Nat

def Entry.climbed (e : Entry) (notBefore : Nat) : Entry :=
  { e with level := (climb e.level).level, bounded := (climb e.level).bounded, notBefore }

inductive Step (now : Nat) : Entry → Option Event → Entry → Prop where
  | quiet {e} : Step now e none e
  | start {e} : e.phase = .idle → e.notBefore ≤ now → Step now e (some (.started now)) { e with phase := .inFlight }
  | fail {e} : e.phase = .inFlight → (e.transientRun + 1).val % transientClimbEvery ≠ 0 →
      Step now e (some (.failed ⟨now,e.level,e.level⟩)) { e with phase := .idle, transientRun := e.transientRun + 1 }
  | failClimb {e : Entry} {run} : e.phase = .inFlight →
      Step now e (some (.failed ⟨now,e.level,(climb e.level).level⟩))
        (Entry.climbed { e with phase := .idle, transientRun := run } (now + (climb e.level).backoff))
  | finish {e : Entry} {deadline} : e.phase = .inFlight →
      Step now e (some (.finished now)) { e with transientRun := 0, phase := .awaiting now deadline false }
  | judged {e : Entry} {endedAt deadline} : e.phase = .awaiting endedAt deadline false →
      Step now e (some (.settled ⟨endedAt,e.level,(climb e.level).level⟩))
        (Entry.climbed { e with phase := .idle, unjudgedRun := 0, transientRun := 0 } (endedAt + (climb e.level).backoff))
  | expired {e : Entry} {endedAt deadline} : e.phase = .awaiting endedAt deadline false →
      (e.unjudgedRun + 1).val % 2 ≠ 0 →
      Step now e (some (.settled ⟨endedAt,e.level,e.level⟩))
        { e with phase := .idle, unjudgedRun := e.unjudgedRun + 1 }
  | expiredClimb {e : Entry} {endedAt deadline run} : e.phase = .awaiting endedAt deadline false →
      Step now e (some (.settled ⟨endedAt,e.level,(climb e.level).level⟩))
        (Entry.climbed { e with phase := .idle, unjudgedRun := run } (max (endedAt + (climb e.level).backoff) now))

/- Calls at times that do not go back. -/
inductive Life : Spot → List Event → Spot → Prop where
  | nil {s} : Life s [] s
  | cons {s e now event events t} : s.last ≤ now → Step now s.entry event e → Life ⟨e,now⟩ events t →
      Life s (event.toList ++ events) t

theorem climbLevel (level : Nat) : (climb level).level = min (level + 1) maxLevel := rfl

theorem stepLevel {now : Nat} {e e' : Entry} {event : Option Event} (step : Step now e event e') : e.level ≤ e'.level := by
  have bounded := e.bounded
  have climbs : e.level ≤ (climb e.level).level := by
    rw [climbLevel]
    omega
  cases step with
  | quiet => exact le_rfl
  | start => exact le_rfl
  | fail => exact le_rfl
  | failClimb => exact climbs
  | finish => exact le_rfl
  | judged => exact climbs
  | expired => exact le_rfl
  | expiredClimb => exact climbs

theorem lifeLevel {s t : Spot} {events : List Event} (life : Life s events t) : s.entry.level ≤ t.entry.level := by
  induction life with
  | nil => exact le_rfl
  | cons _ step _ ih => exact (stepLevel step).trans ih

/-! No start before a time. -/

def Waits (floor : Nat) (s : Spot) : Prop :=
  floor ≤ s.last ∨ s.entry.phase = .idle ∧ floor ≤ s.entry.notBefore

/- What starts or ends from here on does so no sooner than `floor`. -/
def Event.NotBefore (floor : Nat) (event : Event) : Prop :=
  (∀ now, event.startedAt = some now → floor ≤ now) ∧ ∀ now, event.endedAt = some now → floor ≤ now

theorem stepWaits {floor now : Nat} {s : Spot} {e : Entry} {event : Option Event} (later : s.last ≤ now)
    (step : Step now s.entry event e) (waits : Waits floor s) :
    Waits floor ⟨e,now⟩ ∧ ∀ x ∈ event, x.NotBefore floor := by
  have busy (phase : s.entry.phase ≠ .idle) : floor ≤ now := by
    rcases waits with past | ⟨idle,_⟩
    · exact past.trans later
    · exact absurd idle phase
  have none : ∀ x ∈ (Option.none : Option Event), x.NotBefore floor := fun x member => by cases member
  have at' (past : floor ≤ now) (event : Event) (starts : ∀ t, event.startedAt = some t → t = now)
      (ends : ∀ t, event.endedAt = some t → t = now) : ∀ x ∈ some event, x.NotBefore floor := by
    intro x member
    cases Option.mem_some_iff.mp member
    exact ⟨fun t is => (starts t is).symm ▸ past,fun t is => (ends t is).symm ▸ past⟩
  cases step with
  | quiet =>
    refine ⟨?_,none⟩
    rcases waits with past | idle
    · exact .inl (past.trans later)
    · exact .inr idle
  | start idle open' =>
    have past : floor ≤ now := by
      rcases waits with past | ⟨_,low⟩
      · exact past.trans later
      · exact low.trans open'
    exact ⟨.inl past,at' past _ (fun t is => (Option.some.inj is).symm) (fun t is => by cases is)⟩
  | fail flight =>
    have past := busy (by rw [flight]; exact Phase.noConfusion)
    exact ⟨.inl past,at' past _ (fun t is => by cases is) (fun t is => (Option.some.inj is).symm)⟩
  | failClimb flight =>
    have past := busy (by rw [flight]; exact Phase.noConfusion)
    exact ⟨.inl past,at' past _ (fun t is => by cases is) (fun t is => (Option.some.inj is).symm)⟩
  | finish flight =>
    have past := busy (by rw [flight]; exact Phase.noConfusion)
    exact ⟨.inl past,at' past _ (fun t is => by cases is) (fun t is => (Option.some.inj is).symm)⟩
  | judged awaits =>
    have past := busy (by rw [awaits]; exact Phase.noConfusion)
    exact ⟨.inl past,at' past _ (fun t is => by cases is) (fun t is => by cases is)⟩
  | expired awaits =>
    have past := busy (by rw [awaits]; exact Phase.noConfusion)
    exact ⟨.inl past,at' past _ (fun t is => by cases is) (fun t is => by cases is)⟩
  | expiredClimb awaits =>
    have past := busy (by rw [awaits]; exact Phase.noConfusion)
    exact ⟨.inl past,at' past _ (fun t is => by cases is) (fun t is => by cases is)⟩

theorem lifeWaits {floor : Nat} {s t : Spot} {events : List Event} (life : Life s events t) (waits : Waits floor s) :
    Waits floor t ∧ ∀ x ∈ events, x.NotBefore floor := by
  induction life with
  | nil => exact ⟨waits,fun x member => absurd member List.not_mem_nil⟩
  | cons later step _ ih =>
    obtain ⟨next,first⟩ := stepWaits later step waits
    obtain ⟨last,rest⟩ := ih next
    refine ⟨last,fun x member => ?_⟩
    rcases List.mem_append.mp member with here | there
    · exact first x (Option.mem_toList.mp here)
    · exact rest x there

/-! Of six that come to an end one climbs. -/

/- How many repairs can still come to an end before one climbs. -/
def Entry.reserve (e : Entry) : Nat :=
  let unjudged := if e.unjudgedRun.val % 2 = 0 then 3 else 0
  match e.phase with
  | .awaiting .. => unjudged
  | _ => unjudged + (2 - e.transientRun.val % 3)

theorem reserveFive (e : Entry) : e.reserve ≤ 5 := by
  unfold Entry.reserve
  simp only
  split
  · split_ifs <;> omega
  · split_ifs <;> omega

theorem runNext (r : Fin (2 ^ 32)) : (r + 1).val = if r.val + 1 = 2 ^ 32 then 0 else r.val + 1 := by
  have bound := r.isLt
  have next : (r + 1).val = (r.val + 1) % 2 ^ 32 := rfl
  rw [next]
  split_ifs with full
  · rw [full, Nat.mod_self]
  · exact Nat.mod_eq_of_lt (by omega)

theorem failLess {e : Entry} (flight : e.phase = .inFlight) (odd : (e.transientRun + 1).val % transientClimbEvery ≠ 0) :
    Entry.reserve { e with phase := .idle, transientRun := e.transientRun + 1 } < e.reserve := by
  simp only [Entry.reserve, flight, transientClimbEvery] at odd ⊢
  rw [runNext] at odd ⊢
  split_ifs at odd ⊢ <;> omega

theorem expireLess {e : Entry} {endedAt deadline : Nat} {progress : Bool} (awaits : e.phase = .awaiting endedAt deadline progress)
    (odd : (e.unjudgedRun + 1).val % 2 ≠ 0) :
    Entry.reserve { e with phase := .idle, unjudgedRun := e.unjudgedRun + 1 } < e.reserve := by
  have small := e.unjudgedRun.isLt
  simp only [Entry.reserve, awaits] at odd ⊢
  rw [runNext] at odd ⊢
  split_ifs at odd ⊢ <;> omega

/- The closing climbed, and the next start waits. -/
def Closing.Backs (c : Closing) (s : Spot) : Prop :=
  c.after = (climb c.before).level ∧ Waits (c.endedAt + (climb c.before).backoff) s

def closingOf (event : Option Event) : Option Closing := event.bind Event.closing

theorem stepReserve {now : Nat} {e e' : Entry} {event : Option Event} (step : Step now e event e') :
    match closingOf event with
    | none => e'.reserve ≤ e.reserve
    | some c => c.before = e.level ∧ (c.Backs ⟨e',now⟩ ∨ e'.reserve < e.reserve) := by
  cases step with
  | quiet => exact le_rfl
  | start idle => simp [closingOf, Event.closing, Entry.reserve, idle]
  | fail flight odd => exact ⟨rfl,.inr (failLess flight odd)⟩
  | failClimb => exact ⟨rfl,.inl ⟨rfl,.inr ⟨rfl,le_rfl⟩⟩⟩
  | finish flight => simp [closingOf, Event.closing, Entry.reserve, flight]
  | judged => exact ⟨rfl,.inl ⟨rfl,.inr ⟨rfl,le_rfl⟩⟩⟩
  | expired awaits odd => exact ⟨rfl,.inr (expireLess awaits odd)⟩
  | expiredClimb => exact ⟨rfl,.inl ⟨rfl,.inr ⟨rfl,le_max_left ..⟩⟩⟩

def closings (events : List Event) : List Closing := events.filterMap Event.closing

theorem closingsCons (event : Option Event) (events : List Event) :
    closings (event.toList ++ events) = (closingOf event).toList ++ closings events := by
  cases event with
  | none => rfl
  | some event =>
    show closings (event :: events) = _
    unfold closings closingOf
    rw [List.filterMap_cons, Option.bind_some]
    cases event.closing <;> rfl

theorem lifeClimbs {s t : Spot} {events : List Event} (life : Life s events t)
    (enough : s.entry.reserve < (closings events).length) :
    ∃ before x c after, events = before ++ x :: after ∧ x.closing = some c ∧ c.Backs t ∧
      ∀ y ∈ after, y.NotBefore (c.endedAt + (climb c.before).backoff) := by
  induction life with
  | nil => exact absurd enough (Nat.not_lt_zero _)
  | @cons s e now event events t later step rest ih =>
    have turn := stepReserve step
    rw [closingsCons, List.length_append] at enough
    -- the step climbs, or the rest has enough for what is left
    have recurse (more : e.reserve < (closings events).length) : ∃ before x c after,
        event.toList ++ events = before ++ x :: after ∧ x.closing = some c ∧ c.Backs t ∧
          ∀ y ∈ after, y.NotBefore (c.endedAt + (climb c.before).backoff) := by
      obtain ⟨before,x,c,after,rfl,found⟩ := ih more
      exact ⟨event.toList ++ before,x,c,after,(List.append_assoc ..).symm,found⟩
    cases is : closingOf event with
    | none =>
      rw [is] at turn enough
      rw [Option.toList_none, List.length_nil, Nat.zero_add] at enough
      exact recurse (lt_of_le_of_lt turn enough)
    | some c =>
      rw [is] at turn enough
      rw [Option.toList_some, List.length_singleton] at enough
      rcases turn with ⟨_,⟨up,waits⟩ | less⟩
      · obtain ⟨x,rfl,closes⟩ := Option.bind_eq_some_iff.mp is
        obtain ⟨last,after⟩ := lifeWaits rest waits
        exact ⟨[],x,c,events,rfl,closes,⟨up,last⟩,after⟩
      · exact recurse (by omega)

/-! At the top level. -/

def longest : Nat := backoffs.foldl max 0

theorem topBackoff {level : Nat} (top : level = maxLevel) : (climb level).backoff = longest := by
  subst top
  decide

/- The ends from `a` to `b`. -/
def endsWithin (a b : Nat) (events : List Event) : Nat :=
  ((events.filterMap Event.endedAt).filter fun t => a ≤ t ∧ t ≤ b).length

theorem endsCons (a b : Nat) (event : Option Event) (events : List Event) :
    endsWithin a b (event.toList ++ events) = endsWithin a b event.toList + endsWithin a b events := by
  unfold endsWithin
  rw [List.filterMap_append, List.filter_append, List.length_append]

theorem endsLate {a b floor : Nat} {events : List Event} (past : b < floor) (late : ∀ x ∈ events, x.NotBefore floor) :
    endsWithin a b events = 0 := by
  unfold endsWithin
  rw [List.length_eq_zero_iff, List.filter_eq_nil_iff]
  intro t member inside
  obtain ⟨x,held,is⟩ := List.mem_filterMap.mp member
  have low := (late x held).2 t is
  simp only [decide_eq_true_eq] at inside
  omega

theorem endsOne {a b : Nat} (event : Event) : endsWithin a b (some event).toList ≤ 1 := by
  refine (List.length_filter_le _ _).trans ?_
  rw [Option.toList_some, List.filterMap_cons]
  cases event.endedAt <;> simp

/- How many can end before one climbs; one that is awaited has ended. -/
def Entry.room (e : Entry) : Nat :=
  match e.phase with
  | .awaiting .. => e.reserve
  | _ => e.reserve + 1

theorem stepRoom {a b now : Nat} {e e' : Entry} {event : Option Event} (step : Step now e event e')
    (top : e.level = maxLevel) (from' : a ≤ now) (held : ∀ t d p, e.phase = .awaiting t d p → a ≤ t) :
    endsWithin a b event.toList + e'.room ≤ e.room ∨
      endsWithin a b event.toList ≤ e.room ∧ Waits (a + longest) ⟨e',now⟩ := by
  have reserve := stepReserve step
  have up := topBackoff top
  cases step with
  | quiet => exact .inl (Nat.zero_add _).le
  | start idle => exact .inl (by simp [Entry.room, idle, Entry.reserve, endsWithin, Event.endedAt])
  | fail flight odd =>
    left
    have one := @endsOne a b (.failed ⟨now,e.level,e.level⟩)
    have less := failLess flight odd
    simp only [Entry.room, flight]
    omega
  | failClimb flight =>
    have one := @endsOne a b (.failed ⟨now,e.level,(climb e.level).level⟩)
    refine .inr ⟨?_,.inr ⟨rfl,?_⟩⟩
    · simp only [Entry.room, flight]
      omega
    · show a + longest ≤ now + (climb e.level).backoff
      omega
  | finish flight =>
    left
    have one := @endsOne a b (.finished now)
    have less : Entry.reserve _ ≤ e.reserve := reserve
    simp only [Entry.room, flight]
    omega
  | judged awaits =>
    have low := held _ _ _ awaits
    refine .inr ⟨Nat.zero_le _,.inr ⟨rfl,?_⟩⟩
    show a + longest ≤ _ + (climb e.level).backoff
    omega
  | expired awaits odd =>
    have less := expireLess awaits odd
    left
    simp only [Entry.room, awaits]
    exact (Nat.zero_add _).le.trans less
  | expiredClimb awaits =>
    have low := held _ _ _ awaits
    refine .inr ⟨Nat.zero_le _,.inr ⟨rfl,?_⟩⟩
    show a + longest ≤ max (_ + (climb e.level).backoff) now
    omega

theorem stepHeld {a now : Nat} {e e' : Entry} {event : Option Event} (step : Step now e event e') (past : a ≤ now)
    (held : ∀ t d p, e.phase = .awaiting t d p → a ≤ t) : ∀ t d p, e'.phase = .awaiting t d p → a ≤ t := by
  intro t d p awaits
  cases step with
  | quiet => exact held t d p awaits
  | finish =>
    cases awaits
    exact past
  | start => cases awaits
  | fail => cases awaits
  | failClimb => cases awaits
  | judged => cases awaits
  | expired => cases awaits
  | expiredClimb => cases awaits

theorem endsInFlight {a b now : Nat} {e e' : Entry} {event : Option Event} (step : Step now e event e')
    (counts : endsWithin a b event.toList ≠ 0) : e.phase = .inFlight ∧ a ≤ now := by
  have past (event : Event) (counts : endsWithin a b [event] ≠ 0) (ends : ∀ t, event.endedAt = some t → t = now) : a ≤ now := by
    by_contra early
    refine counts (List.length_eq_zero_iff.mpr (List.filter_eq_nil_iff.mpr fun t member inside => early ?_))
    obtain ⟨x,held,is⟩ := List.mem_filterMap.mp member
    rw [List.mem_singleton.mp held] at is
    simp only [decide_eq_true_eq] at inside
    exact ends t is ▸ inside.1
  cases step with
  | quiet => exact absurd rfl counts
  | start => exact absurd rfl counts
  | fail flight => exact ⟨flight,past _ counts fun t is => (Option.some.inj is).symm⟩
  | failClimb flight => exact ⟨flight,past _ counts fun t is => (Option.some.inj is).symm⟩
  | finish flight => exact ⟨flight,past _ counts fun t is => (Option.some.inj is).symm⟩
  | judged => exact absurd rfl counts
  | expired => exact absurd rfl counts
  | expiredClimb => exact absurd rfl counts

theorem lifeRoom {a b : Nat} (span : b < a + longest) {s t : Spot} {events : List Event} (life : Life s events t)
    (top : s.entry.level = maxLevel) (from' : a ≤ s.last) (held : ∀ t d p, s.entry.phase = .awaiting t d p → a ≤ t) :
    endsWithin a b events ≤ s.entry.room := by
  induction life with
  | nil => exact Nat.zero_le _
  | @cons s e now event events t later step rest ih =>
    rw [endsCons]
    rcases @stepRoom a b now _ _ _ step top (from'.trans later) held with less | ⟨less,waits⟩
    · have stays : e.level = maxLevel := le_antisymm e.bounded (top ▸ stepLevel step)
      have more := ih stays (from'.trans later) (stepHeld step (from'.trans later) held)
      exact (Nat.add_le_add_left more _).trans less
    · rw [endsLate span (lifeWaits rest waits).2]
      exact less

/- The first end in the span is of a repair in flight. -/
theorem lifeSix {a b : Nat} (span : b < a + longest) {s t : Spot} {events : List Event} (life : Life s events t)
    (top : s.entry.level = maxLevel) : endsWithin a b events ≤ 6 := by
  induction life with
  | nil => exact Nat.zero_le _
  | @cons s e now event events t later step rest ih =>
    by_cases counts : endsWithin a b event.toList = 0
    · rw [endsCons, counts, Nat.zero_add]
      exact ih (le_antisymm e.bounded (top ▸ stepLevel step))
    · obtain ⟨flight,past⟩ := endsInFlight step counts
      have whole : Life ⟨s.entry,now⟩ (event.toList ++ events) t := .cons le_rfl step rest
      have bound := lifeRoom span whole top past fun t d p awaits => by
        have flight' : s.entry.phase = .inFlight := flight
        rw [flight'] at awaits
        cases awaits
      have most := reserveFive s.entry
      simp only [Entry.room, flight] at bound
      omega

end Kimmy.Repair
