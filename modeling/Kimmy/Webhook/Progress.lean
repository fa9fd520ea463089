import Kimmy.Store.Windows
import Kimmy.Webhook.Dispatch

/-!
Webhook delivery never silently skips an event. Recorded progress covers a wanted entry only if
its event was accepted: a window is gone through in the order of the stamps, a batch is the first
of what is wanted in it, and the vector was read before the window was cut.
-/
namespace Kimmy.Webhook
open Merge Store

/-! Batches. -/

/- What goes out is the first part of what is wanted, and not nothing. -/
theorem fillFirst (c : Config) : ∀ (entries : List OplogEntry) (used : Nat) (stamps : List Stamp),
    ∃ taken rest, entries = taken ++ rest ∧ fill c used stamps entries = stamps ++ taken.map (·.stamp) ∧
      (stamps = [] → entries ≠ [] → taken ≠ [])
  | [], _, stamps => ⟨[],[],rfl,(List.append_nil _).symm,fun _ some' => absurd rfl some'⟩
  | entry :: rest, used, stamps => by
      unfold fill
      simp only
      generalize c.size entry + (if stamps.isEmpty then 0 else 1) = cost
      split_ifs with fits alone
      · obtain ⟨taken, later, split, filled, _⟩ := fillFirst c rest (used + cost) (stamps ++ [entry.stamp])
        refine ⟨entry :: taken,later,by rw [split]; rfl,?_,fun _ _ => List.cons_ne_nil _ _⟩
        rw [filled, List.append_assoc]
        rfl
      · refine ⟨[entry],rest,rfl,?_,fun _ _ => List.cons_ne_nil _ _⟩
        rw [List.isEmpty_iff.mp alone]
        rfl
      · exact ⟨[],entry :: rest,rfl,(List.append_nil _).symm,fun none' => absurd (List.isEmpty_iff.mpr none') alone⟩

/- Without a budget a window is cut only where it is full. -/
theorem walkWhole (limit : Nat) (skip : Stamp → Bool) (keep : OplogEntry → Bool) :
    ∀ (rows : List (Stamp × OplogEntry)) (examined : Nat) (window : OplogWindow), window.passedThrough = none →
    (walkOplog limit skip keep none rows examined window).passedThrough = none
  | [], _, _, none' => none'
  | (stamp,entry) :: rest, examined, window, none' => by
      have same : (window.examine skip keep stamp entry).passedThrough = none := by
        unfold OplogWindow.examine
        split_ifs
        · exact none'
        · exact none'
        · exact none'
      unfold walkOplog
      simp only [Option.any_none, Bool.false_eq_true, if_false]
      split_ifs
      · exact same
      · exact walkWhole limit skip keep rest (examined + 1) _ same

theorem cutWindow {db : Tables} (stamped : ∀ s x, db.oplog.get s = some x → x.stamp = s) (first : Hlc) (limit : Nat) :
    Cut db.oplog first (fun _ => false) (fun entry => !entry.kind.isLocalObservation) false
      (db.entriesForPeer first limit none [] none) := by
  have shape : db.entriesForPeer first limit none [] none =
      db.readOplogLinear first limit (fun _ => false) (fun entry => !entry.kind.isLocalObservation) none := rfl
  rw [shape]
  refine cut stamped ?_
  have whole : (db.readOplogLinear first limit (fun _ => false) (fun entry => !entry.kind.isLocalObservation)
      none).passedThrough = none := walkWhole _ _ _ _ _ _ rfl
  rw [whole]
  rfl

theorem wantedOwn {c : Config} {x : OplogEntry} (wanted : c.job.wanted x = true) :
    (!x.kind.isLocalObservation) = true := by
  unfold Job.wanted at wanted
  have named := (Bool.and_eq_true_iff.mp wanted).2
  cases kind : x.kind <;> first | rfl | (rw [kind] at named; cases named)

/-! Vectors. -/

theorem observeAllCovers {progress : VersionVector} {s : Stamp} : ∀ {stamps : List Stamp},
    (observeAll progress stamps).Covers s →
      progress.Covers s ∨ ∃ z ∈ stamps, z.node = s.node ∧ s.hlc ≤ z.hlc := by
  intro stamps
  induction stamps generalizing progress with
  | nil => exact Or.inl
  | cons z rest ih =>
      intro covers
      rcases @ih (progress.observe z) covers with before | ⟨y, inside, same, le⟩
      · unfold VersionVector.Covers at before
        rw [VersionVector.getObserve] at before
        split_ifs at before with own
        · rcases le_max_iff.mp before with old | new
          · exact Or.inl old
          · exact Or.inr ⟨z,List.mem_cons_self,own.symm,new⟩
        · exact Or.inl before
      · exact Or.inr ⟨y,List.mem_cons_of_mem _ inside,same,le⟩

theorem carryCovers {progress current : VersionVector} {ended : WindowEnd} {s : Stamp} :
    (carryForward progress current ended).Covers s ↔ progress.Covers s ∨ (coverageUpTo current ended).Covers s := by
  unfold carryForward VersionVector.Covers
  rw [VersionVector.getMerge, le_max_iff]

/-! The log. -/

/- What the member knows of its log; `past` are the entries it ever held. -/
structure Kept (m : Member) (past : OplogEntry → Prop) : Prop where
  stamped : ∀ s x, m.db.oplog.get s = some x → x.stamp = s
  inside : ∀ s x, m.db.oplog.get s = some x → past x
  positive : ∀ x, past x → .zero < x.stamp.hlc
  covered : ∀ x, past x → m.db.versions.Covers x.stamp
  still : ∀ x, past x → m.db.oplog.get x.stamp = some x ∨
    (m.db.oplog.get x.stamp = none ∧ x.stamp.hlc ≤ m.db.collected.get x.stamp.node)
  horizon : ∀ o, m.db.collected.get o ≤ m.collectedThrough
  marked : ∀ o, .zero < m.db.collected.get o →
    ∃ x, past x ∧ x.stamp = ⟨m.db.collected.get o,o⟩ ∧ m.db.oplog.get x.stamp = none

/- The entries ever held, after a step. -/
def pastAfter (past : OplogEntry → Prop) (m : Member) (x : OplogEntry) : Prop :=
  past x ∨ m.db.oplog.get x.stamp = some x

section
variable {m n : Member} {past : OplogEntry → Prop}

theorem Kept.pastSame (kept : Kept m past) (db : n.db = m.db) : pastAfter past n = past := by
  funext x
  refine propext ⟨?_,Or.inl⟩
  rintro (old | held)
  · exact old
  · exact kept.inside _ x (db ▸ held)

theorem Kept.same (kept : Kept m past) (db : n.db = m.db) (horizon : n.collectedThrough = m.collectedThrough) :
    Kept n (pastAfter past n) := by
  rw [kept.pastSame db]
  obtain ⟨stamped, inside, positive, covered, still, low, marked⟩ := kept
  rw [←db] at stamped inside covered still low marked
  exact ⟨stamped,inside,positive,covered,still,fun o => horizon ▸ low o,marked⟩

/- An entry arrives above all of its origin. -/
structure Appended (m n : Member) (entry : OplogEntry) : Prop where
  above : m.db.versions.get entry.stamp.node < entry.stamp.hlc
  same : n = { m with db := m.db.appendOplog entry }

theorem appended {entry : OplogEntry} (done : m.append entry = some n) : Appended m n entry := by
  unfold Member.append at done
  split_ifs at done with above
  exact ⟨above,(Option.some.inj done).symm⟩

section
variable {entry : OplogEntry}

theorem Kept.fresh (kept : Kept m past) (arrived : Appended m n entry) : m.db.oplog.get entry.stamp = none := by
  cases held : m.db.oplog.get entry.stamp with
  | none => rfl
  | some x =>
      have covers := kept.covered x (kept.inside _ x held)
      rw [kept.stamped _ x held] at covers
      exact absurd arrived.above (not_lt.mpr covers)

theorem Appended.log (arrived : Appended m n entry) (s : Stamp) :
    n.db.oplog.get s = if s = entry.stamp then some entry else m.db.oplog.get s := by
  rw [arrived.same]
  simp only [Tables.appendOplog, Tables.appendLog, SortedMap.getInsert]

theorem Kept.pastAppended (kept : Kept m past) (arrived : Appended m n entry) {x : OplogEntry} :
    pastAfter past n x ↔ past x ∨ x = entry := by
  unfold pastAfter
  rw [arrived.log]
  constructor
  · rintro (old | held)
    · exact Or.inl old
    · split_ifs at held
      · exact Or.inr (Option.some.inj held).symm
      · exact Or.inl (kept.inside _ x held)
  · rintro (old | rfl)
    · exact Or.inl old
    · exact Or.inr (if_pos rfl)

theorem Kept.raised (kept : Kept m past) (arrived : Appended m n entry) (o : NodeId) :
    n.db.versions.get o = if o = entry.stamp.node then max (m.db.versions.get o) entry.stamp.hlc
      else m.db.versions.get o := by
  have versions : n.db.versions = m.db.versions.raise entry.stamp := by
    rw [arrived.same]
    simp [Tables.appendOplog, Tables.appendOplogAt, kept.fresh arrived, Tables.raiseVersions]
  rw [versions, VersionVector.getRaise]

theorem Kept.rises (kept : Kept m past) (arrived : Appended m n entry) (o : NodeId) :
    m.db.versions.get o ≤ n.db.versions.get o := by
  rw [kept.raised arrived]
  split_ifs
  · exact le_max_left _ _
  · exact le_refl _

theorem Kept.appended (kept : Kept m past) (arrived : Appended m n entry) : Kept n (pastAfter past n) := by
  have collected : n.db.collected = m.db.collected := by
    rw [arrived.same]
    exact (Tables.appendData _ _ _).collected
  have horizon : n.collectedThrough = m.collectedThrough := by rw [arrived.same]
  have other : ∀ x, past x → x.stamp ≠ entry.stamp := fun x old same => by
    have covers := kept.covered x old
    rw [same] at covers
    exact absurd arrived.above (not_lt.mpr covers)
  refine ⟨fun s x held => ?_,fun s x held => ?_,fun x later => ?_,fun x later => ?_,fun x later => ?_,fun o => ?_,
    fun o some' => ?_⟩
  · rw [arrived.log] at held
    split_ifs at held with same
    · rw [←Option.some.inj held, same]
    · exact kept.stamped s x held
  · refine (kept.pastAppended arrived).mpr ?_
    rw [arrived.log] at held
    split_ifs at held
    · exact Or.inr (Option.some.inj held).symm
    · exact Or.inl (kept.inside s x held)
  · rcases (kept.pastAppended arrived).mp later with old | rfl
    · exact kept.positive x old
    · exact (VersionVector.zeroLe _).trans_lt arrived.above
  · rcases (kept.pastAppended arrived).mp later with old | rfl
    · exact (kept.covered x old).trans (kept.rises arrived _)
    · unfold VersionVector.Covers
      rw [kept.raised arrived, if_pos rfl]
      exact le_max_right _ _
  · rw [arrived.log, collected]
    rcases (kept.pastAppended arrived).mp later with old | rfl
    · rw [if_neg (other x old)]
      exact kept.still x old
    · exact Or.inl (if_pos rfl)
  · rw [collected, horizon]
    exact kept.horizon o
  · rw [collected] at some' ⊢
    obtain ⟨x, old, stamp, gone⟩ := kept.marked o some'
    refine ⟨x,(kept.pastAppended arrived).mpr (Or.inl old),stamp,?_⟩
    rw [arrived.log, if_neg (other x old)]
    exact gone

end

theorem removedLog (m : Member) (keys : List Stamp) (s : Stamp) :
    (m.removeOplogEntries keys).db.oplog.get s = if s ∈ keys then none else m.db.oplog.get s :=
  (Removal.after keys ⟨m.db,none,.new⟩).log s

theorem removedVersions (m : Member) (keys : List Stamp) : (m.removeOplogEntries keys).db.versions = m.db.versions :=
  (Removal.after keys ⟨m.db,none,.new⟩).versions

theorem Kept.pastRemoved (kept : Kept m past) (keys : List Stamp) :
    pastAfter past (m.removeOplogEntries keys) = past := by
  funext x
  refine propext ⟨?_,Or.inl⟩
  rintro (old | held)
  · exact old
  · rw [removedLog] at held
    split_ifs at held
    exact kept.inside _ x held

theorem Kept.removed (kept : Kept m past) (keys : List Stamp) :
    Kept (m.removeOplogEntries keys) (pastAfter past (m.removeOplogEntries keys)) := by
  rw [kept.pastRemoved]
  have after := Removal.after keys ⟨m.db,none,.new⟩
  have collected : ∀ o, (m.removeOplogEntries keys).db.collected.get o =
      max (m.db.collected.get o) ((m.db.removing keys).perOrigin.get o) := fun o => by
    unfold Member.removeOplogEntries Tables.removeOplogEntries
    simp only [VersionVector.getMerge]
    exact congrArg (fun v : VersionVector => max (v.get o) _) after.collected
  refine ⟨fun s x held => ?_,fun s x held => ?_,kept.positive,fun x old => ?_,fun x old => ?_,fun o => ?_,fun o some' => ?_⟩
  · rw [removedLog] at held
    split_ifs at held
    exact kept.stamped s x held
  · rw [removedLog] at held
    split_ifs at held
    exact kept.inside s x held
  · rw [removedVersions]
    exact kept.covered x old
  · rw [removedLog, collected]
    rcases kept.still x old with held | ⟨gone, mark⟩
    · split_ifs with named
      · refine Or.inr ⟨rfl,le_max_of_le_right (after.marked _ named ?_)⟩
        exact Option.isSome_iff_exists.mpr ⟨x,held⟩
      · exact Or.inl held
    · refine Or.inr ⟨?_,le_max_of_le_left mark⟩
      split_ifs
      · rfl
      · exact gone
  · rw [collected]
    refine max_le ((kept.horizon o).trans (le_max_left _ _)) ?_
    exact (after.topped (fun _ => le_refl _) o).trans (le_max_right _ _)
  · rw [collected] at some' ⊢
    rcases max_choice (m.db.collected.get o) ((m.db.removing keys).perOrigin.get o) with old | new
    · rw [old] at some' ⊢
      obtain ⟨x, was, stamp, gone⟩ := kept.marked o some'
      refine ⟨x,was,stamp,?_⟩
      rw [removedLog]
      split_ifs
      · rfl
      · exact gone
    · rw [new] at some' ⊢
      rcases after.sourced o with before | ⟨named, there⟩
      · rw [show (m.db.removing keys).perOrigin.get o = .zero from before] at some'
        exact absurd some' (lt_irrefl _)
      · obtain ⟨x, held⟩ := Option.isSome_iff_exists.mp there
        have stamp := kept.stamped _ x held
        refine ⟨x,kept.inside _ x held,stamp,?_⟩
        rw [removedLog, stamp]
        exact if_pos named

end

/- Whatever the step, the log is appended to, cut or left alone. -/
theorem Kept.step {c : Config} {m : Member} {past : OplogEntry → Prop} (kept : Kept m past) (step : Step) :
    Kept (m.step c step) (pastAfter past (m.step c step)) := by
  have wrote {n : Member} {written : Option OplogEntry} (done : written.bind m.append = some n) :
      Kept n (pastAfter past n) := by
    obtain ⟨entry, _, arrived⟩ := Option.bind_eq_some_iff.mp done
    exact kept.appended (Webhook.appended arrived)
  have again {n : Member} {more : OplogEntry → Prop} (later : Kept n more) {k : Member} (db : k.db = n.db)
      (through : k.collectedThrough = n.collectedThrough) : Kept k more := by
    have same := later.same db through
    rwa [later.pastSame db] at same
  unfold Member.step
  cases step with
  | append entry =>
      simp only
      cases done : m.append entry with
      | none => exact kept.same rfl rfl
      | some n => exact kept.appended (Webhook.appended done)
  | collect cutoff =>
      simp only
      split <;> exact kept.same rfl rfl
  | scan i chunk =>
      simp only
      split <;> exact kept.same rfl rfl
  | remove i =>
      simp only
      split
      · exact kept.removed _
      · exact kept.same rfl rfl
  | register =>
      simp only
      split_ifs <;> exact kept.same rfl rfl
  | readProgress =>
      simp only
      split
      · split_ifs <;> exact kept.same rfl rfl
      · exact kept.same rfl rfl
  | readVector ready =>
      simp only
      split
      · split
        · split_ifs <;> exact kept.same rfl rfl
        · exact kept.same rfl rfl
      · exact kept.same rfl rfl
  | check written =>
      simp only
      split
      · split_ifs
        · unfold Member.invalidate
          cases done : written.bind m.append with
          | none => exact kept.same rfl rfl
          | some n => exact again (wrote done) rfl rfl
        · exact kept.same rfl rfl
      · exact kept.same rfl rfl
  | plan stale =>
      simp only
      split <;> exact kept.same rfl rfl
  | deliver taken =>
      simp only
      split
      · split_ifs <;> exact kept.same rfl rfl
      · exact kept.same rfl rfl
  | record written =>
      simp only
      split
      · cases done : written.bind m.append with
        | none => exact kept.same rfl rfl
        | some n => exact again (wrote done) rfl rfl
      · exact kept.same rfl rfl
  | restart => exact kept.same rfl rfl

/-! Passes. -/

/- What the pass relies on at each stage. `owed` says that a vector covers nothing undelivered but
the given events. -/
def Owed (c : Config) (m : Member) (past : OplogEntry → Prop) (v : VersionVector) (but : List Stamp) : Prop :=
  ∀ start, m.started = some start → ∀ x, past x → c.job.wanted x = true → ¬ start.Covers x.stamp →
    v.Covers x.stamp → x.stamp ∈ m.accepted ∨ x.stamp ∈ but

def Below (m : Member) (v : VersionVector) : Prop := ∀ o, v.get o ≤ m.db.versions.get o

/- The pass read the recorded progress, and then a vector it trails. -/
def Behind (m : Member) (progress current : VersionVector) (first : Hlc) : Prop :=
  progress = m.progress ∧ Below m current ∧ progress.behind current = some first

def PassingSound (c : Config) (m : Member) (past : OplogEntry → Prop) : Prop :=
  match m.passing with
  | .idle => True
  | .reading progress => progress = m.progress
  | .compared progress current first => Behind m progress current first ∧
      ∀ x, past x → ¬ progress.Covers x.stamp → ¬ current.Covers x.stamp →
        m.db.oplog.get x.stamp = some x ∨ first < x.stamp.hlc
  | .checked progress current first => Behind m progress current first ∧
      ∀ x, past x → ¬ progress.Covers x.stamp → m.db.oplog.get x.stamp = some x
  | .planned progress current through stamps =>
      Below m (carryForward (observeAll progress stamps) current through) ∧
        Owed c m past (carryForward (observeAll progress stamps) current through) stamps
  | .recording progress => Below m progress ∧ Owed c m past progress []

structure Sound (c : Config) (m : Member) (past : OplogEntry → Prop) : Prop where
  kept : Kept m past
  unstarted : m.started = none → m.passing = .idle
  below : Below m m.progress
  delivered : Owed c m past m.progress []
  passing : PassingSound c m past

/- What goes wrong between a pass's reads: an entry that the progress does not cover is collected
where the pass's retention check does not see it, or the scan begins above an entry that the
progress does not cover and sees a later one of its origin. -/
def Calm (m : Member) : Step → Prop
  | .remove i => ∀ pass, m.collecting[i]? = some pass → ∀ key ∈ pass.keys, (m.db.oplog.get key).isSome = true →
      match m.passing with
      | .compared progress _ first => progress.Covers key ∨ first < key.hlc
      | .checked progress _ _ => progress.Covers key
      | _ => True
  | .plan _ => match m.passing with
      | .checked progress _ first => ∀ low high x y, m.db.oplog.get low = some x → m.db.oplog.get high = some y →
          low.node = high.node → low.hlc < first → first ≤ high.hlc → progress.Covers low
      | _ => True
  | _ => True

def CalmRun (c : Config) (m : Member) : List Step → Prop
  | [] => True
  | step :: rest => Calm m step ∧ CalmRun c (m.step c step) rest

/-! The scan. -/

theorem sameOriginLe {x z : Stamp} (same : z.node = x.node) (le : x.hlc ≤ z.hlc) : x ≤ z := by
  rw [←not_lt, stampLtIff]
  rintro (above | ⟨_, above⟩)
  · exact absurd le (not_le.mpr above)
  · exact absurd above (not_lt.mpr same.ge)

/- In the order of the stamps, what is at or below one that was taken was taken. -/
theorem takenBelow {wanted taken rest : List OplogEntry} (sorted : wanted.Pairwise fun x y => x.stamp < y.stamp)
    (split : wanted = taken ++ rest) {x z : OplogEntry} (there : x ∈ wanted) (inside : z ∈ taken)
    (le : x.stamp ≤ z.stamp) : x ∈ taken := by
  rw [split] at there sorted
  rcases List.mem_append.mp there with here | later
  · exact here
  · exact absurd le (not_le.mpr ((List.pairwise_append.mp sorted).2.2 z inside x later))

section
variable {c : Config} {m : Member} {past : OplogEntry → Prop} {progress current : VersionVector} {first : Hlc}

/- What the scan was made of. -/
structure Scanned (c : Config) (m : Member) (past : OplogEntry → Prop) (progress current : VersionVector) (first : Hlc)
    (window : OplogWindow) : Prop where
  cut : Cut m.db.oplog first (fun _ => false) (fun entry => !entry.kind.isLocalObservation) false window
  behind : Behind m progress current first
  inLog : ∀ x, past x → ¬ progress.Covers x.stamp → m.db.oplog.get x.stamp = some x
  calm : ∀ low high x y, m.db.oplog.get low = some x → m.db.oplog.get high = some y →
    low.node = high.node → low.hlc < first → first ≤ high.hlc → progress.Covers low

namespace Scanned
variable {window : OplogWindow}

theorem sorted (scanned : Scanned c m past progress current first window) :
    (undelivered c progress window).Pairwise fun x y => x.stamp < y.stamp :=
  (scanned.cut.sorted.filter _).filter _

theorem wanted (scanned : Scanned c m past progress current first window) {x : OplogEntry} (old : past x)
    (wanted : c.job.wanted x = true) (uncovered : ¬ progress.Covers x.stamp) (above : first ≤ x.stamp.hlc)
    (reached : (windowEnd window).Reaches x.stamp) : x ∈ undelivered c progress window := by
  have there := scanned.cut.complete _ x (scanned.inLog x old uncovered) above rfl (wantedOwn wanted) reached
  refine List.mem_filter.mpr ⟨List.mem_filter.mpr ⟨there,wanted⟩,?_⟩
  exact decide_eq_true (not_le.mp uncovered)

/- An undelivered entry below one that was seen of its origin was seen too. -/
theorem below (scanned : Scanned c m past progress current first window) {x : OplogEntry} (old : past x)
    (wanted : c.job.wanted x = true) (uncovered : ¬ progress.Covers x.stamp) {z : OplogEntry}
    (seen : z ∈ window.entries) (same : z.stamp.node = x.stamp.node) (le : x.stamp.hlc ≤ z.stamp.hlc) :
    x ∈ undelivered c progress window ∧ x.stamp ≤ z.stamp := by
  have order := sameOriginLe same le
  refine ⟨scanned.wanted old wanted uncovered ?_ (reachesBelow (scanned.cut.reached z seen) order),order⟩
  by_contra low
  exact uncovered (scanned.calm _ _ x z (scanned.inLog x old uncovered) (scanned.cut.logged z seen) same.symm
    (not_le.mp low) (scanned.cut.above z seen))

/- So was one that the vector covered, as far as the window went. -/
theorem through (scanned : Scanned c m past progress current first window) {x : OplogEntry} (old : past x)
    (wanted : c.job.wanted x = true) (uncovered : ¬ progress.Covers x.stamp) (covers : current.Covers x.stamp)
    (reached : (windowEnd window).Reaches x.stamp) : x ∈ undelivered c progress window := by
  have trails : progress.get x.stamp.node < current.get x.stamp.node := (not_le.mp uncovered).trans_le covers
  have low := VersionVector.behindLe scanned.behind.2.2 trails
  exact scanned.wanted old wanted uncovered (low.trans (not_le.mp uncovered).le) reached

end Scanned

/- A vector raised by stamps of the log and by coverage stays below the member's own. -/
theorem belowCarried (kept : Kept m past) (behind : Behind m progress current first) (low : Below m m.progress)
    {stamps : List Stamp} (logged : ∀ z ∈ stamps, ∃ x, m.db.oplog.get z = some x) (ended : WindowEnd) :
    Below m (carryForward (observeAll progress stamps) current ended) := by
  intro o
  unfold carryForward
  rw [VersionVector.getMerge]
  refine max_le ?_ ((coverageLe _ _ o).trans (behind.2.1 o))
  have covers : (observeAll progress stamps).Covers ⟨(observeAll progress stamps).get o,o⟩ := le_refl _
  rcases observeAllCovers covers with old | ⟨z, inside, same, le⟩
  · exact (old : _ ≤ progress.get o).trans (behind.1 ▸ low o)
  · obtain ⟨x, held⟩ := logged z inside
    have above := kept.covered x (kept.inside z x held)
    rw [kept.stamped z x held, VersionVector.Covers, show z.node = o from same] at above
    exact le.trans above

theorem Scanned.planned {window : OplogWindow} (scanned : Scanned c m past progress current first window)
    (kept : Kept m past) (delivered : Owed c m past m.progress []) {taken rest : List OplogEntry}
    (split : undelivered c progress window = taken ++ rest) {through : WindowEnd}
    (ended : (∃ z ∈ taken, through = .through z.stamp) ∨ (rest = [] ∧ through = windowEnd window)) :
    Owed c m past (carryForward (observeAll progress (taken.map (·.stamp))) current through) (taken.map (·.stamp)) := by
  intro start begun x old wanted above covers
  have inWindow : ∀ z ∈ taken, z ∈ window.entries := fun z inside => by
    have member : z ∈ undelivered c progress window := split ▸ List.mem_append_left _ inside
    exact (List.mem_filter.mp (List.mem_filter.mp member).1).1
  by_cases before : progress.Covers x.stamp
  · left
    exact (delivered start begun x old wanted above (scanned.behind.1 ▸ before)).resolve_right List.not_mem_nil
  · right
    rcases carryCovers.mp covers with observed | coverage
    · rcases observeAllCovers observed with already | ⟨s, inside, same, le⟩
      · exact absurd already before
      · obtain ⟨z, member, rfl⟩ := List.mem_map.mp inside
        obtain ⟨there, order⟩ := scanned.below old wanted before (inWindow z member) same le
        exact List.mem_map_of_mem (takenBelow scanned.sorted split there member order)
    · obtain ⟨known, reached⟩ := coverageSound (kept.positive x old) coverage
      rcases ended with ⟨z, member, rfl⟩ | ⟨rfl, rfl⟩
      · have seen := reachesBelow (scanned.cut.reached z (inWindow z member)) reached
        have there := scanned.through old wanted before known seen
        exact List.mem_map_of_mem (takenBelow scanned.sorted split there member reached)
      · have there := scanned.through old wanted before known reached
        rw [split, List.append_nil] at there
        exact List.mem_map_of_mem there

/- Nothing in the window is wanted. -/
theorem Scanned.passedOver {window : OplogWindow} (scanned : Scanned c m past progress current first window)
    (kept : Kept m past) (delivered : Owed c m past m.progress []) (nothing : undelivered c progress window = []) :
    Owed c m past (carryForward (observeAll progress (window.entries.map (·.stamp))) current (windowEnd window)) [] := by
  intro start begun x old wanted above covers
  by_cases before : progress.Covers x.stamp
  · exact delivered start begun x old wanted above (scanned.behind.1 ▸ before)
  · have none' : x ∉ undelivered c progress window := by
      rw [nothing]
      exact List.not_mem_nil
    rcases carryCovers.mp covers with observed | coverage
    · rcases observeAllCovers observed with already | ⟨s, inside, same, le⟩
      · exact absurd already before
      · obtain ⟨z, member, rfl⟩ := List.mem_map.mp inside
        exact absurd (scanned.below old wanted before member same le).1 none'
    · obtain ⟨known, reached⟩ := coverageSound (kept.positive x old) coverage
      exact absurd (scanned.through old wanted before known reached) none'

theorem planSound (kept : Kept m past) (behind : Behind m progress current first) (low : Below m m.progress)
    (delivered : Owed c m past m.progress [])
    (inLog : ∀ x, past x → ¬ progress.Covers x.stamp → m.db.oplog.get x.stamp = some x)
    (calm : ∀ low high x y, m.db.oplog.get low = some x → m.db.oplog.get high = some y →
      low.node = high.node → low.hlc < first → first ≤ high.hlc → progress.Covers low) (stale : Bool) :
    PassingSound c { m with passing := plan c m.db progress current first stale } past := by
  unfold plan
  simp only
  generalize window' : m.db.entriesForPeer first (c.limits.batch * 4) none [] none = window
  have cut := cutWindow kept.stamped first (c.limits.batch * 4)
  rw [window'] at cut
  have scanned : Scanned c m past progress current first window := ⟨cut,behind,inLog,calm⟩
  have inWindow : ∀ z ∈ undelivered c progress window, z ∈ window.entries := fun z member =>
    (List.mem_filter.mp (List.mem_filter.mp member).1).1
  by_cases empty : ((undelivered c progress window).take c.limits.batch).isEmpty = true
  · rw [if_pos empty]
    have nothing : undelivered c progress window = [] := by
      rw [List.isEmpty_iff, List.take_eq_nil_iff] at empty
      exact empty.resolve_left c.limits.positive.ne'
    split_ifs
    · refine ⟨belowCarried kept behind low (fun z inside => ?_) _,scanned.passedOver kept delivered nothing⟩
      obtain ⟨x, member, rfl⟩ := List.mem_map.mp inside
      exact ⟨x,cut.logged x member⟩
    · trivial
  · rw [if_neg empty]
    obtain ⟨taken, rest, split, filled, some'⟩ := fillFirst c
      (((undelivered c progress window).take c.limits.batch).take c.limits.batch) c.overhead []
    rw [List.nil_append] at filled
    have stamps : assemble c ((undelivered c progress window).take c.limits.batch) = taken.map (·.stamp) := filled
    rw [List.take_take, min_self] at split some'
    have whole : undelivered c progress window = taken ++ (rest ++ (undelivered c progress window).drop c.limits.batch) := by
      rw [←List.append_assoc, ←split, List.take_append_drop]
    have nonempty : taken ≠ [] := some' rfl (by simpa using empty)
    obtain ⟨last, ended⟩ := Option.isSome_iff_exists.mp (List.getLast?_isSome.mpr nonempty)
    have final : (taken.map (·.stamp)).getLast? = some last.stamp := by
      rw [List.getLast?_map, ended]
      rfl
    rw [stamps]
    simp only [final]
    refine ⟨belowCarried kept behind low (fun z inside => ?_) _,scanned.planned kept delivered whole ?_⟩
    · obtain ⟨x, member, rfl⟩ := List.mem_map.mp inside
      exact ⟨x,cut.logged x (inWindow x (whole ▸ List.mem_append_left _ member))⟩
    · split_ifs with fewer
      · exact Or.inl ⟨last,List.mem_of_getLast? ended,rfl⟩
      · refine Or.inr ⟨?_,rfl⟩
        have length := congrArg List.length whole
        rw [List.length_append] at length
        rw [List.length_map] at fewer
        exact List.eq_nil_of_length_eq_zero (by omega)

end

/-! Steps. -/

section
variable {c : Config} {m n : Member} {past : OplogEntry → Prop}

/- A vector below the member's own does not cover what arrives. -/
theorem Owed.appended {entry : OplogEntry} {v : VersionVector} {but : List Stamp} (owed : Owed c m past v but)
    (kept : Kept m past) (low : Below m v) (arrived : Appended m n entry) : Owed c n (pastAfter past n) v but := by
  intro start begun x later wanted above covers
  rw [arrived.same] at begun ⊢
  rcases (kept.pastAppended arrived).mp later with old | rfl
  · exact owed start begun x old wanted above covers
  · exact absurd (covers.trans (low _)) (not_le.mpr arrived.above)

theorem Below.appended {entry : OplogEntry} {v : VersionVector} (low : Below m v) (kept : Kept m past)
    (arrived : Appended m n entry) : Below n v := fun o => (low o).trans (kept.rises arrived o)

theorem Sound.appended {entry : OplogEntry} (sound : Sound c m past) (arrived : Appended m n entry) :
    Sound c n (pastAfter past n) := by
  have kept := sound.kept
  have rest : n.started = m.started ∧ n.progress = m.progress ∧ n.passing = m.passing := by
    rw [arrived.same]
    exact ⟨rfl,rfl,rfl⟩
  obtain ⟨started, progress, passing⟩ := rest
  -- an entry that is in the log stays there, and the new one is
  have logged : ∀ x, pastAfter past n x → (past x → m.db.oplog.get x.stamp = some x) →
      n.db.oplog.get x.stamp = some x := by
    intro x later held
    rw [arrived.log]
    rcases (kept.pastAppended arrived).mp later with old | rfl
    · split_ifs with same
      · have found := held old
        rw [same, kept.fresh arrived] at found
        cases found
      · exact held old
    · exact if_pos rfl
  refine ⟨kept.appended arrived,fun none' => passing.trans (sound.unstarted (started ▸ none')),?_,?_,?_⟩
  · rw [progress]
    exact sound.below.appended kept arrived
  · rw [progress]
    exact sound.delivered.appended kept sound.below arrived
  · have before := sound.passing
    unfold PassingSound at before ⊢
    rw [passing, progress]
    cases stage : m.passing with
    | idle => trivial
    | reading v =>
        rw [stage] at before
        exact before
    | compared v current first =>
        rw [stage] at before
        obtain ⟨⟨same, low, behind⟩, arrivals⟩ := before
        refine ⟨⟨same.trans progress.symm,low.appended kept arrived,behind⟩,fun x later uncovered unknown => ?_⟩
        by_cases old : past x
        · rcases arrivals x old uncovered unknown with held | above
          · exact Or.inl (logged x later fun _ => held)
          · exact Or.inr above
        · exact Or.inl (logged x later fun old' => absurd old' old)
    | checked v current first =>
        rw [stage] at before
        obtain ⟨⟨same, low, behind⟩, inLog⟩ := before
        exact ⟨⟨same.trans progress.symm,low.appended kept arrived,behind⟩,fun x later uncovered =>
          logged x later fun old => inLog x old uncovered⟩
    | planned v current through stamps =>
        rw [stage] at before
        exact ⟨before.1.appended kept arrived,before.2.appended kept before.1 arrived⟩
    | recording v =>
        rw [stage] at before
        exact ⟨before.1.appended kept arrived,before.2.appended kept before.1 arrived⟩

theorem Sound.removed (sound : Sound c m past) {keys : List Stamp}
    (calm : ∀ key ∈ keys, (m.db.oplog.get key).isSome = true → match m.passing with
      | .compared progress _ first => progress.Covers key ∨ first < key.hlc
      | .checked progress _ _ => progress.Covers key
      | _ => True) :
    Sound c (m.removeOplogEntries keys) (pastAfter past (m.removeOplogEntries keys)) := by
  have kept := sound.kept
  have low {v : VersionVector} (below : Below m v) : Below (m.removeOplogEntries keys) v := fun o => by
    rw [removedVersions]
    exact below o
  refine ⟨kept.removed keys,sound.unstarted,low sound.below,?_,?_⟩
  · rw [kept.pastRemoved]
    exact sound.delivered
  · rw [kept.pastRemoved]
    have before := sound.passing
    unfold PassingSound at before ⊢
    have passing : (m.removeOplogEntries keys).passing = m.passing := rfl
    rw [passing]
    cases stage : m.passing with
    | idle => trivial
    | reading v =>
        rw [stage] at before
        exact before
    | compared v current first =>
        rw [stage] at before
        simp only [stage] at calm
        obtain ⟨⟨same, below, behind⟩, arrivals⟩ := before
        refine ⟨⟨same,low below,behind⟩,fun x old uncovered unknown => ?_⟩
        rcases arrivals x old uncovered unknown with held | above
        · rw [removedLog]
          split_ifs with named
          · exact Or.inr ((calm _ named (Option.isSome_iff_exists.mpr ⟨x,held⟩)).resolve_left uncovered)
          · exact Or.inl held
        · exact Or.inr above
    | checked v current first =>
        rw [stage] at before
        simp only [stage] at calm
        obtain ⟨⟨same, below, behind⟩, inLog⟩ := before
        refine ⟨⟨same,low below,behind⟩,fun x old uncovered => ?_⟩
        have held := inLog x old uncovered
        rw [removedLog, if_neg fun named => uncovered (calm _ named (Option.isSome_iff_exists.mpr ⟨x,held⟩))]
        exact held
    | planned v current through stamps =>
        rw [stage] at before
        exact ⟨low before.1,before.2⟩
    | recording v =>
        rw [stage] at before
        exact ⟨low before.1,before.2⟩

/- The pass goes on; the log and what is recorded stay. -/
theorem Sound.passed (sound : Sound c m past) {passing : Passing} (begun : m.started ≠ none ∨ passing = .idle)
    (next : PassingSound c { m with passing := passing } past) :
    Sound c { m with passing := passing } (pastAfter past { m with passing := passing }) := by
  have same := sound.kept.pastSame (n := { m with passing := passing }) rfl
  refine ⟨sound.kept.same rfl rfl,fun none' => ?_,sound.below,?_,?_⟩
  · exact begun.resolve_left fun some' => some' none'
  · rw [same]
    exact sound.delivered
  · rw [same]
    exact next

theorem Sound.rests (sound : Sound c m past) : Sound c m.resting (pastAfter past m.resting) :=
  sound.passed (Or.inr rfl) trivial

theorem Sound.stays (sound : Sound c m past) : Sound c m (pastAfter past m) := by
  rw [sound.kept.pastSame rfl]
  exact sound

/- A change that no invariant is about. -/
theorem Sound.collects (sound : Sound c m past) (collecting : List Collecting) :
    Sound c { m with collecting := collecting } (pastAfter past { m with collecting := collecting }) := by
  have same := sound.kept.pastSame (n := { m with collecting := collecting }) rfl
  refine ⟨sound.kept.same rfl rfl,sound.unstarted,sound.below,?_,?_⟩
  · rw [same]
    exact sound.delivered
  · rw [same]
    exact sound.passing

theorem Sound.registered (sound : Sound c m past) (unstarted : m.started = none) :
    Sound c { m with started := some m.db.versions, progress := m.db.versions }
      (pastAfter past { m with started := some m.db.versions, progress := m.db.versions }) := by
  have same := sound.kept.pastSame (n := { m with started := some m.db.versions, progress := m.db.versions }) rfl
  refine ⟨sound.kept.same rfl rfl,nofun,fun o => le_refl _,?_,?_⟩
  · intro start begun x _ _ above covers
    cases begun
    exact absurd covers above
  · unfold PassingSound
    rw [show ({ m with started := some m.db.versions, progress := m.db.versions } : Member).passing = .idle from
      sound.unstarted unstarted]
    trivial

theorem Sound.started (sound : Sound c m past) (busy : m.passing ≠ .idle) : m.started ≠ none :=
  fun none' => busy (sound.unstarted none')

/- No retention pass has taken anything the subscription needs, where the check finds nothing. -/
theorem Sound.checked (sound : Sound c m past) {progress current : VersionVector} {first : Hlc}
    (stage : m.passing = .compared progress current first) (served : m.behindHorizon first = false) :
    PassingSound c { m with passing := .checked progress current first } past := by
  have before := sound.passing
  unfold PassingSound at before
  rw [stage] at before
  obtain ⟨behind, arrivals⟩ := before
  refine ⟨behind,fun x old uncovered => ?_⟩
  rcases sound.kept.still x old with held | ⟨_, mark⟩
  · exact held
  · have reached : x.stamp.hlc ≤ m.collectedThrough := mark.trans (sound.kept.horizon _)
    have low : m.collectedThrough ≤ first := by
      by_contra high
      have positive : Hlc.zero < m.collectedThrough := (sound.kept.positive x old).trans_le reached
      simp [Member.behindHorizon, positive, not_le.mp high] at served
    by_cases known : current.Covers x.stamp
    · have trails : progress.get x.stamp.node < current.get x.stamp.node := (not_le.mp uncovered).trans_le known
      have least := VersionVector.behindLe behind.2.2 trails
      exact absurd ((reached.trans low).trans least) uncovered
    · rcases arrivals x old uncovered known with held | above
      · exact held
      · exact absurd (reached.trans low) (not_le.mpr above)

theorem Sound.invalidated (sound : Sound c m past) (written : Option OplogEntry) :
    Sound c (m.invalidate written) (pastAfter past (m.invalidate written)) := by
  unfold Member.invalidate
  cases done : written.bind m.append with
  | none => exact sound.rests
  | some n =>
      obtain ⟨entry, _, wrote⟩ := Option.bind_eq_some_iff.mp done
      obtain ⟨kept, _, below, delivered, _⟩ := sound.appended (Webhook.appended wrote)
      exact ⟨⟨kept.stamped,kept.inside,kept.positive,kept.covered,kept.still,kept.horizon,kept.marked⟩,fun _ => rfl,below,
        delivered,trivial⟩

theorem Sound.taken (sound : Sound c m past) {progress current : VersionVector} {through : WindowEnd}
    {stamps : List Stamp} (stage : m.passing = .planned progress current through stamps) :
    Sound c { m with
        accepted := m.accepted ++ stamps
        passing := .recording (carryForward (observeAll progress stamps) current through) }
      (pastAfter past { m with
        accepted := m.accepted ++ stamps
        passing := .recording (carryForward (observeAll progress stamps) current through) }) := by
  have before := sound.passing
  unfold PassingSound at before
  rw [stage] at before
  obtain ⟨low, owed⟩ := before
  rw [sound.kept.pastSame (n := { m with
    accepted := m.accepted ++ stamps
    passing := .recording (carryForward (observeAll progress stamps) current through) }) rfl]
  have kept := sound.kept
  refine ⟨⟨kept.stamped,kept.inside,kept.positive,kept.covered,kept.still,kept.horizon,kept.marked⟩,fun none' => ?_,
    sound.below,fun start begun x old wanted above covers => ?_,low,fun start begun x old wanted above covers => ?_⟩
  · refine absurd none' (sound.started ?_)
    rw [stage]
    exact Passing.noConfusion
  · exact Or.inl (List.mem_append_left _
      ((sound.delivered start begun x old wanted above covers).resolve_right List.not_mem_nil))
  · exact Or.inl (List.mem_append.mpr (owed start begun x old wanted above covers))

theorem Sound.recorded (sound : Sound c m past) {progress : VersionVector} (stage : m.passing = .recording progress)
    {entry : OplogEntry} (arrived : Appended m n entry) :
    Sound c { n with progress := progress }.resting (pastAfter past { n with progress := progress }.resting) := by
  obtain ⟨kept, _, _, _, next⟩ := sound.appended arrived
  unfold PassingSound at next
  rw [show n.passing = .recording progress by rw [arrived.same]; exact stage] at next
  exact ⟨⟨kept.stamped,kept.inside,kept.positive,kept.covered,kept.still,kept.horizon,kept.marked⟩,fun _ => rfl,next.1,
    next.2,trivial⟩

theorem Sound.step (sound : Sound c m past) {step : Step} (calm : Calm m step) :
    Sound c (m.step c step) (pastAfter past (m.step c step)) := by
  unfold Member.step
  cases step with
  | append entry =>
      simp only
      cases done : m.append entry with
      | none => exact sound.stays
      | some n => exact sound.appended (Webhook.appended done)
  | collect cutoff =>
      simp only
      split
      · exact sound.collects _
      · exact sound.stays
  | scan i chunk =>
      simp only
      split
      · exact sound.collects _
      · exact sound.stays
  | remove i =>
      simp only
      split
      next pass found => exact sound.removed (calm pass found)
      · exact sound.stays
  | register =>
      simp only
      split_ifs with begun
      · exact sound.stays
      · exact sound.registered (Option.not_isSome_iff_eq_none.mp begun)
  | readProgress =>
      simp only
      split
      next stage =>
        split_ifs with ready
        · refine sound.passed (Or.inl ?_) rfl
          exact Option.isSome_iff_ne_none.mp (Bool.and_eq_true_iff.mp ready).1
        · exact sound.stays
      · exact sound.stays
  | readVector ready =>
      simp only
      split
      next progress stage =>
        have before := sound.passing
        unfold PassingSound at before
        rw [stage] at before
        split
        next first behind =>
          split_ifs
          · refine sound.passed (Or.inl (sound.started ?_)) ⟨⟨before,fun o => le_refl _,behind⟩,fun x old _ unknown => ?_⟩
            · rw [stage]
              exact Passing.noConfusion
            · exact absurd (sound.kept.covered x old) unknown
          · exact sound.rests
        · exact sound.rests
      · exact sound.stays
  | check written =>
      simp only
      split
      next progress current first stage =>
        split_ifs with gone
        · exact sound.invalidated written
        · refine sound.passed (Or.inl (sound.started ?_)) (sound.checked stage (by simpa using gone))
          rw [stage]
          exact Passing.noConfusion
      · exact sound.stays
  | plan stale =>
      simp only
      split
      next progress current first stage =>
        have before := sound.passing
        unfold PassingSound at before
        rw [stage] at before
        simp only [Calm, stage] at calm
        refine sound.passed (Or.inl (sound.started ?_))
          (planSound sound.kept before.1 sound.below sound.delivered before.2 calm stale)
        rw [stage]
        exact Passing.noConfusion
      · exact sound.stays
  | deliver taken =>
      simp only
      split
      next progress current through stamps stage =>
        split_ifs
        · exact sound.taken stage
        · exact sound.rests
      · exact sound.stays
  | record written =>
      simp only
      split
      next progress stage =>
        cases done : written.bind m.append with
        | none => exact sound.rests
        | some n =>
            obtain ⟨entry, _, wrote⟩ := Option.bind_eq_some_iff.mp done
            exact sound.recorded stage (Webhook.appended wrote)
      · exact sound.stays
  | restart => exact sound.rests

end

/-! Runs. -/

namespace Member

theorem runAppend (c : Config) (m : Member) (steps more : List Step) :
    run c m (steps ++ more) = run c (run c m steps) more := List.foldl_append

theorem everHeldSnoc {c : Config} {m : Member} {steps : List Step} {step : Step} :
    EverHeld c m (steps ++ [step]) = pastAfter (EverHeld c m steps) (run c m (steps ++ [step])) := by
  funext x
  refine propext ⟨?_,?_⟩
  · rintro ⟨k, found⟩
    by_cases inside : k ≤ steps.length
    · rw [List.take_append_of_le_length inside] at found
      exact Or.inl ⟨k,found⟩
    · rw [List.take_of_length_le (by simp; omega)] at found
      exact Or.inr found
  · rintro (⟨k, found⟩ | found)
    · refine ⟨min k steps.length,?_⟩
      rw [List.take_append_of_le_length (min_le_right _ _), ←List.take_eq_take_min]
      exact found
    · exact ⟨(steps ++ [step]).length,by rwa [List.take_length]⟩

end Member

theorem calmAppend (c : Config) (m : Member) (steps more : List Step) :
    CalmRun c m (steps ++ more) ↔ CalmRun c m steps ∧ CalmRun c (m.run c steps) more := by
  induction steps generalizing m with
  | nil => simp [CalmRun, Member.run]
  | cons step rest ih =>
      simp only [List.cons_append, CalmRun, ih, and_assoc]
      rfl

theorem openedSound (c : Config) : Sound c .opened (Member.EverHeld c .opened []) := by
  have nothing : ∀ x, ¬ Member.EverHeld c .opened [] x := by
    rintro x ⟨k, found⟩
    rw [List.take_nil] at found
    cases found
  refine ⟨⟨fun s x held => ?_,fun s x held => ?_,fun x held => absurd held (nothing x),fun x held => absurd held (nothing x),
    fun x held => absurd held (nothing x),fun o => le_refl _,fun o some' => absurd some' (lt_irrefl _)⟩,fun _ => rfl,
    fun o => le_refl _,fun start held => ?_,trivial⟩
  all_goals cases held

theorem runSound (c : Config) {steps : List Step} (calm : CalmRun c .opened steps) :
    Sound c (.run c .opened steps) (Member.EverHeld c .opened steps) := by
  induction steps using List.reverseRecOn with
  | nil => exact openedSound c
  | append_singleton steps step ih =>
      obtain ⟨before, now⟩ := (calmAppend c .opened steps [step]).mp calm
      rw [Member.everHeldSnoc, Member.runAppend]
      exact (ih before).step now.1

/- In every state of every run in which no entry that a pass needs is collected or passed over
between its reads: recorded progress covers a wanted entry only if its event was accepted, and
a pass that comes to its check with something it needs collected stops the subscription. -/
theorem noSkip (c : Config) (steps : List Step) (calm : CalmRun c .opened steps) :
    let m := Member.run c .opened steps
    (∀ start, m.started = some start → ∀ x, Member.EverHeld c .opened steps x → c.job.wanted x = true →
      ¬ start.Covers x.stamp → m.progress.Covers x.stamp → x.stamp ∈ m.accepted) ∧
    ∀ progress current first, m.passing = .compared progress current first → ∀ x, Member.Lost c .opened steps x →
      current.Covers x.stamp → ¬ progress.Covers x.stamp → ∀ written, m.step c (.check written) = m.invalidate written := by
  intro m
  have sound : Sound c m (Member.EverHeld c .opened steps) := runSound c calm
  refine ⟨fun start begun x held wanted above covers => ?_,fun progress current first stage x lost known uncovered written => ?_⟩
  · exact (sound.delivered start begun x held wanted above covers).resolve_right List.not_mem_nil
  · have before := sound.passing
    unfold PassingSound at before
    rw [stage] at before
    have trails : progress.get x.stamp.node < current.get x.stamp.node := (not_le.mp uncovered).trans_le known
    have least := VersionVector.behindLe before.1.2.2 trails
    have mark : x.stamp.hlc ≤ m.collectedThrough := by
      rcases sound.kept.still x lost.held with held | ⟨_, mark⟩
      · cases lost.gone.symm.trans held
      · exact mark.trans (sound.kept.horizon _)
    have high : first < m.collectedThrough := (least.trans_lt (not_le.mp uncovered)).trans_le mark
    have gone : m.behindHorizon first = true := by
      have positive : Hlc.zero < m.collectedThrough := (VersionVector.zeroLe _).trans_lt high
      simp [Member.behindHorizon, positive, high]
    unfold Member.step
    simp only [stage, gone, if_true]

/-! Two passes that skip an event, and one that does not. -/

def plainConfig : Config := ⟨⟨0,[]⟩,⟨64,by decide,1048576⟩,fun _ => 100,40⟩

def insertOf (node : NodeId) (ms : Fin (2 ^ 64)) (coll : CollectionId) (key : DocKey) : OplogEntry :=
  ⟨⟨⟨ms,0⟩,node⟩,.insert,coll,some key,some []⟩

/- A late member's two entries arrive after the vector was read, one on either side of where the
scan begins. -/
def arrivedBetween : List Step :=
  [.append (insertOf 0 100 9 [1]),.register,.append (insertOf 0 200 9 [2]),.readProgress,.readVector true,
    .append (insertOf 1 50 0 [3]),.append (insertOf 1 150 0 [4]),.check none,.plan false,.deliver true,
    .record (some (insertOf 0 300 9 [5]))]

/- A wanted entry is collected after the retention check. -/
def collectedBetween : List Step :=
  [.append (insertOf 0 100 9 [1]),.register,.append (insertOf 0 200 0 [2]),.append (insertOf 0 300 0 [3]),.readProgress,
    .readVector true,.check none,.collect ⟨250,0⟩,.scan 0 1024,.remove 0,.plan false,.deliver true,
    .record (some (insertOf 0 400 9 [5]))]

/- A run whose recorded progress covers a wanted entry that was not accepted. -/
def Skips (c : Config) (steps : List Step) (x : OplogEntry) : Prop :=
  ∃ start, (Member.run c .opened steps).started = some start ∧ Member.EverHeld c .opened steps x ∧
    c.job.wanted x = true ∧ ¬ start.Covers x.stamp ∧ (Member.run c .opened steps).progress.Covers x.stamp ∧
    x.stamp ∉ (Member.run c .opened steps).accepted

theorem skipped : Skips plainConfig arrivedBetween (insertOf 1 50 0 [3]) ∧
    Skips plainConfig collectedBetween (insertOf 0 200 0 [2]) := by
  constructor
  · refine ⟨⟨SortedMap.empty.insert 0 ⟨100,0⟩⟩,by decide +kernel,⟨7,by decide +kernel⟩,rfl,by decide +kernel,
      by decide +kernel,by decide +kernel⟩
  · refine ⟨⟨SortedMap.empty.insert 0 ⟨100,0⟩⟩,by decide +kernel,⟨3,by decide +kernel⟩,rfl,by decide +kernel,
      by decide +kernel,by decide +kernel⟩

/- One event is delivered; the next is collected before the next pass, which finds it gone. -/
def deliveredThenLost : List Step :=
  [.append (insertOf 0 100 9 [1]),.register,.append (insertOf 0 200 0 [2]),.readProgress,.readVector true,.check none,
    .plan false,.deliver true,.record (some (insertOf 0 300 9 [3])),.append (insertOf 0 400 0 [4]),
    .append (insertOf 0 500 9 [5]),.collect ⟨450,0⟩,.scan 0 1024,.remove 0,.readProgress,.readVector true]

theorem noSkipHere : (insertOf 0 200 0 [2]).stamp ∈ (Member.run plainConfig .opened deliveredThenLost).accepted ∧
    ((Member.run plainConfig .opened deliveredThenLost).step plainConfig
      (.check (some (insertOf 0 600 9 [6])))).invalidated = true := by
  have calm : CalmRun plainConfig .opened deliveredThenLost := by
    refine ⟨trivial,trivial,trivial,trivial,trivial,trivial,?_,trivial,trivial,trivial,trivial,trivial,trivial,?_,trivial,
      trivial,trivial⟩
    · intro low high x y held _ _ below _
      have all : ∀ r ∈ (Member.run plainConfig .opened (deliveredThenLost.take 6)).db.oplog.entries,
          r.1.hlc < ⟨100,0⟩ → VersionVector.Covers ⟨SortedMap.empty.insert 0 ⟨100,0⟩⟩ r.1 := by decide +kernel
      exact all (low,x) (SortedMap.memEntries.mpr held) below
    · exact fun _ _ _ _ _ => trivial
  obtain ⟨delivered, stops⟩ := noSkip plainConfig deliveredThenLost calm
  constructor
  · exact delivered ⟨SortedMap.empty.insert 0 ⟨100,0⟩⟩ (by decide +kernel) (insertOf 0 200 0 [2]) ⟨3,by decide +kernel⟩ rfl
      (by decide +kernel) (by decide +kernel)
  · have invalidates := stops (Member.run plainConfig .opened deliveredThenLost).progress
      (Member.run plainConfig .opened deliveredThenLost).db.versions ⟨200,0⟩ rfl (insertOf 0 400 0 [4])
      ⟨⟨10,by decide +kernel⟩,by decide +kernel⟩ (by decide +kernel) (by decide +kernel) (some (insertOf 0 600 9 [6]))
    rw [invalidates]
    decide +kernel

end Kimmy.Webhook
